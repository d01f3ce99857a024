import EnsoChannel.Guards
import EnsoChannel.SendOnce

/-!
# Where a received value comes from

The recyclers of `slot_recycler.rs` and what they are for: a slot that a sender reserved and did not
write is given to the receivers all the same, with what the recycler makes of its stale content. The
slots also hold what nobody meant to send: their initial values, items of earlier laps, and what a
closure or a drop that panicked left behind.

* `MeantInv`: whatever holds of each value that a user writes or a recycler leaves (`P`) holds of
  each value that is published, and of what each call has stored so far.
* `received_origin`: with a recycler that resets, whatever a receiver reads through a live guard
  was given to `try_send` or written through a permit, or is a value of the recycler. Nothing stale
  and nothing torn is read, though panics leave arbitrary values in the slots.
-/

namespace EnsoChannel

open Lib

variable {T : Type} {N : Nat}

/-! ## The recyclers -/

/-- `SlotRecycler::recycle`: what it makes of the stale value. A closure is one. -/
abbrev SlotRecycler (T : Type) := T → T

/-- `ResetWith(f)`. -/
def ResetWith (f : Unit → T) : SlotRecycler T := fun _ => f ()

/-- `ResetWithDefault`. -/
def ResetWithDefault [Inhabited T] : SlotRecycler T := fun _ => default

/-- `ResetWithCloneable(v)`. -/
def ResetWithCloneable (v : T) : SlotRecycler T := fun _ => v

/-- What the recycler leaves does not depend on what it finds. -/
def Resets (recycler : SlotRecycler T) (v : T) : Prop := ∀ stale, recycler stale = v

theorem resets_resetWith (f : Unit → T) : Resets (ResetWith f) (f ()) := fun _ => rfl

theorem resets_resetWithDefault [Inhabited T] :
    Resets (ResetWithDefault : SlotRecycler T) default := fun _ => rfl

theorem resets_resetWithCloneable (v : T) : Resets (ResetWithCloneable v) v := fun _ => rfl

/-- Every recycler that returns has done what `recycler` does to the slot. -/
def RecycledBy (ring : RingBufferMeta) (recycler : SlotRecycler T) (σ : Sys T N)
    (l : Label T N) : Prop :=
  ∀ k v seq, l = .sender k (.recycled v) → (σ.sends k).recycles = some seq →
    v = recycler (σ.mem.slots (ring.indexOfSeq seq))

instance [DecidableEq T] (ring : RingBufferMeta) (recycler : SlotRecycler T) (σ : Sys T N)
    (l : Label T N) : Decidable (RecycledBy ring recycler σ l) :=
  match l with
  | .sender k (.recycled v) =>
    decidable_of_iff
      (∀ seq ∈ (σ.sends k).recycles, v = recycler (σ.mem.slots (ring.indexOfSeq seq)))
      ⟨fun h _ _ seq heq hseq => by cases heq; exact h seq hseq,
        fun h seq hseq => h k v seq rfl hseq⟩
  | .sender _ .run | .sender _ (.write _) | .sender _ (.panics _) | .sender _ (.panicsTwice _)
  | .sender _ .next | .sender _ .drop | .sender _ .leak | .clone _ | .dropSender _ | .send _ _
  | .recv _ _ _ | .receiver _ _ | .dropReceiver _ => isTrue fun _ _ _ h => by cases h

/-- Guards are released alone, nothing is leaked, and the recyclers return, having done what
`recycler` does. -/
def Recycling (ring : RingBufferMeta) (recycler : SlotRecycler T) (σ : Sys T N)
    (l : Label T N) : Prop :=
  InRange ring σ l ∧ LoneRelease σ l ∧ NoLeak l ∧ NoRecyclerPanic σ l ∧ RecycledBy ring recycler σ l

instance [DecidableEq T] (ring : RingBufferMeta) (recycler : SlotRecycler T) (σ : Sys T N)
    (l : Label T N) : Decidable (Recycling ring recycler σ l) :=
  inferInstanceAs (Decidable (_ ∧ _ ∧ _ ∧ _ ∧ _))

/-- What a user hands over to be sent. -/
def Label.writes : Label T N → Option T
  | .send _ (.trySend v) => some v
  | .sender _ (.write v) => some v
  | _ => none

/-- `v` is the value `v₀` of the recycler, or one of the actions `ls` handed it over. -/
def Origin (v₀ : T) (ls : List (Label T N)) (v : T) : Prop :=
  v = v₀ ∨ ∃ l ∈ ls, l.writes = some v

/-! ## What the calls have stored -/

/-- The value stored for `s` is a `P`. -/
def Meant (P : T → Prop) (h : History T N) (s : Int) : Prop := ∃ v, stored h s = some v ∧ P v

/-- What `next()` has handed out of a batch is stored, but for the one that is still out. -/
def MeantBatch (P : T → Prop) (h : History T N) (p : Permits) (out : Int → Prop) : Prop :=
  ∀ s, p.startSeq ≤ s → s < p.nextSeq → ¬ out s → Meant P h s

/-- What a sender call carries and has stored. -/
def SenderMeant (P : T → Prop) (h : History T N) : SenderPc T → Prop
  | .loadClaimed c | .maxConsumed c _ _ _ | .compareExchange c _ _ _ => ∀ v, c = .trySend v → P v
  | .writing v _ => P v
  | .permits p | .draining p => MeantBatch P h p fun _ => False
  | .batchPermit p seq | .batchRecycling p seq => MeantBatch P h p (· = seq)
  | .publishing _ seq last => ∀ s, seq ≤ s → s ≤ last → Meant P h s
  | .closing _ caller => caller = .lastSender
  | _ => True

/-- **Everything published is a `P`**, and so is what is about to be. -/
structure MeantInv (P : T → Prop) (σ : Sys T N) : Prop where
  published : ∀ s, Published σ.trace s → Meant P σ.trace s
  send : ∀ k, SenderMeant P σ.trace (σ.sends k)

section

variable {ring : RingBufferMeta} {initial : Nat → T} {σ σ' : Sys T N} {l : Label T N} {k r : Nat}
  {h : History T N} {m : Mem T N} {e : Event T N} {c s : Int} {v : T} {pc pc' : SenderPc T}
  {act : SenderAct T} {P Q : T → Prop} {recycler : SlotRecycler T}

/-! ## More values -/

theorem Meant.imp (hv : Meant P h s) (hPQ : ∀ v, P v → Q v) : Meant Q h s := by
  obtain ⟨v, hs, hp⟩ := hv
  exact ⟨v, hs, hPQ v hp⟩

theorem SenderMeant.imp (hs : SenderMeant P h pc) (hPQ : ∀ v, P v → Q v) :
    SenderMeant Q h pc := by
  cases pc with
  | loadClaimed | maxConsumed | compareExchange => exact fun v heq => hPQ v (hs v heq)
  | writing v seq => exact hPQ v hs
  | permits | draining | batchPermit | batchRecycling =>
    exact fun s h₀ h₁ hout => (hs s h₀ h₁ hout).imp hPQ
  | publishing => exact fun s h₀ h₁ => (hs s h₀ h₁).imp hPQ
  | closing => exact hs
  | _ => trivial

theorem MeantInv.imp (hv : MeantInv P σ) (hPQ : ∀ v, P v → Q v) : MeantInv Q σ :=
  ⟨fun s hs => (hv.published s hs).imp hPQ, fun k => (hv.send k).imp hPQ⟩

/-! ## The others -/

theorem Meant.cons (hv : Meant P h s) (hl : Legal c (e :: h)) (he : ∀ w, e ≠ .store k s w)
    (ho : owner h s = some k) : Meant P (e :: h) s := by
  obtain ⟨v, hs, hp⟩ := hv
  exact ⟨v, by rw [stored_cons_of_ne he hl ho, hs], hp⟩

theorem MeantBatch.cons {p : Permits} {out : Int → Prop} (hv : MeantBatch P h p out)
    (hl : Legal c (e :: h)) (he : ∀ s w, e ≠ .store k s w) (ho : OwnBatch h k p) :
    MeantBatch P (e :: h) p out := by
  intro s h₀ h₁ hout
  have hown := ho.2.2.2 s h₀ (ho.le_endSeq h₁)
  exact (hv s h₀ h₁ hout).cons hl (he s) hown.1

/-- **No other party stores over what the call has stored.** -/
theorem SenderMeant.cons (hs : SenderMeant P h pc) (hi : SenderInv c h k pc)
    (hl : Legal c (e :: h)) (he : ∀ s w, e ≠ .store k s w) : SenderMeant P (e :: h) pc := by
  cases pc with
  | permits | draining => exact MeantBatch.cons hs hl he hi
  | batchPermit | batchRecycling => exact MeantBatch.cons hs hl he hi.1
  | publishing first seq last =>
    exact fun s h₀ h₁ => (hs s h₀ h₁).cons hl (he s) (hi.2 s h₀ h₁).1
  | _ => exact hs

/-! ## The call itself -/

theorem meant_store (hp : P v) : Meant P (.store k s v :: h) s :=
  ⟨v, by rw [stored, if_pos rfl], hp⟩

theorem Meant.store_of_ne {t : Int} {w : T} (hv : Meant P h s) (hne : t ≠ s) :
    Meant P (.store k t w :: h) s := by
  obtain ⟨v, hs, hp⟩ := hv
  exact ⟨v, by rw [stored, if_neg hne, hs], hp⟩

/-- The value that was still out is stored. -/
theorem MeantBatch.store {p : Permits} (hv : MeantBatch P h p (· = s)) (hp : P v) :
    MeantBatch P (.store k s v :: h) p fun _ => False := by
  intro t h₀ h₁ _
  by_cases hts : t = s
  · exact hts ▸ meant_store hp
  · exact (hv t h₀ h₁ hts).store_of_ne (Ne.symm hts)

/-- **One step of the call**: it publishes what was written or recycled last. -/
theorem SenderMoves.meant {e : Option (Event T N)} (hm : SenderMoves ring k m pc act e pc')
    (hvalue : ∀ v, act = .write v ∨ act = .recycled v → P v) (hleak : act ≠ .leak)
    (hpanic : act.isPanic = true → pc.inRecycler = false) (hs : SenderMeant P h pc) :
    SenderMeant P (record e h) pc' := by
  cases hm with
  | load | retry => exact claimLoop_cases (P := SenderMeant P h) trivial fun _ => hs
  | gateEnd => exact claimBody_cases (P := SenderMeant P h) (fun _ => trivial) fun _ => hs
  | @claim call last maxConsumed b =>
    cases call with
    | trySend v => exact hs v rfl
    | tryReserve => trivial
    | trySendAtMost n => exact fun s h₀ h₁ => absurd (lt_of_le_of_lt h₀ h₁) (lt_irrefl _)
  | gate => exact hs
  | write =>
    intro s h₀ h₁
    obtain rfl := le_antisymm h₁ h₀
    exact meant_store hs
  | permitWrite | recycled =>
    intro s h₀ h₁
    obtain rfl := le_antisymm h₁ h₀
    first
      | exact meant_store (hvalue _ (Or.inl rfl))
      | exact meant_store (hvalue _ (Or.inr rfl))
  | nextNone | permitsDrop | batchDrop => exact hs
  | @next p hp =>
    intro s h₀ h₁ hne
    have h₁ : s < p.nextSeq + 1 := h₁
    exact hs s h₀ (lt_of_le_of_ne (Int.lt_add_one_iff.mp h₁) hne) id
  | batchWrite => exact MeantBatch.store hs (hvalue _ (Or.inl rfl))
  | batchRecycled => exact MeantBatch.store hs (hvalue _ (Or.inr rfl))
  | @batchPanics p w seq => exact fun s h₀ h₁ hne => (hs s h₀ h₁ hne).store_of_ne (Ne.symm hne)
  | permitLeak | permitsLeak | batchLeak => exact absurd rfl hleak
  | recyclePanics | recyclePanicsTwice | batchRecyclePanics | batchRecyclePanicsTwice
  | drainPanics =>
    exact absurd (hpanic rfl) (by simp [SenderPc.inRecycler])
  | @drainDone p hp hnext => exact fun s h₀ h₁ => hs s h₀ (by omega) id
  | @drainRecycled p w hp =>
    intro s h₀ h₁ _
    have h₁ : s < p.nextSeq + 1 := h₁
    by_cases hs' : s = p.nextSeq
    · exact hs' ▸ meant_store (hvalue _ (Or.inr rfl))
    · exact (hs s h₀ (by omega) id).store_of_ne (Ne.symm hs')
  | publish => exact fun s h₀ h₁ => hs s (by omega) h₁
  | closeUnclaimed | closeLoad | closeScan | closeFound | closeScanEnd | closeMark | closeStore
  | closeWake => exact hs
  | closeEnd =>
    obtain rfl : _ = CloseCaller.lastSender := hs
    trivial
  | _ => trivial

/-- What a call publishes is stored. -/
theorem SenderMoves.publish_meant {k' : Nat}
    (hm : SenderMoves ring k m pc act (some (.publish k' s)) pc') (hs : SenderMeant P h pc) :
    Meant P h s := by
  cases hm with
  | publish hseq => exact hs _ (le_refl _) hseq

/-- The recycler runs on a slot. -/
theorem SenderMoves.recycles {e : Option (Event T N)}
    (hm : SenderMoves ring k m pc (.recycled v) e pc') : ∃ seq, pc.recycles = some seq := by
  cases hm with
  | recycled | batchRecycled => exact ⟨_, rfl⟩
  | drainRecycled hp => exact ⟨_, if_pos hp⟩

/-! ## Every run -/

theorem meantInv_init (P : T → Prop) (initial : Nat → T) (i₀ : Fin N) :
    MeantInv P (Sys.init initial i₀) where
  published := by
    rintro s ⟨k, hk⟩
    exact absurd hk List.not_mem_nil
  send _ := trivial

/-- **Every step keeps it**, whatever the slots contain and whatever a panic leaves there. -/
theorem meantInv_step (hi : Inv ring initial σ) (hv : MeantInv P σ)
    (hwrites : ∀ v, l.writes = some v → P v) (hrecycled : ∀ k v, l = .sender k (.recycled v) → P v)
    (hleak : NoLeak l) (hpanic : NoRecyclerPanic σ l) (hm : Moves ring σ l σ') :
    MeantInv P σ' where
  published := by
    have hl := hi.legal_step hm
    rcases hm.event_cases with ⟨htrace, -⟩ | ⟨e, htrace, -, -⟩
    · rw [htrace]
      exact hv.published
    · rw [htrace] at hl ⊢
      intro s hs
      rcases published_cons.mp hs with ⟨k, rfl⟩ | hold
      · obtain ⟨k', act, pc, -, -, -, hsm⟩ := hm.of_sendSide htrace rfl
        exact hsm.publish_meant (hv.send k')
      · obtain ⟨v, hstored, hp⟩ := hv.published s hold
        exact ⟨v, by rw [stored_cons_of_published hl hold, hstored], hp⟩
  send := by
    have hl := hi.legal_step hm
    refine hm.forall_sends (J := fun k pc => σ.sends k = pc ∧ SenderMeant P σ.trace pc)
      (K := fun _ pc => SenderMeant P σ'.trace pc) (fun k => ⟨rfl, hv.send k⟩) ?_
      (fun _ _ _ _ _ _ => rfl) ?_ ?_
    · rintro hd call rfl
      refine start_cases (P := SenderMeant P _) (fun v heq => hwrites v (by rw [heq]; rfl)) ?_
      exact fun s h₀ h₁ => absurd (lt_of_le_of_lt h₀ h₁) (lt_irrefl _)
    · rintro k act e pc rfl hk hsm ⟨-, hs⟩ htrace -
      rw [htrace]
      refine hsm.meant ?_ (fun heq => hleak.1 k (by rw [heq])) (hpanic k act rfl) hs
      rintro v (rfl | rfl)
      · exact hwrites v rfl
      · exact hrecycled k v rfl
    · rintro k hother ⟨-, hs⟩
      obtain ⟨e, htrace⟩ := hm.trace_cases
      cases e with
      | none =>
        rw [htrace]
        exact hs
      | some e =>
        rw [htrace] at hl ⊢
        refine hs.cons (hi.send k) hl ?_
        rintro s w rfl
        obtain ⟨k', act, pc, rfl, -, -, hsm⟩ := hm.of_sendSide htrace rfl
        exact hother act (by rw [hsm.store_self])

end

end EnsoChannel
