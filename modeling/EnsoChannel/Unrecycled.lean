import EnsoChannel.Poison

/-!
# A slot that could not be recycled

A permit that is dropped without a write runs the recycler; if that panics too, the drop calls
`terminate()` and leaves its sequences unpublished. But a permit of a batch does not: it calls
`terminate()` when its recycler panics, and the batch goes on, and its own drop commits the whole
range, the slot without a valid value included (`unrecycled_published`).

`unrecycled_unpublished`: unless that happens (`Withholds`), nothing of the reservation is ever
published. The panic meant is one whose payload is dropped without another (`panics`); after the
other kind (`panicsTwice`) the drop of a permit does not call `terminate()`.
-/

namespace EnsoChannel

open Lib

variable {T : Type} {N : Nat}

/-- The sequence of the slot whose recycler the call is about to run. -/
def SenderPc.recycles : SenderPc T → Option Int
  | .recycling seq | .batchRecycling _ seq => some seq
  | .draining p => if p.endSeq ≠ -1 ∧ p.nextSeq ≤ p.endSeq then some p.nextSeq else none
  | _ => none

/-- The drop of a batch is through with the recycler and calls `commit_range`. -/
def SenderPc.commitsBatch : SenderPc T → Bool
  | .draining p => decide (p.endSeq ≠ -1 ∧ p.endSeq < p.nextSeq)
  | _ => false

/-- The call is committing, or has committed. -/
def SenderPc.committing : SenderPc T → Bool
  | .publishing _ _ _ | .notifying _ | .committed => true
  | _ => false

/-- Where a call can stand after a recycler of it has panicked, unless it commits all the same. -/
def SenderPc.unwound : SenderPc T → Bool
  | .permits _ | .batchPermit _ _ | .batchRecycling _ _ | .draining _ | .closing _ _ | .committed
  | .poisoned | .abandoned | .tornDown => true
  | _ => false

/-- No batch calls `commit_range` after a `terminate()` of its own. -/
def Withholds (σ : Sys T N) (l : Label T N) : Prop :=
  ∀ k, l = .sender k .run → (σ.sends k).commitsBatch = true → Event.closeStart k ∉ σ.trace

instance [DecidableEq T] (σ : Sys T N) (l : Label T N) : Decidable (Withholds σ l) :=
  match l with
  | .sender k .run =>
    decidable_of_iff ((σ.sends k).commitsBatch = true → Event.closeStart k ∉ σ.trace)
      ⟨fun h _ heq => by cases heq; exact h, fun h => h k rfl⟩
  | .sender _ (.panics _) | .sender _ (.panicsTwice _) | .sender _ (.write _)
  | .sender _ (.recycled _) | .sender _ .next | .sender _ .drop | .sender _ .leak | .clone _
  | .dropSender _ | .send _ _ | .recv _ _ _ | .receiver _ _ | .dropReceiver _ =>
    isTrue fun _ h => by cases h

/-- The discipline of the runs in which a batch with such a slot is not committed. -/
def WithholdsOk (ring : RingBufferMeta) (σ : Sys T N) (l : Label T N) : Prop :=
  InRange ring σ l ∧ Withholds σ l

instance [DecidableEq T] (ring : RingBufferMeta) (σ : Sys T N) (l : Label T N) :
    Decidable (WithholdsOk ring σ l) :=
  inferInstanceAs (Decidable (_ ∧ _))

/-- A call that is not committing has published nothing. -/
def Unpublishing (σ : Sys T N) : Prop :=
  ∀ k, (σ.sends k).committing = false → ∀ t, Event.publish k t ∉ σ.trace

/-- A recycler of call `k` has panicked, and nothing of the call is published. -/
structure Tainted (k : Nat) (σ : Sys T N) : Prop where
  unpublished : ∀ t, Event.publish k t ∉ σ.trace
  unwound : (σ.sends k).unwound = true
  closes : Event.closeStart k ∈ σ.trace ∨ ∃ caller, σ.sends k = .closing .load caller

section

variable {ring : RingBufferMeta} {initial : Nat → T} {σ σ' : Sys T N} {l : Label T N} {k : Nat}
  {h : History T N} {m : Mem T N} {i : Fin N} {c s : Int} {pc pc' : SenderPc T}
  {act : SenderAct T} {e : Option (Event T N)}

/-- A call that has not committed after a step had not before, and the step publishes nothing. -/
theorem SenderMoves.committing (hm : SenderMoves ring k m pc act e pc')
    (hpc : pc'.committing = false) :
    pc.committing = false ∧ ∀ k' t, e ≠ some (.publish k' t) := by
  cases hm <;> first | exact ⟨rfl, by simp⟩ | exact absurd hpc (by simp [SenderPc.committing])

/-- What a silent step, or one that publishes nothing, leaves of the publications. -/
theorem publish_record {k' : Nat} {t : Int} (he : e ≠ some (.publish k' t))
    (hp : Event.publish k' t ∈ record e h) : Event.publish k' t ∈ h := by
  cases e with
  | none => exact hp
  | some e =>
    refine (List.mem_cons.mp hp).resolve_left ?_
    rintro rfl
    exact he rfl

/-- What a step of another party publishes is not of call `k`. -/
theorem Moves.publish_of_other (hm : Moves ring σ l σ') (hl : ∀ act, l ≠ .sender k act) {t : Int}
    (hp : Event.publish k t ∈ σ'.trace) : Event.publish k t ∈ σ.trace := by
  obtain ⟨e, htrace⟩ := hm.trace_cases
  rw [htrace] at hp
  refine publish_record ?_ hp
  rintro rfl
  exact hm.publish_other hl htrace t rfl

/-- **A call publishes only when it commits.** -/
theorem unpublishing_step (hu : Unpublishing σ) (hf : Fresh σ) (hm : Moves ring σ l σ') :
    Unpublishing σ' := by
  intro k hpc t hp
  rcases hm.sender_cases k with ⟨act, e, rfl, hsm, htrace, -⟩ | hl
  · obtain ⟨hpc₀, he⟩ := hsm.committing hpc
    rw [htrace] at hp
    exact hu k hpc₀ t (publish_record (he k t) hp)
  · refine hu k ?_ t (hm.publish_of_other hl hp)
    by_cases hk : k < σ.nextSend
    · rwa [hm.sends_other hk hl] at hpc
    · rw [hf.send k (not_lt.mp hk)]
      rfl

/-- A step of a call with such a slot that does not commit the batch keeps it unpublished. -/
theorem SenderMoves.unwound (hm : SenderMoves ring k m pc act e pc') (hpc : pc.unwound = true)
    (hbatch : act = .run → pc.commitsBatch = false) :
    pc'.unwound = true ∧ ∀ k' t, e ≠ some (.publish k' t) := by
  cases hm with
  | drainDone hp hnext =>
    have hcommits := hbatch rfl
    simp only [SenderPc.commitsBatch, decide_eq_false_iff_not] at hcommits
    exact absurd ⟨hp, not_le.mp hnext⟩ hcommits
  | closeEnd => cases ‹CloseCaller› <;> exact ⟨rfl, by simp⟩
  | _ => first | exact ⟨rfl, by simp⟩ | exact absurd hpc (by simp [SenderPc.unwound])

/-- The first step of a `close()` is recorded. -/
theorem SenderMoves.close_starts {caller : CloseCaller}
    (hm : SenderMoves ring k m (.closing .load caller) act e pc') : e = some (.closeStart k) := by
  cases hm <;> rfl

/-- **Nothing of the reservation is published**, as long as the batch is not committed. -/
theorem tainted_step (hi : Inv ring initial σ) (ht : Tainted k σ) (hok : Withholds σ l)
    (hm : Moves ring σ l σ') : Tainted k σ' := by
  have hk : k < σ.nextSend := by
    refine hi.fresh.lt_of_send fun hidle => ?_
    have hpc := ht.unwound
    rw [hidle] at hpc
    exact absurd hpc (by simp [SenderPc.unwound])
  have hstays : Event.closeStart k ∈ σ.trace → Event.closeStart k ∈ σ'.trace := by
    intro hmem
    obtain ⟨e, htrace⟩ := hm.trace_cases
    rw [htrace]
    cases e with
    | none => exact hmem
    | some e => exact List.mem_cons_of_mem e hmem
  rcases hm.sender_cases k with ⟨act, e, rfl, hsm, htrace, -⟩ | hl
  · have hbatch : act = .run → (σ.sends k).commitsBatch = false := by
      rintro rfl
      rw [Bool.eq_false_iff]
      intro hcommits
      have hnew := hok k rfl hcommits
      obtain ⟨caller, hload⟩ := ht.closes.resolve_left hnew
      rw [hload] at hcommits
      exact absurd hcommits (by simp [SenderPc.commitsBatch])
    obtain ⟨hpc, he⟩ := hsm.unwound ht.unwound hbatch
    refine ⟨fun t hp => ht.unpublished t ?_, hpc, Or.inl ?_⟩
    · rw [htrace] at hp
      exact publish_record (he k t) hp
    · rcases ht.closes with hmem | ⟨caller, hload⟩
      · exact hstays hmem
      · rw [hload] at hsm
        rw [htrace, hsm.close_starts]
        exact List.mem_cons_self
  · have hsame := hm.sends_other hk hl
    refine ⟨fun t hp => ht.unpublished t (hm.publish_of_other hl hp), ?_, ?_⟩
    · rw [hsame]
      exact ht.unwound
    · rw [hsame]
      exact ht.closes.imp_left hstays

/-- A call recycles a sequence of its own. -/
theorem SenderInv.recycles (hi : SenderInv c h k pc) (hpc : pc.recycles = some s) :
    Own h k s s := by
  cases pc with
  | recycling seq =>
    obtain rfl := Option.some.inj hpc
    exact hi
  | batchRecycling p seq =>
    obtain rfl := Option.some.inj hpc
    exact hi.1.own hi.2.1 (hi.1.le_endSeq hi.2.2)
  | draining p =>
    rw [SenderPc.recycles] at hpc
    split at hpc
    · rename_i hp
      obtain rfl := Option.some.inj hpc
      exact OwnBatch.own hi hi.2.1 hp.2
    · exact absurd hpc (by simp)
  | _ => exact absurd hpc (by simp [SenderPc.recycles])

/-- When a recycler panics, the call goes on with a `terminate()`. -/
theorem SenderMoves.terminates {v : T} (hm : SenderMoves ring k m pc (.panics v) e pc')
    (hpc : pc.recycles = some s) :
    (∃ caller, pc' = .closing .load caller ∧ caller ≠ .lastSender) ∧ pc.committing = false ∧
      e = some (.store k s v) := by
  cases hm with
  | recyclePanics =>
    obtain rfl := Option.some.inj hpc
    exact ⟨⟨_, rfl, by simp⟩, rfl, rfl⟩
  | batchRecyclePanics =>
    obtain rfl := Option.some.inj hpc
    exact ⟨⟨_, rfl, by simp⟩, rfl, rfl⟩
  | drainPanics hp =>
    rw [SenderPc.recycles, if_pos hp] at hpc
    obtain rfl := Option.some.inj hpc
    exact ⟨⟨_, rfl, by simp⟩, rfl, rfl⟩
  | _ => exact absurd hpc (by simp [SenderPc.recycles])

/-- What is published of a sequence, its owner has published. -/
theorem publish_of_owner (hl : Legal c h) (ho : owner h s = some k) (hp : Published h s) :
    Event.publish k s ∈ h := by
  induction h with
  | nil =>
    obtain ⟨k', hk'⟩ := hp
    exact absurd hk' List.not_mem_nil
  | cons e h ih =>
    obtain ⟨k', hk'⟩ := hp
    rcases List.mem_cons.mp hk' with rfl | hmem
    · have ho' : owner h s = some k := ho
      have hk : k' = k := Option.some.inj (hl.2.1.symm.trans ho')
      rw [hk]
      exact List.mem_cons_self
    · have hpub : Published h s := ⟨k', hmem⟩
      obtain ⟨k'', hk''⟩ := exists_owner hl.1 (hpub.range hl.1).1 (hpub.range hl.1).2
      have hkk : k'' = k := Option.some.inj ((owner_cons hl hk'').symm.trans ho)
      exact List.mem_cons_of_mem e (ih hl.1 (hkk ▸ hk'') hpub)

/-- A step that claims nothing, and makes no call, is in range. -/
theorem inRange_of_highest (hi : Inv ring initial σ) (hst : step ring σ l = some σ')
    (hl : ∀ h c, l ≠ .send h c) (hhigh : highest σ'.trace = highest σ.trace) :
    InRange ring σ l := by
  refine ⟨fun h n heq => absurd heq (hl h _), fun σ'' hst' => ?_⟩
  obtain rfl := Option.some.inj (hst.symm.trans hst')
  rw [hhigh]
  exact hi.sound.bound

end

end EnsoChannel
