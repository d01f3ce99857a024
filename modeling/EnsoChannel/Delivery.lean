import EnsoChannel.Claims

/-!
# First in, first out, exactly once

The contract of the channel, in every run with one guard at a time and no leaks: whatever the
interleaving of the atomic steps, whatever panics, and whichever receivers vanish.

There is one log: the values stored for the sequences `0, 1, 2, …` (`log`). What a receiver was
given is the list of the sequences of its guards (`delivered`), and its `stream` the values stored
for them.

* `Filled` / `filled_step`: what is published has a value. A call publishes a sequence only after
  it stored one, also through a batch whose permits are written one by one (`SenderFilled`).
* `Taken` / `taken_step`: a guard starts where the last one ended, so `delivered` counts `0, 1, …`.
* `stored_suffix`: the value of a published sequence is final.
* `fifo_delivery`: every stream is a prefix of the log, with a value in every entry; later it is
  only longer; what a live guard covers is in the slots at every instant; and the log is in the
  order of the claims.
-/

namespace EnsoChannel

open Lib

variable {T : Type} {N : Nat}

/-! ## The log and the streams -/

/-- The sequences `a … b`. -/
def seqs (a b : Int) : List Int := (List.range (b + 1 - a).toNat).map fun n : Nat => a + n

/-- The sequences receiver `i` was given, in the order of its guards. -/
def delivered : History T N → Fin N → List Int
  | [], _ => []
  | .ret _ j (.items a b) :: h, i => if j = i then delivered h i ++ seqs a b else delivered h i
  | _ :: h, i => delivered h i

/-- The last sequence receiver `i` was given, `-1` before the first guard. -/
def taken : History T N → Fin N → Int
  | [], _ => -1
  | .ret _ j (.items _ b) :: h, i => if j = i then b else taken h i
  | _ :: h, i => taken h i

/-- The values stored for the claimed sequences. -/
def log (h : History T N) : List (Option T) := (seqs 0 (highest h)).map (stored h)

/-- The values stored for the sequences receiver `i` was given. -/
def stream (h : History T N) (i : Fin N) : List (Option T) := (delivered h i).map (stored h)

section Seqs

variable {a b d s : Int}

theorem mem_seqs : s ∈ seqs a b ↔ a ≤ s ∧ s ≤ b := by
  unfold seqs
  simp only [List.mem_map, List.mem_range]
  constructor
  · rintro ⟨n, hn, rfl⟩
    omega
  · rintro ⟨h₀, h₁⟩
    exact ⟨(s - a).toNat, by omega, by omega⟩

/-- Consecutive ranges append. -/
theorem seqs_append (h₀ : a ≤ b + 1) (h₁ : b ≤ d) : seqs a b ++ seqs (b + 1) d = seqs a d := by
  unfold seqs
  have hlen : (d + 1 - a).toNat = (b + 1 - a).toNat + (d + 1 - (b + 1)).toNat := by omega
  rw [hlen, List.range_add, List.map_append, List.map_map]
  congr 1
  apply List.map_congr_left
  intro n _
  simp only [Function.comp_apply]
  omega

theorem seqs_isPrefix (h₀ : a ≤ b + 1) (h₁ : b ≤ d) : seqs a b <+: seqs a d :=
  ⟨seqs (b + 1) d, seqs_append h₀ h₁⟩

end Seqs

section

variable {ring : RingBufferMeta} {initial : Nat → T} {σ σ' : Sys T N} {l : Label T N} {k r : Nat}
  {h h' : History T N} {m : Mem T N} {i j : Fin N} {e : Event T N} {c s : Int}
  {pc pc' : SenderPc T} {act : SenderAct T}

/-- Only a guard of the receiver itself adds to what it was given. -/
theorem delivered_cons_of_ne (he : ∀ r a b, e ≠ .ret r i (.items a b)) :
    delivered (e :: h) i = delivered h i ∧ taken (e :: h) i = taken h i := by
  cases e with
  | ret r j res =>
    cases res with
    | items a b =>
      have hji : j ≠ i := fun hji => he r a b (by rw [hji])
      simp [delivered, taken, hji]
    | _ => exact ⟨rfl, rfl⟩
  | _ => exact ⟨rfl, rfl⟩

theorem delivered_suffix (hs : h <:+ h') : delivered h i <+: delivered h' i := by
  obtain ⟨newer, rfl⟩ := hs
  induction newer with
  | nil => exact List.prefix_refl _
  | cons e newer ih =>
    refine ih.trans ?_
    show delivered (newer ++ h) i <+: delivered (e :: (newer ++ h)) i
    by_cases he : ∃ r a b, e = .ret r i (.items a b)
    · obtain ⟨r, a, b, rfl⟩ := he
      rw [delivered, if_pos rfl]
      exact List.prefix_append _ _
    · rw [(delivered_cons_of_ne fun r a b heq => he ⟨r, a, b, heq⟩).1]

/-! ## What is published has a value -/

/-- A value was stored for `s`. -/
def HasValue (h : History T N) (s : Int) : Prop := ∃ v, stored h s = some v

/-- Everything published has a value. -/
def Filled (h : History T N) : Prop := ∀ s, Published h s → HasValue h s

/-- The batch's handed-out sequences have values, but for the one a permit is still out for. -/
def FilledBatch (h : History T N) (p : Permits) (out : Int → Prop) : Prop :=
  ∀ s, p.startSeq ≤ s → s < p.nextSeq → ¬ out s → HasValue h s

/-- What a sender call has stored. -/
def SenderFilled (h : History T N) : SenderPc T → Prop
  | .permits p => FilledBatch h p fun _ => False
  | .batchPermit p seq => FilledBatch h p (· = seq)
  | .batchRecycling p seq => FilledBatch h p (· = seq)
  | .draining p => FilledBatch h p fun _ => False
  | .publishing _ seq last => ∀ s, seq ≤ s → s ≤ last → HasValue h s
  | .closing _ (.batch p) => FilledBatch h p fun _ => False
  | _ => True

theorem hasValue_store {v : T} : HasValue (.store k s v :: h) s := ⟨v, by rw [stored, if_pos rfl]⟩

theorem HasValue.cons (hv : HasValue h s) : HasValue (e :: h) s := by
  obtain ⟨v, hv⟩ := hv
  cases e with
  | store k t w =>
    by_cases hts : t = s
    · exact ⟨w, by rw [stored, if_pos hts]⟩
    · exact ⟨v, by rw [stored, if_neg hts, hv]⟩
  | _ => exact ⟨v, hv⟩

theorem HasValue.record {e : Option (Event T N)} (hv : HasValue h s) :
    HasValue (record e h) s := by
  cases e with
  | none => exact hv
  | some e => exact hv.cons

theorem FilledBatch.record {p : Permits} {out : Int → Prop} {e : Option (Event T N)}
    (hf : FilledBatch h p out) : FilledBatch (record e h) p out :=
  fun s h₀ h₁ hout => (hf s h₀ h₁ hout).record

theorem SenderFilled.record {e : Option (Event T N)} (hf : SenderFilled h pc) :
    SenderFilled (record e h) pc := by
  cases pc with
  | permits p | batchPermit p seq | batchRecycling p seq | draining p =>
    exact FilledBatch.record hf
  | publishing first seq last => exact fun s h₀ h₁ => (hf s h₀ h₁).record
  | closing pos caller =>
    cases caller with
    | batch p => exact FilledBatch.record hf
    | _ => trivial
  | _ => trivial

/-- The value that was still out is stored. -/
theorem FilledBatch.store {p : Permits} {v : T} (hf : FilledBatch h p (· = s)) :
    FilledBatch (.store k s v :: h) p fun _ => False := by
  intro t h₀ h₁ _
  by_cases hts : t = s
  · exact hts ▸ hasValue_store
  · exact (hf t h₀ h₁ hts).cons

/-- Nothing of a new batch is handed out. -/
theorem filledBatch_new {a b : Int} : FilledBatch h ⟨a, b, a⟩ fun _ => False :=
  fun _ h₀ h₁ => absurd (lt_of_le_of_lt h₀ h₁) (lt_irrefl a)

/-- **A call stores before it publishes**, unless it leaks a permit. -/
theorem SenderMoves.filled {e : Option (Event T N)} (hm : SenderMoves ring k m pc act e pc')
    (hact : act ≠ .leak) (hf : SenderFilled h pc) : SenderFilled (record e h) pc' := by
  cases hm with
  | load | retry => exact claimLoop_cases trivial fun _ => trivial
  | gateEnd => exact claimBody_cases (fun _ => trivial) fun _ => trivial
  | claim => exact granted_cases (fun _ => trivial) trivial filledBatch_new
  | write | permitWrite | recycled =>
    intro s h₀ h₁
    obtain rfl := le_antisymm h₁ h₀
    exact hasValue_store
  | nextNone | permitsDrop | batchDrop => exact hf
  | @next p hp =>
    intro s h₀ h₁ hne
    have h₁ : s < p.nextSeq + 1 := h₁
    exact hf s h₀ (lt_of_le_of_ne (Int.lt_add_one_iff.mp h₁) hne) id
  | batchWrite | batchRecycled | batchRecyclePanics | batchRecyclePanicsTwice =>
    exact FilledBatch.store hf
  | @batchPanics p v seq => exact FilledBatch.record (e := some (.store k seq v)) hf
  | permitLeak | permitsLeak | batchLeak => exact absurd rfl hact
  | @drainDone p hp hnext => exact fun s h₀ h₁ => hf s h₀ (by omega) id
  | @drainRecycled p v hp =>
    intro s h₀ h₁ _
    have h₁ : s < p.nextSeq + 1 := h₁
    by_cases hs : s = p.nextSeq
    · exact hs ▸ hasValue_store
    · exact (hf s h₀ (by omega) id).cons
  | publish => exact fun s h₀ h₁ => (hf s (by omega) h₁).cons
  | closeUnclaimed | closeLoad | closeScan | closeFound | closeScanEnd | closeMark | closeStore
  | closeWake =>
    cases ‹CloseCaller› with
    | batch p => exact FilledBatch.record hf
    | _ => trivial
  | closeEnd =>
    cases ‹CloseCaller› with
    | batch p => exact FilledBatch.record (e := some (.closeEnd k)) hf
    | _ => trivial
  | _ => trivial

/-- What a call publishes has a value. -/
theorem SenderMoves.publish_filled {k' : Nat}
    (hm : SenderMoves ring k m pc act (some (.publish k' s)) pc') (hf : SenderFilled h pc) :
    HasValue h s := by
  cases hm with
  | publish hseq => exact hf _ (le_refl _) hseq

/-- The invariant: what is published and what is about to be has a value. -/
structure FilledInv (σ : Sys T N) : Prop where
  published : Filled σ.trace
  send : ∀ k, SenderFilled σ.trace (σ.sends k)

theorem filledInv_init (initial : Nat → T) (i₀ : Fin N) : FilledInv (Sys.init initial i₀) where
  published := by
    rintro s ⟨k, hk⟩
    exact absurd hk List.not_mem_nil
  send _ := trivial

theorem filledInv_step (hf : FilledInv σ) (hok : NoLeak l) (hm : Moves ring σ l σ') :
    FilledInv σ' where
  published := by
    rcases hm.event_cases with ⟨htrace, -⟩ | ⟨e, htrace, -, -⟩
    · rw [htrace]
      exact hf.published
    · rw [htrace]
      intro s hs
      rcases published_cons.mp hs with ⟨k, rfl⟩ | hs
      · obtain ⟨k', act, pc, -, -, -, hsm⟩ := hm.of_sendSide htrace rfl
        exact (hsm.publish_filled (hf.send k')).cons
      · exact (hf.published s hs).cons
  send := by
    obtain ⟨e, htrace⟩ := hm.trace_cases
    rw [htrace]
    refine hm.forall_sends (J := fun _ pc => SenderFilled σ.trace pc)
      (K := fun _ pc => SenderFilled (record e σ.trace) pc) hf.send ?_
      (fun _ _ _ _ _ _ => trivial) ?_ ?_
    · exact fun h c _ => start_cases trivial filledBatch_new
    · rintro k act e' pc rfl _ hsm hs htrace' -
      rw [← htrace, htrace']
      exact hsm.filled (fun hact => hok.1 k (by rw [hact])) hs
    · exact fun k _ hs => hs.record

/-! ## A guard starts where the last one ended -/

/-- The end of the guard the call holds, if it holds one that covers anything. -/
def RecvPc.guardEnd : RecvPc → Option Int
  | .guard _ last => if last = Sequence.init then none else some last
  | _ => none

/-- What receiver `i` was given: the sequences `0 … taken`; the last guard, while it is live,
ends there, and otherwise the position is there. -/
structure Taken (σ : Sys T N) (i : Fin N) : Prop where
  count : delivered σ.trace i = seqs 0 (taken σ.trace i)
  live : ∀ r < σ.nextRecv, σ.recvReceiver r = i → ∀ b, (σ.recvs r).guardEnd = some b →
    b = taken σ.trace i
  idle : taken σ.trace i = position σ.trace i ∨
    ∃ r < σ.nextRecv, σ.recvReceiver r = i ∧ (σ.recvs r).guardEnd = some (taken σ.trace i)

/-- The event gives nothing to a receiver and moves no position. -/
def Quiet (e : Option (Event T N)) : Prop :=
  ∀ (h : History T N) (i : Fin N), delivered (record e h) i = delivered h i ∧
    taken (record e h) i = taken h i ∧ position (record e h) i = position h i

theorem quiet_none : Quiet (none : Option (Event T N)) := fun _ _ => ⟨rfl, rfl, rfl⟩

theorem quiet_of_sendSide (he : e.sendSide = true) : Quiet (some e) := by
  intro h i
  cases e <;> first | exact ⟨rfl, rfl, rfl⟩ | exact absurd he (by simp [Event.sendSide])

/-- What a step of a receive call gives: nothing, or a guard, or its release; or the guard is
leaked. -/
inductive Gives (r : Nat) (i : Fin N) : RecvPc → Option (Event T N) → RecvPc → Prop
  | nothing {pc pc' : RecvPc} {e : Option (Event T N)} (hpc : pc.guardEnd = none)
      (hpc' : pc'.guardEnd = none) (he : Quiet e) : Gives r i pc e pc'
  | guard {q : RecvCall} {lastClaimed last seq b : Int} {shutdown : Bool} (hb : lastClaimed < b) :
      Gives r i (.scan q lastClaimed last seq shutdown)
        (some (.ret r i (.items (lastClaimed + 1) b))) (.guard (lastClaimed + 1) b)
  | release {first last : Int} (hlast : last ≠ Sequence.init) :
      Gives r i (.guard first last) (some (.release i first last)) .released
  | leak {first last : Int} : Gives r i (.guard first last) none .leaked

theorem Returns.gives {q : RecvCall} {lastClaimed available last seq : Int}
    {shutdown shutdown' : Bool} {pc : RecvPc} {e : Option (Event T N)}
    (hret : Returns r i q lastClaimed available shutdown e pc) :
    Gives r i (.scan q lastClaimed last seq shutdown') e pc := by
  cases hret with
  | items hb => exact .guard hb
  | again => exact .nothing rfl rfl quiet_none
  | _ => exact .nothing rfl rfl fun _ _ => ⟨rfl, rfl, rfl⟩

theorem RecvMoves.gives {pc pc' : RecvPc} {act : RecvAct} {e : Option (Event T N)}
    (hm : RecvMoves ring r i m pc act e pc') : Gives r i pc e pc' := by
  cases hm with
  | load | scanNext => exact .nothing rfl rfl quiet_none
  | loadEmpty hn hret =>
    cases hret with
    | items hb => omega
    | again => exact .nothing rfl rfl quiet_none
    | _ => exact .nothing rfl rfl fun _ _ => ⟨rfl, rfl, rfl⟩
  | scanEnd _ _ hret | scanStop _ hret => exact hret.gives
  | register => exact .nothing rfl rfl fun _ _ => ⟨rfl, rfl, rfl⟩
  | releaseEmpty hlast =>
    exact .nothing (by rw [RecvPc.guardEnd, if_pos hlast]) rfl quiet_none
  | release hlast => exact .release hlast
  | leak => exact .leak

theorem RecvPc.guardEnd_of_finished {pc : RecvPc} (hf : pc.finished = true) :
    pc.guardEnd = none := by
  cases pc <;> first | rfl | exact absurd hf (by simp [RecvPc.finished])

theorem taken_init (initial : Nat → T) (i₀ i : Fin N) : Taken (Sys.init initial i₀) i where
  count := rfl
  live r hr := absurd hr (Nat.not_lt_zero r)
  idle := Or.inl rfl

/-- A step that gives nothing leaves what the receiver was given: its guards are where they
were. -/
theorem Taken.quiet {e : Option (Event T N)} (ht : Taken σ i)
    (he : delivered (record e σ.trace) i = delivered σ.trace i ∧
      taken (record e σ.trace) i = taken σ.trace i ∧
        position (record e σ.trace) i = position σ.trace i)
    (htrace : σ'.trace = record e σ.trace)
    (hguards : ∀ r b, r < σ'.nextRecv ∧ σ'.recvReceiver r = i ∧ (σ'.recvs r).guardEnd = some b ↔
      r < σ.nextRecv ∧ σ.recvReceiver r = i ∧ (σ.recvs r).guardEnd = some b) : Taken σ' i := by
  obtain ⟨hd, ht', hp⟩ := he
  constructor
  · rw [htrace, hd, ht', ht.count]
  · intro r hr hi b hb
    obtain ⟨hr, hi, hb⟩ := (hguards r b).mp ⟨hr, hi, hb⟩
    rw [htrace, ht']
    exact ht.live r hr hi b hb
  · rw [htrace, ht', hp]
    refine ht.idle.imp_right fun ⟨r, hr, hi, hb⟩ => ?_
    exact ⟨r, (hguards r _).mpr ⟨hr, hi, hb⟩⟩

/-- A step of call `r₀` that gives no guard to receiver `i` and takes none. -/
theorem guards_update {r₀ : Nat} {pc : RecvPc}
    (hsame : σ.recvReceiver r₀ = i → (σ.recvs r₀).guardEnd = none ∧ pc.guardEnd = none)
    (r : Nat) (b : Int) :
    (r < σ.nextRecv ∧ σ.recvReceiver r = i ∧ (Function.update σ.recvs r₀ pc r).guardEnd = some b) ↔
      r < σ.nextRecv ∧ σ.recvReceiver r = i ∧ (σ.recvs r).guardEnd = some b := by
  by_cases hrr : r = r₀
  · rw [hrr, Function.update_self]
    constructor
    · rintro ⟨-, hi, hb⟩
      rw [(hsame hi).2] at hb
      exact absurd hb (by simp)
    · rintro ⟨-, hi, hb⟩
      rw [(hsame hi).1] at hb
      exact absurd hb (by simp)
  · rw [Function.update_of_ne hrr]

/-- **A guard starts where the last one ended**, with one guard at a time, on a receiver that leaks
none. -/
theorem taken_step (hs : Served ring initial σ) (ht : Taken σ i)
    (hok : ∀ r, l = .receiver r .leak → σ.recvReceiver r ≠ i) (hm : Moves ring σ l σ') :
    Taken σ' i := by
  cases hm with
  | clone | dropSender | dropLast | send => exact ⟨ht.count, ht.live, ht.idle⟩
  | @sender k act e pc hk hst =>
    have hquiet : Quiet e := by
      cases e with
      | none => exact quiet_none
      | some e => exact quiet_of_sendSide (senderMoves_of_step hst).sendSide
    refine ht.quiet (hquiet _ i) (perform_trace ring σ e) fun r b => ?_
    show r < (σ.perform ring e).nextRecv ∧ (σ.perform ring e).recvReceiver r = i ∧
      ((σ.perform ring e).recvs r).guardEnd = some b ↔ _
    rw [perform_recvs, perform_recvReceiver, perform_nextRecv]
  | dropReceiver =>
    exact ht.quiet (e := some (.dropReceiver _)) ⟨rfl, rfl, rfl⟩ rfl fun _ _ => Iff.rfl
  | @recv j limit async hlive =>
    have hstart : (recvStart limit async).guardEnd = none := by
      unfold recvStart
      split <;> rfl
    refine ht.quiet (e := none) ⟨rfl, rfl, rfl⟩ rfl fun r b => ?_
    show r < σ.nextRecv + 1 ∧ Function.update σ.recvReceiver σ.nextRecv j r = i ∧
      (Function.update σ.recvs σ.nextRecv _ r).guardEnd = some b ↔ _
    by_cases hnew : r = σ.nextRecv
    · rw [hnew, Function.update_self, Function.update_self, hstart]
      simp
    · rw [Function.update_of_ne hnew, Function.update_of_ne hnew]
      have hlt : r < σ.nextRecv + 1 ↔ r < σ.nextRecv := by omega
      rw [hlt]
  | @receiver r₀ act e pc hr₀ hst =>
    have hfin := recvStep_finished hst
    have hcur := hs.guarded.current r₀ hr₀
    have hinv := hs.guarded.inv.recv r₀
    have hgives := (recvMoves_of_step hst).gives
    have hleak : ∀ first last, σ.recvs r₀ = .guard first last → pc = .leaked →
        σ.recvReceiver r₀ ≠ i := by
      rintro first last hpc rfl
      rw [hpc] at hst
      cases recvMoves_of_step hst
      exact hok r₀ rfl
    -- what the step does to the calls and to the trace is all that matters
    suffices hsuff : Taken { σ with
        trace := record e σ.trace, recvs := Function.update σ.recvs r₀ pc } i by
      refine hsuff.quiet (e := none) ⟨rfl, rfl, rfl⟩ (perform_trace ring σ e) fun r b => ?_
      show r < (σ.perform ring e).nextRecv ∧ (σ.perform ring e).recvReceiver r = i ∧ _ ↔ _
      rw [perform_recvReceiver, perform_nextRecv]
    by_cases hi : σ.recvReceiver r₀ = i
    · generalize hpc : σ.recvs r₀ = pc₀ at hgives hcur hinv hleak
      cases hgives with
      | nothing hpc₀ hpc' he =>
        exact ht.quiet (he _ i) rfl (guards_update fun _ => ⟨hpc ▸ hpc₀, hpc'⟩)
      | @guard q lastClaimed last seq b shutdown hb =>
        have hlc : lastClaimed = position σ.trace (σ.recvReceiver r₀) := hcur
        have hneg : -1 ≤ lastClaimed := hinv.1
        have hne : b ≠ Sequence.init := by
          unfold Sequence.init
          omega
        have hother : ∀ r < σ.nextRecv, r ≠ r₀ → σ.recvReceiver r = i →
            (σ.recvs r).guardEnd = none := fun r hr hrr hri =>
          RecvPc.guardEnd_of_finished
            (hs.solo.finished_of_ne hr₀ hr hrr (hri.trans hi.symm) hfin)
        -- nobody holds a guard of this receiver, so it was given what it has released
        have htaken : taken σ.trace i = lastClaimed := by
          rcases ht.idle with heq | ⟨r, hr, hri, hend⟩
          · rw [heq, hlc, hi]
          · have hrr : r ≠ r₀ := by
              rintro rfl
              rw [hpc] at hend
              exact absurd hend (by simp [RecvPc.guardEnd])
            rw [hother r hr hrr hri] at hend
            exact absurd hend (by simp)
        have hnow : taken (.ret r₀ (σ.recvReceiver r₀) (.items (lastClaimed + 1) b) :: σ.trace) i =
            b := by rw [taken, if_pos hi]
        refine ⟨?_, fun r hr hri b' => ?_, Or.inr ⟨r₀, hr₀, hi, ?_⟩⟩
        · show delivered (.ret r₀ _ (.items (lastClaimed + 1) b) :: σ.trace) i =
            seqs 0 (taken (.ret r₀ _ (.items (lastClaimed + 1) b) :: σ.trace) i)
          rw [hnow, delivered, if_pos hi, ht.count, htaken]
          exact seqs_append (by omega) (by omega)
        · show (Function.update σ.recvs r₀ (.guard (lastClaimed + 1) b) r).guardEnd = some b' →
            b' = taken (.ret r₀ _ (.items (lastClaimed + 1) b) :: σ.trace) i
          rw [hnow]
          by_cases hrr : r = r₀
          · rw [hrr, Function.update_self, RecvPc.guardEnd, if_neg hne]
            exact fun hb' => (Option.some.inj hb').symm
          · rw [Function.update_of_ne hrr, hother r hr hrr hri]
            exact fun hb' => absurd hb' (by simp)
        · show (Function.update σ.recvs r₀ (.guard (lastClaimed + 1) b) r₀).guardEnd =
            some (taken (.ret r₀ _ (.items (lastClaimed + 1) b) :: σ.trace) i)
          rw [hnow, Function.update_self, RecvPc.guardEnd, if_neg hne]
      | @release first last hlast =>
        have hend : last = taken σ.trace i :=
          ht.live r₀ hr₀ hi last (by rw [hpc, RecvPc.guardEnd, if_neg hlast])
        refine ⟨ht.count, fun r hr hri b => ?_, Or.inl ?_⟩
        · show (Function.update σ.recvs r₀ .released r).guardEnd = some b → b = taken σ.trace i
          by_cases hrr : r = r₀
          · rw [hrr, Function.update_self]
            exact fun hb => absurd hb (by simp [RecvPc.guardEnd])
          · rw [Function.update_of_ne hrr]
            exact ht.live r hr hri b
        · show taken σ.trace i = position (.release (σ.recvReceiver r₀) first last :: σ.trace) i
          rw [position, if_pos hi, hend]
      | leak => exact absurd hi (hleak _ _ rfl rfl)
    · -- a call on another receiver
      refine ht.quiet ?_ rfl (guards_update fun heq => absurd heq hi)
      generalize σ.recvs r₀ = pc₀ at hgives
      cases hgives with
      | nothing _ _ he => exact he _ i
      | guard => simp [record, delivered, taken, position, hi]
      | release => simp [record, delivered, taken, position, hi]
      | leak => exact ⟨rfl, rfl, rfl⟩

/-! ## The contract -/

/-- The discipline of the contract. -/
def Tidy (ring : RingBufferMeta) : Sys T N → Label T N → Prop := TidyOf (step ring)

instance (ring : RingBufferMeta) (σ : Sys T N) (l : Label T N) : Decidable (Tidy ring σ l) :=
  inferInstanceAs (Decidable (TidyOf (step ring) σ l))

/-- The invariant of the tidy runs. -/
structure Delivering (ring : RingBufferMeta) (initial : Nat → T) (σ : Sys T N) : Prop where
  served : Served ring initial σ
  filled : FilledInv σ
  given : ∀ i, Taken σ i

theorem delivering_init (ring : RingBufferMeta) (initial : Nat → T) (i₀ : Fin N) :
    Delivering ring initial (Sys.init initial i₀) :=
  ⟨served_init ring initial i₀, filledInv_init initial i₀, taken_init initial i₀⟩

theorem delivering_step (hd : Delivering ring initial σ) (hok : Tidy ring σ l)
    (hst : step ring σ l = some σ') : Delivering ring initial σ' := by
  have hm := moves_of_step hst
  exact ⟨served_step hd.served hok.1 hok.2.1 hst, filledInv_step hd.filled hok.2.2 hm,
    fun i => taken_step hd.served (hd.given i) (fun r hl => absurd hl (hok.2.2.2 r)) hm⟩

/-- Events are never taken back. -/
theorem trace_suffix {ok : Sys T N → Label T N → Prop} {ls : List (Label T N)}
    (hrun : Run (step ring) ok σ ls σ') : σ.trace <:+ σ'.trace := by
  induction hrun with
  | nil => exact List.suffix_refl _
  | snoc _ _ hst ih =>
    obtain ⟨e, he⟩ := (moves_of_step hst).trace_cases
    rw [he]
    cases e with
    | none => exact ih
    | some e => exact ih.trans (List.suffix_cons e _)

theorem Legal.of_append {newer : History T N} (hl : Legal c (newer ++ h)) : Legal c h := by
  induction newer with
  | nil => exact hl
  | cons e newer ih => exact ih hl.1

/-- An owner is final. -/
theorem owner_suffix {k : Nat} (hl : Legal c h') (hsuf : h <:+ h') (ho : owner h s = some k) :
    owner h' s = some k := by
  obtain ⟨newer, rfl⟩ := hsuf
  induction newer with
  | nil => exact ho
  | cons e newer ih => exact owner_cons hl (ih hl.1)

/-- **The value of a published sequence is final.** -/
theorem stored_suffix (hl : Legal c h') (hsuf : h <:+ h') (hs : Published h s) :
    stored h' s = stored h s := by
  obtain ⟨newer, rfl⟩ := hsuf
  induction newer with
  | nil => rfl
  | cons e newer ih =>
    have hp : Published (newer ++ h) s := by
      obtain ⟨k, hk⟩ := hs
      exact ⟨k, List.mem_append_right newer hk⟩
    exact (stored_cons_of_published hl hp).trans (ih hl.1)

theorem le_highest_of_claim {k : Nat} {a b : Int} (hmem : Event.claim k a b ∈ h) :
    b ≤ highest h := by
  induction h with
  | nil => exact absurd hmem List.not_mem_nil
  | cons e h ih =>
    rcases List.mem_cons.mp hmem with rfl | hmem
    · exact le_max_left _ _
    · exact (ih hmem).trans highest_le_cons

/-- A claim takes sequences above all earlier claims. -/
theorem lt_of_later_claim {newer older : History T N} {k k' : Nat} {a b a' b' : Int}
    (hl : Legal c (newer ++ .claim k a b :: older)) (hmem : Event.claim k' a' b' ∈ older) :
    b' < a := by
  have hle := le_highest_of_claim hmem
  have ha := hl.of_append.2.1
  omega

/-- The end of a live guard is a sequence, and everything up to it is published. -/
theorem Inv.guardEnd_published (hi : Inv ring initial σ) {b : Int}
    (hend : (σ.recvs r).guardEnd = some b) :
    0 ≤ b ∧ ∀ s, 0 ≤ s → s ≤ b → Published σ.trace s := by
  have hinv := hi.recv r
  generalize σ.recvs r = pc at hinv hend
  cases pc with
  | guard first last =>
    rw [RecvPc.guardEnd] at hend
    split at hend
    · exact absurd hend (by simp)
    · rename_i hlast
      obtain rfl := Option.some.inj hend
      obtain ⟨h₀, h₁, -, hp⟩ := hinv.2 hlast
      exact ⟨h₀.trans h₁, hp⟩
  | _ => exact absurd hend (by simp [RecvPc.guardEnd])

/-- Everything a receiver was given is published. -/
theorem Taken.published (ht : Taken σ i) (hi : Inv ring initial σ) :
    -1 ≤ taken σ.trace i ∧ ∀ s, 0 ≤ s → s ≤ taken σ.trace i → Published σ.trace s := by
  rcases ht.idle with heq | ⟨r, -, -, hend⟩
  · rw [heq]
    exact ⟨neg_one_le_position hi.sound.legal,
      fun s h₀ h₁ => published_of_position hi.sound.legal h₀ h₁⟩
  · obtain ⟨h₀, hp⟩ := hi.guardEnd_published hend
    exact ⟨by omega, hp⟩

/-- A receiver is given sequences up to the highest claim. -/
theorem Taken.le_highest (ht : Taken σ i) (hi : Inv ring initial σ) :
    taken σ.trace i ≤ highest σ.trace := by
  have hneg := neg_one_le_highest σ.trace
  by_cases hnn : 0 ≤ taken σ.trace i
  · exact (((ht.published hi).2 _ hnn (le_refl _)).range hi.sound.legal).2
  · omega

/-- **First in, first out, exactly once, and nothing lost**, in every run in range with one guard
at a time and no leaks. -/
theorem fifo_delivery {i₀ : Fin N} {ls : List (Label T N)}
    (hrun : Run (step ring) (Tidy ring) (Sys.init initial i₀) ls σ) :
    (∀ i, (∃ n : Nat, delivered σ.trace i = (List.range n).map fun s : Nat => (s : Int)) ∧
        stream σ.trace i <+: log σ.trace ∧ ∀ v ∈ stream σ.trace i, ∃ x, v = some x) ∧
      (∀ r s, σ.Covers r s → s ∈ delivered σ.trace (σ.recvReceiver r) ∧
        ∃ k v, owner σ.trace s = some k ∧ Event.store k s v ∈ σ.trace ∧
          stored σ.trace s = some v ∧ σ.mem.slots (ring.indexOfSeq s) = v) ∧
      (∀ ls' σ', Run (step ring) (Tidy ring) σ ls' σ' →
        ∀ i, stream σ.trace i <+: stream σ'.trace i) ∧
      ∀ newer older k a b k' a' b', σ.trace = newer ++ .claim k a b :: older →
        Event.claim k' a' b' ∈ older → b' < a := by
  have hd := hrun.invariant (fun hd hok hst => delivering_step hd hok hst)
    (delivering_init ring initial i₀)
  have hl := hd.served.guarded.inv.sound.legal
  refine ⟨fun i => ⟨?_, ?_, ?_⟩, fun r s hcov => ⟨?_, ?_⟩, fun ls' σ' hrun' i => ?_, ?_⟩
  · refine ⟨(taken σ.trace i + 1).toNat, ?_⟩
    rw [(hd.given i).count]
    simp [seqs]
  · unfold stream log
    rw [(hd.given i).count]
    have hneg := ((hd.given i).published hd.served.guarded.inv).1
    have hhigh := (hd.given i).le_highest hd.served.guarded.inv
    exact (seqs_isPrefix (by omega) hhigh).map _
  · unfold stream
    rw [(hd.given i).count]
    intro v hv
    obtain ⟨s, hs, rfl⟩ := List.mem_map.mp hv
    obtain ⟨h₀, h₁⟩ := mem_seqs.mp hs
    exact hd.filled.published s (((hd.given i).published hd.served.guarded.inv).2 s h₀ h₁)
  · have h₀ := hd.served.guarded.covers_nonneg hcov
    obtain ⟨first, last, hpc, -, h₁⟩ := hcov
    have hr : r < σ.nextRecv := hd.served.guarded.inv.fresh.lt_of_recv (by rw [hpc]; simp)
    have hlast : last ≠ Sequence.init := by
      unfold Sequence.init
      omega
    have hend := (hd.given _).live r hr rfl last (by rw [hpc, RecvPc.guardEnd, if_neg hlast])
    rw [(hd.given _).count, ← hend]
    exact mem_seqs.mpr ⟨h₀, h₁⟩
  · have hcovers := hd.served.guarded.covers hcov
    have h₀ := hd.served.guarded.covers_nonneg hcov
    obtain ⟨v, hv⟩ := hd.filled.published s (hcovers.1 s h₀ (le_refl _))
    obtain ⟨k, hk, hstore⟩ := owner_of_stored hl hv
    refine ⟨k, v, hk, hstore, hv, ?_⟩
    rw [hd.served.guarded.inv.sound.mem]
    exact slots_replay hl (by omega) hv
  · have hd' := hrun'.invariant (fun hd hok hst => delivering_step hd hok hst) hd
    have hsuf := trace_suffix hrun'
    have hsame : stream σ.trace i = (delivered σ.trace i).map (stored σ'.trace) := by
      unfold stream
      rw [(hd.given i).count]
      refine List.map_congr_left fun s hs => ?_
      obtain ⟨h₀, h₁⟩ := mem_seqs.mp hs
      have hp := ((hd.given i).published hd.served.guarded.inv).2 s h₀ h₁
      exact (stored_suffix hd'.served.guarded.inv.sound.legal hsuf hp).symm
    rw [hsame]
    exact (delivered_suffix hsuf).map _
  · intro newer older k a b k' a' b' htrace hmem
    rw [htrace] at hl
    exact lt_of_later_claim hl hmem

/-- Two senders commit in the wrong order and the receiver takes both items at once, on a ring of
two slots. -/
theorem fifo_delivery_two_senders :
    ∃ (ls : List (Label Nat 1)) (σ : Sys Nat 1),
      Run (step ⟨1, by decide⟩) (Tidy ⟨1, by decide⟩) (Sys.init (fun _ => 0) 0) ls σ ∧
        stream σ.trace 0 = [some 7, some 8] ∧ σ.recvs 1 = .guard 0 1 ∧
          stream σ.trace 0 <+: log σ.trace := by
  have hex : (exec (step ⟨1, by decide⟩) (Tidy ⟨1, by decide⟩) (Sys.init (fun _ => 0) 0)
      (List.flatten [[.send 0 .tryReserve, .clone 0, .send 1 (.trySend 8)],
        List.replicate 4 (.sender 0 .run), List.replicate 9 (.sender 1 .run),
        [.recv 0 1 false, .receiver 0 .run, .receiver 0 .run, .sender 0 (.write 7)],
        List.replicate 4 (.sender 0 .run),
        [.recv 0 2 false, .receiver 1 .run, .receiver 1 .run, .receiver 1 .run]])).any
      (fun σ : Sys Nat 1 => decide (stream σ.trace 0 = [some 7, some 8] ∧
        σ.recvs 1 = .guard 0 1)) = true := by
    decide +kernel
  obtain ⟨σ, hrun, hσ⟩ := Run.of_exec_any hex
  obtain ⟨hstream, hguard⟩ := of_decide_eq_true hσ
  exact ⟨_, σ, hrun, hstream, hguard, ((fifo_delivery hrun).1 0).2.1⟩

end

end EnsoChannel
