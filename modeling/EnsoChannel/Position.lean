import EnsoChannel.Invariant

/-!
# What the receivers must keep to

A receive claim leaves no trace in the shared memory, so three disciplines of the clients decide
what the channel guarantees. Each one implies the next:

* `OneGuard`: each receiver releases its guard before its next receive call. Then the newest call
  of a receiver is the only one under way (`Solo`).
* `LoneRelease`: a guard is released only while nobody else of its receiver depends on the cursor
  (an empty guard at any time).
  Then whoever has read the cursor of a receiver starts right after its position
  (`Current`, `current_step`).
* `InOrder`: guards are released in the order of their ends. Then a position only moves up
  (`position_mono`).

`loneRelease_of_oneGuard` and `inOrder_of_loneRelease` are the two implications.
-/

namespace EnsoChannel

open Lib

variable {T : Type} {N : Nat}

/-- Of the calls on one receiver, all but the newest are over. -/
def Solo (σ : Sys T N) : Prop :=
  ∀ r r', r < r' → r' < σ.nextRecv → σ.recvReceiver r = σ.recvReceiver r' →
    (σ.recvs r).finished = true

/-- What the call has read is the position of receiver `i`. -/
def ReadsAt (h : History T N) (i : Fin N) : RecvPc → Prop
  | .scan _ lastClaimed _ _ _ => lastClaimed = position h i
  | .guard first last => last ≠ Sequence.init → first = position h i + 1
  | _ => True

/-- Whoever has read the cursor of a receiver starts right after its position. -/
def Current (σ : Sys T N) : Prop :=
  ∀ r < σ.nextRecv, ReadsAt σ.trace (σ.recvReceiver r) (σ.recvs r)

/-- No release went beyond the position. -/
def Ascending (h : History T N) : Prop :=
  ∀ i a b, Event.release i a b ∈ h → b ≤ position h i

section

variable {ring : RingBufferMeta} {initial : Nat → T} {σ σ' : Sys T N} {l : Label T N}
  {h : History T N} {k r : Nat} {i j : Fin N} {m : Mem T N} {e : Event T N}

/-! ## One guard at a time -/

theorem solo_init (initial : Nat → T) (i₀ : Fin N) : Solo (Sys.init initial i₀) :=
  fun _ _ _ hr' => absurd hr' (Nat.not_lt_zero _)

theorem solo_step (hs : Solo σ) (hok : OneGuard σ l) (hm : Moves ring σ l σ') : Solo σ' := by
  cases hm with
  | @recv i limit async hlive =>
    have hidle := hok i limit async rfl
    intro r r' hlt hr'
    have hr' : r' < σ.nextRecv + 1 := hr'
    show Function.update σ.recvReceiver σ.nextRecv i r =
      Function.update σ.recvReceiver σ.nextRecv i r' →
        (Function.update σ.recvs σ.nextRecv _ r).finished = true
    have hne : r ≠ σ.nextRecv := by omega
    rw [Function.update_of_ne hne, Function.update_of_ne hne]
    rcases Nat.lt_succ_iff_lt_or_eq.mp hr' with hold | rfl
    · rw [Function.update_of_ne (by omega)]
      exact hs r r' hlt hold
    · rw [Function.update_self]
      exact hidle r hlt
  | @receiver r₀ act e pc hr₀ hst =>
    intro r r' hlt hr' heq
    have hr' : r' < σ.nextRecv := by simpa using hr'
    have hfin := hs r r' hlt hr' (by simpa using heq)
    show (Function.update σ.recvs r₀ pc r).finished = true
    have hne : r ≠ r₀ := by
      rintro rfl
      rw [recvStep_finished hst] at hfin
      exact absurd hfin (by simp)
    rw [Function.update_of_ne hne]
    exact hfin
  | @sender k₀ act e pc hk₀ hst =>
    intro r r' hlt hr' heq
    have hr' : r' < σ.nextRecv := by simpa using hr'
    have hfin := hs r r' hlt hr' (by simpa using heq)
    simpa using hfin
  | clone | dropSender | dropLast | send | dropReceiver => exact hs

/-- While a call of a receiver is not over, the others on it are. -/
theorem Solo.finished_of_ne {r' : Nat} (hs : Solo σ) (hr : r < σ.nextRecv) (hr' : r' < σ.nextRecv)
    (hne : r' ≠ r) (heq : σ.recvReceiver r' = σ.recvReceiver r)
    (hfin : (σ.recvs r).finished = false) : (σ.recvs r').finished = true := by
  rcases lt_or_gt_of_ne hne with hlt | hgt
  · exact hs r' r hlt hr heq
  · rw [hs r r' hgt hr' heq.symm] at hfin
    exact absurd hfin (by simp)

theorem RecvPc.reading_of_finished {pc : RecvPc} (hf : pc.finished = true) :
    pc.reading = false := by
  cases pc <;> first | rfl | exact absurd hf (by simp [RecvPc.finished])

/-- **With one guard at a time, a guard is released alone.** -/
theorem loneRelease_of_oneGuard (hs : Solo σ) (hst : step ring σ l = some σ') :
    LoneRelease σ l := by
  rintro r rfl - r' hr' hne heq
  have hm := moves_of_step hst
  cases hm with
  | receiver hr hrecv =>
    exact RecvPc.reading_of_finished
      (hs.finished_of_ne hr hr' hne heq (recvStep_finished hrecv))

/-! ## Released alone -/

theorem ReadsAt.of_not_reading {pc : RecvPc} (hp : pc.reading = false) : ReadsAt h i pc := by
  cases pc with
  | scan => exact absurd hp (by simp [RecvPc.reading])
  | guard first last =>
    intro hlast
    simp only [RecvPc.reading, bne_eq_false_iff_eq] at hp
    exact absurd hp hlast
  | _ => trivial

theorem ReadsAt.congr {h' : History T N} {pc : RecvPc} (hpos : position h' i = position h i)
    (hr : ReadsAt h i pc) : ReadsAt h' i pc := by
  cases pc with
  | scan q lastClaimed last seq shutdown => exact hr.trans hpos.symm
  | guard first last => exact fun hlast => (hr hlast).trans (by rw [hpos])
  | _ => trivial

theorem SenderMoves.position_record {pc pc' : SenderPc T} {act : SenderAct T}
    {e : Option (Event T N)} (hm : SenderMoves ring k m pc act e pc') :
    position (record e h) i = position h i := by
  cases hm <;> rfl

theorem Returns.position_record {q : RecvCall} {lc available : Int} {shutdown : Bool}
    {pc : RecvPc} {e : Option (Event T N)} (hret : Returns r j q lc available shutdown e pc) :
    position (record e h) i = position h i := by
  cases hret <;> rfl

/-- Only the release of a guard that is not empty moves a position. -/
theorem RecvMoves.position_record {pc pc' : RecvPc} {act : RecvAct} {e : Option (Event T N)}
    (hm : RecvMoves ring r j m pc act e pc')
    (hact : act ≠ .release ∨ pc.reading ≠ true ∨ i ≠ j) :
    position (record e h) i = position h i := by
  cases hm with
  | loadEmpty _ hret | scanEnd _ _ hret | scanStop _ hret => exact hret.position_record
  | @release first last hlast =>
    rcases hact with hact | hempty | hij
    · exact absurd rfl hact
    · exact absurd (bne_iff_ne.mpr hlast) hempty
    · show position (.release j first last :: h) i = position h i
      rw [position, if_neg (Ne.symm hij)]
  | _ => rfl

theorem Returns.readsAt {q : RecvCall} {lc available : Int} {shutdown : Bool} {pc : RecvPc}
    {e : Option (Event T N)} (hret : Returns r j q lc available shutdown e pc)
    (hlc : lc = position h i) : ReadsAt h i pc := by
  cases hret with
  | items => exact fun _ => by rw [hlc]
  | _ => trivial

/-- What a step of the call itself leaves it at is current. -/
theorem RecvMoves.readsAt {pc pc' : RecvPc} {act : RecvAct} {e : Option (Event T N)}
    (hm : RecvMoves ring r i m pc act e pc') (hcons : m.consumed i = position h i)
    (hr : ReadsAt h i pc) : ReadsAt (record e h) i pc' := by
  cases hm with
  | load => exact hcons
  | loadEmpty _ hret =>
    exact (hret.readsAt hcons).congr hret.position_record
  | scanNext => exact hr
  | scanEnd _ _ hret | scanStop _ hret => exact (hret.readsAt hr).congr hret.position_record
  | register | releaseEmpty | release | leak => trivial

theorem current_init (initial : Nat → T) (i₀ : Fin N) : Current (Sys.init initial i₀) :=
  fun _ hr => absurd hr (Nat.not_lt_zero _)

/-- **Released alone, whoever has read a cursor starts right after it.** -/
theorem current_step (hi : Inv ring initial σ) (hc : Current σ) (hok : LoneRelease σ l)
    (hm : Moves ring σ l σ') : Current σ' := by
  cases hm with
  | clone | dropSender | dropLast | send => exact hc
  | @sender k₀ act e pc hk₀ hst =>
    have hm := senderMoves_of_step hst
    intro r hr
    have hr : r < σ.nextRecv := by simpa using hr
    show ReadsAt (σ.perform ring e).trace ((σ.perform ring e).recvReceiver r)
      ((σ.perform ring e).recvs r)
    rw [perform_trace, perform_recvReceiver, perform_recvs]
    exact (hc r hr).congr hm.position_record
  | @recv i limit async hlive =>
    intro r hr
    have hr : r < σ.nextRecv + 1 := hr
    show ReadsAt σ.trace (Function.update σ.recvReceiver σ.nextRecv i r)
      (Function.update σ.recvs σ.nextRecv (recvStart limit async) r)
    rcases Nat.lt_succ_iff_lt_or_eq.mp hr with hlt | rfl
    · rw [Function.update_of_ne (by omega), Function.update_of_ne (by omega)]
      exact hc r hlt
    · rw [Function.update_self, Function.update_self]
      unfold recvStart
      split
      · exact fun hlast => absurd rfl hlast
      · trivial
  | @receiver r₀ act e pc hr₀ hst =>
    have hm := recvMoves_of_step hst
    have hlive := hi.borrow.live_of_recv hr₀ (recvStep_finished hst)
    intro r hr
    have hr : r < σ.nextRecv := by simpa using hr
    show ReadsAt (σ.perform ring e).trace ((σ.perform ring e).recvReceiver r)
      (Function.update σ.recvs r₀ pc r)
    rw [perform_trace, perform_recvReceiver]
    by_cases hrr : r = r₀
    · rw [hrr, Function.update_self]
      exact hm.readsAt (hi.sound.consumed_eq hlive) (hc r₀ hr₀)
    · rw [Function.update_of_ne hrr]
      by_cases hact : act = .release ∧ (σ.recvs r₀).reading = true ∧
          σ.recvReceiver r = σ.recvReceiver r₀
      · -- a release moves the position: nobody else depends on it
        obtain ⟨hrelease, hreading, hsame⟩ := hact
        exact ReadsAt.of_not_reading (hok r₀ (by rw [hrelease]) hreading r hr hrr hsame)
      · rw [not_and_or, not_and_or] at hact
        exact (hc r hr).congr (hm.position_record hact)
  | dropReceiver => exact hc

/-! ## Released in order -/

theorem position_cases (h : History T N) (i : Fin N) :
    position h i = -1 ∨ ∃ a, Event.release i a (position h i) ∈ h := by
  induction h with
  | nil => exact Or.inl rfl
  | cons e h ih =>
    have hlift : (position h i = -1 ∨ ∃ a, Event.release i a (position h i) ∈ h) →
        position h i = -1 ∨ ∃ a, Event.release i a (position h i) ∈ e :: h :=
      fun hh => hh.imp_right fun ⟨a, ha⟩ => ⟨a, List.mem_cons_of_mem e ha⟩
    cases e with
    | release j a b =>
      rw [position]
      split
      · rename_i hji
        exact Or.inr ⟨a, by rw [hji]; exact List.mem_cons_self⟩
      · exact hlift ih
    | _ => exact hlift ih

theorem ascending_init : Ascending ([] : History T N) :=
  fun _ _ _ hmem => absurd hmem List.not_mem_nil

/-- **Released alone, guards are released in order.** -/
theorem inOrder_of_loneRelease (hi : Inv ring initial σ) (hc : Current σ)
    (ha : Ascending σ.trace) (hst : step ring σ l = some σ') : InOrder σ l := by
  rintro r first last rfl hpc hlast a b hmem
  have hm := moves_of_step hst
  cases hm with
  | receiver hr hrecv =>
    have hfirst := hc r hr
    rw [hpc] at hfirst
    have hinv := hi.recv r
    rw [hpc] at hinv
    have hpos := ha _ _ _ hmem
    have hle := (hinv.2 hlast).2.1
    have heq := hfirst hlast
    omega

/-- A guard that covers anything ends at a sequence. -/
def GuardsNonneg (σ : Sys T N) : Prop :=
  ∀ r first last, σ.recvs r = .guard first last → last ≠ Sequence.init → 0 ≤ last

theorem Inv.guardsNonneg (hi : Inv ring initial σ) : GuardsNonneg σ := by
  intro r first last hpc hlast
  have hinv := hi.recv r
  rw [hpc] at hinv
  have hrange := hinv.2 hlast
  omega

/-- **Released in order, a position only moves up.** -/
theorem position_mono (hg : GuardsNonneg σ) (hok : InOrder σ l) (hm : Moves ring σ l σ')
    (i : Fin N) : position σ.trace i ≤ position σ'.trace i := by
  cases hm with
  | clone | dropSender | dropLast | send | recv | dropReceiver => exact le_refl _
  | sender hk hst =>
    show _ ≤ position (σ.perform ring _).trace i
    rw [perform_trace, (senderMoves_of_step hst).position_record]
  | @receiver r act e pc hr hst =>
    show _ ≤ position (σ.perform ring e).trace i
    rw [perform_trace]
    generalize hpc : σ.recvs r = pc₀ at hst
    cases recvMoves_of_step hst with
    | @release first last hlast =>
      show _ ≤ position (.release _ first last :: σ.trace) i
      rw [position]
      split
      · rename_i hri
        have hrange := hg r first last hpc hlast
        rcases position_cases σ.trace i with heq | ⟨a, hmem⟩
        · omega
        · exact hok r first last rfl hpc hlast a _ (by rw [hri]; exact hmem)
      · exact le_refl _
    | loadEmpty _ hret | scanEnd _ _ hret | scanStop _ hret => rw [hret.position_record]
    | _ => exact le_refl _

theorem ascending_step (hg : GuardsNonneg σ) (ha : Ascending σ.trace) (hok : InOrder σ l)
    (hm : Moves ring σ l σ') : Ascending σ'.trace := by
  intro i a b hmem
  have hmono := position_mono hg hok hm i
  have hold : Event.release i a b ∈ σ.trace → b ≤ position σ'.trace i :=
    fun h => (ha i a b h).trans hmono
  obtain ⟨e, he⟩ := hm.trace_cases
  cases e with
  | none => exact hold (by rwa [he] at hmem)
  | some e =>
    rw [he] at hmem ⊢
    rcases List.mem_cons.mp hmem with rfl | hmem
    · show b ≤ position (.release i a b :: σ.trace) i
      rw [position, if_pos rfl]
    · rw [he] at hold
      exact hold hmem

end

end EnsoChannel
