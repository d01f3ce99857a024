import EnsoChannel.Position

/-!
# Bounded lag

The argument that `slot_states.rs` gives in prose, for every run in which guards are released in
order. A claim goes at most `capacity` beyond the minimum of the cursors its gate has read; the
cursors of live receivers only move up, so the minimum of values read one after the other is still
a lower bound when the compare-exchange succeeds (`SenderLag`); so no live receiver is ever more
than `capacity` behind (`lag_step`).

* `Guarded`: the invariant of the runs of `LoneRelease`.
* `Served`: the invariant of the runs of `OneGuard`.
* `bounded_lag`: the lag of every live receiver is between 0 and the capacity, everything up to
  its cursor is published, and in the window after its cursor a slot holds the sequence or the one
  a lap before it, so the masked slot state matches exactly the published sequences. This holds
  over runs far longer than the 31 bits of the lap flag.
-/

namespace EnsoChannel

open Lib

variable {T : Type} {N : Nat}

/-- `x` is at most the position of the live receivers among the first `n`. -/
def GateLag (h : History T N) (n : Nat) (x : Int) : Prop :=
  ∀ j : Fin N, j.val < n → ¬ Dropped h j → x ≤ position h j

/-- What a claim has read bounds the positions from below. -/
def SenderLag (h : History T N) : SenderPc T → Prop
  | .maxConsumed _ _ i minConsumed => GateLag h i minConsumed
  | .compareExchange _ _ maxConsumed _ => GateLag h N maxConsumed
  | _ => True

/-- The lag is bounded, and what the claims under way have read keeps it so. -/
structure LagInv (c : Int) (σ : Sys T N) : Prop where
  lag : Lag c σ.trace
  send : ∀ k, SenderLag σ.trace (σ.sends k)

section

variable {ring : RingBufferMeta} {initial : Nat → T} {σ σ' : Sys T N} {l : Label T N}
  {h h' : History T N} {k : Nat} {m : Mem T N} {pc pc' : SenderPc T} {act : SenderAct T}
  {e : Option (Event T N)} {c : Int}

theorem Dropped.record {i : Fin N} (hd : Dropped h i) : Dropped (record e h) i := by
  cases e with
  | none => exact hd
  | some e => exact hd.cons

theorem GateLag.mono {n : Nat} {x : Int} (hg : GateLag h n x)
    (hpos : ∀ j, position h j ≤ position h' j) (hd : ∀ j, Dropped h j → Dropped h' j) :
    GateLag h' n x :=
  fun j hj hlive => (hg j hj fun hdj => hlive (hd j hdj)).trans (hpos j)

theorem SenderLag.mono (hs : SenderLag h pc) (hpos : ∀ j, position h j ≤ position h' j)
    (hd : ∀ j, Dropped h j → Dropped h' j) : SenderLag h' pc := by
  cases pc with
  | maxConsumed call last i x => exact GateLag.mono hs hpos hd
  | compareExchange call last x b => exact GateLag.mono hs hpos hd
  | _ => trivial

theorem Lag.mono (hl : Lag c h) (hhigh : highest h' = highest h)
    (hpos : ∀ j, position h j ≤ position h' j) (hd : ∀ j, Dropped h j → Dropped h' j) :
    Lag c h' := by
  intro j hj
  have hold := hl j fun hdj => hj (hd j hdj)
  have hup := hpos j
  omega

/-- A step of a sender call keeps what it has read below the positions. -/
theorem SenderMoves.senderLag (hs : Sound ring initial h m) (hl : SenderLag h pc)
    (hm : SenderMoves ring k m pc act e pc') : SenderLag (record e h) pc' := by
  cases hm with
  | load | retry => exact claimLoop_cases trivial fun _ j hj => absurd hj (Nat.not_lt_zero _)
  | @gate call last x i hi =>
    intro j hj hlive
    rcases Nat.lt_succ_iff_lt_or_eq.mp hj with hlt | heq
    · exact (min_le_left _ _).trans (hl j hlt hlive)
    · have hji : (⟨i, hi⟩ : Fin N) = j := Fin.ext heq.symm
      rw [hji, hs.consumed_eq hlive]
      exact min_le_right _ _
  | @gateEnd call last x i hi =>
    exact claimBody_cases (fun _ => trivial) fun _ j hj hlive => hl j (by omega) hlive
  | claim => cases ‹SendCall T› <;> trivial
  | closeEnd => cases ‹CloseCaller› <;> trivial
  | _ => trivial

/-- A grant stays within the lag. -/
theorem SenderMoves.lag (hi : SenderInv c h k pc) (hl : SenderLag h pc) (hlag : Lag c h)
    (hm : SenderMoves ring k m pc act e pc') : Lag c (record e h) := by
  cases hm with
  | @claim call last x b hcas =>
    obtain ⟨-, -, -, hb, -⟩ := hi
    intro j hj
    have hj' : ¬ Dropped h j := fun hd => hj hd.cons
    have hx := hl j j.isLt hj'
    have hold := hlag j hj'
    show max b (highest h) ≤ position h j + c
    omega
  | _ => exact fun j hj => hlag j fun hd => hj (Dropped.record hd)

theorem lagInv_init {c : Int} (hc : 0 < c) (initial : Nat → T) (i₀ : Fin N) :
    LagInv c (Sys.init initial i₀) where
  lag := by
    intro j _
    show (-1 : Int) ≤ -1 + c
    omega
  send _ := trivial

theorem Moves.dropped {j : Fin N} (hm : Moves ring σ l σ') (hd : Dropped σ.trace j) :
    Dropped σ'.trace j := by
  obtain ⟨e, he⟩ := hm.trace_cases
  rw [he]
  exact hd.record

/-- Only a sender call moves the highest sequence. -/
theorem RecvMoves.highest_record {r : Nat} {i : Fin N} {pc pc' : RecvPc} {act : RecvAct}
    (hm : RecvMoves ring r i m pc act e pc') : highest (record e h) = highest h := by
  cases e with
  | none => rfl
  | some e =>
    refine highest_cons_of_ne ?_
    rintro k a b rfl
    exact absurd hm.sendSide (by simp [Event.sendSide])

/-- **Released in order, no live receiver ever lags by more than the capacity.** -/
theorem lag_step (hi : Inv ring initial σ) (hl : LagInv ring.bufferSize σ) (hok : InOrder σ l)
    (hm : Moves ring σ l σ') : LagInv ring.bufferSize σ' := by
  have hpos : ∀ j, position σ.trace j ≤ position σ'.trace j :=
    fun j => position_mono hi.guardsNonneg hok hm j
  have hdrop : ∀ j, Dropped σ.trace j → Dropped σ'.trace j := fun j => hm.dropped
  constructor
  · rcases hm.event_cases with ⟨htrace, -⟩ | ⟨e, htrace, -, hfrom⟩
    · rw [htrace]
      exact hl.lag
    · rcases hfrom with ⟨k, act, pc, -, -, hsm⟩ | ⟨r, act, pc, -, -, hrm⟩ | ⟨i, -, rfl⟩
      · rw [htrace]
        exact hsm.lag (hi.send k) (hl.send k) hl.lag
      · refine hl.lag.mono ?_ hpos hdrop
        rw [htrace]
        exact hrm.highest_record
      · exact hl.lag.mono (by rw [htrace]; rfl) hpos hdrop
  · refine hm.forall_sends (J := fun _ pc => SenderLag σ.trace pc)
      (K := fun _ pc => SenderLag σ'.trace pc) hl.send ?_ (fun _ _ _ _ _ _ => trivial) ?_ ?_
    · exact fun h c _ => start_cases trivial trivial
    · intro k act e pc _ _ hsm hs htrace _
      rw [htrace]
      exact hsm.senderLag hi.sound hs
    · exact fun k _ hs => hs.mono hpos hdrop

end

/-! ## The invariants of the disciplined runs -/

/-- The invariant of the runs in which guards are released alone. -/
structure Guarded (ring : RingBufferMeta) (initial : Nat → T) (σ : Sys T N) : Prop where
  inv : Inv ring initial σ
  current : Current σ
  ascending : Ascending σ.trace
  lag : LagInv ring.bufferSize σ

/-- The invariant of the runs with one guard at a time. -/
structure Served (ring : RingBufferMeta) (initial : Nat → T) (σ : Sys T N) : Prop where
  guarded : Guarded ring initial σ
  solo : Solo σ

section

variable {ring : RingBufferMeta} {initial : Nat → T} {σ σ' : Sys T N} {l : Label T N}

theorem guarded_init (ring : RingBufferMeta) (initial : Nat → T) (i₀ : Fin N) :
    Guarded ring initial (Sys.init initial i₀) :=
  ⟨inv_init ring initial i₀, current_init initial i₀, ascending_init,
    lagInv_init ring.bufferSize_pos initial i₀⟩

theorem guarded_step (hg : Guarded ring initial σ) (hrange : InRange ring σ l)
    (hok : LoneRelease σ l) (hst : step ring σ l = some σ') : Guarded ring initial σ' := by
  have hm := moves_of_step hst
  have horder := inOrder_of_loneRelease hg.inv hg.current hg.ascending hst
  exact ⟨inv_step hg.inv hrange hst, current_step hg.inv hg.current hok hm,
    ascending_step hg.inv.guardsNonneg hg.ascending horder hm, lag_step hg.inv hg.lag horder hm⟩

theorem served_init (ring : RingBufferMeta) (initial : Nat → T) (i₀ : Fin N) :
    Served ring initial (Sys.init initial i₀) :=
  ⟨guarded_init ring initial i₀, solo_init initial i₀⟩

theorem served_step (hs : Served ring initial σ) (hrange : InRange ring σ l)
    (hok : OneGuard σ l) (hst : step ring σ l = some σ') : Served ring initial σ' :=
  ⟨guarded_step hs.guarded hrange (loneRelease_of_oneGuard hs.solo hst) hst,
    solo_step hs.solo hok (moves_of_step hst)⟩

/-- Every run in range with one guard at a time keeps `Served`. -/
theorem Served.of_run {ok : Sys T N → Label T N → Prop} {ls : List (Label T N)}
    (hok : ∀ {σ l}, ok σ l → InRange ring σ l ∧ OneGuard σ l) (hs : Served ring initial σ)
    (hrun : Run (step ring) ok σ ls σ') : Served ring initial σ' :=
  hrun.invariant (fun hs h hst => served_step hs (hok h).1 (hok h).2 hst) hs

/-- A step in range that releases no guard next to another keeps `Guarded`. -/
theorem Guarded.keep {ok : Sys T N → Label T N → Prop}
    (hok : ∀ {σ l}, ok σ l → InRange ring σ l ∧ LoneRelease σ l) (hg : Guarded ring initial σ)
    (hl : ok σ l) (hst : step ring σ l = some σ') : Guarded ring initial σ' :=
  guarded_step hg (hok hl).1 (hok hl).2 hst

/-- Every run in range in which guards are released alone keeps `Guarded`. -/
theorem Guarded.of_run {ok : Sys T N → Label T N → Prop} {ls : List (Label T N)}
    (hok : ∀ {σ l}, ok σ l → InRange ring σ l ∧ LoneRelease σ l) (hg : Guarded ring initial σ)
    (hrun : Run (step ring) ok σ ls σ') : Guarded ring initial σ' :=
  hrun.invariant (Guarded.keep hok) hg

end

/-! ## The lag and the lap flags -/

/-- The sequence of the last publish in slot `n`. -/
def lastPublish (ring : RingBufferMeta) : History T N → Nat → Option Int
  | [], _ => none
  | .publish _ s :: h, n => if ring.indexOfSeq s = n then some s else lastPublish ring h n
  | _ :: h, n => lastPublish ring h n

section

variable {ring : RingBufferMeta} {initial : Nat → T} {σ : Sys T N}

/-- A cell holds its last publish, or its initial number. -/
theorem held_eq_lastPublish (h : History T N) (s : Int) :
    held ring.bufferSize h (s % ring.bufferSize) =
      (lastPublish ring h (ring.indexOfSeq s)).getD (s % ring.bufferSize - ring.bufferSize) := by
  induction h with
  | nil => rfl
  | cons e h ih =>
    cases e with
    | publish k t =>
      rw [held, lastPublish]
      by_cases hcell : t % ring.bufferSize = s % ring.bufferSize
      · rw [if_pos hcell, if_pos ((RingBufferMeta.indexOfSeq_eq_iff ring).mpr hcell)]
        rfl
      · rw [if_neg hcell, if_neg fun hi => hcell ((RingBufferMeta.indexOfSeq_eq_iff ring).mp hi)]
        exact ih
    | _ => exact ih

/-- What a slot of a receiver's window last held. -/
theorem lastPublish_window {h : History T N} {i : Fin N} {s : Int} (hl : Legal ring.bufferSize h)
    (hlag : Lag ring.bufferSize h) (hi : ¬ Dropped h i) (h₀ : position h i < s)
    (h₁ : s ≤ position h i + ring.bufferSize) :
    lastPublish ring h (ring.indexOfSeq s) = some s ∨
      lastPublish ring h (ring.indexOfSeq s) = some (s - ring.bufferSize) ∨
      (lastPublish ring h (ring.indexOfSeq s) = none ∧ s < ring.bufferSize) := by
  have hc := ring.bufferSize_pos
  have hwin := hlag.held_window hc hl hi h₀ h₁
  have hpos := neg_one_le_position (i := i) hl
  have hmod := Int.emod_lt_of_pos s hc
  rw [held_eq_lastPublish] at hwin
  cases hlast : lastPublish ring h (ring.indexOfSeq s) with
  | some t =>
    rw [hlast] at hwin
    by_cases hp : Published h s
    · exact Or.inl (congrArg some (hwin.1 hp))
    · exact Or.inr (Or.inl (congrArg some (hwin.2 hp)))
  | none =>
    rw [hlast] at hwin
    refine Or.inr (Or.inr ⟨rfl, ?_⟩)
    by_cases hp : Published h s
    · have heq : s % ring.bufferSize - ring.bufferSize = s := hwin.1 hp
      omega
    · have heq : s % ring.bufferSize - ring.bufferSize = s - ring.bufferSize := hwin.2 hp
      omega

/-- In the window of a live receiver the masked slot state matches exactly what is published. -/
theorem LagInv.flag_iff (hi : Inv ring initial σ) (hl : LagInv ring.bufferSize σ) {i : Fin N}
    (hd : ¬ Dropped σ.trace i) {s : Int} (h₀ : position σ.trace i < s)
    (h₁ : s ≤ position σ.trace i + ring.bufferSize) :
    lapOf (σ.mem.states (ring.indexOfSeq s)) = ring.availableFlag s ↔ Published σ.trace s := by
  have hpos := neg_one_le_position (i := i) hi.sound.legal
  have hhigh := position_le_highest (i := i) hi.sound.legal
  rw [hi.sound.mem]
  refine flag_iff_published hi.sound.legal (by omega) (by omega) fun t ht hcell => ?_
  exact hl.lag.le_of_cell hi.sound.legal hd h₀ ht hcell

/-- **Bounded lag, and no lap-flag false positive**, in every state of every run with one guard
at a time: whatever panics, leaks, drops of receivers and racing closes it contains. -/
theorem bounded_lag {i₀ : Fin N} {ls : List (Label T N)}
    (hrun : Run (step ring) (fun σ l => InRange ring σ l ∧ OneGuard σ l) (Sys.init initial i₀) ls σ)
    (i : Fin N) (hlive : σ.receivers i = true) :
    (0 ≤ highest σ.trace - σ.mem.consumed i ∧
        highest σ.trace - σ.mem.consumed i ≤ ring.bufferSize) ∧
      (∀ s, 0 ≤ s → s ≤ σ.mem.consumed i → Published σ.trace s) ∧
      ∀ s, σ.mem.consumed i + 1 ≤ s → s ≤ σ.mem.consumed i + ring.bufferSize →
        (lastPublish ring σ.trace (ring.indexOfSeq s) = some s ∨
          lastPublish ring σ.trace (ring.indexOfSeq s) = some (s - ring.bufferSize) ∨
          (lastPublish ring σ.trace (ring.indexOfSeq s) = none ∧ s < ring.bufferSize)) ∧
        (lapOf (σ.mem.states (ring.indexOfSeq s)) = ring.availableFlag s ↔
          Published σ.trace s) := by
  have hs := (served_init ring initial i₀).of_run id hrun
  have hi := hs.guarded.inv
  have hl := hs.guarded.lag
  have hd : ¬ Dropped σ.trace i := by
    rw [hi.borrow.dropped, hlive]
    simp
  rw [hi.sound.consumed_eq hd]
  have hhigh := position_le_highest (i := i) hi.sound.legal
  have hlag := hl.lag i hd
  refine ⟨⟨by omega, by omega⟩, fun s h₀ h₁ => published_of_position hi.sound.legal h₀ h₁,
    fun s h₀ h₁ => ⟨?_, hl.flag_iff hi hd (by omega) h₁⟩⟩
  exact lastPublish_window hi.sound.legal hl.lag hd (by omega) h₁

/-- A ring of one slot, once around: an item is sent, received and released, and the next one is
sent into the same slot. -/
theorem bounded_lag_one_slot :
    ∃ (ls : List (Label Nat 1)) (σ : Sys Nat 1),
      Run (step ⟨0, by decide⟩) (fun σ l => InRange ⟨0, by decide⟩ σ l ∧ OneGuard σ l)
          (Sys.init (fun _ => 0) 0) ls σ ∧
        highest σ.trace = 1 ∧ σ.mem.consumed 0 = 0 ∧
          (lapOf (σ.mem.states 0) = RingBufferMeta.availableFlag ⟨0, by decide⟩ 1 ↔
            Published σ.trace 1) := by
  have hex : (exec (step ⟨0, by decide⟩)
      (fun σ l => InRange ⟨0, by decide⟩ σ l ∧ OneGuard σ l) (Sys.init (fun _ => 0) 0)
      (List.flatten [[.send 0 (.trySend 7)], List.replicate 9 (.sender 0 .run),
        [.recv 0 1 false, .receiver 0 .run, .receiver 0 .run, .receiver 0 .release,
          .send 0 (.trySend 8)], List.replicate 9 (.sender 1 .run)])).any
      (fun σ : Sys Nat 1 =>
        decide (highest σ.trace = 1 ∧ σ.mem.consumed 0 = 0 ∧ σ.receivers 0 = true)) = true := by
    decide +kernel
  obtain ⟨σ, hrun, hσ⟩ := Run.of_exec_any hex
  obtain ⟨h₁, h₂, hlive⟩ := of_decide_eq_true hσ
  have hwin := (bounded_lag hrun 0 hlive).2.2 1 (by rw [h₂]; decide) (by rw [h₂]; decide)
  exact ⟨_, σ, hrun, h₁, h₂, hwin.2⟩

end

end EnsoChannel
