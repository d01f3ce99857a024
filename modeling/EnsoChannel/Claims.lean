import EnsoChannel.Disconnect
import EnsoChannel.Guards
import Mathlib.Data.Finset.Max
import Mathlib.Data.Fintype.Basic

/-!
# Claims are linearizable

What the claim loop promises although it reads `claimed` and the `N` cursors one after the other,
in every run in which guards are released in order (so that cursors only move up).

* `grants_disjoint`, `mem_grants_iff`: the granted ranges are disjoint and cover `0 … H` exactly.
* `ReadMin` is the instant at which a call read the cursor that gave its minimum, and `GateLog` the
  invariant that every call past that point has gone through it. `grant_lower`: a grant is at
  least the minimum of the limit and the slots free at that instant. `full_at`: a call whose
  minimum left nothing free read it when the channel was really full.
* `linearizable_claims` puts them together.
-/

namespace EnsoChannel

open Lib

variable {T : Type} {N : Nat}

/-- The granted ranges, newest first. -/
def grants : History T N → List (Int × Int)
  | [] => []
  | .claim _ a b :: h => (a, b) :: grants h
  | _ :: h => grants h

/-- `x` is the cursor of the slowest live receiver. -/
def Sys.Slowest (σ : Sys T N) (x : Int) : Prop :=
  (∃ i, σ.receivers i = true ∧ σ.mem.consumed i = x) ∧
    ∀ i, σ.receivers i = true → x ≤ σ.mem.consumed i

/-- There are `n` free slots. -/
def Sys.Free (ring : RingBufferMeta) (σ : Sys T N) (n : Int) : Prop :=
  ∃ x, σ.Slowest x ∧ n = ring.bufferSize - (σ.mem.claimed - x)

/-- Call `k`, with `claimed` read as `last`, is about to read the cursor of a live receiver, and
that cursor is `x`. -/
def ReadMin (k : Nat) (c : SendCall T) (last x : Int) (σ : Sys T N) : Prop :=
  ∃ j minConsumed, σ.sends k = .maxConsumed c last j.val minConsumed ∧ σ.receivers j = true ∧
    σ.mem.consumed j = x

/-- Call `k` is in its gate, and the channel is full or shut down. -/
def FullAt (ring : RingBufferMeta) (k : Nat) (σ : Sys T N) : Prop :=
  (∃ c last i minConsumed, σ.sends k = .maxConsumed c last i minConsumed) ∧
    (σ.Free ring 0 ∨ hasShutdown σ.mem.claimed = true)

/-! ## The granted ranges -/

section

variable {ring : RingBufferMeta} {initial : Nat → T} {σ σ' : Sys T N} {l : Label T N}
  {h : History T N} {c : Int} {k : Nat}

/-- Nothing above the highest claim is granted. -/
theorem le_highest_of_mem_grants {g : Int × Int} (hg : g ∈ grants h) : g.2 ≤ highest h := by
  induction h with
  | nil => exact absurd hg List.not_mem_nil
  | cons e h ih =>
    cases e with
    | claim k a b =>
      rcases List.mem_cons.mp hg with rfl | hg
      · exact le_max_left _ _
      · exact (ih hg).trans (le_max_right _ _)
    | _ => exact ih hg

/-- **The granted ranges are pairwise disjoint.** -/
theorem grants_disjoint (hl : Legal c h) :
    (grants h).Pairwise fun g g' => ∀ s, ¬ ((g.1 ≤ s ∧ s ≤ g.2) ∧ g'.1 ≤ s ∧ s ≤ g'.2) := by
  induction h with
  | nil => exact List.Pairwise.nil
  | cons e h ih =>
    cases e with
    | claim k a b =>
      obtain ⟨hl, ha, -, -⟩ := hl
      refine List.Pairwise.cons (fun g hg s hs => ?_) (ih hl)
      have hle := le_highest_of_mem_grants hg
      omega
    | _ => exact ih hl.1

/-- **The granted ranges cover `0 … H` exactly.** -/
theorem mem_grants_iff (hl : Legal c h) (s : Int) :
    (∃ g ∈ grants h, g.1 ≤ s ∧ s ≤ g.2) ↔ 0 ≤ s ∧ s ≤ highest h := by
  induction h with
  | nil =>
    constructor
    · rintro ⟨g, hg, -⟩
      exact absurd hg List.not_mem_nil
    · rintro ⟨h₀, h₁⟩
      have h₁ : s ≤ -1 := h₁
      omega
  | cons e h ih =>
    cases e with
    | claim k a b =>
      obtain ⟨hl, ha, hab, -⟩ := hl
      have hneg := neg_one_le_highest h
      have hold := ih hl
      show (∃ g ∈ (a, b) :: grants h, g.1 ≤ s ∧ s ≤ g.2) ↔ 0 ≤ s ∧ s ≤ max b (highest h)
      constructor
      · rintro ⟨g, hg, hs⟩
        rcases List.mem_cons.mp hg with rfl | hg
        · have hs : a ≤ s ∧ s ≤ b := hs
          omega
        · have := hold.mp ⟨g, hg, hs⟩
          omega
      · rintro ⟨h₀, h₁⟩
        rcases lt_or_ge (highest h) s with hlt | hge
        · exact ⟨(a, b), List.mem_cons_self, by show a ≤ s ∧ s ≤ b; omega⟩
        · obtain ⟨g, hg, hs⟩ := hold.mpr ⟨h₀, hge⟩
          exact ⟨g, List.mem_cons_of_mem _ hg, hs⟩
    | _ => exact ih hl.1

/-! ## The slowest receiver -/

theorem exists_slowest {j : Fin N} (hj : σ.receivers j = true) : ∃ x, σ.Slowest x := by
  obtain ⟨i, hi, hmin⟩ := Finset.exists_min_image
    (Finset.univ.filter fun i => σ.receivers i = true) σ.mem.consumed
    ⟨j, Finset.mem_filter.mpr ⟨Finset.mem_univ j, hj⟩⟩
  refine ⟨σ.mem.consumed i, ⟨i, (Finset.mem_filter.mp hi).2, rfl⟩, fun i' hi' => ?_⟩
  exact hmin i' (Finset.mem_filter.mpr ⟨Finset.mem_univ i', hi'⟩)

theorem Inv.not_dropped {i : Fin N} (hi : Inv ring initial σ) (hlive : σ.receivers i = true) :
    ¬ Dropped σ.trace i := by
  rw [hi.borrow.dropped, hlive]
  simp

/-- No more than the capacity is free, and a shut cursor apart `claimed` is the highest claim. -/
theorem Inv.slowest_le {x : Int} (hi : Inv ring initial σ) (hx : σ.Slowest x) :
    x ≤ highest σ.trace := by
  obtain ⟨⟨i, hlive, rfl⟩, -⟩ := hx
  rw [hi.sound.consumed_eq (hi.not_dropped hlive)]
  exact position_le_highest hi.sound.legal

/-- **Nothing free means full.** A call that reads a minimum a whole capacity behind the `claimed`
it has read, reads it while the channel is full or shut down. -/
theorem full_at {c : SendCall T} {last x : Int} (hi : Inv ring initial σ)
    (hl : LagInv ring.bufferSize σ) (hr : ReadMin k c last x σ)
    (hfull : x + ring.bufferSize ≤ last) :
    FullAt ring k σ := by
  obtain ⟨j, mn, hpc, hlive, hx⟩ := hr
  refine ⟨⟨c, last, j, mn, hpc⟩, ?_⟩
  by_cases hshut : hasShutdown σ.mem.claimed = true
  · exact Or.inr hshut
  have hinv := hi.send k
  rw [hpc] at hinv
  have hlast : last ≤ highest σ.trace := hinv.2.2.1
  have hopen := hi.sound.claimed.eq_highest hi.sound.bound
    (hasShutdown_eq_false.mp (Bool.eq_false_iff.mpr hshut))
  have hbound : ∀ i, σ.receivers i = true →
      highest σ.trace ≤ σ.mem.consumed i + ring.bufferSize := by
    intro i hi'
    have hd := hi.not_dropped hi'
    rw [hi.sound.consumed_eq hd]
    exact hl.lag i hd
  have hj := hbound j hlive
  refine Or.inl ⟨x, ⟨⟨j, hlive, hx⟩, fun i hi' => ?_⟩, ?_⟩
  · have := hbound i hi'
    omega
  · omega

end

/-! ## The instant that decided -/

/-- The runs of the claims: in range, guards released in order. -/
def ClaimOk (ring : RingBufferMeta) (σ : Sys T N) (l : Label T N) : Prop :=
  InRange ring σ l ∧ InOrder σ l

/-- What the run says about a call past its minimum: it went through the instant that gave it. -/
def GateLog (ring : RingBufferMeta) (σ₀ : Sys T N) (ls : List (Label T N)) (σ : Sys T N) (k : Nat) :
    SenderPc T → Prop
  | .maxConsumed c last _ minConsumed =>
    minConsumed = Sequence.shutdownOpen ∨
      Passed (step ring) (ClaimOk ring) σ₀ ls σ (ReadMin k c last minConsumed)
  | .compareExchange c last maxConsumed _ =>
    Passed (step ring) (ClaimOk ring) σ₀ ls σ (ReadMin k c last maxConsumed)
  | .refused .empty => Passed (step ring) (ClaimOk ring) σ₀ ls σ (FullAt ring k)
  | _ => True

/-- The invariant of these runs. -/
structure Claimed (ring : RingBufferMeta) (initial : Nat → T) (σ : Sys T N) : Prop where
  inv : Inv ring initial σ
  lag : LagInv ring.bufferSize σ

section

variable {ring : RingBufferMeta} {initial : Nat → T} {σ₀ σ σ' : Sys T N} {l : Label T N}
  {ls : List (Label T N)} {k : Nat} {pc pc' : SenderPc T} {act : SenderAct T}

theorem claimed_init (ring : RingBufferMeta) (initial : Nat → T) (i₀ : Fin N) :
    Claimed ring initial (Sys.init initial i₀) :=
  ⟨inv_init ring initial i₀, lagInv_init ring.bufferSize_pos initial i₀⟩

theorem claimed_step (hc : Claimed ring initial σ) (hok : ClaimOk ring σ l)
    (hst : step ring σ l = some σ') : Claimed ring initial σ' :=
  ⟨inv_step hc.inv hok.1 hst, lag_step hc.inv hc.lag hok.2 (moves_of_step hst)⟩

theorem GateLog.snoc (hg : GateLog ring σ₀ ls σ k pc) (hok : ClaimOk ring σ l)
    (hst : step ring σ l = some σ') : GateLog ring σ₀ (ls ++ [l]) σ' k pc := by
  cases pc with
  | maxConsumed c last i x => exact hg.imp_right fun hp => hp.snoc hok hst
  | compareExchange c last x b => exact Passed.snoc hg hok hst
  | refused e =>
    cases e with
    | empty => exact Passed.snoc hg hok hst
    | shutdown => trivial
  | _ => trivial

theorem gateLog_claimLoop {c : SendCall T} {raw : Int} :
    GateLog ring σ₀ ls σ k (claimLoop c raw) := by
  unfold claimLoop
  split
  · trivial
  · exact Or.inl rfl

/-- A minimum that leaves nothing free was read when the channel was full. -/
theorem gateLog_claimBody {c : SendCall T} {last x : Int} {i : Nat}
    (h₀ : Claimed ring initial σ₀) (hg : GateLog ring σ₀ ls σ k (.maxConsumed c last i x)) :
    GateLog ring σ₀ ls σ k (claimBody ring c last x) := by
  unfold claimBody
  split
  · trivial
  · rename_i hx
    have hp := hg.resolve_left hx
    simp only [RingBufferMeta.availableSlots_eq]
    split
    · rename_i hfull
      refine Passed.imp hp fun hpre _ hr => ?_
      have hc := hpre.invariant (fun hc hok hst => claimed_step hc hok hst) h₀
      exact full_at hc.inv hc.lag hr (by omega)
    · exact hp

/-- A step of the call itself. -/
theorem SenderMoves.gateLog {e : Option (Event T N)} (h₀ : Claimed ring initial σ₀)
    (hrun : Run (step ring) (ClaimOk ring) σ₀ ls σ) (hi : Inv ring initial σ)
    (hsm : SenderMoves ring k σ.mem pc act e pc') (hpc : σ.sends k = pc)
    (hg : GateLog ring σ₀ ls σ k pc) : GateLog ring σ₀ ls σ k pc' := by
  cases hsm with
  | load | retry => exact gateLog_claimLoop
  | @gate c last x i hlt =>
    by_cases hlive : σ.receivers ⟨i, hlt⟩ = true
    · rcases le_or_gt x (σ.mem.consumed ⟨i, hlt⟩) with hle | hgt
      · rw [min_eq_left hle]
        exact hg
      · rw [min_eq_right hgt.le]
        exact Or.inr (Passed.now hrun ⟨⟨i, hlt⟩, x, hpc, hlive, rfl⟩)
    · have hd : Dropped σ.trace ⟨i, hlt⟩ :=
        (hi.borrow.dropped _).mpr (Bool.eq_false_iff.mpr hlive)
      have hinv := hi.send k
      rw [hpc] at hinv
      have hle : x ≤ Sequence.shutdownOpen := by
        have hb := hi.sound.bound
        rcases hinv.2.2.2 with ⟨hx, -⟩ | ⟨-, hx, -⟩
        · exact hx.le
        · unfold Sequence.shutdownOpen i64Max
          omega
      rw [hi.sound.consumed_of_dropped hd, min_eq_left hle]
      exact hg
  | gateEnd => exact gateLog_claimBody h₀ hg
  | claim => cases ‹SendCall T› <;> trivial
  | closeEnd => cases ‹CloseCaller› <;> trivial
  | _ => trivial

theorem gateLog_of_run {i₀ : Fin N}
    (hrun : Run (step ring) (ClaimOk ring) (Sys.init initial i₀) ls σ) :
    ∀ k, GateLog ring (Sys.init initial i₀) ls σ k (σ.sends k) := by
  have h₀ := claimed_init ring initial i₀
  refine hrun.invariant_log (I := Claimed ring initial)
    (J := fun ls σ => ∀ k, GateLog ring (Sys.init initial i₀) ls σ k (σ.sends k))
    (fun hc hok hst => claimed_step hc hok hst) ?_ h₀ fun _ => trivial
  intro ls l σ σ' hrun hc hg hok hst
  refine (moves_of_step hst).forall_sends
    (J := fun k pc => σ.sends k = pc ∧ GateLog ring (Sys.init initial i₀) ls σ k pc)
    (K := fun k pc => GateLog ring (Sys.init initial i₀) (ls ++ [l]) σ' k pc)
    (fun k => ⟨rfl, hg k⟩) ?_ (fun _ _ _ _ _ _ => trivial) ?_ ?_
  · exact fun h c _ => start_cases trivial trivial
  · intro k act e pc _ _ hsm hJ _ _
    exact (hsm.gateLog h₀ hrun hc.inv rfl hJ.2).snoc hok hst
  · exact fun k _ hJ => hJ.2.snoc hok hst

/-- The highest claim only moves up. -/
theorem Moves.highest_le (hm : Moves ring σ l σ') : highest σ.trace ≤ highest σ'.trace := by
  obtain ⟨e, he⟩ := hm.trace_cases
  rw [he]
  cases e with
  | none => exact le_refl _
  | some e => exact highest_le_cons

/-- **A grant is at least what was free** at the instant that gave its minimum. -/
theorem grant_lower {c : SendCall T} {last x b : Int} {m : Sys T N}
    {l₂ : List (Label T N)} (hm : Claimed ring initial m)
    (hrun : Run (step ring) (ClaimOk ring) m l₂ σ) (hpc : σ.sends k = .compareExchange c last x b)
    (hcas : σ.mem.claimed = last) (hr : ReadMin k c last x m) :
    ∃ n, m.Free ring n ∧ min c.limit n ≤ b - last := by
  obtain ⟨j, mn, hmpc, hlive, hx⟩ := hr
  have hstep : ∀ {σ σ' : Sys T N} {l}, Claimed ring initial σ → ClaimOk ring σ l →
      step ring σ l = some σ' → Claimed ring initial σ' := fun hc hok hst => claimed_step hc hok hst
  have hσ := hrun.invariant hstep hm
  -- nothing was claimed, and nothing shut down, between the two instants
  have hrel : highest m.trace ≤ highest σ.trace ∧
      (hasShutdown m.mem.claimed = true → hasShutdown σ.mem.claimed = true) := by
    refine Run.relate (R := fun m σ : Sys T N => highest m.trace ≤ highest σ.trace ∧
      (hasShutdown m.mem.claimed = true → hasShutdown σ.mem.claimed = true)) ?_ ?_ hstep ?_ hrun hm
    · exact fun _ => ⟨le_refl _, id⟩
    · exact fun h₁ h₂ => ⟨h₁.1.trans h₂.1, h₂.2 ∘ h₁.2⟩
    · intro σ l σ' hc _ hst
      exact ⟨(moves_of_step hst).highest_le, hasShutdown_step hc.inv (moves_of_step hst)⟩
  have hinv := hσ.inv.send k
  rw [hpc] at hinv
  obtain ⟨hlimit, h₀, h₁, hb, -⟩ := hinv
  have hminv := hm.inv.send k
  rw [hmpc] at hminv
  have hlast : last ≤ highest m.trace := hminv.2.2.1
  have hhigh : last = highest σ.trace := by
    rw [← hcas]
    exact hσ.inv.sound.claimed.eq_highest hσ.inv.sound.bound (by omega)
  have hopen : hasShutdown m.mem.claimed = false := by
    rw [Bool.eq_false_iff]
    intro hshut
    have := hasShutdown_eq_true.mp (hrel.2 hshut)
    omega
  have hmclaimed := hm.inv.sound.claimed.eq_highest hm.inv.sound.bound
    (hasShutdown_eq_false.mp hopen)
  obtain ⟨y, hy⟩ := exists_slowest hlive
  have hyx := hy.2 j hlive
  have hyh := hm.inv.slowest_le hy
  refine ⟨_, ⟨y, hy, rfl⟩, ?_⟩
  omega

/-- **Linearizable claims**, in every run in range in which guards are released in order:
the grants partition `0 … H`; a grant is bounded above by what is free at its compare-exchange and
below by what was free when its call read the cursor that gave the minimum; and a call that returns
`Empty` passed through an instant at which the channel was full or shut down. -/
theorem linearizable_claims {i₀ : Fin N}
    (hrun : Run (step ring) (ClaimOk ring) (Sys.init initial i₀) ls σ) :
    ((grants σ.trace).Pairwise
        (fun g g' => ∀ s, ¬ ((g.1 ≤ s ∧ s ≤ g.2) ∧ g'.1 ≤ s ∧ s ≤ g'.2)) ∧
      ∀ s, (∃ g ∈ grants σ.trace, g.1 ≤ s ∧ s ≤ g.2) ↔ 0 ≤ s ∧ s ≤ highest σ.trace) ∧
    (∀ l σ' k a b, step ring σ l = some σ' → σ'.trace = .claim k a b :: σ.trace →
      ∃ c last x, σ.sends k = .compareExchange c last x b ∧ 1 ≤ b + 1 - a ∧
        b + 1 - a ≤ min c.limit ring.bufferSize ∧
        (∀ n, σ.Free ring n → b + 1 - a ≤ n) ∧
        Passed (step ring) (ClaimOk ring) (Sys.init initial i₀) ls σ fun m =>
          ReadMin k c last x m ∧ ∃ n, m.Free ring n ∧ min c.limit n ≤ b + 1 - a) ∧
    ∀ k, σ.sends k = .refused .empty →
      Passed (step ring) (ClaimOk ring) (Sys.init initial i₀) ls σ (FullAt ring k) := by
  have h₀ := claimed_init ring initial i₀
  have hc := hrun.invariant (fun hc hok hst => claimed_step hc hok hst) h₀
  have hlog := gateLog_of_run hrun
  have hl := hc.inv.sound.legal
  refine ⟨⟨grants_disjoint hl, mem_grants_iff hl⟩, ?_, fun k hk => ?_⟩
  · intro l σ' k a b hst htrace
    obtain ⟨k', act, pc, -, -, -, hsm⟩ := (moves_of_step hst).of_sendSide htrace rfl
    have hinv := hc.inv.send k'
    have hlag := hc.lag.send k'
    have hgate := hlog k'
    generalize hpc : σ.sends k' = pc₀ at hsm hinv hlag hgate
    cases hsm with
    | @claim c last x b hcas =>
      obtain ⟨hlimit, hlo, hlt, hb, -⟩ := hinv
      refine ⟨c, last, x, hpc, by omega, by omega, ?_, ?_⟩
      · rintro n ⟨y, ⟨⟨i, hlive, hi⟩, -⟩, rfl⟩
        have hd := hc.inv.not_dropped hlive
        have hle : x ≤ position σ.trace i := hlag i i.isLt hd
        rw [hc.inv.sound.consumed_eq hd] at hi
        omega
      · refine Passed.imp hgate fun hpre hpost hr => ⟨hr, ?_⟩
        have hm := hpre.invariant (fun hc hok hst => claimed_step hc hok hst) h₀
        obtain ⟨n, hfree, hn⟩ := grant_lower hm hpost hpc hcas hr
        exact ⟨n, hfree, by omega⟩
  · have hk' := hlog k
    rw [hk] at hk'
    exact hk'

/-- A ring of one slot: the second of two claims finds it full, and went through an instant at
which it was. -/
theorem linearizable_claims_full :
    ∃ (ls : List (Label Nat 1)) (σ : Sys Nat 1),
      Run (step ⟨0, by decide⟩) (ClaimOk ⟨0, by decide⟩) (Sys.init (fun _ => 0) 0) ls σ ∧
        grants σ.trace = [(0, 0)] ∧ σ.sends 1 = .refused .empty ∧
          Passed (step ⟨0, by decide⟩) (ClaimOk ⟨0, by decide⟩) (Sys.init (fun _ => 0) 0) ls σ
            (FullAt ⟨0, by decide⟩ 1) := by
  have hex : (exec (step ⟨0, by decide⟩)
      (fun σ l => InRange ⟨0, by decide⟩ σ l ∧ releaseCheck σ l = true) (Sys.init (fun _ => 0) 0)
      (List.flatten [[.send 0 (.trySend 7)], List.replicate 9 (.sender 0 .run),
        [.send 0 (.trySend 8)],
        List.replicate 3 (.sender 1 .run)])).any
      (fun σ : Sys Nat 1 => decide (grants σ.trace = [(0, 0)] ∧
        σ.sends 1 = .refused .empty)) = true := by
    decide +kernel
  obtain ⟨σ, hrun, hσ⟩ := Run.of_exec_any hex
  obtain ⟨hgrants, hfull⟩ := of_decide_eq_true hσ
  have hrun : Run _ (ClaimOk ⟨0, by decide⟩) _ _ _ :=
    hrun.mono fun hok => ⟨hok.1, (inOrder_of_check hok.2).1⟩
  exact ⟨_, σ, hrun, hgrants, hfull, (linearizable_claims hrun).2.2 1 hfull⟩

end

end EnsoChannel
