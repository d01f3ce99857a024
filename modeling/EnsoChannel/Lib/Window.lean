import Mathlib.Data.Int.ModEq
import Mathlib.Order.Bounds.Basic
import Mathlib.Tactic.Linarith

/-!
# Residues in a window, and the frontier of a set of integers

A ring of `c` cells holds a sequence number in the cell of its residue modulo `c`. Two numbers
share a cell iff they differ by whole laps, so any `c` consecutive numbers have distinct cells.

* `lap_le`: two numbers of one cell are a lap apart or equal.
* `eq_of_emod_eq`: in a window of width `c` the cell determines the number.
* `exists_emod_eq`: every cell is met in every window of width `c`.
* `Frontier P f`: `f` is the first non-negative number outside `P`. It exists for a set that is
  bounded above (`exists_frontier`), and it only moves up when the set grows (`Frontier.mono`).
* `Extent P a b r`: from `a` on, and not beyond `b`, the numbers of `P` reach without a gap as far
  as `r` (`a - 1` if `a` is none of them). It is the largest such number (`Extent.isGreatest`), so
  it is unique (`Extent.unique`); starting later inside the run changes nothing (`Extent.later`),
  and two scans in a row reach as far as one (`Extent.append`).
-/

namespace EnsoChannel.Lib

/-! ## Windows -/

section Window

variable {c a b : Int}

/-- Two numbers of the same cell, the first one smaller, are at least one lap apart. -/
theorem lap_le (h : a % c = b % c) (hlt : a < b) : a + c ≤ b := by
  have hdvd : c ∣ b - a := Int.ModEq.dvd h
  have := Int.le_of_dvd (by omega) hdvd
  omega

/-- In a window of width `c` the cell determines the number. -/
theorem eq_of_emod_eq (h : a % c = b % c) (h₁ : a - b < c) (h₂ : b - a < c) : a = b := by
  rcases lt_trichotomy a b with hlt | heq | hgt
  · have := lap_le h hlt
    omega
  · exact heq
  · have := lap_le h.symm hgt
    omega

/-- Every cell is met in the window `(x, x + c]`. -/
theorem exists_emod_eq (hc : 0 < c) (x r : Int) : ∃ t, x < t ∧ t ≤ x + c ∧ t % c = r % c := by
  refine ⟨x + c - (x - r) % c, ?_, ?_, ?_⟩
  · have := Int.emod_lt_of_pos (x - r) hc
    omega
  · have := Int.emod_nonneg (x - r) (by omega : c ≠ 0)
    omega
  · have h : x + c - (x - r) % c = r + c * ((x - r) / c + 1) := by
      have := Int.emod_add_mul_ediv (x - r) c
      rw [mul_add, mul_one]
      omega
    rw [h, Int.add_mul_emod_self_left]

end Window

/-! ## The frontier -/

/-- `f` is the first non-negative number outside `P`. -/
structure Frontier (P : Int → Prop) (f : Int) : Prop where
  nonneg : 0 ≤ f
  below : ∀ s, 0 ≤ s → s < f → P s
  outside : ¬ P f

variable {P Q : Int → Prop} {f g : Int}

/-- A set with no member above `b` has a frontier. -/
theorem exists_frontier {b : Int} (hb : ∀ s, P s → s ≤ b) : ∃ f, Frontier P f := by
  classical
  have hex : ∃ n : Nat, ¬ P n := by
    refine ⟨(b + 1).toNat, fun h => ?_⟩
    have := hb _ h
    omega
  refine ⟨(Nat.find hex : Nat), by omega, fun s hs hlt => ?_, Nat.find_spec hex⟩
  have hs' : s.toNat < Nat.find hex := by omega
  have := Nat.find_min hex hs'
  rw [not_not, Int.toNat_of_nonneg hs] at this
  exact this

/-- A number all of whose predecessors are in `Q` is at most the frontier of `Q`. -/
theorem Frontier.le_of_below (hg : Frontier Q g) (h : ∀ s, 0 ≤ s → s < f → Q s) : f ≤ g := by
  by_contra hlt
  exact hg.outside (h g hg.nonneg (by omega))

/-- The frontier moves up when the set grows. -/
theorem Frontier.mono (hf : Frontier P f) (hg : Frontier Q g) (h : ∀ s, P s → Q s) : f ≤ g :=
  hg.le_of_below fun s h0 hs => h s (hf.below s h0 hs)

/-- The frontier stays where it is while the set grows elsewhere. -/
theorem Frontier.stable (hf : Frontier P f) (h : ∀ s, P s → Q s) (hout : ¬ Q f) :
    Frontier Q f :=
  ⟨hf.nonneg, fun s h0 hs => h s (hf.below s h0 hs), hout⟩

/-! ## The extent of a run -/

/-- From `a` on, and not beyond `b`, the numbers of `P` reach without a gap as far as `r`. -/
structure Extent (P : Int → Prop) (a b r : Int) : Prop where
  lower : a - 1 ≤ r
  upper : r ≤ b
  within : ∀ t, a ≤ t → t ≤ r → P t
  stop : r < b → ¬ P (r + 1)

variable {a b c r s : Int}

/-- **The extent is the largest number** that is reached without a gap. -/
theorem Extent.isGreatest (h : Extent P a b r) :
    IsGreatest {r | a - 1 ≤ r ∧ r ≤ b ∧ ∀ t, a ≤ t → t ≤ r → P t} r := by
  refine ⟨⟨h.lower, h.upper, h.within⟩, fun s ⟨_, hb, hs⟩ => ?_⟩
  by_contra hlt
  have hlow := h.lower
  exact h.stop (by omega) (hs (r + 1) (by omega) (by omega))

theorem Extent.unique (hr : Extent P a b r) (hs : Extent P a b s) : r = s :=
  hr.isGreatest.unique hs.isGreatest

/-- Two sets that agree as far as `r`, and just beyond it, have the same extent. -/
theorem Extent.congr (h : Extent P a b r) (hPQ : ∀ t, a ≤ t → t ≤ r + 1 → t ≤ b → (P t ↔ Q t)) :
    Extent Q a b r where
  lower := h.lower
  upper := h.upper
  within t h₀ h₁ := (hPQ t h₀ (by omega) (h₁.trans h.upper)).mp (h.within t h₀ h₁)
  stop hlt hq := by
    have hlow := h.lower
    exact h.stop hlt ((hPQ (r + 1) (by omega) (le_refl _) (by omega)).mpr hq)

/-- **Starting later inside the run** changes nothing. -/
theorem Extent.later (h : Extent P a b r) (hac : a - 1 ≤ c) (hcb : c ≤ b)
    (hc : ∀ t, a ≤ t → t ≤ c → P t) : Extent P (c + 1) b r where
  lower := by
    have hle : c ≤ r := h.isGreatest.2 ⟨hac, hcb, hc⟩
    omega
  upper := h.upper
  within t h₀ h₁ := h.within t (by omega) h₁
  stop := h.stop

/-- An empty range has nothing to reach. -/
theorem Extent.empty (P : Int → Prop) (a : Int) : Extent P a (a - 1) (a - 1) where
  lower := le_refl _
  upper := le_refl _
  within t h₀ h₁ := by omega
  stop hlt := absurd hlt (lt_irrefl _)

/-- A run that stops where it starts. -/
theorem Extent.here (h : ¬ P a) (hab : a - 1 ≤ b) : Extent P a b (a - 1) where
  lower := le_refl _
  upper := hab
  within t h₀ h₁ := by omega
  stop _ := by rwa [sub_add_cancel]

/-- One number more in front. -/
theorem Extent.cons (ha : P a) (h : Extent P (a + 1) b r) : Extent P a b r where
  lower := by
    have hlow := h.lower
    omega
  upper := h.upper
  within t h₀ h₁ := by
    rcases eq_or_lt_of_le h₀ with rfl | hlt
    · exact ha
    · exact h.within t (by omega) h₁
  stop := h.stop

/-- **Two scans in a row** reach as far as one: the second one starts after what the first one
reached, which is less than its bound only where the run ends. -/
theorem Extent.append {d : Int} (h : Extent P a b r) (h' : Extent P (r + 1) (r + d) s) :
    Extent P a (b + d) s where
  lower := by
    have hlow := h.lower
    have hlow' := h'.lower
    omega
  upper := by
    have hup := h.upper
    have hup' := h'.upper
    omega
  within t h₀ h₁ := by
    rcases le_or_gt t r with hle | hgt
    · exact h.within t h₀ hle
    · exact h'.within t hgt h₁
  stop hlt := by
    have hlow' := h'.lower
    rcases eq_or_lt_of_le h.upper with heq | hltb
    · exact h'.stop (by omega)
    · -- the run ends at `r`, so the second scan reaches nothing
      have hout := h.stop hltb
      rcases eq_or_lt_of_le hlow' with heq | hgt
      · rwa [← heq, add_sub_cancel_right]
      · exact absurd (h'.within (r + 1) (le_refl _) (by omega)) hout

end EnsoChannel.Lib
