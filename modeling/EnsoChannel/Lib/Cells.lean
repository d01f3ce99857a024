import Mathlib.Data.Int.ConditionallyCompleteOrder
import Mathlib.Data.Set.Function
import Mathlib.Logic.Function.Basic
import Mathlib.Tactic.Linarith

/-!
# Modifying consecutive cells

Numbered cells, the number `n` kept in the cell `index n`; several numbers may share a cell. A loop
that changes the cells of the numbers `a, a + 1, …` one after the other is `modifyFrom`.

* `modifyFrom_append`: two such loops, the second one starting where the first one ended, are one.
* `modifyFrom_at`: as long as no two of the numbers share a cell, each cell is changed once.
* `modifyFrom_of_ne`: the other cells are not touched.
-/

namespace EnsoChannel.Lib

variable {ι α : Type*} [DecidableEq ι] (index : Int → ι)

/-- The cells after the functions `fs` have been applied to the cells of `a`, `a + 1`, …, in this
order. -/
def modifyFrom (cells : ι → α) (a : Int) : List (α → α) → ι → α
  | [] => cells
  | f :: fs =>
    modifyFrom (Function.update cells (index a) (f (cells (index a)))) (a + 1) fs

variable {index} {cells : ι → α} {a : Int} {fs gs : List (α → α)}

theorem modifyFrom_append :
    modifyFrom index cells a (fs ++ gs) =
      modifyFrom index (modifyFrom index cells a fs) (a + fs.length) gs := by
  induction fs generalizing cells a with
  | nil => simp [modifyFrom]
  | cons f fs ih =>
    rw [List.cons_append, modifyFrom, ih, modifyFrom, List.length_cons, Nat.cast_add, Nat.cast_one,
      add_assoc, add_comm (1 : Int)]

/-- A cell of none of the numbers keeps its value. -/
theorem modifyFrom_of_ne {i : ι} (h : ∀ t, a ≤ t → t < a + fs.length → index t ≠ i) :
    modifyFrom index cells a fs i = cells i := by
  induction fs generalizing cells a with
  | nil => rfl
  | cons f fs ih =>
    rw [List.length_cons, Nat.cast_add, Nat.cast_one] at h
    rw [modifyFrom, ih fun t h₀ h₁ => h t (by omega) (by omega)]
    exact Function.update_of_ne (h a (le_refl a) (by omega)).symm _ _

/-- **Every cell is modified once.** -/
theorem modifyFrom_at (hinj : Set.InjOn index (Set.Ico a (a + fs.length))) {j : Nat}
    (hj : j < fs.length) :
    modifyFrom index cells a fs (index (a + j)) = fs[j] (cells (index (a + j))) := by
  induction fs generalizing cells a j with
  | nil => exact absurd hj (Nat.not_lt_zero j)
  | cons f fs ih =>
    rw [List.length_cons, Nat.cast_add, Nat.cast_one] at hinj
    have hsub : Set.Ico (a + 1) (a + 1 + fs.length) ⊆ Set.Ico a (a + (fs.length + 1)) := by
      rintro t ⟨h₀, h₁⟩
      exact ⟨by omega, by omega⟩
    -- the cell of `a` is none of the later ones
    have hne : ∀ t, a + 1 ≤ t → t < a + 1 + fs.length → index t ≠ index a := by
      intro t h₀ h₁ heq
      have := hinj ⟨by omega, by omega⟩ ⟨le_refl a, by omega⟩ heq
      omega
    rw [modifyFrom]
    cases j with
    | zero =>
      rw [Nat.cast_zero, add_zero, modifyFrom_of_ne hne, Function.update_self]
      rfl
    | succ j =>
      have hj : j < fs.length := Nat.lt_of_succ_lt_succ hj
      have hcell : a + ((j + 1 : Nat) : Int) = a + 1 + j := by
        push_cast
        omega
      rw [hcell, ih (hinj.mono hsub) hj, Function.update_of_ne (hne _ (by omega) (by omega))]
      rfl

end EnsoChannel.Lib
