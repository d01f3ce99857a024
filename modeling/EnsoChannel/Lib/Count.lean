import EnsoChannel.Lib.Lts
import Mathlib.Algebra.BigOperators.Group.Finset.Basic
import Mathlib.Algebra.BigOperators.Ring.Finset
import Mathlib.Algebra.Order.BigOperators.Group.Finset

/-!
# Counting the actions of a run

`count step p s ls` is the number of actions of `ls`, taken from `s`, that satisfy `p` in the state
where they are taken. It is computed from the front (`step` is a function, so the actions determine
the states), and it grows by one action at a time along a run (`Run.count_snoc`).

**Charging** (`count_le_mul_of_key`): give every `p`-action and every `q`-action a key. When for
each key the `p`-actions are at most `B` times the `q`-actions, they are so altogether.
-/

namespace EnsoChannel.Lib

variable {S A : Type}

/-- The number of actions of the run that satisfy `p`. -/
def count (step : S → A → Option S) (p : S → A → Bool) : S → List A → Nat
  | _, [] => 0
  | s, a :: as => (p s a).toNat + (step s a).elim 0 fun s' => count step p s' as

variable {step : S → A → Option S} {ok : S → A → Prop} {p q : S → A → Bool} {s s' : S}
  {ls l₂ : List A} {n : Nat}

theorem count_cons {a : A} (hst : step s a = some s') :
    count step p s (a :: ls) = (p s a).toNat + count step p s' ls := by
  rw [count, hst]
  rfl

theorem Run.count_append (h : Run step ok s ls s') :
    count step p s (ls ++ l₂) = count step p s ls + count step p s' l₂ := by
  induction h generalizing l₂ with
  | nil => rw [List.nil_append, count, Nat.zero_add]
  | snoc _ _ hst ih =>
    rw [List.append_assoc, ih, ih, List.singleton_append, count_cons hst, count_cons hst, count,
      Nat.add_zero, Nat.add_assoc]

/-- One more action. -/
theorem Run.count_snoc {a : A} (h : Run step ok s ls s') :
    count step p s (ls ++ [a]) = count step p s ls + (p s' a).toNat := by
  rw [h.count_append, count]
  cases step s' a <;> rfl

/-- Where `p` does not look at the state, the list is counted. -/
theorem count_le_countP {p : A → Bool} : count step (fun _ a => p a) s ls ≤ ls.countP p := by
  induction ls generalizing s with
  | nil => exact le_refl 0
  | cons a ls ih =>
    have hrest : ((step s a).elim 0 fun s' => count step (fun _ a => p a) s' ls) ≤ ls.countP p := by
      cases step s a with
      | none => exact Nat.zero_le _
      | some s' => exact ih
    rw [count, List.countP_cons]
    cases p a <;> simp <;> omega

/-! ## Charging -/

open Finset

/-- Of the keys below `n`, an action has its own only. -/
theorem sum_toNat_key (b : Bool) (m : Nat) :
    ∑ k ∈ range n, (b && m == k).toNat = if m < n then b.toNat else 0 := by
  have hterm : ∀ k ∈ range n, (b && m == k).toNat = if m = k then b.toNat else 0 := by
    intro k _
    by_cases hk : m = k <;> simp [hk]
  rw [sum_congr rfl hterm, sum_ite_eq]
  simp only [mem_range]

/-- The actions with a key below `n` are some of all of them. -/
theorem sum_count_le (key : S → A → Nat) :
    ∑ k ∈ range n, count step (fun s a => p s a && key s a == k) s ls ≤ count step p s ls := by
  induction ls generalizing s with
  | nil => simp [count]
  | cons a ls ih =>
    simp only [count, sum_add_distrib, sum_toNat_key]
    refine add_le_add ?_ ?_
    · split <;> omega
    · cases step s a with
      | none => simp
      | some s' => exact ih

/-- When every key is below `n`, they are all of them. -/
theorem count_le_sum {key : S → A → Nat} (hkey : ∀ a ∈ ls, ∀ s, key s a < n) :
    count step p s ls ≤ ∑ k ∈ range n, count step (fun s a => p s a && key s a == k) s ls := by
  induction ls generalizing s with
  | nil => simp [count]
  | cons a ls ih =>
    simp only [count, sum_add_distrib, sum_toNat_key]
    refine add_le_add ?_ ?_
    · rw [if_pos (hkey a List.mem_cons_self s)]
    · cases step s a with
      | none => simp
      | some s' => exact ih fun b hb => hkey b (List.mem_cons_of_mem a hb)

/-- **Charging**: a bound for each key is a bound for all of them. -/
theorem count_le_mul_of_key (key : A → Nat) (key' : S → A → Nat) {B : Nat}
    (h : ∀ k, count step (fun s a => p s a && key a == k) s ls ≤
      count step (fun s a => q s a && key' s a == k) s ls * B) :
    count step p s ls ≤ count step q s ls * B := by
  have hkey : ∀ a ∈ ls, ∀ _ : S, key a < (ls.map key).sum + 1 := by
    intro a ha _
    exact Nat.lt_succ_of_le (List.le_sum_of_mem (List.mem_map_of_mem ha))
  calc count step p s ls
      ≤ ∑ k ∈ range ((ls.map key).sum + 1), count step (fun s a => p s a && key a == k) s ls :=
        count_le_sum hkey
    _ ≤ ∑ k ∈ range ((ls.map key).sum + 1),
          count step (fun s a => q s a && key' s a == k) s ls * B := sum_le_sum fun k _ => h k
    _ = (∑ k ∈ range ((ls.map key).sum + 1),
          count step (fun s a => q s a && key' s a == k) s ls) * B := (sum_mul _ _ _).symm
    _ ≤ count step q s ls * B := Nat.mul_le_mul_right B (sum_count_le key')

end EnsoChannel.Lib
