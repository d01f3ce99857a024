import Mathlib.Algebra.Group.Action.Defs
import Mathlib.Algebra.Order.BigOperators.Group.Finset
import Mathlib.Data.List.Basic

/-!
# Runs of a labelled system under a discipline

A system is a partial step function `step : S → A → Option S`: the action is the whole
nondeterminism (who moves, and every choice the environment makes), so a run is a list of
actions. A **discipline** `ok : S → A → Prop` restricts the environment: it says which actions a
client takes in which state. The rules below are the ones every proof over all interleavings
uses.

* `Run.invariant`: what one step keeps, a run keeps.
* `Run.invariant_with`: the same, next to an invariant that is already known.
* `Run.invariant_log`: the same, for what a state says about the actions that led to it.
* `Run.relate`: a reflexive and transitive relation that one step respects relates the two ends
  of a run.
* `Run.countP_add_le`: a party whose steps use up a measure that nobody else's steps add to takes
  no more of them than the measure says.
* `Run.length_add_le`: where every step uses up a measure, runs are no longer than it says;
  `sum_add_le`: such a measure may be the sum over parties that each step interferes with.
* `Run.reaches`: where some step that uses up a measure is possible until `P`, a run leads to `P`.
* `Run.mono`, `Run.mono_with`: a run of a strict discipline is a run of a lax one.
* `Run.transfer`: a run of one system is a run of another that takes the same steps.
* `Run.trans`: runs compose.
* `Passed`: some state on the way satisfied `P`. The actions determine the states, so the state
  a `Passed` names is the one this run went through, not one of some other run.
* `Since`: some state on the way satisfied `P`, and every action after it `Q`.
* `Run.exists_change`: the step of a run at which a quantity first leaves its starting value.
* `exec` / `Run.of_exec`: a finite run, computed.
* `Settles`: one party acts alone until it cannot go on. Where it ends is determined
  (`Settles.unique`); it gets there by a run (`Settles.run`).
* `Chain`: operations one after the other; they are determined when each of them is
  (`Chain.unique`).
-/

namespace EnsoChannel.Lib

variable {S A : Type}

/-- `Run step ok s ls s'`: the actions `ls`, each allowed by `ok` where it is taken, lead from `s`
to `s'`. -/
inductive Run (step : S → A → Option S) (ok : S → A → Prop) (s : S) : List A → S → Prop
  | nil : Run step ok s [] s
  | snoc {ls : List A} {s' s'' : S} {a : A} :
      Run step ok s ls s' → ok s' a → step s' a = some s'' → Run step ok s (ls ++ [a]) s''

variable {step : S → A → Option S} {ok ok' : S → A → Prop} {s s' s'' : S} {ls l₁ l₂ : List A}

/-- **The invariant rule.** -/
theorem Run.invariant {I : S → Prop}
    (hI : ∀ {s a s'}, I s → ok s a → step s a = some s' → I s')
    (h : Run step ok s ls s') (h0 : I s) : I s' := by
  induction h with
  | nil => exact h0
  | snoc _ hok hst ih => exact hI ih hok hst

/-- The invariant rule for `J`, given that `I` is kept too. -/
theorem Run.invariant_with {I J : S → Prop}
    (hI : ∀ {s a s'}, I s → ok s a → step s a = some s' → I s')
    (hJ : ∀ {s a s'}, I s → J s → ok s a → step s a = some s' → J s')
    (h : Run step ok s ls s') (h0 : I s) (h1 : J s) : J s' := by
  have hIJ : I s' ∧ J s' := by
    refine h.invariant (I := fun s => I s ∧ J s) ?_ ⟨h0, h1⟩
    intro s a s' hs hok hst
    exact ⟨hI hs.1 hok hst, hJ hs.1 hs.2 hok hst⟩
  exact hIJ.2

/-- The invariant rule for what a state says about the actions that led to it, given that `I` is
kept too. -/
theorem Run.invariant_log {I : S → Prop} {J : List A → S → Prop}
    (hI : ∀ {s a s'}, I s → ok s a → step s a = some s' → I s')
    (hJ : ∀ {ls a s' s''}, Run step ok s ls s' → I s' → J ls s' → ok s' a → step s' a = some s'' →
      J (ls ++ [a]) s'')
    (h : Run step ok s ls s') (h0 : I s) (h1 : J [] s) : J ls s' := by
  induction h with
  | nil => exact h1
  | snoc hrun hok hst ih => exact hJ hrun (hrun.invariant hI h0) ih hok hst

/-- A reflexive and transitive relation that each step respects relates the ends of a run. -/
theorem Run.relate {I : S → Prop} {R : S → S → Prop} (hrefl : ∀ s, R s s)
    (htrans : ∀ {a b c}, R a b → R b c → R a c)
    (hI : ∀ {s a s'}, I s → ok s a → step s a = some s' → I s')
    (hR : ∀ {s a s'}, I s → ok s a → step s a = some s' → R s s')
    (h : Run step ok s ls s') (h0 : I s) : R s s' := by
  induction h with
  | nil => exact hrefl s
  | snoc hrun hok hst ih =>
    exact htrans ih (hR (hrun.invariant hI h0) hok hst)

/-- **Bounded work**: every step of one party (`own`) uses up some of the measure `μ`, and no step
of the others adds to it. -/
theorem Run.countP_add_le {I : S → Prop} {μ : S → Nat} {own : A → Bool}
    (hI : ∀ {s a s'}, I s → ok s a → step s a = some s' → I s')
    (hown : ∀ {s a s'}, I s → ok s a → step s a = some s' → own a = true → μ s' < μ s)
    (hother : ∀ {s a s'}, I s → ok s a → step s a = some s' → own a = false → μ s' ≤ μ s)
    (h : Run step ok s ls s') (h0 : I s) : ls.countP own + μ s' ≤ μ s := by
  induction h with
  | nil => simp
  | @snoc ls s' s'' a hrun hok hst ih =>
    have hinv := hrun.invariant hI h0
    rw [List.countP_append, List.countP_singleton]
    cases hown' : own a with
    | true =>
      have hlt := hown hinv hok hst hown'
      rw [if_pos rfl]
      omega
    | false =>
      have hle := hother hinv hok hst hown'
      rw [if_neg (by simp)]
      omega

/-- **Bounded runs**: every step uses up some of the measure `μ`. -/
theorem Run.length_add_le {I : S → Prop} {μ : S → Nat}
    (hI : ∀ {s a s'}, I s → ok s a → step s a = some s' → I s')
    (hlt : ∀ {s a s'}, I s → ok s a → step s a = some s' → μ s' < μ s)
    (h : Run step ok s ls s') (h0 : I s) : ls.length + μ s' ≤ μ s := by
  have hcount : ls.countP (fun _ => true) + μ s' ≤ μ s :=
    h.countP_add_le hI (fun hs hok hst _ => hlt hs hok hst) (fun _ _ _ hf => absurd hf (by simp)) h0
  rwa [List.countP_true] at hcount

/-- The measure of several parties: a step of party `k` that costs each of the others up to `d`, and
pays for it, lowers the sum. -/
theorem sum_add_le {n k d x : Nat} {f g : Nat → Nat} (hk : k < n)
    (hother : ∀ j < n, j ≠ k → g j ≤ f j + d) (hown : g k + n * d + x ≤ f k) :
    ∑ j ∈ Finset.range n, g j + x ≤ ∑ j ∈ Finset.range n, f j := by
  have hmem : k ∈ Finset.range n := Finset.mem_range.mpr hk
  rw [← Finset.add_sum_erase _ g hmem, ← Finset.add_sum_erase _ f hmem]
  have hsum : ∑ j ∈ (Finset.range n).erase k, g j ≤ ∑ j ∈ (Finset.range n).erase k, (f j + d) := by
    refine Finset.sum_le_sum fun j hj => ?_
    obtain ⟨hne, hj⟩ := Finset.mem_erase.mp hj
    exact hother j (Finset.mem_range.mp hj) hne
  rw [Finset.sum_add_distrib, Finset.sum_const, Finset.card_erase_of_mem hmem, Finset.card_range,
    smul_eq_mul] at hsum
  have hcard : (n - 1) * d ≤ n * d := Nat.mul_le_mul_right d (Nat.sub_le n 1)
  omega

/-- A lax discipline allows the runs of a strict one, given an invariant of the strict runs. -/
theorem Run.mono_with {I : S → Prop}
    (hI : ∀ {s a s'}, I s → ok s a → step s a = some s' → I s')
    (himp : ∀ {s a s'}, I s → ok s a → step s a = some s' → ok' s a)
    (h : Run step ok s ls s') (h0 : I s) : Run step ok' s ls s' := by
  induction h with
  | nil => exact Run.nil
  | snoc hrun hok hst ih =>
    exact Run.snoc ih (himp (hrun.invariant hI h0) hok hst) hst

theorem Run.mono (himp : ∀ {s a}, ok s a → ok' s a) (h : Run step ok s ls s') :
    Run step ok' s ls s' :=
  h.mono_with (I := fun _ => True) (fun _ _ _ => trivial) (fun _ hok _ => himp hok) trivial

/-- A run of one system is a run of another that takes the same steps, given an invariant of the
other. -/
theorem Run.transfer {step' : S → A → Option S} {I : S → Prop}
    (hI : ∀ {s a s'}, I s → ok' s a → step' s a = some s' → I s')
    (hst : ∀ {s a s'}, I s → ok s a → step s a = some s' → ok' s a ∧ step' s a = some s')
    (h : Run step ok s ls s') (h0 : I s) : Run step' ok' s ls s' := by
  induction h with
  | nil => exact Run.nil
  | snoc hrun hok hstep ih =>
    obtain ⟨hok', hstep'⟩ := hst (ih.invariant hI h0) hok hstep
    exact Run.snoc ih hok' hstep'

theorem Run.trans (h₁ : Run step ok s l₁ s') (h₂ : Run step ok s' l₂ s'') :
    Run step ok s (l₁ ++ l₂) s'' := by
  induction h₂ with
  | nil => rw [List.append_nil]; exact h₁
  | snoc _ hok hst ih => rw [← List.append_assoc]; exact Run.snoc ih hok hst

theorem Run.single {a : A} (hok : ok s a) (hst : step s a = some s') : Run step ok s [a] s' := by
  show Run step ok s ([] ++ [a]) s'
  exact Run.snoc Run.nil hok hst

/-- **Progress**: where until `P` some allowed step uses up some of the measure `μ`, a run leads to
a state with `P`. -/
theorem Run.reaches {I P : S → Prop} {μ : S → Nat}
    (hI : ∀ {s a s'}, I s → ok s a → step s a = some s' → I s')
    (hP : ∀ {s}, I s → P s ∨ ∃ a s', ok s a ∧ step s a = some s' ∧ μ s' < μ s) (h0 : I s) :
    ∃ ls s', Run step ok s ls s' ∧ P s' := by
  induction hn : μ s using Nat.strong_induction_on generalizing s with
  | _ n ih =>
    rcases hP h0 with hp | ⟨a, s', hok, hst, hlt⟩
    · exact ⟨[], s, Run.nil, hp⟩
    · obtain ⟨ls, s'', hrun, hp⟩ := ih (μ s') (hn ▸ hlt) (hI h0 hok hst) rfl
      exact ⟨[a] ++ ls, s'', (Run.single hok hst).trans hrun, hp⟩

/-! ## States on the way -/

/-- Some state on the way from `s` along `ls` to `s'` satisfied `P`. -/
def Passed (step : S → A → Option S) (ok : S → A → Prop) (s : S) (ls : List A) (s' : S)
    (P : S → Prop) : Prop :=
  ∃ l₁ l₂ m, ls = l₁ ++ l₂ ∧ Run step ok s l₁ m ∧ Run step ok m l₂ s' ∧ P m

variable {P Q : S → Prop}

theorem Passed.now (h : Run step ok s ls s') (hP : P s') : Passed step ok s ls s' P :=
  ⟨ls, [], s', (List.append_nil ls).symm, h, Run.nil, hP⟩

theorem Passed.snoc {a : A} (h : Passed step ok s ls s' P) (hok : ok s' a)
    (hst : step s' a = some s'') : Passed step ok s (ls ++ [a]) s'' P := by
  obtain ⟨l₁, l₂, m, rfl, h₁, h₂, hP⟩ := h
  exact ⟨l₁, l₂ ++ [a], m, List.append_assoc _ _ _, h₁, Run.snoc h₂ hok hst, hP⟩

theorem Passed.imp (h : Passed step ok s ls s' P)
    (hPQ : ∀ {l₁ l₂ m}, Run step ok s l₁ m → Run step ok m l₂ s' → P m → Q m) :
    Passed step ok s ls s' Q := by
  obtain ⟨l₁, l₂, m, rfl, h₁, h₂, hP⟩ := h
  exact ⟨l₁, l₂, m, rfl, h₁, h₂, hPQ h₁ h₂ hP⟩

/-- Some state on the way from `s` along `ls` to `s'` satisfied `P`, and every action after it was
taken where it satisfies `R`. -/
def Since (step : S → A → Option S) (ok : S → A → Prop) (s : S) (ls : List A) (s' : S)
    (P : S → Prop) (R : S → A → Prop) : Prop :=
  ∃ l₁ l₂ m, ls = l₁ ++ l₂ ∧ Run step ok s l₁ m ∧ P m ∧
    Run step (fun s a => ok s a ∧ R s a) m l₂ s'

variable {R : S → A → Prop}

theorem Since.now (h : Run step ok s ls s') (hP : P s') : Since step ok s ls s' P R :=
  ⟨ls, [], s', (List.append_nil ls).symm, h, hP, Run.nil⟩

theorem Since.snoc {a : A} (h : Since step ok s ls s' P R) (hok : ok s' a) (hR : R s' a)
    (hst : step s' a = some s'') : Since step ok s (ls ++ [a]) s'' P R := by
  obtain ⟨l₁, l₂, m, rfl, h₁, hP, h₂⟩ := h
  exact ⟨l₁, l₂ ++ [a], m, List.append_assoc _ _ _, h₁, hP, Run.snoc h₂ ⟨hok, hR⟩ hst⟩

/-- **The first change**: a quantity that does not end where it started left its starting value at
some step. -/
theorem Run.exists_change {B : Type} {f : S → B} (h : Run step ok s ls s') (hne : f s' ≠ f s) :
    ∃ l₁ a l₂ m m', ls = l₁ ++ a :: l₂ ∧ Run step ok s l₁ m ∧ ok m a ∧ step m a = some m' ∧
      Run step ok m' l₂ s' ∧ f m = f s ∧ f m' ≠ f m := by
  induction h with
  | nil => exact absurd rfl hne
  | @snoc ls s' s'' a hrun hok hst ih =>
    by_cases heq : f s' = f s
    · exact ⟨ls, a, [], s', s'', rfl, hrun, hok, hst, Run.nil, heq, by rwa [heq]⟩
    · obtain ⟨l₁, b, l₂, m, m', rfl, h₁, hb, hm, h₂, hfm, hfm'⟩ := ih heq
      refine ⟨l₁, b, l₂ ++ [a], m, m', ?_, h₁, hb, hm, Run.snoc h₂ hok hst, hfm, hfm'⟩
      rw [List.append_assoc, List.cons_append]

/-! ## Computed runs -/

/-- Run the actions in order, stopping where one is not allowed or not enabled. -/
def exec (step : S → A → Option S) (ok : S → A → Prop) [∀ s a, Decidable (ok s a)] :
    S → List A → Option S
  | s, [] => some s
  | s, a :: as => if ok s a then (step s a).bind fun s' => exec step ok s' as else none

/-- A computed run is a run. -/
theorem Run.of_exec [∀ s a, Decidable (ok s a)] :
    ∀ {as : List A} {s s' : S}, exec step ok s as = some s' → Run step ok s as s'
  | [], s, s', h => by
    rw [exec, Option.some.injEq] at h
    rw [h]
    exact Run.nil
  | a :: as, s, s', h => by
    rw [exec] at h
    split at h
    · rename_i hok
      obtain ⟨t, hst, hrest⟩ := Option.bind_eq_some_iff.mp h
      exact (Run.single hok hst).trans (Run.of_exec hrest)
    · exact absurd h (by simp)

/-- A computed run exists, and what was computed of its end holds of it. -/
theorem Run.of_exec_any [∀ s a, Decidable (ok s a)] {as : List A} {p : S → Bool}
    (h : (exec step ok s as).any p = true) : ∃ s', Run step ok s as s' ∧ p s' = true := by
  cases hx : exec step ok s as with
  | none =>
    rw [hx] at h
    exact absurd h (by simp)
  | some s' =>
    rw [hx] at h
    exact ⟨s', Run.of_exec hx, h⟩

/-! ## One party alone -/

/-- `Settles step next s s'`: the actions that `next` chooses, taken one after the other from `s`,
lead to `s'`, where the next one is not possible. -/
inductive Settles (step : S → A → Option S) (next : S → A) : S → S → Prop
  | rest {s : S} (h : step s (next s) = none) : Settles step next s s
  | move {s s' s'' : S} (h : step s (next s) = some s') (hs : Settles step next s' s'') :
      Settles step next s s''

variable {next : S → A}

/-- **Where a party settles is determined.** -/
theorem Settles.unique (h : Settles step next s s') (h' : Settles step next s s'') : s' = s'' := by
  induction h with
  | rest hnone =>
    cases h' with
    | rest => rfl
    | move hsome => exact absurd (hnone.symm.trans hsome) (by simp)
  | move hsome _ ih =>
    cases h' with
    | rest hnone => exact absurd (hnone.symm.trans hsome) (by simp)
    | move hsome' h' =>
      obtain rfl := Option.some.inj (hsome.symm.trans hsome')
      exact ih h'

/-- It gets there by a run, if it may take its steps, and keeps what they keep. -/
theorem Settles.run {I : S → Prop}
    (hI : ∀ {s s'}, I s → step s (next s) = some s' → I s' ∧ ok s (next s))
    (h : Settles step next s s') (h0 : I s) : ∃ ls, Run step ok s ls s' ∧ I s' := by
  induction h with
  | rest => exact ⟨[], Run.nil, h0⟩
  | move hst _ ih =>
    obtain ⟨hI', hok⟩ := hI h0 hst
    obtain ⟨ls, hrun, hend⟩ := ih hI'
    exact ⟨_, (Run.single hok hst).trans hrun, hend⟩

/-! ## Operations in order -/

/-- The operations `R a`, for the `a` of a list in order, lead from `s` to `s'`. -/
def Chain (R : A → S → S → Prop) : List A → S → S → Prop
  | [], s, s' => s' = s
  | a :: as, s, s' => ∃ s₁, R a s s₁ ∧ Chain R as s₁ s'

theorem Chain.unique {R : A → S → S → Prop} {as : List A} (h : Chain R as s s')
    (h' : Chain R as s s'') (hR : ∀ {a s s' s''}, R a s s' → R a s s'' → s' = s'') : s' = s'' := by
  induction as generalizing s with
  | nil => exact h.trans h'.symm
  | cons a as ih =>
    obtain ⟨s₁, ha, h⟩ := h
    obtain ⟨s₂, ha', h'⟩ := h'
    obtain rfl := hR ha ha'
    exact ih h h'

end EnsoChannel.Lib
