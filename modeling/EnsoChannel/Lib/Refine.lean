import EnsoChannel.Lib.Lts

/-!
# Refinement of one system by another

A **simulation** of an abstract system by a concrete one says, for every action of the concrete
system in the state where it is taken, which abstract actions it stands for: none if the step is
internal, one, or several.

* `Simulation`: each step is matched by a run of the abstract system along those actions.
* `Simulation.run`: then so is each run, along all of them (`matched`), and the abstract discipline
  is kept all the way.
* `Simulation.trans`: simulations compose.
* `Run.simulate`: where no function gives the abstract state, a relation kept from step to step
  does.
-/

namespace EnsoChannel.Lib

variable {S A S' A' S'' A'' : Type}

/-- The abstract actions that the actions of a run stand for. -/
def matched (step : S → A → Option S) (acts : S → A → List A') : S → List A → List A'
  | _, [] => []
  | s, a :: as => acts s a ++ (step s a).elim [] fun s' => matched step acts s' as

/-- The system `step'` under `ok'` does whatever `step` under `ok` does, where `I` holds: `f` is
the abstract state and `acts` the abstract actions of a concrete one. -/
structure Simulation (step : S → A → Option S) (ok : S → A → Prop) (step' : S' → A' → Option S')
    (ok' : S' → A' → Prop) (I : S → Prop) (f : S → S') (acts : S → A → List A') : Prop where
  keeps : ∀ {s a t}, I s → ok s a → step s a = some t → I t
  matches_step : ∀ {s a t}, I s → ok s a → step s a = some t →
    Run step' ok' (f s) (acts s a) (f t)

variable {step : S → A → Option S} {ok : S → A → Prop} {step' : S' → A' → Option S'}
  {ok' : S' → A' → Prop} {step'' : S'' → A'' → Option S''} {ok'' : S'' → A'' → Prop}
  {I : S → Prop} {I' : S' → Prop} {f : S → S'} {f' : S' → S''} {acts : S → A → List A'}
  {acts' : S' → A' → List A''} {s t : S} {ls l₂ : List A}

theorem Run.matched_append (h : Run step ok s ls t) :
    matched step acts s (ls ++ l₂) = matched step acts s ls ++ matched step acts t l₂ := by
  induction h generalizing l₂ with
  | nil => rfl
  | @snoc ls s' s'' a _ _ hst ih =>
    have hone : ∀ l, matched step acts s' (a :: l) = acts s' a ++ matched step acts s'' l := by
      intro l
      rw [matched, hst]
      rfl
    rw [List.append_assoc, ih, ih, List.singleton_append, hone, hone, matched, List.append_nil,
      List.append_assoc]

/-- One more action. -/
theorem Run.matched_snoc {a : A} {t' : S} (h : Run step ok s ls t) (hst : step t a = some t') :
    matched step acts s (ls ++ [a]) = matched step acts s ls ++ acts t a := by
  rw [h.matched_append, matched, hst]
  show _ ++ (acts t a ++ []) = _
  rw [List.append_nil]

/-- **A simulation matches runs.** -/
theorem Simulation.run (hsim : Simulation step ok step' ok' I f acts) (h : Run step ok s ls t)
    (hs : I s) : Run step' ok' (f s) (matched step acts s ls) (f t) := by
  induction h with
  | nil => exact Run.nil
  | snoc hrun hok hst ih =>
    rw [hrun.matched_snoc hst]
    exact ih.trans (hsim.matches_step (hrun.invariant hsim.keeps hs) hok hst)

/-- **Simulations compose.** -/
theorem Simulation.trans (h₁ : Simulation step ok step' ok' I f acts)
    (h₂ : Simulation step' ok' step'' ok'' I' f' acts') :
    Simulation step ok step'' ok'' (fun s => I s ∧ I' (f s)) (f' ∘ f)
      (fun s a => matched step' acts' (f s) (acts s a)) where
  keeps hs hok hst :=
    ⟨h₁.keeps hs.1 hok hst, (h₁.matches_step hs.1 hok hst).invariant h₂.keeps hs.2⟩
  matches_step hs hok hst := h₂.run (h₁.matches_step hs.1 hok hst) hs.2

/-- **A relation that the steps keep matches runs.** -/
theorem Run.simulate {R : S → S' → Prop} {s' : S'}
    (hR : ∀ {s a t s'}, R s s' → ok s a → step s a = some t →
      ∃ ls t', Run step' ok' s' ls t' ∧ R t t')
    (h : Run step ok s ls t) (h0 : R s s') : ∃ ls' t', Run step' ok' s' ls' t' ∧ R t t' := by
  induction h with
  | nil => exact ⟨[], s', Run.nil, h0⟩
  | snoc _ hok hst ih =>
    obtain ⟨l₁, m, hrun₁, hm⟩ := ih
    obtain ⟨l₂, t', hrun₂, ht⟩ := hR hm hok hst
    exact ⟨l₁ ++ l₂, t', hrun₁.trans hrun₂, ht⟩

end EnsoChannel.Lib
