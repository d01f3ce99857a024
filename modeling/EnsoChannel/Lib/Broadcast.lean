import EnsoChannel.Lib.Lts
import Mathlib.Logic.Function.Basic

/-!
# The bounded broadcast log

What a bounded channel with several readers is for, as one atomic object. Writers reserve entries
at the end of a log and commit each entry once, in any order. Every reader has its own place in the
log; it takes the committed entries that follow (as many of them as it asks for and as there are
without a gap) and later releases what it took. A reader may leave.

* `Allowed c`: no entry is reserved more than `c` ahead of a reader, nothing is committed twice,
  and a reader takes only when it has released what it took before.
* `ready`: the entries a reader can take, the longest committed run from its place on.
  `ready_take` computes it.
* `Valid`: what a reader was given is the beginning of the log, and the log is within the bound.
  `valid_step`, `Valid.of_run`: it holds in every run.
* `Valid.agree`: any two readers were given the same values as far as both have got.
-/

namespace EnsoChannel.Lib

variable {T R : Type}

/-- A log of entries of type `T` with the readers `R`. -/
@[ext]
structure Broadcast (T R : Type) where
  /-- The reserved entries, with their values where they are committed. -/
  entries : List (Option T)
  /-- How many entries a reader has released; `none` once it has left. -/
  released : R → Option Nat
  /-- All that a reader was ever given. -/
  given : R → List T
  /-- No entry is reserved any more. -/
  closed : Bool

namespace Broadcast

inductive Act (T R : Type)
  | reserve (n : Nat)
  | commit (s : Nat) (v : T)
  /-- The reader takes at most `limit` entries. -/
  | take (r : R) (limit : Nat)
  /-- The reader finds nothing to take. -/
  | nothing (r : R)
  | release (r : R)
  | leave (r : R)
  | close

/-- The longest committed run at the front. -/
def ready : List (Option T) → List T
  | some v :: l => v :: ready l
  | _ => []

/-- A new log. -/
def init : Broadcast T R where
  entries := []
  released _ := some 0
  given _ := []
  closed := false

variable [DecidableEq R]

/-- The effect of an action. -/
def apply (b : Broadcast T R) : Act T R → Broadcast T R
  | .reserve n => { b with entries := b.entries ++ List.replicate n none }
  | .commit s v => { b with entries := b.entries.set s (some v) }
  | .take r limit =>
    { b with
      given := Function.update b.given r
        (b.given r ++ (ready (b.entries.drop (b.given r).length)).take limit) }
  | .nothing _ => b
  | .release r =>
    { b with released := Function.update b.released r (some (b.given r).length) }
  | .leave r => { b with released := Function.update b.released r none }
  | .close => { b with closed := true }

/-- What may happen, with the capacity `c`. -/
def Allowed (c : Nat) (b : Broadcast T R) : Act T R → Prop
  | .reserve n => b.closed = false ∧ 1 ≤ n ∧ n ≤ c ∧
      ∀ r m, b.released r = some m → b.entries.length + n ≤ m + c
  | .commit s _ => b.entries[s]? = some none
  | .take r limit => b.released r = some (b.given r).length ∧ 1 ≤ limit ∧
      ready (b.entries.drop (b.given r).length) ≠ []
  | .nothing r => b.released r = some (b.given r).length ∧
      ready (b.entries.drop (b.given r).length) = []
  | .release r => ∃ m, b.released r = some m ∧ m < (b.given r).length
  | .leave r => b.released r ≠ none
  | .close => True

/-- The log as a system: every action is possible, the discipline is `Allowed`. -/
def step (b : Broadcast T R) (a : Act T R) : Option (Broadcast T R) := some (b.apply a)

/-! ## The run at the front -/

omit [DecidableEq R] in
theorem ready_isPrefix (l : List (Option T)) : (ready l).map some <+: l := by
  induction l with
  | nil => exact List.prefix_refl _
  | cons x l ih =>
    cases x with
    | none => exact List.nil_prefix
    | some v => exact (List.prefix_cons_inj (some v)).mpr ih

/-- **What is at the front**: the values `vs`, if they are there and then come to an end, or are
as many as were asked for. -/
theorem ready_take {l : List (Option T)} {vs : List T} {n : Nat} (hlen : vs.length ≤ n)
    (hvs : vs.map some <+: l) (hstop : vs.length < n → ∀ v, l[vs.length]? ≠ some (some v)) :
    (ready l).take n = vs := by
  induction vs generalizing l n with
  | nil =>
    cases n with
    | zero => exact List.take_zero
    | succ n =>
      have hhead := hstop (Nat.succ_pos n)
      cases l with
      | nil => rfl
      | cons x l =>
        cases x with
        | none => rfl
        | some v => exact absurd rfl (hhead v)
  | cons v vs ih =>
    obtain ⟨l', rfl⟩ := hvs
    cases n with
    | zero => exact absurd hlen (Nat.not_succ_le_zero _)
    | succ n =>
      have hrest := ih (Nat.le_of_succ_le_succ hlen) (List.prefix_append (vs.map some) l')
        fun hlt => hstop (Nat.succ_lt_succ hlt)
      show v :: (ready (vs.map some ++ l')).take n = v :: vs
      rw [hrest]

/-! ## What every run keeps -/

/-- Everything a reader was given is at the beginning of the log, and no reader is more than `c`
entries behind. -/
structure Valid (c : Nat) (b : Broadcast T R) : Prop where
  given : ∀ r, (b.given r).map some <+: b.entries
  released : ∀ r m, b.released r = some m → m ≤ (b.given r).length ∧ b.entries.length ≤ m + c

variable {c : Nat} {b b' : Broadcast T R} {a : Act T R}

omit [DecidableEq R] in
theorem valid_init : Valid c (init : Broadcast T R) where
  given _ := List.prefix_refl _
  released r m h := by
    obtain rfl := Option.some.inj h
    exact ⟨Nat.le_refl _, Nat.zero_le _⟩

omit [DecidableEq R] in
/-- Committing an open entry leaves alone what a reader was given. -/
theorem Valid.given_commit (hv : Valid c b) {s : Nat} {v : T} (hs : b.entries[s]? = some none)
    (r : R) : (b.given r).map some <+: b.entries.set s (some v) := by
  obtain ⟨rest, hrest⟩ := hv.given r
  have hlen : (b.given r).length ≤ s := by
    by_contra hlt
    have hlt : s < ((b.given r).map some).length := by simpa using hlt
    rw [← hrest, List.getElem?_append_left hlt, List.getElem?_map] at hs
    rw [List.length_map] at hlt
    rw [List.getElem?_eq_getElem hlt] at hs
    exact absurd hs (by simp)
  rw [← hrest, List.set_append_right _ _ (by simpa using hlen)]
  exact List.prefix_append _ _

omit [DecidableEq R] in
/-- What a reader takes follows what it was given. -/
theorem Valid.given_take (hv : Valid c b) (r : R) (limit : Nat) :
    (b.given r ++ (ready (b.entries.drop (b.given r).length)).take limit).map some <+:
      b.entries := by
  obtain ⟨rest, hrest⟩ := hv.given r
  have hdrop : b.entries.drop (b.given r).length = rest := by
    rw [← hrest, ← List.length_map some, List.drop_left]
  rw [hdrop, ← hrest, List.map_append, List.prefix_append_right_inj]
  exact ((List.take_prefix _ _).map some).trans (ready_isPrefix rest)

/-- **Every action that is allowed keeps the log valid.** -/
theorem valid_step (hv : Valid c b) (hok : Allowed c b a) : Valid c (b.apply a) := by
  cases a with
  | reserve n =>
    obtain ⟨-, -, -, hroom⟩ := hok
    refine ⟨fun r => (hv.given r).trans (List.prefix_append _ _), fun r m hm => ?_⟩
    refine ⟨(hv.released r m hm).1, ?_⟩
    show (b.entries ++ List.replicate n none).length ≤ m + c
    rw [List.length_append, List.length_replicate]
    exact hroom r m hm
  | commit s v =>
    refine ⟨fun r => hv.given_commit hok r, fun r m hm => ?_⟩
    show m ≤ _ ∧ (b.entries.set s (some v)).length ≤ m + c
    rw [List.length_set]
    exact hv.released r m hm
  | take r limit =>
    constructor
    · intro r'
      show (Function.update b.given r _ r').map some <+: b.entries
      by_cases hr : r' = r
      · rw [hr, Function.update_self]
        exact hv.given_take r limit
      · rw [Function.update_of_ne hr]
        exact hv.given r'
    · intro r' m hm
      obtain ⟨hle, hbound⟩ := hv.released r' m hm
      refine ⟨?_, hbound⟩
      show m ≤ (Function.update b.given r _ r').length
      by_cases hr : r' = r
      · subst hr
        rw [Function.update_self, List.length_append]
        omega
      · rwa [Function.update_of_ne hr]
  | nothing r => exact hv
  | release r =>
    obtain ⟨m₀, hm₀, hlt⟩ := hok
    refine ⟨hv.given, fun r' m hm => ?_⟩
    have hm : Function.update b.released r (some (b.given r).length) r' = some m := hm
    show m ≤ (b.given r').length ∧ b.entries.length ≤ m + c
    by_cases hr : r' = r
    · rw [hr, Function.update_self] at hm
      obtain rfl := Option.some.inj hm
      have hbound := (hv.released r m₀ hm₀).2
      rw [hr]
      exact ⟨Nat.le_refl _, by omega⟩
    · rw [Function.update_of_ne hr] at hm
      exact hv.released r' m hm
  | leave r =>
    refine ⟨hv.given, fun r' m hm => ?_⟩
    have hm : Function.update b.released r none r' = some m := hm
    by_cases hr : r' = r
    · rw [hr, Function.update_self] at hm
      exact absurd hm (by simp)
    · rw [Function.update_of_ne hr] at hm
      exact hv.released r' m hm
  | close => exact ⟨hv.given, hv.released⟩

/-- **Every run keeps the log valid.** -/
theorem Valid.of_run {as : List (Act T R)} (hv : Valid c b) (hrun : Run step (Allowed c) b as b') :
    Valid c b' := by
  refine hrun.invariant (I := Valid c) ?_ hv
  intro b a b' hv hok hst
  obtain rfl := Option.some.inj hst
  exact valid_step hv hok

omit [DecidableEq R] in
/-- **Readers agree**: of any two, one was given the beginning of what the other was given. -/
theorem Valid.agree (hv : Valid c b) (r r' : R) :
    b.given r <+: b.given r' ∨ b.given r' <+: b.given r := by
  have hinj : Function.Injective (some : T → Option T) := fun _ _ => Option.some.inj
  rcases List.prefix_or_prefix_of_prefix (hv.given r) (hv.given r') with h | h
  · exact Or.inl ((List.prefix_map_iff_of_injective hinj).mp h)
  · exact Or.inr ((List.prefix_map_iff_of_injective hinj).mp h)

end Broadcast

end EnsoChannel.Lib
