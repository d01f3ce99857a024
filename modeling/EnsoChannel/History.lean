import EnsoChannel.Lib.Window

/-!
# Histories: what the channel is for

The abstract model. A history is the list of the events of a run, newest first; an `Event` is one
atomic effect of one party (a claim granted, a value stored, a sequence published, ...). Nothing
here knows about words, flags or masks: a channel is a log of claimed sequences `0, 1, 2, …`
written by their owners into `c` cells (the cell of `s` is `s % c`) and read by `N` receivers,
each at its own position.

`Allowed c h e` is the protocol: what a party may do after the history `h`.
* a claim takes the next sequences, and only those whose cell was published a lap earlier;
* a sequence is stored to and published by its owner, and published once;
* a receiver releases only what is published.

A history all of whose events were allowed is `Legal`. Its consequences are the facts the whole
development rests on:
* `published_of_lap`: whatever is a lap behind the highest claim has been published, so
* `uncommitted_cell`: claimed and unpublished sequences lie in distinct cells;
* `le_held`: the sequence last published in a cell is the largest one published there, and
  `lt_held`: it is less than two laps behind the highest claim;
* `published_of_position`: everything up to a receiver's position is published.

`Lag` is the bounded lag: no live receiver is more than `c` behind the highest claim. It is not a
consequence of `Legal`: it needs receivers that never go back (`Lag.lean`).
-/

namespace EnsoChannel

open Lib

/-- What a receive call returns: a guard over the sequences `first … last`, or an error, or (for
a poll) `Pending`. -/
inductive RecvResult
  | items (first last : Int)
  | empty
  | disconnected
  | pending
  deriving DecidableEq, Repr

/-- One atomic effect. `k` and `r` name the sender's and the receiver's call that performs it,
`i` the receiver. -/
inductive Event (T : Type) (N : Nat)
  /-- A successful compare-exchange of `claimed`: the call `k` is granted `a … b`. -/
  | claim (k : Nat) (a b : Int)
  /-- A write to the slot of `s`. -/
  | store (k : Nat) (s : Int) (v : T)
  /-- The slot-state store that publishes `s`. -/
  | publish (k : Nat) (s : Int)
  /-- `mark_shutdown` on the slot of `s`. -/
  | mark (s : Int)
  /-- The store of `raw | SHUTDOWN_MASK` to `claimed`. -/
  | shut (raw : Int)
  | closeStart (k : Nat)
  | closeEnd (k : Nat)
  /-- The store of `b` to the cursor of receiver `i`, by the guard over `a … b`. -/
  | release (i : Fin N) (a b : Int)
  | dropReceiver (i : Fin N)
  | register (i : Fin N) (r : Nat)
  /-- `AtomicWaker::wake` on receiver `i`; `w` is the waker it took and invoked. -/
  | wake (i : Fin N) (w : Option Nat)
  | ret (r : Nat) (i : Fin N) (res : RecvResult)
  deriving DecidableEq

/-- The events of a run, newest first. -/
abbrev History (T : Type) (N : Nat) := List (Event T N)

variable {T : Type} {N : Nat}

/-! ## What a history says -/

/-- The highest sequence ever claimed, `-1` before the first claim. -/
def highest : History T N → Int
  | [] => -1
  | .claim _ _ b :: h => max b (highest h)
  | _ :: h => highest h

/-- The call that claimed `s`. -/
def owner : History T N → Int → Option Nat
  | [], _ => none
  | .claim k a b :: h, s => if a ≤ s ∧ s ≤ b then some k else owner h s
  | _ :: h, s => owner h s

/-- `s` has been published. -/
def Published (h : History T N) (s : Int) : Prop := ∃ k, Event.publish k s ∈ h

/-- `s` is claimed and not published yet. -/
def Uncommitted (h : History T N) (s : Int) : Prop := 0 ≤ s ∧ s ≤ highest h ∧ ¬ Published h s

/-- The value last stored for `s`. -/
def stored : History T N → Int → Option T
  | [], _ => none
  | .store _ t v :: h, s => if t = s then some v else stored h s
  | _ :: h, s => stored h s

/-- The sequence last published in cell `r`; `r - c` in an untouched cell. -/
def held (c : Int) : History T N → Int → Int
  | [], r => r - c
  | .publish _ s :: h, r => if s % c = r then s else held c h r
  | _ :: h, r => held c h r

/-- Cell `r` was marked after its last publish. -/
def Marked (c : Int) : History T N → Int → Prop
  | [], _ => False
  | .mark s :: h, r => s % c = r ∨ Marked c h r
  | .publish _ s :: h, r => s % c ≠ r ∧ Marked c h r
  | _ :: h, r => Marked c h r

/-- The last sequence receiver `i` has released, `-1` before the first release. -/
def position : History T N → Fin N → Int
  | [], _ => -1
  | .release j _ b :: h, i => if j = i then b else position h i
  | _ :: h, i => position h i

/-- Receiver `i` has been dropped. -/
def Dropped (h : History T N) (i : Fin N) : Prop := Event.dropReceiver i ∈ h

/-- A wake-up reached the waker of call `r`. -/
def Delivered (h : History T N) (i : Fin N) (r : Nat) : Prop := Event.wake i (some r) ∈ h

/-! What a concrete history says can be computed. -/

/-- The event publishes `s`. -/
def Event.publishes (s : Int) : Event T N → Bool
  | .publish _ t => t == s
  | _ => false

instance (h : History T N) (s : Int) : Decidable (Published h s) :=
  decidable_of_iff (∃ e ∈ h, e.publishes s = true) <| by
    constructor
    · rintro ⟨e, he, hs⟩
      cases e with
      | publish k t => exact ⟨k, by rwa [← eq_of_beq hs]⟩
      | _ => exact absurd hs (by simp [Event.publishes])
    · rintro ⟨k, hk⟩
      exact ⟨_, hk, beq_self_eq_true s⟩

instance (h : History T N) (s : Int) : Decidable (Uncommitted h s) :=
  inferInstanceAs (Decidable (_ ∧ _ ∧ ¬ _))

section Cons

variable {h : History T N} {e : Event T N} {s t : Int} {i : Fin N} {k : Nat}

theorem published_cons : Published (e :: h) s ↔ (∃ k, e = .publish k s) ∨ Published h s := by
  unfold Published
  simp only [List.mem_cons]
  constructor
  · rintro ⟨k, hk | hk⟩
    · exact Or.inl ⟨k, hk.symm⟩
    · exact Or.inr ⟨k, hk⟩
  · rintro (⟨k, rfl⟩ | ⟨k, hk⟩)
    · exact ⟨k, Or.inl rfl⟩
    · exact ⟨k, Or.inr hk⟩

theorem Published.cons (hs : Published h s) : Published (e :: h) s :=
  published_cons.mpr (Or.inr hs)

@[simp] theorem published_publish : Published (.publish k t :: h) s ↔ t = s ∨ Published h s := by
  rw [published_cons]
  simp

/-- Only a publish of `s` publishes `s`. -/
theorem published_cons_of_ne (he : ∀ k, e ≠ .publish k s) :
    Published (e :: h) s ↔ Published h s := by
  rw [published_cons]
  constructor
  · rintro (⟨k, hk⟩ | hs)
    · exact absurd hk (he k)
    · exact hs
  · exact Or.inr

theorem dropped_cons : Dropped (e :: h) i ↔ e = .dropReceiver i ∨ Dropped h i := by
  unfold Dropped
  rw [List.mem_cons]
  exact or_congr_left eq_comm

theorem Dropped.cons (hi : Dropped h i) : Dropped (e :: h) i := dropped_cons.mpr (Or.inr hi)

theorem Delivered.cons {r : Nat} (hd : Delivered h i r) : Delivered (e :: h) i r :=
  List.mem_cons_of_mem e hd

theorem neg_one_le_highest : ∀ h : History T N, -1 ≤ highest h
  | [] => le_refl _
  | e :: h => by
    have ih := neg_one_le_highest h
    cases e <;> simp only [highest] <;> omega

theorem highest_le_cons : highest h ≤ highest (e :: h) := by
  cases e <;> simp only [highest] <;> omega

/-- Only a claim moves the highest sequence. -/
theorem highest_cons_of_ne (he : ∀ k a b, e ≠ .claim k a b) : highest (e :: h) = highest h := by
  cases e with
  | claim k a b => exact absurd rfl (he k a b)
  | _ => rfl

/-- Only a release by receiver `i` moves its position. -/
theorem position_cons_of_ne (he : ∀ a b, e ≠ .release i a b) :
    position (e :: h) i = position h i := by
  cases e with
  | release j a b =>
    rw [position, if_neg]
    rintro rfl
    exact he a b rfl
  | _ => rfl

end Cons

/-! ## The protocol -/

/-- What a party may do after `h`, with `c` cells. -/
def Allowed (c : Int) (h : History T N) : Event T N → Prop
  | .claim _ a b => a = highest h + 1 ∧ a ≤ b ∧ ∀ s, 0 ≤ s → s + c ≤ b → Published h s
  | .store k s _ => owner h s = some k ∧ ¬ Published h s
  | .publish k s => owner h s = some k ∧ ¬ Published h s
  | .release i a b => ¬ Dropped h i ∧ 0 ≤ a ∧ a ≤ b ∧ ∀ s, 0 ≤ s → s ≤ b → Published h s
  | .dropReceiver i => ¬ Dropped h i
  | _ => True

/-- Every event was allowed where it happened. -/
def Legal (c : Int) : History T N → Prop
  | [] => True
  | e :: h => Legal c h ∧ Allowed c h e

section Legal

variable {c : Int} {h : History T N} {s t : Int} {i : Fin N} {k : Nat}

/-- Owned sequences are the claimed ones. -/
theorem owner_eq_some (hl : Legal c h) (ho : owner h s = some k) : 0 ≤ s ∧ s ≤ highest h := by
  induction h with
  | nil => simp [owner] at ho
  | cons e h ih =>
    have hmono := highest_le_cons (h := h) (e := e)
    cases e with
    | claim k' a b =>
      obtain ⟨hl, ha, hab, -⟩ := hl
      have := neg_one_le_highest h
      rw [owner] at ho
      split at ho
      · simp only [highest]
        omega
      · have := ih hl ho
        omega
    | _ => exact ih hl.1 ho

/-- Every claimed sequence has an owner. -/
theorem exists_owner (hl : Legal c h) (h₀ : 0 ≤ s) (h₁ : s ≤ highest h) :
    ∃ k, owner h s = some k := by
  induction h with
  | nil => simp only [highest] at h₁; omega
  | cons e h ih =>
    cases e with
    | claim k a b =>
      obtain ⟨hl, ha, hab, -⟩ := hl
      by_cases hin : a ≤ s ∧ s ≤ b
      · exact ⟨k, by rw [owner, if_pos hin]⟩
      · rw [owner, if_neg hin]
        refine ih hl ?_
        simp only [highest] at h₁
        omega
    | _ => exact ih hl.1 h₁

/-- A later claim does not change an owner. -/
theorem owner_cons {e : Event T N} (hl : Legal c (e :: h)) (ho : owner h s = some k) :
    owner (e :: h) s = some k := by
  cases e with
  | claim k' a b =>
    obtain ⟨hl, ha, -, -⟩ := hl
    have := owner_eq_some hl ho
    rw [owner, if_neg (by omega), ho]
  | _ => exact ho

/-- Published sequences are claimed. -/
theorem Published.range (hl : Legal c h) (hs : Published h s) : 0 ≤ s ∧ s ≤ highest h := by
  induction h with
  | nil => obtain ⟨k, hk⟩ := hs; exact absurd hk List.not_mem_nil
  | cons e h ih =>
    have hmono := highest_le_cons (h := h) (e := e)
    rcases published_cons.mp hs with ⟨k, rfl⟩ | hs
    · have := owner_eq_some hl.1 hl.2.1
      omega
    · have := ih hl.1 hs
      omega

/-- **Whatever is a lap behind the highest claim is published.** -/
theorem published_of_lap (hc : 0 < c) (hl : Legal c h) (h₀ : 0 ≤ s) (h₁ : s + c ≤ highest h) :
    Published h s := by
  induction h with
  | nil => simp only [highest] at h₁; omega
  | cons e h ih =>
    cases e with
    | claim k a b =>
      obtain ⟨hl, ha, hab, hall⟩ := hl
      refine (hall s h₀ ?_).cons
      simp only [highest] at h₁
      omega
    | _ => exact (ih hl.1 h₁).cons

/-- Claimed and unpublished sequences lie in the last lap. -/
theorem Uncommitted.window (hc : 0 < c) (hl : Legal c h) (hs : Uncommitted h s) :
    highest h - c < s := by
  by_contra hlt
  exact hs.2.2 (published_of_lap hc hl hs.1 (by omega))

/-- **Claimed and unpublished sequences lie in distinct cells.** -/
theorem uncommitted_cell (hc : 0 < c) (hl : Legal c h) (hs : Uncommitted h s)
    (ht : Uncommitted h t) (hcell : s % c = t % c) : s = t := by
  have := hs.window hc hl
  have := ht.window hc hl
  have := hs.2.1
  have := ht.2.1
  exact eq_of_emod_eq hcell (by omega) (by omega)

/-- An owned, unpublished sequence is uncommitted. -/
theorem uncommitted_of_owner (hl : Legal c h) (ho : owner h s = some k) (hp : ¬ Published h s) :
    Uncommitted h s :=
  ⟨(owner_eq_some hl ho).1, (owner_eq_some hl ho).2, hp⟩

/-! ### The cells -/

theorem held_emod {r : Int} (h₀ : 0 ≤ r) (h₁ : r < c) : held c h r % c = r := by
  induction h with
  | nil => rw [held, Int.sub_emod_right, Int.emod_eq_of_lt h₀ h₁]
  | cons e h ih =>
    cases e with
    | publish k s =>
      rw [held]
      split
      · assumption
      · exact ih
    | _ => exact ih

/-- A cell holds its initial number or a published one. -/
theorem held_cases (r : Int) : held c h r = r - c ∨ Published h (held c h r) := by
  induction h with
  | nil => exact Or.inl rfl
  | cons e h ih =>
    cases e with
    | publish k s =>
      rw [held]
      split
      · exact Or.inr (published_publish.mpr (Or.inl rfl))
      · exact ih.imp_right Published.cons
    | _ => exact ih.imp_right Published.cons

/-- **A cell holds the largest sequence published there**: a later lap is only claimed once the
earlier one is published. -/
theorem le_held (hc : 0 < c) (hl : Legal c h) (hs : Published h s) : s ≤ held c h (s % c) := by
  induction h with
  | nil => obtain ⟨k, hk⟩ := hs; exact absurd hk List.not_mem_nil
  | cons e h ih =>
    cases e with
    | publish k t =>
      obtain ⟨hl, ho, hunp⟩ := hl
      rw [held]
      split
      · rename_i hcell
        rcases published_publish.mp hs with rfl | hs
        · exact le_refl _
        · by_contra hlt
          have hlap := lap_le hcell (not_le.mp hlt)
          have := hs.range hl
          exact hunp (published_of_lap hc hl (owner_eq_some hl ho).1 (by omega))
      · rename_i hcell
        rcases published_publish.mp hs with rfl | hs
        · exact absurd rfl hcell
        · exact ih hl hs
    | _ => exact ih hl.1 ((published_cons_of_ne (by simp)).mp hs)

theorem sub_le_held {r : Int} (hl : Legal c h) (h₁ : r < c) : r - c ≤ held c h r := by
  rcases held_cases (c := c) (h := h) r with heq | hp
  · omega
  · have := (hp.range hl).1
    omega

/-- A cell holds nothing newer than the highest claim. -/
theorem held_le {r : Int} (hl : Legal c h) (h₁ : r < c) : held c h r ≤ highest h := by
  rcases held_cases (c := c) (h := h) r with heq | hp
  · have := neg_one_le_highest h
    omega
  · exact (hp.range hl).2

/-- **A cell is less than two laps behind the highest claim.** -/
theorem lt_held {r : Int} (hc : 0 < c) (hl : Legal c h) (h₀ : 0 ≤ r) (h₁ : r < c) :
    highest h - 2 * c < held c h r := by
  obtain ⟨t, hlo, hhi, hcell⟩ := exists_emod_eq hc (highest h - 2 * c) r
  rw [Int.emod_eq_of_lt h₀ h₁] at hcell
  rcases lt_or_ge t 0 with hneg | hpos
  · have hlap : t + c ≤ r := lap_le (by rw [hcell, Int.emod_eq_of_lt h₀ h₁]) (by omega)
    have := sub_le_held (r := r) hl h₁
    omega
  · have := le_held hc hl (published_of_lap hc hl hpos (by omega))
    rw [hcell] at this
    omega

/-- A published sequence whose next lap is not published is what its cell holds. -/
theorem held_of_published (hc : 0 < c) (hl : Legal c h) (hs : Published h s)
    (hnext : ∀ t, Published h t → t % c = s % c → t ≤ s) : held c h (s % c) = s := by
  have hle := le_held hc hl hs
  rcases held_cases (c := c) (h := h) (s % c) with heq | hp
  · have := (hs.range hl).1
    have := Int.emod_lt_of_pos s hc
    omega
  · have := hnext _ hp (held_emod (Int.emod_nonneg s (by omega)) (Int.emod_lt_of_pos s hc))
    omega

/-! ### Positions -/

/-- **Everything up to a receiver's position is published.** -/
theorem published_of_position (hl : Legal c h) (h₀ : 0 ≤ s) (h₁ : s ≤ position h i) :
    Published h s := by
  induction h with
  | nil => simp only [position] at h₁; omega
  | cons e h ih =>
    cases e with
    | release j a b =>
      obtain ⟨hl, -, -, -, hall⟩ := hl
      rw [position] at h₁
      split at h₁
      · exact (hall s h₀ h₁).cons
      · exact (ih hl h₁).cons
    | _ => exact (ih hl.1 h₁).cons

theorem neg_one_le_position (hl : Legal c h) : -1 ≤ position h i := by
  induction h with
  | nil => exact le_refl _
  | cons e h ih =>
    cases e with
    | release j a b =>
      obtain ⟨hl, -, ha, hab, -⟩ := hl
      rw [position]
      split
      · omega
      · exact ih hl
    | _ => exact ih hl.1

theorem position_le_highest (hl : Legal c h) : position h i ≤ highest h := by
  have := neg_one_le_highest h
  rcases lt_or_ge (position h i) 0 with hneg | hpos
  · omega
  · exact ((published_of_position hl hpos (le_refl _)).range hl).2

/-! ### Stored values -/

/-- The value of a sequence was stored by the call that claimed it. -/
theorem owner_of_stored {v : T} (hl : Legal c h) (hs : stored h s = some v) :
    ∃ k, owner h s = some k ∧ Event.store k s v ∈ h := by
  induction h with
  | nil => simp [stored] at hs
  | cons e h ih =>
    have hold : Legal c h → stored h s = some v →
        ∃ k, owner (e :: h) s = some k ∧ Event.store k s v ∈ e :: h := by
      intro hl' hs'
      obtain ⟨k, hk, hmem⟩ := ih hl' hs'
      exact ⟨k, owner_cons hl hk, List.mem_cons_of_mem e hmem⟩
    cases e with
    | store k t w =>
      rw [stored] at hs
      split at hs
      · rename_i hts
        obtain rfl := Option.some.inj hs
        rw [← hts]
        exact ⟨k, hl.2.1, List.mem_cons_self⟩
      · exact hold hl.1 hs
    | _ => exact hold hl.1 hs

/-- **The value of a published sequence is final.** -/
theorem stored_cons_of_published {e : Event T N} (hl : Legal c (e :: h)) (hs : Published h s) :
    stored (e :: h) s = stored h s := by
  cases e with
  | store k t v =>
    rw [stored, if_neg]
    rintro rfl
    exact hl.2.2 hs
  | _ => rfl

end Legal

/-! ## Bounded lag -/

/-- No live receiver is more than `c` behind the highest claim. -/
def Lag (c : Int) (h : History T N) : Prop :=
  ∀ i, ¬ Dropped h i → highest h ≤ position h i + c

section Lag

variable {c : Int} {h : History T N} {s : Int} {i : Fin N}

/-- Under the bounded lag, nothing a lap ahead of a receiver's window is published. -/
theorem Lag.le_of_cell (hlag : Lag c h) (hl : Legal c h) (hi : ¬ Dropped h i)
    (hs : position h i < s) {t : Int} (ht : Published h t) (hcell : t % c = s % c) : t ≤ s := by
  by_contra hlt
  have := lap_le hcell.symm (not_le.mp hlt)
  have := (ht.range hl).2
  have := hlag i hi
  omega

/-- **What a cell of a live receiver's window holds**: the sequence itself when it is published,
the one a lap earlier when it is not. -/
theorem Lag.held_window (hc : 0 < c) (hlag : Lag c h) (hl : Legal c h) (hi : ¬ Dropped h i)
    (h₀ : position h i < s) (h₁ : s ≤ position h i + c) :
    (Published h s → held c h (s % c) = s) ∧ (¬ Published h s → held c h (s % c) = s - c) := by
  have hr₀ := Int.emod_nonneg s (by omega : c ≠ 0)
  have hr₁ := Int.emod_lt_of_pos s hc
  refine ⟨fun hs => held_of_published hc hl hs fun t ht hcell =>
    hlag.le_of_cell hl hi h₀ ht hcell, fun hs => ?_⟩
  have hpos := neg_one_le_position (i := i) hl
  have hcell := held_emod (c := c) (h := h) hr₀ hr₁
  have hcell' : held c h (s % c) % c = (s - c) % c := by rw [hcell, Int.sub_emod_right]
  -- the cell holds a number of the right residue in the lap below `s`
  refine eq_of_emod_eq hcell' ?_ ?_
  · rcases held_cases (c := c) (h := h) (s % c) with heq | hp
    · have hdiv := Int.emod_add_mul_ediv s c
      have hquot : 0 ≤ c * (s / c) := mul_nonneg hc.le (Int.ediv_nonneg (by omega) hc.le)
      rw [heq]
      omega
    · have hle := hlag.le_of_cell hl hi h₀ hp hcell
      have hne : held c h (s % c) ≠ s := fun heq => hs (heq ▸ hp)
      omega
  · rcases lt_or_ge (s - c) 0 with hneg | hnn
    · have := sub_le_held (r := s % c) hl hr₁
      have hsr : s % c = s := Int.emod_eq_of_lt (by omega) (by omega)
      omega
    · have := le_held hc hl (published_of_position (i := i) hl hnn (by omega))
      rw [Int.sub_emod_right] at this
      omega

end Lag

end EnsoChannel
