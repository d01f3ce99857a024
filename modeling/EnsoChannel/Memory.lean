import EnsoChannel.History
import EnsoChannel.SlotStates
import Mathlib.Logic.Function.Basic

/-!
# The shared memory

What the parties of a channel share: the `claimed` cursor and the slot states of
`SharedState` (`pub_mul.rs`), one `consumed` cursor per receiver (`con_ex.rs`, `con_fanout.rs`),
the slots of the ring (`ringbuffer.rs`) and one `AtomicWaker` per receiver (`waker.rs`).
`Mem.apply` is the effect of one event on it; every other step of a party only reads.

`replay` is the memory after a history. The theorems read each part of it off the history, so the
rest of the development reasons about histories and uses the words only through them:
* `replay_consumed`, `replay_consumed_of_dropped`: a cursor is its receiver's position, or the
  sentinel of a dropped receiver;
* `lapOf_replay`: the lap flag of a slot is that of the sequence the cell holds;
* `shutdownOf_replay`: its shutdown bit says whether the cell is marked;
* `slots_replay`: a slot of the last lap contains the value stored for its sequence.

From these, `published_of_flag`: a matching flag means published, whatever the state of the
channel (a flag that wrapped around belongs to a sequence more than a lap behind, which is
published anyway); and `flag_iff_published`: the two agree wherever no later lap of the slot is
published.
-/

namespace EnsoChannel

open Lib

variable {T : Type} {N : Nat}

/-- The memory the parties share. -/
structure Mem (T : Type) (N : Nat) where
  claimed : Int
  consumed : Fin N → Int
  states : Nat → RawState
  slots : Nat → T
  wakers : Fin N → Option Nat

/-- The memory of a new channel (`channel_with_ring`); `initial` is what the initializer put into
the slots. -/
def Mem.init (initial : Nat → T) : Mem T N where
  claimed := Sequence.init
  consumed := fun _ => Sequence.init
  states := fun _ => 0
  slots := initial
  wakers := fun _ => none

/-- The effect of one event. -/
def Mem.apply (ring : RingBufferMeta) (m : Mem T N) : Event T N → Mem T N
  | .claim _ _ b => { m with claimed := b }
  | .store _ s v => { m with slots := Function.update m.slots (ring.indexOfSeq s) v }
  | .publish _ s =>
    { m with states := Function.update m.states (ring.slotState s).1 (ring.slotState s).2 }
  | .mark s =>
    { m with states :=
        Function.update m.states (ring.indexOfSeq s) (marked (m.states (ring.indexOfSeq s))) }
  | .shut raw => { m with claimed := i64Or raw shutdownMask }
  | .release i _ b => { m with consumed := Function.update m.consumed i b }
  | .dropReceiver i => { m with consumed := Function.update m.consumed i Sequence.shutdownOpen }
  | .register i r => { m with wakers := Function.update m.wakers i (some r) }
  | .wake i _ => { m with wakers := Function.update m.wakers i none }
  | .closeStart _ | .closeEnd _ | .ret _ _ _ => m

/-- The memory after a history. -/
def replay (ring : RingBufferMeta) (initial : Nat → T) : History T N → Mem T N
  | [] => Mem.init initial
  | e :: h => (replay ring initial h).apply ring e

variable {ring : RingBufferMeta} {initial : Nat → T} {h : History T N} {i : Fin N} {s t : Int}

/-! ## Cursors -/

/-- The cursor of a live receiver is its position. -/
theorem replay_consumed (hi : ¬ Dropped h i) :
    (replay ring initial h).consumed i = position h i := by
  induction h with
  | nil => rfl
  | cons e h ih =>
    have hi' : ¬ Dropped h i := fun hd => hi hd.cons
    cases e with
    | release j a b =>
      show Function.update (replay ring initial h).consumed j b i = position (.release j a b :: h) i
      rw [position]
      split
      · rename_i hji
        rw [hji, Function.update_self]
      · rename_i hji
        rw [Function.update_of_ne (Ne.symm hji), ih hi']
    | dropReceiver j =>
      have hji : i ≠ j := fun hij => hi (dropped_cons.mpr (Or.inl (by rw [hij])))
      show Function.update (replay ring initial h).consumed j _ i = position h i
      rw [Function.update_of_ne hji, ih hi']
    | _ => exact ih hi'

/-- The cursor of a dropped receiver is the sentinel. -/
theorem replay_consumed_of_dropped {c : Int} (hl : Legal c h) (hi : Dropped h i) :
    (replay ring initial h).consumed i = Sequence.shutdownOpen := by
  induction h with
  | nil => exact absurd hi List.not_mem_nil
  | cons e h ih =>
    cases e with
    | release j a b =>
      have hd : Dropped h i := (dropped_cons.mp hi).resolve_left (by simp)
      have hji : i ≠ j := fun hij => hl.2.1 (hij ▸ hd)
      show Function.update (replay ring initial h).consumed j b i = _
      rw [Function.update_of_ne hji, ih hl.1 hd]
    | dropReceiver j =>
      show Function.update (replay ring initial h).consumed j _ i = _
      by_cases hij : i = j
      · rw [hij, Function.update_self]
      · have hd : Dropped h i := (dropped_cons.mp hi).resolve_left (by simp [Ne.symm hij])
        rw [Function.update_of_ne hij, ih hl.1 hd]
    | _ => exact ih hl.1 ((dropped_cons.mp hi).resolve_left (by simp))

/-! ## Slot states -/

theorem states_publish {k : Nat} : (replay ring initial (.publish k t :: h)).states =
    Function.update (replay ring initial h).states (ring.indexOfSeq t) (ring.availableFlag t) :=
  rfl

theorem states_mark : (replay ring initial (.mark t :: h)).states =
    Function.update (replay ring initial h).states (ring.indexOfSeq t)
      (marked ((replay ring initial h).states (ring.indexOfSeq t))) :=
  rfl

/-- The lap flag of a slot is the flag of the sequence its cell holds. -/
theorem lapOf_replay : lapOf ((replay ring initial h).states (ring.indexOfSeq s)) =
    ring.availableFlag (held ring.bufferSize h (s % ring.bufferSize)) := by
  have hc := ring.bufferSize_pos
  induction h with
  | nil =>
    show lapOf 0 = ring.availableFlag (s % ring.bufferSize - ring.bufferSize)
    rw [initial_flag ring (Int.emod_nonneg s (by omega)) (Int.emod_lt_of_pos s hc)]
    rfl
  | cons e h ih =>
    cases e with
    | publish k t =>
      rw [states_publish, held]
      split
      · rename_i hcell
        rw [(RingBufferMeta.indexOfSeq_eq_iff ring).mpr hcell, Function.update_self,
          lapOf_availableFlag]
      · rename_i hcell
        rw [Function.update_of_ne, ih]
        exact fun hi => hcell ((RingBufferMeta.indexOfSeq_eq_iff ring).mp hi.symm)
    | mark t =>
      rw [states_mark]
      show _ = ring.availableFlag (held ring.bufferSize h _)
      by_cases hi : ring.indexOfSeq s = ring.indexOfSeq t
      · rw [hi, Function.update_self, lapOf_marked, ← hi, ih]
      · rw [Function.update_of_ne hi, ih]
    | _ => exact ih

/-- The shutdown bit of a slot says whether its cell is marked. -/
theorem shutdownOf_replay : shutdownOf ((replay ring initial h).states (ring.indexOfSeq s)) = true ↔
    Marked ring.bufferSize h (s % ring.bufferSize) := by
  induction h with
  | nil =>
    show shutdownOf 0 = true ↔ False
    decide
  | cons e h ih =>
    cases e with
    | publish k t =>
      rw [states_publish, Marked]
      by_cases hi : ring.indexOfSeq s = ring.indexOfSeq t
      · have hcell := (RingBufferMeta.indexOfSeq_eq_iff ring).mp hi
        rw [hi, Function.update_self, shutdownOf_availableFlag]
        simp [hcell]
      · rw [Function.update_of_ne hi, ih]
        have hcell : t % ring.bufferSize ≠ s % ring.bufferSize :=
          fun hc => hi ((RingBufferMeta.indexOfSeq_eq_iff ring).mpr hc.symm)
        simp [hcell]
    | mark t =>
      rw [states_mark, Marked]
      by_cases hi : ring.indexOfSeq s = ring.indexOfSeq t
      · have hcell := (RingBufferMeta.indexOfSeq_eq_iff ring).mp hi
        rw [hi, Function.update_self, shutdownOf_marked]
        simp [hcell]
      · rw [Function.update_of_ne hi, ih]
        have hcell : t % ring.bufferSize ≠ s % ring.bufferSize :=
          fun hc => hi ((RingBufferMeta.indexOfSeq_eq_iff ring).mpr hc.symm)
        simp [hcell]
    | _ => exact ih

/-- **A matching flag means published**, for every sequence up to a lap past the highest claim. -/
theorem published_of_flag (hl : Legal ring.bufferSize h) (h₀ : 0 ≤ s)
    (h₁ : s ≤ highest h + ring.bufferSize)
    (hflag : lapOf ((replay ring initial h).states (ring.indexOfSeq s)) = ring.availableFlag s) :
    Published h s := by
  have hc := ring.bufferSize_pos
  have hr₀ := Int.emod_nonneg s (by omega : ring.bufferSize ≠ 0)
  have hr₁ := Int.emod_lt_of_pos s hc
  have hcell := held_emod (h := h) hr₀ hr₁
  have hlo := lt_held hc hl hr₀ hr₁
  have hhi := held_le hl hr₁
  rcases lt_or_ge s (held ring.bufferSize h (s % ring.bufferSize)) with hlt | hge
  · -- the cell has moved on to a later lap
    have hlap := lap_le hcell.symm hlt
    exact published_of_lap hc hl h₀ (by omega)
  · rw [lapOf_replay] at hflag
    have heq : held ring.bufferSize h (s % ring.bufferSize) = s :=
      eq_of_availableFlag_eq ring ((RingBufferMeta.indexOfSeq_eq_iff ring).mpr hcell) hflag
        (by omega) (by omega)
    rcases held_cases (c := ring.bufferSize) (h := h) (s % ring.bufferSize) with hinit | hp
    · omega
    · rwa [heq] at hp

/-- **Flag and publication agree** where no later lap of the slot is published. -/
theorem flag_iff_published (hl : Legal ring.bufferSize h) (h₀ : 0 ≤ s)
    (h₁ : s ≤ highest h + ring.bufferSize)
    (hnext : ∀ t, Published h t → t % ring.bufferSize = s % ring.bufferSize → t ≤ s) :
    lapOf ((replay ring initial h).states (ring.indexOfSeq s)) = ring.availableFlag s ↔
      Published h s := by
  refine ⟨published_of_flag hl h₀ h₁, fun hs => ?_⟩
  rw [lapOf_replay, held_of_published ring.bufferSize_pos hl hs hnext]

/-! ## Slots -/

/-- **A slot of the last lap contains the value stored for its sequence.** -/
theorem slots_replay {v : T} (hl : Legal ring.bufferSize h)
    (hs : highest h - ring.bufferSize < s) (hv : stored h s = some v) :
    (replay ring initial h).slots (ring.indexOfSeq s) = v := by
  have hc := ring.bufferSize_pos
  induction h with
  | nil => simp [stored] at hv
  | cons e h ih =>
    cases e with
    | store k t w =>
      obtain ⟨hl, ho, hp⟩ := hl
      show Function.update (replay ring initial h).slots (ring.indexOfSeq t) w _ = v
      rw [stored] at hv
      split at hv
      · rename_i hts
        rw [hts, Function.update_self]
        exact Option.some.inj hv
      · rename_i hts
        rw [Function.update_of_ne, ih hl hs hv]
        intro hi
        obtain ⟨k', hk', -⟩ := owner_of_stored hl hv
        have ht := uncommitted_of_owner hl ho hp
        have hw := ht.window hc hl
        have := ht.2.1
        have := owner_eq_some hl hk'
        simp only [highest] at hs
        exact hts (eq_of_emod_eq ((RingBufferMeta.indexOfSeq_eq_iff ring).mp hi.symm) (by omega)
          (by omega))
    | claim k a b =>
      have hmono := highest_le_cons (h := h) (e := .claim k a b)
      exact ih hl.1 (by omega) hv
    | _ => exact ih hl.1 hs hv

end EnsoChannel
