import EnsoChannel.Memory
import Mathlib.Data.Int.ConditionallyCompleteOrder
import Mathlib.Data.Set.Function

/-!
# The slot states and their scans

The operations of `U32SlotStates` (`slot_states.rs`) as functions of the array of raw states, each
loop of the source one recursion. In the system a loop takes one step for each slot it touches
(`Sender.lean`, `Receiver.lean`); run without interference it computes the function given here
(`Alone.lean`).

* `slot_addressing`: the unchecked slot accesses are in range, index and flag together determine a
  sequence modulo `capacity * 2 ^ 31`, and an empty slot is a publish of the virtual lap `-1`.
* `scanAvailable_extent`, `scanLast_extent`: both loops find the `Extent` of the sequences whose
  flag is in place, so they agree whatever shutdown bits are set.
* `scan_spec`: after any sequence of operations, the scan finds the longest run of sequences that
  were last published to their slots, and the shutdown bits that were set after that.
* `close_window`: the window that `close()` scans ends where every receiver's own scan ends.
-/

namespace EnsoChannel

open Lib

namespace RingBufferMeta

variable (ring : RingBufferMeta)

/-! ## The operations -/

/-- `publish`. -/
def publish (states : Nat → RawState) (seq : Int) : Nat → RawState :=
  Function.update states (ring.slotState seq).1 (ring.slotState seq).2

/-- `mark_shutdown`. -/
def markShutdown (states : Nat → RawState) (seq : Int) : Nat → RawState :=
  Function.update states (ring.indexOfSeq seq) (marked (states (ring.indexOfSeq seq)))

/-- The loop of `publish_range`, over the `n` sequences from `seq` on. -/
def publishFrom (states : Nat → RawState) (seq : Int) : Nat → Nat → RawState
  | 0 => states
  | n + 1 => publishFrom (ring.publish states seq) (seq + 1) n

/-- `publish_range`. -/
def publishRange (states : Nat → RawState) (start last : Int) : Nat → RawState :=
  ring.publishFrom states start (last + 1 - start).toNat

/-- The loop of `scan_available_until`, over the `n` sequences from `seq` on. -/
def scanAvailable (states : Nat → RawState) (seq : Int) (shutdown : Bool) : Nat → Int × Bool
  | 0 => (seq - 1, shutdown)
  | n + 1 =>
    let raw := states (ring.slotState seq).1
    let shutdown := shutdown || shutdownOf raw
    if lapOf raw ≠ (ring.slotState seq).2 then (seq - 1, shutdown)
    else scanAvailable states (seq + 1) shutdown n

/-- `scan_available_until`. -/
def scanAvailableUntil (states : Nat → RawState) (start last : Int) : Int × Bool :=
  ring.scanAvailable states start false (last + 1 - start).toNat

/-- The loop of `scan_last_available`, over the `n` sequences from `seq` on. -/
def scanLast (states : Nat → RawState) (seq : Int) : Nat → Int
  | 0 => seq - 1
  | n + 1 =>
    if lapOf (states (ring.slotState seq).1) ≠ (ring.slotState seq).2 then seq - 1
    else scanLast states (seq + 1) n

/-- `scan_last_available`. -/
def scanLastAvailable (states : Nat → RawState) (start last : Int) : Int :=
  ring.scanLast states start (last + 1 - start).toNat

/-- The flag of `seq` is in place. -/
def Available (states : Nat → RawState) (seq : Int) : Prop :=
  lapOf (states (ring.indexOfSeq seq)) = ring.availableFlag seq

instance (states : Nat → RawState) (seq : Int) : Decidable (ring.Available states seq) :=
  inferInstanceAs (Decidable (_ = _))

end RingBufferMeta

section

variable {ring : RingBufferMeta} {states : Nat → RawState} {start last seq r s t c : Int}
  {shutdown : Bool} {n : Nat}

/-! ## Addressing -/

variable (ring) in
/-- Consecutive sequences, as many as there are slots, fill the ring. -/
theorem indexOfSeq_bijOn (a : Int) :
    Set.BijOn ring.indexOfSeq (Set.Ico a (a + ring.bufferSize)) (Set.Iio (2 ^ ring.shift)) := by
  have hc := ring.bufferSize_pos
  have hsize := ring.bufferSize_eq
  refine ⟨fun s _ => ?_, fun s hs t ht heq => ?_, fun n hn => ?_⟩
  · have hlt := ring.indexOfSeq_lt s
    show ring.indexOfSeq s < 2 ^ ring.shift
    omega
  · obtain ⟨hs₀, hs₁⟩ := hs
    obtain ⟨ht₀, ht₁⟩ := ht
    exact eq_of_emod_eq (ring.indexOfSeq_eq_iff.mp heq) (by omega) (by omega)
  · obtain ⟨t, ht₀, ht₁, ht⟩ := exists_emod_eq hc (a - 1) n
    refine ⟨t, ⟨by omega, by omega⟩, ?_⟩
    have hn : n < 2 ^ ring.shift := hn
    have hidx := ring.indexOfSeq_eq t
    rw [ht, Int.emod_eq_of_lt (by omega) (by omega)] at hidx
    exact_mod_cast hidx

/-- A publish of the virtual lap `-1` leaves an empty slot as it is. -/
theorem publish_initial {i : Int} (h₀ : 0 ≤ i) (h₁ : i < ring.bufferSize) :
    ring.publish (fun _ => 0) (i - ring.bufferSize) = fun _ => 0 := by
  unfold RingBufferMeta.publish RingBufferMeta.slotState
  rw [initial_flag ring h₀ h₁]
  exact Function.update_eq_self _ _

/-- **Slot addressing is in bounds and unambiguous**, on every ring that `validate` accepts and for
all sequences, negative ones included. -/
theorem slot_addressing {n : Nat} (hn : InvalidChannelSize.validate n = .ok ()) :
    (∀ s, (RingBufferMeta.new n hn).indexOfSeq s < n) ∧
      (∀ s t, (RingBufferMeta.new n hn).slotState s = (RingBufferMeta.new n hn).slotState t ↔
        s ≡ t [ZMOD n * 2 ^ 31]) ∧
      (∀ a, Set.BijOn (RingBufferMeta.new n hn).indexOfSeq (Set.Ico a (a + n)) (Set.Iio n)) ∧
      ∀ i < n, (RingBufferMeta.new n hn).slotState (i - n) = (i, 0) ∧
        (RingBufferMeta.new n hn).publish (fun _ => 0) (i - n) = fun _ => 0 := by
  have hsize := RingBufferMeta.new_bufferSize hn
  generalize RingBufferMeta.new n hn = ring at hsize ⊢
  have hshift : 2 ^ ring.shift = n := by
    have heq := ring.bufferSize_eq
    omega
  refine ⟨fun s => ?_, fun s t => ?_, fun a => ?_, fun i hi => ⟨?_, ?_⟩⟩
  · have hlt := ring.indexOfSeq_lt s
    omega
  · rw [← hsize]
    exact slotState_eq_iff ring
  · have hbij := indexOfSeq_bijOn ring a
    rwa [hshift, hsize] at hbij
  · have hidx := ring.indexOfSeq_eq (i - ring.bufferSize)
    rw [Int.sub_emod_right, Int.emod_eq_of_lt (by omega) (by omega)] at hidx
    rw [← hsize]
    exact Prod.ext (by exact_mod_cast hidx) (initial_flag ring (by omega) (by omega))
  · rw [← hsize]
    exact publish_initial (by omega) (by omega)

/-- A ring of four slots. -/
theorem slot_addressing_four :
    (RingBufferMeta.new 4 (by decide)).slotState (-1) = (3, 0) ∧
      (RingBufferMeta.new 4 (by decide)).indexOfSeq (-7) < 4 :=
  ⟨((slot_addressing (n := 4) (by decide)).2.2.2 3 (by omega)).1,
    (slot_addressing (n := 4) (by decide)).1 (-7)⟩

/-! ## What the loops find -/

variable (ring) in
/-- **The receiver's scan reaches as far as the flags are in place.** -/
theorem scanAvailable_extent (states : Nat → RawState) (n : Nat) (seq : Int) (shutdown : Bool) :
    Extent (ring.Available states) seq (seq + n - 1)
      (ring.scanAvailable states seq shutdown n).1 := by
  induction n generalizing seq shutdown with
  | zero =>
    rw [Nat.cast_zero, add_zero]
    exact Extent.empty _ seq
  | succ n ih =>
    rw [RingBufferMeta.scanAvailable]
    split
    · rename_i hflag
      exact Extent.here hflag (by omega)
    · rename_i hflag
      have hrest := ih (seq + 1) (shutdown || shutdownOf (states (ring.slotState seq).1))
      rw [show seq + 1 + (n : Int) - 1 = seq + ((n + 1 : Nat) : Int) - 1 by push_cast; omega]
        at hrest
      exact Extent.cons (not_not.mp hflag) hrest

/-- **The shutdown flag of a scan**: some slot it loaded carries the bit. -/
theorem scanAvailable_shutdown (states : Nat → RawState) (n : Nat) (seq : Int) (shutdown : Bool) :
    (ring.scanAvailable states seq shutdown n).2 = true ↔
      shutdown = true ∨ ∃ t, seq ≤ t ∧ t ≤ (ring.scanAvailable states seq shutdown n).1 + 1 ∧
        t ≤ seq + n - 1 ∧ shutdownOf (states (ring.indexOfSeq t)) = true := by
  induction n generalizing seq shutdown with
  | zero =>
    constructor
    · exact fun h => Or.inl h
    · rintro (h | ⟨t, h₀, -, h₁, -⟩)
      · exact h
      · rw [Nat.cast_zero] at h₁
        omega
  | succ n ih =>
    rw [RingBufferMeta.scanAvailable]
    split
    · -- the loop stops at `seq`, whose state it has loaded
      show (shutdown || shutdownOf (states (ring.indexOfSeq seq))) = true ↔ _
      rw [Bool.or_eq_true]
      refine or_congr_right ⟨fun h => ⟨seq, le_refl _, by omega, by push_cast; omega, h⟩, ?_⟩
      rintro ⟨t, h₀, h₁, -, h⟩
      rwa [show seq = t by omega]
    · have hlow := (scanAvailable_extent ring states n (seq + 1)
        (shutdown || shutdownOf (states (ring.slotState seq).1))).lower
      rw [ih, Bool.or_eq_true, or_assoc]
      refine or_congr_right ⟨?_, ?_⟩
      · rintro (h | ⟨t, h₀, h₁, h₂, h⟩)
        · exact ⟨seq, le_refl _, by omega, by push_cast; omega, h⟩
        · exact ⟨t, by omega, h₁, by push_cast; omega, h⟩
      · rintro ⟨t, h₀, h₁, h₂, h⟩
        rcases eq_or_lt_of_le h₀ with rfl | hlt
        · exact Or.inl h
        · exact Or.inr ⟨t, by omega, h₁, by push_cast at h₂; omega, h⟩

variable (ring) in
/-- **The scan of `close()` reaches as far as the flags are in place.** -/
theorem scanLast_extent (states : Nat → RawState) (n : Nat) (seq : Int) :
    Extent (ring.Available states) seq (seq + n - 1) (ring.scanLast states seq n) := by
  induction n generalizing seq with
  | zero =>
    rw [Nat.cast_zero, add_zero]
    exact Extent.empty _ seq
  | succ n ih =>
    rw [RingBufferMeta.scanLast]
    split
    · rename_i hflag
      exact Extent.here hflag (by omega)
    · rename_i hflag
      have hrest := ih (seq + 1)
      rw [show seq + 1 + (n : Int) - 1 = seq + ((n + 1 : Nat) : Int) - 1 by push_cast; omega]
        at hrest
      exact Extent.cons (not_not.mp hflag) hrest

/-- On a range in order, or one past the end, the loop bounds are the range. -/
theorem loop_bound (h : start - 1 ≤ last) :
    start + ((last + 1 - start).toNat : Int) - 1 = last := by
  omega

variable (ring states) in
theorem scanAvailableUntil_extent (h : start - 1 ≤ last) :
    Extent (ring.Available states) start last (ring.scanAvailableUntil states start last).1 := by
  have hscan := scanAvailable_extent ring states (last + 1 - start).toNat start false
  rwa [loop_bound h] at hscan

variable (ring states) in
theorem scanAvailableUntil_shutdown (h : start - 1 ≤ last) :
    (ring.scanAvailableUntil states start last).2 = true ↔
      ∃ t, start ≤ t ∧ t ≤ min ((ring.scanAvailableUntil states start last).1 + 1) last ∧
        shutdownOf (states (ring.indexOfSeq t)) = true := by
  unfold RingBufferMeta.scanAvailableUntil
  rw [scanAvailable_shutdown, loop_bound h]
  simp only [Bool.false_eq_true, false_or, le_min_iff, and_assoc]

/-- A scan that gets nowhere says what the bit of its first slot says. -/
theorem scanAvailableUntil_stuck {lastClaimed : Int} {shutdown : Bool} (h : lastClaimed < last)
    (hout : ring.scanAvailableUntil states (lastClaimed + 1) last = (lastClaimed, shutdown)) :
    shutdown = shutdownOf (states (ring.indexOfSeq (lastClaimed + 1))) := by
  have hbit := scanAvailableUntil_shutdown ring states
    (show lastClaimed + 1 - 1 ≤ last by omega)
  rw [hout, min_eq_left (show lastClaimed + 1 ≤ last from h)] at hbit
  rw [Bool.eq_iff_iff, hbit]
  constructor
  · rintro ⟨t, h₀, h₁, ht⟩
    rwa [le_antisymm h₀ h₁]
  · exact fun ht => ⟨lastClaimed + 1, le_refl _, le_refl _, ht⟩

theorem scanLastAvailable_extent (h : start - 1 ≤ last) :
    Extent (ring.Available states) start last (ring.scanLastAvailable states start last) := by
  have hscan := scanLast_extent ring states (last + 1 - start).toNat start
  rwa [loop_bound h] at hscan

/-- **The two loops agree**, whatever shutdown bits are set. -/
theorem scanLastAvailable_eq (h : start - 1 ≤ last) :
    ring.scanLastAvailable states start last = (ring.scanAvailableUntil states start last).1 :=
  (scanLastAvailable_extent h).unique (scanAvailableUntil_extent ring states h)

/-! ## After any operations -/

end

/-- An operation on the slot states. -/
inductive SlotOp
  | publish (seq : Int)
  | publishRange (start last : Int)
  | markShutdown (seq : Int)
  deriving DecidableEq, Repr

namespace SlotOp

/-- What the operation does to the states. -/
def apply (ring : RingBufferMeta) (states : Nat → RawState) : SlotOp → Nat → RawState
  | .publish seq => ring.publish states seq
  | .publishRange start last => ring.publishRange states start last
  | .markShutdown seq => ring.markShutdown states seq

/-- The events of `publish` on the `n` sequences from `seq` on, newest first, before `h`. -/
def publishes (h : History Unit 0) (seq : Int) : Nat → History Unit 0
  | 0 => h
  | n + 1 => publishes (.publish 0 seq :: h) (seq + 1) n

/-- The history after the operation. -/
def events (h : History Unit 0) : SlotOp → History Unit 0
  | .publish seq => .publish 0 seq :: h
  | .publishRange start last => publishes h start (last + 1 - start).toNat
  | .markShutdown seq => .mark seq :: h

/-- The states after the operations on an empty group (`new_all_empty`). -/
def states (ring : RingBufferMeta) (ops : List SlotOp) : Nat → RawState :=
  ops.foldl (apply ring) fun _ => 0

/-- The publishes and marks the operations consist of, newest first. -/
def history (ops : List SlotOp) : History Unit 0 := ops.foldl events []

end SlotOp

section

variable {ring : RingBufferMeta} {start last r : Int}

theorem states_publishes (initial : Nat → Unit) (n : Nat) (h : History Unit 0) (seq : Int) :
    (replay ring initial (SlotOp.publishes h seq n)).states =
      ring.publishFrom (replay ring initial h).states seq n := by
  induction n generalizing h seq with
  | zero => rfl
  | succ n ih =>
    rw [SlotOp.publishes, ih]
    rfl

theorem states_events (initial : Nat → Unit) (h : History Unit 0) (op : SlotOp) :
    (replay ring initial (op.events h)).states = op.apply ring (replay ring initial h).states := by
  cases op with
  | publish seq => rfl
  | publishRange start last => exact states_publishes initial _ h start
  | markShutdown seq => rfl

/-- The states are those of the history of the operations. -/
theorem states_history (ops : List SlotOp) :
    SlotOp.states ring ops = (replay ring (fun _ => ()) (SlotOp.history ops)).states := by
  unfold SlotOp.states SlotOp.history
  have hfold : ∀ (ops : List SlotOp) (h : History Unit 0),
      ops.foldl (SlotOp.apply ring) (replay ring (fun _ => ()) h).states =
        (replay ring (fun _ => ()) (ops.foldl SlotOp.events h)).states := by
    intro ops
    induction ops with
    | nil => exact fun _ => rfl
    | cons op ops ih =>
      intro h
      rw [List.foldl_cons, List.foldl_cons, ← states_events, ih]
  exact hfold ops []

/-- Two sequences of one slot whose laps are less than `2 ^ 31` apart are equal if their flags
are. -/
theorem eq_of_flag_eq {s t : Int} (hcell : s % ring.bufferSize = t % ring.bufferSize)
    (hflag : ring.availableFlag s = ring.availableFlag t)
    (hlap : |s / ring.bufferSize - t / ring.bufferSize| < 2 ^ 31) : s = t := by
  have hmod := (availableFlag_eq_iff ring).mp hflag
  have hlaps : s / ring.bufferSize = t / ring.bufferSize := by
    rw [abs_lt] at hlap
    omega
  rw [← Int.emod_add_mul_ediv s ring.bufferSize, ← Int.emod_add_mul_ediv t ring.bufferSize, hcell,
    hlaps]

variable (ring start last) in
/-- **The scan specification.** After any operations, and as long as no lap in the range is `2 ^ 31`
away from the lap last published in its slot: `scan_available_until` returns the last sequence `r`
up to which every sequence of the range was the last one published to its slot, and whether some
slot it loaded was marked after its last publish; `scan_last_available` returns `r` too. -/
theorem scan_spec (ops : List SlotOp) (hrange : start ≤ last)
    (hlap : ∀ t, start ≤ t → t ≤ last →
      |t / ring.bufferSize -
        held ring.bufferSize (SlotOp.history ops) (t % ring.bufferSize) / ring.bufferSize| <
          2 ^ 31) :
    ∃ r shutdown,
      ring.scanAvailableUntil (SlotOp.states ring ops) start last = (r, shutdown) ∧
        ring.scanLastAvailable (SlotOp.states ring ops) start last = r ∧
        IsGreatest {r | start - 1 ≤ r ∧ r ≤ last ∧ ∀ t, start ≤ t → t ≤ r →
          held ring.bufferSize (SlotOp.history ops) (t % ring.bufferSize) = t} r ∧
        (shutdown = true ↔ ∃ t, start ≤ t ∧ t ≤ min (r + 1) last ∧
          Marked ring.bufferSize (SlotOp.history ops) (t % ring.bufferSize)) := by
  have hc := ring.bufferSize_pos
  have hbound : start - 1 ≤ last := by omega
  refine ⟨(ring.scanAvailableUntil (SlotOp.states ring ops) start last).1,
    (ring.scanAvailableUntil (SlotOp.states ring ops) start last).2, rfl,
    scanLastAvailable_eq hbound, ?_, ?_⟩
  · refine ((scanAvailableUntil_extent _ _ hbound).congr fun t h₀ _ h₁ => ?_).isGreatest
    unfold RingBufferMeta.Available
    rw [states_history, lapOf_replay]
    have hcell : held ring.bufferSize (SlotOp.history ops) (t % ring.bufferSize) % ring.bufferSize =
        t % ring.bufferSize :=
      held_emod (Int.emod_nonneg t (by omega)) (Int.emod_lt_of_pos t hc)
    constructor
    · intro hflag
      refine eq_of_flag_eq hcell hflag ?_
      rw [abs_sub_comm]
      exact hlap t h₀ h₁
    · intro heq
      rw [heq]
  · rw [scanAvailableUntil_shutdown _ _ hbound, states_history]
    simp only [shutdownOf_replay]

/-- On a ring of four slots: `5` overwrites `1`, `6` is missing, and `7` is marked and then
published. -/
theorem scan_spec_four :
    ∃ r shutdown, (⟨2, by decide⟩ : RingBufferMeta).scanAvailableUntil
        (SlotOp.states ⟨2, by decide⟩ [.publishRange 0 3, .publish 5, .publish 4, .markShutdown 7,
          .publish 7, .markShutdown 6]) 4 7 = (r, shutdown) ∧
      r = 5 ∧ shutdown = true := by
  have hspec := scan_spec ⟨2, by decide⟩ 4 7
    [.publishRange 0 3, .publish 5, .publish 4, .markShutdown 7, .publish 7, .markShutdown 6]
    (by decide) (by
      intro t h₀ h₁
      obtain rfl | rfl | rfl | rfl : t = 4 ∨ t = 5 ∨ t = 6 ∨ t = 7 := by omega
      all_goals decide)
  obtain ⟨r, shutdown, hscan, -, -, -⟩ := hspec
  have hcomp : (⟨2, by decide⟩ : RingBufferMeta).scanAvailableUntil
      (SlotOp.states ⟨2, by decide⟩ [.publishRange 0 3, .publish 5, .publish 4, .markShutdown 7,
        .publish 7, .markShutdown 6]) 4 7 = (5, true) := by decide
  rw [hcomp] at hscan
  exact ⟨r, shutdown, hcomp.trans hscan, (congrArg Prod.fst hscan).symm,
    (congrArg Prod.snd hscan).symm⟩

/-! ## The window of `close()` -/

/-- The boundary `close()` computes from the last claimed sequence `R`. -/
def RingBufferMeta.closeBoundary (ring : RingBufferMeta) (states : Nat → RawState)
    (lastClaimed : Int) : Int :=
  if lastClaimed < 0 then lastClaimed
  else ring.scanLastAvailable states (max (lastClaimed - (ring.bufferSize - 1)) 0) lastClaimed

/-- The flags of a sequence and of the one a lap behind differ. -/
theorem not_available_of_lap {states : Nat → RawState} {t : Int}
    (h : lapOf (states (ring.indexOfSeq t)) = ring.availableFlag (t - ring.bufferSize)) :
    ¬ ring.Available states t := by
  intro hflag
  have hc := ring.bufferSize_pos
  have hmod := (availableFlag_eq_iff ring).mp (hflag.symm.trans h)
  rw [Int.sub_ediv_of_dvd _ (dvd_refl _), Int.ediv_self (by omega)] at hmod
  omega

variable (ring) in
/-- **The window of `close()` finds every receiver's boundary.** Each slot of the last `capacity`
claimed sequences holds the flag of its sequence if that is published, and of the one a lap behind
if it is not, with any shutdown bits. Then the scan of `close()` ends where the scan of any receiver
ends that has everything up to its position `c` published: at the last sequence that is published
without a gap after `c` (`c` itself if there is none, or if nothing more was claimed). -/
theorem close_window {states : Nat → RawState} (published : Int → Prop) (R c : Int) (hR : 0 ≤ R)
    (hwindow : ∀ t, max (R - ring.bufferSize + 1) 0 ≤ t → t ≤ R →
      (published t ∧ lapOf (states (ring.indexOfSeq t)) = ring.availableFlag t) ∨
        (¬ published t ∧
          lapOf (states (ring.indexOfSeq t)) = ring.availableFlag (t - ring.bufferSize)))
    (hc₀ : max (R - ring.bufferSize) (-1) ≤ c) (hc₁ : c ≤ R)
    (hpub : ∀ t, max (R - ring.bufferSize + 1) 0 ≤ t → t ≤ c → published t) :
    ring.closeBoundary states R = ring.scanLastAvailable states (c + 1) R ∧
      ring.closeBoundary states R = (ring.scanAvailableUntil states (c + 1) R).1 ∧
      IsGreatest {r | c ≤ r ∧ r ≤ R ∧ ∀ t, c + 1 ≤ t → t ≤ r → published t}
        (ring.closeBoundary states R) := by
  have hsize := ring.bufferSize_pos
  have hflag : ∀ t, max (R - ring.bufferSize + 1) 0 ≤ t → t ≤ R →
      (ring.Available states t ↔ published t) := by
    intro t h₀ h₁
    rcases hwindow t h₀ h₁ with ⟨hp, hlap⟩ | ⟨hp, hlap⟩
    · exact iff_of_true hlap hp
    · exact iff_of_false (not_available_of_lap hlap) hp
  have hboundary : ring.closeBoundary states R =
      ring.scanLastAvailable states (max (R - ring.bufferSize + 1) 0) R := by
    unfold RingBufferMeta.closeBoundary
    rw [if_neg (by omega), show R - (ring.bufferSize - 1) = R - ring.bufferSize + 1 by omega]
  -- what is published up to `c` does not stop the scan
  have hextent : Extent (ring.Available states) (c + 1) R (ring.closeBoundary states R) := by
    rw [hboundary]
    refine (scanLastAvailable_extent (by omega)).later (by omega) hc₁ fun t h₀ h₁ => ?_
    exact (hflag t h₀ (h₁.trans hc₁)).mpr (hpub t h₀ h₁)
  have hlast := hextent.unique (scanLastAvailable_extent (by omega))
  refine ⟨hlast, hlast.trans (scanLastAvailable_eq (by omega)), ?_⟩
  have hgreatest := (hextent.congr fun t h₀ _ h₁ => hflag t (by omega) h₁).isGreatest
  simpa using hgreatest

/-- On a ring of four slots, `0 … 5` claimed and `4` not published: a receiver at `2`. -/
theorem close_window_hole :
    (⟨2, by decide⟩ : RingBufferMeta).closeBoundary
        (SlotOp.states ⟨2, by decide⟩ [.publishRange 0 3, .publish 5]) 5 =
      (⟨2, by decide⟩ : RingBufferMeta).scanLastAvailable
        (SlotOp.states ⟨2, by decide⟩ [.publishRange 0 3, .publish 5]) 3 5 := by
  refine (close_window ⟨2, by decide⟩ (fun t => t ≠ 4) 5 2 (by decide) (fun t h₀ h₁ => ?_)
    (by decide) (by decide) (fun t h₀ h₁ => by omega)).1
  have h₀ : 2 ≤ t := h₀
  obtain rfl | rfl | rfl | rfl : t = 2 ∨ t = 3 ∨ t = 4 ∨ t = 5 := by omega
  all_goals decide

end

end EnsoChannel
