import EnsoChannel.Sequence

/-!
# Slot states: a lap flag and a shutdown bit in one `u32`

The pure part of `U32SlotStates` (`slot_states.rs`). A slot state is a `BitVec 32`: the lower 31
bits hold the lap flag of the sequence last published in the slot, bit 31 is the shutdown bit.

* `availableFlag_toNat`: the flag of `seq` is its lap plus one, modulo `2 ^ 31`.
* `lapOf_availableFlag`, `shutdownOf_availableFlag`: a published state is its own lap flag and
  carries no shutdown bit.
* `lapOf_marked`, `shutdownOf_marked`: `mark_shutdown` sets the bit and leaves the lap alone.
* `slotState_eq_iff`: index and flag together determine a sequence modulo `capacity * 2 ^ 31`.
* `initial_flag`: the initial state `0` is the flag of the virtual lap `-1`.
-/

namespace EnsoChannel

/-- An `AtomicU32` of `U32SlotStates::states`. -/
abbrev RawState := BitVec 32

/-- `MASK`: the 31 bits of the lap flag. -/
def lapMask : RawState := BitVec.ofNat 32 (2 ^ 31 - 1)

/-- `SHUTDOWN_BIT`. -/
def shutdownBit : RawState := BitVec.ofNat 32 (2 ^ 31)

/-- `raw & MASK`. -/
def lapOf (raw : RawState) : RawState := raw &&& lapMask

/-- `(raw & SHUTDOWN_BIT) != 0`. -/
def shutdownOf (raw : RawState) : Bool := raw &&& shutdownBit != 0

/-- The state `fetch_or(SHUTDOWN_BIT)` leaves. -/
def marked (raw : RawState) : RawState := raw ||| shutdownBit

namespace RingBufferMeta

variable (ring : RingBufferMeta)

/-- `available_flag`; `flag_adjustment` is 1. -/
def availableFlag (seq : Int) : RawState :=
  let lap : RawState := BitVec.ofInt 32 (seq >>> ring.shift)
  (lap + 1) &&& lapMask

/-- `slot_state`. -/
def slotState (seq : Int) : Nat × RawState :=
  (ring.indexOfSeq seq, ring.availableFlag seq)

end RingBufferMeta

/-! ## The two halves of a state -/

theorem lapMask_toNat : lapMask.toNat = 2 ^ 31 - 1 := by decide

theorem lapOf_toNat (raw : RawState) : (lapOf raw).toNat = raw.toNat % 2 ^ 31 := by
  unfold lapOf
  rw [BitVec.toNat_and, lapMask_toNat, Nat.and_two_pow_sub_one_eq_mod]

theorem lapOf_lapOf (raw : RawState) : lapOf (lapOf raw) = lapOf raw := by
  apply BitVec.eq_of_toNat_eq
  rw [lapOf_toNat, lapOf_toNat, Nat.mod_mod]

theorem lapMask_and_shutdownBit : lapMask &&& shutdownBit = 0 := by decide

theorem shutdownOf_lapOf (raw : RawState) : shutdownOf (lapOf raw) = false := by
  unfold shutdownOf lapOf
  rw [BitVec.and_assoc, lapMask_and_shutdownBit]
  simp

theorem lapOf_marked (raw : RawState) : lapOf (marked raw) = lapOf raw := by
  unfold lapOf marked
  have h : shutdownBit &&& lapMask = 0 := by decide
  rw [BitVec.and_comm, BitVec.and_or_distrib_left, BitVec.and_comm lapMask shutdownBit, h,
    BitVec.and_comm]
  simp

theorem shutdownOf_marked (raw : RawState) : shutdownOf (marked raw) = true := by
  unfold shutdownOf marked
  have h : (raw ||| shutdownBit) &&& shutdownBit = shutdownBit := by
    rw [BitVec.and_comm, BitVec.and_or_distrib_left, BitVec.and_self]
    apply BitVec.eq_of_getLsbD_eq
    intro i hi
    rw [BitVec.getLsbD_or, BitVec.getLsbD_and]
    cases shutdownBit.getLsbD i <;> simp
  rw [h]
  decide

/-! ## The lap flag -/

section Flags

variable (ring : RingBufferMeta)

/-- **The lap flag is the lap plus one, modulo `2 ^ 31`.** -/
theorem availableFlag_toNat (seq : Int) :
    ((ring.availableFlag seq).toNat : Int) = (seq / ring.bufferSize + 1) % 2 ^ 31 := by
  have hlap : seq >>> ring.shift = seq / ring.bufferSize := by
    rw [Int.shiftRight_eq_div_pow, RingBufferMeta.bufferSize_eq]
  have h31 : ((2 ^ 31 : Nat) : Int) ∣ ((2 ^ 32 : Nat) : Int) := by decide
  show (((BitVec.ofInt 32 (seq >>> ring.shift) + 1) &&& lapMask).toNat : Int) = _
  rw [hlap, BitVec.toNat_and, lapMask_toNat, Nat.and_two_pow_sub_one_eq_mod, BitVec.toNat_add,
    BitVec.toNat_ofInt]
  push_cast
  rw [Int.toNat_of_nonneg (Int.emod_nonneg _ (by decide))]
  norm_num

theorem lapOf_availableFlag (seq : Int) :
    lapOf (ring.availableFlag seq) = ring.availableFlag seq :=
  lapOf_lapOf _

theorem shutdownOf_availableFlag (seq : Int) :
    shutdownOf (ring.availableFlag seq) = false :=
  shutdownOf_lapOf _

/-- Equal flags are laps that differ by a multiple of `2 ^ 31`. -/
theorem availableFlag_eq_iff {s t : Int} :
    ring.availableFlag s = ring.availableFlag t ↔
      (s / ring.bufferSize - t / ring.bufferSize) % 2 ^ 31 = 0 := by
  rw [← BitVec.toNat_inj, ← Int.natCast_inj, availableFlag_toNat, availableFlag_toNat]
  generalize s / ring.bufferSize = x
  generalize t / ring.bufferSize = y
  omega

/-- **Index and flag determine a sequence modulo `capacity * 2 ^ 31`.** -/
theorem slotState_eq_iff {s t : Int} :
    ring.slotState s = ring.slotState t ↔
      s % (ring.bufferSize * 2 ^ 31) = t % (ring.bufferSize * 2 ^ 31) := by
  have hc := ring.bufferSize_pos
  unfold RingBufferMeta.slotState
  rw [Prod.mk.injEq, RingBufferMeta.indexOfSeq_eq_iff, availableFlag_eq_iff]
  have hs := Int.emod_add_mul_ediv s ring.bufferSize
  have ht := Int.emod_add_mul_ediv t ring.bufferSize
  constructor
  · rintro ⟨hi, hf⟩
    obtain ⟨q, hq⟩ := Int.dvd_of_emod_eq_zero hf
    have hst : s - t = ring.bufferSize * 2 ^ 31 * q := by
      rw [mul_assoc, ← hq, mul_sub]
      omega
    have : s = t + ring.bufferSize * 2 ^ 31 * q := by omega
    rw [this, Int.add_mul_emod_self_left]
  · intro h
    have hdvd : ring.bufferSize ∣ ring.bufferSize * 2 ^ 31 := dvd_mul_right _ _
    have hi : s % ring.bufferSize = t % ring.bufferSize := by
      rw [← Int.emod_emod_of_dvd s hdvd, h, Int.emod_emod_of_dvd t hdvd]
    refine ⟨hi, ?_⟩
    obtain ⟨q, hq⟩ : ring.bufferSize * 2 ^ 31 ∣ s - t := Int.ModEq.dvd h.symm
    have hlap : ring.bufferSize * (s / ring.bufferSize - t / ring.bufferSize) =
        ring.bufferSize * (2 ^ 31 * q) := by
      rw [← mul_assoc, ← hq, mul_sub]
      omega
    rw [mul_left_cancel₀ (by omega) hlap]
    exact Int.mul_emod_right _ _

/-- Sequences of one slot that are less than `2 ^ 31` laps apart have different flags. -/
theorem eq_of_availableFlag_eq {s t : Int} (hi : ring.indexOfSeq s = ring.indexOfSeq t)
    (hf : ring.availableFlag s = ring.availableFlag t)
    (h₁ : s - t < ring.bufferSize * 2 ^ 31) (h₂ : t - s < ring.bufferSize * 2 ^ 31) : s = t := by
  have h : s % (ring.bufferSize * 2 ^ 31) = t % (ring.bufferSize * 2 ^ 31) :=
    (slotState_eq_iff ring).mp (Prod.ext hi hf)
  obtain ⟨q, hq⟩ : ring.bufferSize * 2 ^ 31 ∣ s - t := Int.ModEq.dvd h.symm
  have hpos : 0 < ring.bufferSize * 2 ^ 31 := by
    have := ring.bufferSize_pos
    positivity
  have hlt : ring.bufferSize * 2 ^ 31 * q < ring.bufferSize * 2 ^ 31 * 1 := by omega
  have hgt : ring.bufferSize * 2 ^ 31 * (-1) < ring.bufferSize * 2 ^ 31 * q := by omega
  have hq0 : q = 0 := by
    have := lt_of_mul_lt_mul_left hlt hpos.le
    have := lt_of_mul_lt_mul_left hgt hpos.le
    omega
  rw [hq0, mul_zero] at hq
  omega

/-- **The initial state `0` is the flag of the virtual lap `-1`**: an empty slot of index `i`
looks like a publish of `i - capacity`. -/
theorem initial_flag {i : Int} (h₀ : 0 ≤ i) (h₁ : i < ring.bufferSize) :
    ring.availableFlag (i - ring.bufferSize) = 0 := by
  have hlap : (i - ring.bufferSize) / ring.bufferSize = -1 := by
    have hc := ring.bufferSize_pos
    rw [Int.sub_ediv_of_dvd _ (dvd_refl _), Int.ediv_self (by omega),
      Int.ediv_eq_zero_of_lt h₀ h₁]
    omega
  apply BitVec.eq_of_toNat_eq
  rw [← Int.natCast_inj, availableFlag_toNat, hlap]
  rfl

end Flags

end EnsoChannel
