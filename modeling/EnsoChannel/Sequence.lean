import Mathlib.Data.Int.ModEq
import Mathlib.Tactic.Linarith
import Mathlib.Tactic.Ring

/-!
# Sequences, cursors and the shape of the ring

`sequence.rs`, the constants of `pub_mul.rs`, `RingBufferMeta` of `ringbuffer.rs` and
`InvalidChannelSize::validate` of `errors.rs`. A `Sequence` wraps an `i64`; here it is an `Int`,
and the operations that depend on the width go through `BitVec 64`: the two masks of the `claimed`
cursor (`i64Or`, `i64And`), the cast of a `usize` limit (`usizeAsI64`) and the index mask
(`indexOfSeq`). Additions and subtractions are those of `Int`; they are the source's as long as
the values stay in the `i64` range, which `InRange` of `System.lean` sees to. `Builds.lean` has the
words of the two builds.

The `claimed` cursor carries the shutdown signal in its sign. Its initial value `-1` has the sign
bit set too, so `has_shutdown` looks for a negative value other than `-1`. The lemmas say what
the masks do on the two halves of the range:
* `or_shutdownMask_of_nonneg`, `or_shutdownMask_of_neg`: `raw | SHUTDOWN_MASK`;
* `and_valueMask_of_neg`: `raw & VALUE_MASK`.

`RingBufferMeta` carries the logarithm of the capacity and the bound `2 ^ 30`, so a ring whose
size is no power of two cannot be built; `RingBufferMeta.new` builds one from any size that
`validate` accepts. `indexOfSeq_eq` says the index mask is the residue modulo the capacity, on
negative sequences too.
-/

namespace EnsoChannel

/-! ## The `i64` words -/

/-- `i64::MAX`. -/
def i64Max : Int := 2 ^ 63 - 1

/-- `i64::MIN`. -/
def i64Min : Int := -2 ^ 63

/-- `a | b` on `i64`. -/
def i64Or (a b : Int) : Int := (BitVec.ofInt 64 a ||| BitVec.ofInt 64 b).toInt

/-- `a & b` on `i64`. -/
def i64And (a b : Int) : Int := (BitVec.ofInt 64 a &&& BitVec.ofInt 64 b).toInt

/-- `u as i64` for a `usize` (64 bits). -/
def usizeAsI64 (u : Nat) : Int := (BitVec.ofNat 64 u).toInt

/-- A limit in the `i64` range survives the cast. -/
theorem usizeAsI64_eq {u : Nat} (h : (u : Int) ≤ i64Max) : usizeAsI64 u = u := by
  unfold i64Max at h
  have hlt : u < 2 ^ 63 := by omega
  unfold usizeAsI64
  rw [BitVec.toInt_eq_toNat_of_lt]
  · rw [BitVec.toNat_ofNat, Nat.mod_eq_of_lt (by omega)]
  · rw [BitVec.toNat_ofNat, Nat.mod_eq_of_lt (by omega)]
    omega

theorem toNat_ofInt_of_nonneg {a : Int} (h₀ : 0 ≤ a) (h₁ : a ≤ i64Max) :
    (BitVec.ofInt 64 a).toNat = a.toNat := by
  unfold i64Max at h₁
  rw [BitVec.toNat_ofInt, Int.emod_eq_of_lt h₀ (by omega)]

theorem toNat_ofInt_of_neg {a : Int} (h₀ : a < 0) (h₁ : i64Min ≤ a) :
    (BitVec.ofInt 64 a).toNat = 2 ^ 63 + (a - i64Min).toNat := by
  unfold i64Min at h₁ ⊢
  rw [BitVec.toNat_ofInt]
  have h : a % ((2 ^ 64 : Nat) : Int) = a + 2 ^ 64 := by
    rw [← Int.add_emod_right, Int.emod_eq_of_lt (by omega) (by omega)]
    omega
  rw [h]
  omega

/-! ## Sequences and cursors -/

/-- `Sequence::INIT`. -/
def Sequence.init : Int := -1

/-- `Sequence::SHUTDOWN_OPEN`: the cursor of a dropped receiver. -/
def Sequence.shutdownOpen : Int := i64Max

/-- `SHUTDOWN_MASK`: the sign bit. -/
def shutdownMask : Int := i64Min

/-- `VALUE_MASK`: every bit but the sign bit. -/
def valueMask : Int := i64Max

/-- `has_shutdown`: negative and not the initial `-1`. -/
def hasShutdown (raw : Int) : Bool := decide (raw < 0) && raw != -1

theorem hasShutdown_eq_true {raw : Int} : hasShutdown raw = true ↔ raw < -1 := by
  simp only [hasShutdown, Bool.and_eq_true, decide_eq_true_eq, bne_iff_ne]
  omega

theorem hasShutdown_eq_false {raw : Int} : hasShutdown raw = false ↔ -1 ≤ raw := by
  rw [← not_iff_not, Bool.not_eq_false, hasShutdown_eq_true]
  omega

/-- `raw | SHUTDOWN_MASK` sets the sign bit of a non-negative value. -/
theorem or_shutdownMask_of_nonneg {raw : Int} (h₀ : 0 ≤ raw) (h₁ : raw ≤ i64Max) :
    i64Or raw shutdownMask = raw + i64Min := by
  have hlt : raw.toNat < 2 ^ 63 := by unfold i64Max at h₁; omega
  have hor : (BitVec.ofInt 64 raw ||| BitVec.ofInt 64 shutdownMask).toNat = 2 ^ 63 + raw.toNat := by
    rw [BitVec.toNat_or, toNat_ofInt_of_nonneg h₀ h₁]
    have hm : (BitVec.ofInt 64 shutdownMask).toNat = 2 ^ 63 := by decide
    have hdisj := Nat.two_pow_add_eq_or_of_lt hlt 1
    rw [mul_one] at hdisj
    rw [hm, Nat.or_comm, hdisj]
  unfold i64Or
  rw [BitVec.toInt_eq_toNat_cond, hor, if_neg (by omega)]
  unfold i64Min
  omega

/-- `raw | SHUTDOWN_MASK` leaves a negative value as it is. -/
theorem or_shutdownMask_of_neg {raw : Int} (h₀ : raw < 0) (h₁ : i64Min ≤ raw) :
    i64Or raw shutdownMask = raw := by
  have hlt : (raw - i64Min).toNat < 2 ^ 63 := by unfold i64Min at h₁ ⊢; omega
  have hor : (BitVec.ofInt 64 raw ||| BitVec.ofInt 64 shutdownMask).toNat =
      2 ^ 63 + (raw - i64Min).toNat := by
    rw [BitVec.toNat_or, toNat_ofInt_of_neg h₀ h₁]
    have hm : (BitVec.ofInt 64 shutdownMask).toNat = 2 ^ 63 := by decide
    have hdisj := Nat.two_pow_add_eq_or_of_lt hlt 1
    rw [mul_one] at hdisj
    rw [hm, hdisj, Nat.or_assoc, Nat.or_comm (raw - i64Min).toNat, ← Nat.or_assoc, Nat.or_self]
  unfold i64Or
  rw [BitVec.toInt_eq_toNat_cond, hor, if_neg (by omega)]
  unfold i64Min at h₁ ⊢
  omega

/-- `raw & VALUE_MASK` clears the sign bit. -/
theorem and_valueMask_of_neg {raw : Int} (h₀ : raw < 0) (h₁ : i64Min ≤ raw) :
    i64And raw valueMask = raw - i64Min := by
  have hlt : (raw - i64Min).toNat < 2 ^ 63 := by unfold i64Min at h₁ ⊢; omega
  have hand : (BitVec.ofInt 64 raw &&& BitVec.ofInt 64 valueMask).toNat = (raw - i64Min).toNat := by
    rw [BitVec.toNat_and, toNat_ofInt_of_neg h₀ h₁]
    have hm : (BitVec.ofInt 64 valueMask).toNat = 2 ^ 63 - 1 := by decide
    rw [hm, Nat.and_two_pow_sub_one_eq_mod, Nat.add_mod_left, Nat.mod_eq_of_lt hlt]
  unfold i64And
  rw [BitVec.toInt_eq_toNat_cond, hand, if_pos (by omega)]
  unfold i64Min at h₁ ⊢
  omega

/-! ## Channel sizes -/

/-- `MAX_CHANNEL_SIZE`. -/
def maxChannelSize : Nat := 2 ^ 30

/-- `usize::is_power_of_two`. -/
def isPowerOfTwo (n : Nat) : Bool := n == 2 ^ n.log2

/-- `InvalidChannelSize`. -/
inductive InvalidChannelSize
  | notAPowerOfTwo
  | tooLarge
  deriving DecidableEq, Repr

/-- `InvalidChannelSize::validate`. -/
def InvalidChannelSize.validate (channelSize : Nat) : Except InvalidChannelSize Unit :=
  if channelSize > maxChannelSize then .error .tooLarge
  else if !isPowerOfTwo channelSize then .error .notAPowerOfTwo
  else .ok ()

/-- **The accepted sizes** are the powers of two up to `2 ^ 30`. -/
theorem validate_eq_ok {n : Nat} :
    InvalidChannelSize.validate n = .ok () ↔ ∃ k ≤ 30, n = 2 ^ k := by
  unfold InvalidChannelSize.validate isPowerOfTwo maxChannelSize
  constructor
  · intro h
    split at h
    · exact absurd h (by simp)
    · rename_i hle
      split at h
      · exact absurd h (by simp)
      · rename_i hp
        simp only [Bool.not_eq_true', beq_eq_false_iff_ne, ne_eq, not_not] at hp
        refine ⟨n.log2, ?_, hp⟩
        by_contra hk
        have : 2 ^ 31 ≤ 2 ^ n.log2 := Nat.pow_le_pow_right (by omega) (by omega)
        omega
  · rintro ⟨k, hk, rfl⟩
    have hle : 2 ^ k ≤ 2 ^ 30 := Nat.pow_le_pow_right (by omega) hk
    rw [if_neg (by omega), Nat.log2_two_pow]
    simp

/-! ## The ring -/

/-- `RingBufferMeta`: a capacity `2 ^ shift`, at most `2 ^ 30`. -/
structure RingBufferMeta where
  shift : Nat
  shift_le : shift ≤ 30

namespace RingBufferMeta

/-- `RingBufferMeta::new` on an accepted size. -/
def new (n : Nat) (h : InvalidChannelSize.validate n = .ok ()) : RingBufferMeta where
  shift := n.log2
  shift_le := by
    obtain ⟨k, hk, rfl⟩ := validate_eq_ok.mp h
    rwa [Nat.log2_two_pow]

variable (ring : RingBufferMeta)

/-- `buffer_size`. -/
def bufferSize : Int := 2 ^ ring.shift

/-- `index_mask`. -/
def indexMask : Int := ring.bufferSize - 1

/-- `index_of_seq`: `(seq & index_mask) as usize`. -/
def indexOfSeq (seq : Int) : Nat :=
  (BitVec.ofInt 64 seq &&& BitVec.ofInt 64 ring.indexMask).toNat

/-- `available_slots`. -/
def availableSlots (highestPublished maxConsumed : Int) : Int :=
  let wrapPoint := highestPublished - ring.bufferSize
  maxConsumed - wrapPoint

theorem new_bufferSize {n : Nat} (h : InvalidChannelSize.validate n = .ok ()) :
    (new n h).bufferSize = n := by
  obtain ⟨k, hk, rfl⟩ := validate_eq_ok.mp h
  unfold new bufferSize
  simp

theorem bufferSize_pos : 0 < ring.bufferSize := by
  unfold bufferSize
  positivity

theorem bufferSize_le : ring.bufferSize ≤ 2 ^ 30 := by
  unfold bufferSize
  exact_mod_cast Nat.pow_le_pow_right (by omega) ring.shift_le

theorem bufferSize_eq : ring.bufferSize = ((2 ^ ring.shift : Nat) : Int) := by
  unfold bufferSize
  push_cast
  rfl

/-- **The index is the residue modulo the capacity**, negative sequences included. -/
theorem indexOfSeq_eq (seq : Int) : (ring.indexOfSeq seq : Int) = seq % ring.bufferSize := by
  have hs := ring.shift_le
  have hpow : 2 ^ ring.shift ≤ 2 ^ 30 := Nat.pow_le_pow_right (by omega) hs
  have hpos : 0 < 2 ^ ring.shift := Nat.two_pow_pos _
  have hmask : (BitVec.ofInt 64 ring.indexMask).toNat = 2 ^ ring.shift - 1 := by
    unfold indexMask
    rw [bufferSize_eq, BitVec.toNat_ofInt, Int.emod_eq_of_lt (by omega) (by omega)]
    omega
  have hdvd : ((2 ^ ring.shift : Nat) : Int) ∣ ((2 ^ 64 : Nat) : Int) :=
    Int.natCast_dvd_natCast.mpr (pow_dvd_pow 2 (by omega))
  unfold indexOfSeq
  rw [BitVec.toNat_and, hmask, Nat.and_two_pow_sub_one_eq_mod, BitVec.toNat_ofInt,
    Int.natCast_emod, Int.toNat_of_nonneg (Int.emod_nonneg _ (by omega)),
    Int.emod_emod_of_dvd _ hdvd, bufferSize_eq]

/-- The unchecked slot access is in range. -/
theorem indexOfSeq_lt (seq : Int) : (ring.indexOfSeq seq : Int) < ring.bufferSize := by
  rw [indexOfSeq_eq]
  exact Int.emod_lt_of_pos _ ring.bufferSize_pos

theorem indexOfSeq_eq_iff {s t : Int} :
    ring.indexOfSeq s = ring.indexOfSeq t ↔ s % ring.bufferSize = t % ring.bufferSize := by
  rw [← indexOfSeq_eq, ← indexOfSeq_eq, Int.natCast_inj]

theorem availableSlots_eq (highestPublished maxConsumed : Int) :
    ring.availableSlots highestPublished maxConsumed =
      maxConsumed + ring.bufferSize - highestPublished := by
  simp only [availableSlots]
  omega

end RingBufferMeta

end EnsoChannel
