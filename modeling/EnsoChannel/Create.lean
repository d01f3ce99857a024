import EnsoChannel.AtMost

/-!
# Creating a channel

`channel`, `channel_with` and `channel_with_ring` of `mpsc.rs` and `fanout.rs`, with what they
build: `RingBuffer::init_with` and `RingBufferMeta::new` (`ringbuffer.rs`),
`U32SlotStates::new_all_empty` (`slot_states.rs`), `SharedState::new` (`pub_mul.rs`), the gates'
`new` (`con_ex.rs`, `con_fanout.rs`) and `DefaultConsumerSequencer::new` (`consumer.rs`). The
records have the fields of the source here. The runs of `System.lean` know one ring and one memory
instead of a mask, a shift and five copies of the shape; `Channel.Represents` says that the records
are those of a state.

The initializer is the user's (`Fn() -> T`): it may have state of its own, and it may panic.

* `RingShape.new_eq`: the two assertions of `RingBufferMeta::new` hold of every accepted size, the
  second time `mpsc` makes them too, and the casts between `usize` and `i64` lose nothing.
* `channel_created`: a size that is refused is refused before the initializer runs, a large one
  with `TooLarge` even where it is no power of two. For an accepted size the initializer is called
  once for each slot, in the order of the slots, until a call panics; and if none does, what is
  built is the state the runs start from, where each sequence has its slot and its slot state
  within the two boxed slices.
-/

namespace EnsoChannel

variable {T W : Type} {N : Nat}

/-! ## The ring -/

/-- `RingBufferMeta`, with its two fields. -/
structure RingShape where
  indexMask : Int
  bufferSize : Int
  deriving DecidableEq

/-- `RingBufferMeta::new`, `none` where one of its assertions fails. -/
def RingShape.new (bufferSize : Nat) : Option RingShape :=
  if isPowerOfTwo bufferSize = true then
    if bufferSize ≤ maxChannelSize then
      some { indexMask := usizeAsI64 bufferSize - 1, bufferSize := usizeAsI64 bufferSize }
    else none
  else none

/-- `index_of_seq`. -/
def RingShape.indexOfSeq (shape : RingShape) (seq : Int) : Nat :=
  i64AsUsize (i64And seq shape.indexMask)

/-- A call of an `initializer`: what it returns, `none` where it panics, and the state it leaves. -/
abbrev Initializer (W T : Type) := W → Option T × W

/-- `(0..n).map(|_| initializer())`, collected. -/
def initSlots (initializer : Initializer W T) : Nat → W → Option (List T) × W
  | 0, w => (some [], w)
  | n + 1, w =>
    match initializer w with
    | (none, w') => (none, w')
    | (some v, w') =>
      match initSlots initializer n w' with
      | (none, w'') => (none, w'')
      | (some vs, w'') => (some (v :: vs), w'')

/-- `RingBuffer`. -/
structure RingBuffer (T : Type) where
  slots : List T
  ringMeta : RingShape

/-- `RingBuffer::init_with`. -/
def RingBuffer.initWith (capacity : Nat) (initializer : Initializer W T) (w : W) :
    Option (RingBuffer T) × W :=
  match RingShape.new capacity with
  | none => (none, w)
  | some ringMeta =>
    match initSlots initializer capacity w with
    | (none, w') => (none, w')
    | (some slots, w') => (some { slots := slots, ringMeta := ringMeta }, w')

/-! ## The slot states -/

/-- `usize::trailing_zeros`. -/
def trailingZeros (n : Nat) : Nat := (BitVec.ofNat 64 n).ctz.toNat

/-- `U32SlotStates`. -/
structure U32SlotStates where
  states : List RawState
  indexShift : Nat
  ringMeta : RingShape
  flagAdjustment : RawState

/-- `new_all_empty`. -/
def U32SlotStates.newAllEmpty (ringMeta : RingShape) : U32SlotStates :=
  let capacity := i64AsUsize ringMeta.bufferSize
  { states := List.replicate capacity 0
    indexShift := trailingZeros capacity
    ringMeta := ringMeta
    flagAdjustment := 1 }

/-- `slot_state`, with `slot_index` and `available_flag`. -/
def U32SlotStates.slotState (s : U32SlotStates) (seq : Int) : Nat × RawState :=
  let lap : RawState := BitVec.ofInt 32 (seq >>> s.indexShift)
  (s.ringMeta.indexOfSeq seq, (lap + s.flagAdjustment) &&& lapMask)

/-! ## The parties -/

/-- `ExclusiveConSeqGate` (`N = 1`) and `FanoutConSeqGate`: the cursors and the wakers. -/
structure ConSeqGate (N : Nat) where
  consumed : Fin N → Int
  wakers : Fin N → Option Nat

/-- `new` of a gate. -/
def ConSeqGate.new : ConSeqGate N where
  consumed := fun _ => Sequence.init
  wakers := fun _ => none

/-- `SharedState`, its gate apart. -/
structure SharedState where
  claimed : Int
  slotStates : U32SlotStates
  bufferSize : Int

/-- `SharedState::new`. -/
def SharedState.new (ringMeta : RingShape) : SharedState where
  claimed := Sequence.init
  slotStates := U32SlotStates.newAllEmpty ringMeta
  bufferSize := ringMeta.bufferSize

/-- `DefaultConsumerSequencer`: which cursor and which waker of the gate it shares. -/
structure ConsumerSequencer (N : Nat) where
  consumed : Fin N
  waker : Fin N
  ringMeta : RingShape

/-- A sender and its receivers, with what they share. -/
structure Channel (T : Type) (N : Nat) where
  ringBuffer : RingBuffer T
  gate : ConSeqGate N
  sharedState : SharedState
  senderMeta : RingShape
  receivers : Fin N → ConsumerSequencer N

/-- The parties of a channel whose sequencers are given the shape `ringMeta`. -/
def Channel.assemble (ringMeta : RingShape) (ringBuffer : RingBuffer T) : Channel T N where
  ringBuffer := ringBuffer
  gate := ConSeqGate.new
  sharedState := SharedState.new ringMeta
  senderMeta := ringMeta
  receivers := fun i => { consumed := i, waker := i, ringMeta := ringMeta }

/-! ## The constructors -/

/-- `channel_with_ring` of `mpsc`: it computes the shape a second time. -/
def Mpsc.channelWithRing (ringBuffer : RingBuffer T) : Option (Channel T 1) :=
  let capacity := i64AsUsize ringBuffer.ringMeta.bufferSize
  (RingShape.new capacity).map fun ringMeta => Channel.assemble ringMeta ringBuffer

/-- `channel_with_ring` of `fanout`. -/
def Fanout.channelWithRing (ringBuffer : RingBuffer T) : Option (Channel T N) :=
  some (Channel.assemble ringBuffer.ringMeta ringBuffer)

/-- A constructor, `none` where it unwinds. -/
def createWith (channelWithRing : RingBuffer T → Option (Channel T N)) (capacity : Nat)
    (initializer : Initializer W T) (w : W) :
    Option (Except InvalidChannelSize (Channel T N)) × W :=
  match InvalidChannelSize.validate capacity with
  | .error e => (some (.error e), w)
  | .ok () =>
    match RingBuffer.initWith capacity initializer w with
    | (none, w') => (none, w')
    | (some ringBuffer, w') => ((channelWithRing ringBuffer).map .ok, w')

/-- `mpsc::channel_with`; `mpsc::channel` is the one of `T::default`. -/
def Mpsc.channelWith (capacity : Nat) (initializer : Initializer W T) (w : W) :
    Option (Except InvalidChannelSize (Channel T 1)) × W :=
  createWith Mpsc.channelWithRing capacity initializer w

/-- `fanout::channel_with`; `fanout::channel` is the one of `T::default`. -/
def Fanout.channelWith (N capacity : Nat) (initializer : Initializer W T) (w : W) :
    Option (Except InvalidChannelSize (Channel T N)) × W :=
  createWith Fanout.channelWithRing capacity initializer w

/-! ## What they build -/

/-- The fields of a ring. -/
def RingBufferMeta.shape (ring : RingBufferMeta) : RingShape where
  indexMask := ring.indexMask
  bufferSize := ring.bufferSize

/-- The records of a channel are those of the state `σ`: every copy of the shape is the ring's, the
cursors and wakers are the state's, and every sequence has its slot and its slot state. -/
structure Channel.Represents (ring : RingBufferMeta) (ch : Channel T N) (σ : Sys T N) : Prop where
  ringMeta : ch.ringBuffer.ringMeta = ring.shape
  senderMeta : ch.senderMeta = ring.shape
  receiverMeta : ∀ i, (ch.receivers i).ringMeta = ring.shape
  bufferSize : ch.sharedState.bufferSize = ring.bufferSize
  claimed : ch.sharedState.claimed = σ.mem.claimed
  consumed : ∀ i, ch.gate.consumed (ch.receivers i).consumed = σ.mem.consumed i
  wakers : ∀ i, ch.gate.wakers (ch.receivers i).waker = σ.mem.wakers i
  slots : ∀ seq, ch.ringBuffer.slots[ch.ringBuffer.ringMeta.indexOfSeq seq]? =
    some (σ.mem.slots (ring.indexOfSeq seq))
  slotState : ∀ seq, ch.sharedState.slotStates.slotState seq = ring.slotState seq
  states : ∀ seq, ch.sharedState.slotStates.states[(ring.slotState seq).1]? =
    some (σ.mem.states (ring.indexOfSeq seq))

/-- Calls of the initializer that return the values `vs`, one after the other. -/
inductive Calls (initializer : Initializer W T) : W → List T → W → Prop
  | nil {w : W} : Calls initializer w [] w
  | cons {w w' w'' : W} {v : T} {vs : List T} (hv : initializer w = (some v, w'))
      (hvs : Calls initializer w' vs w'') : Calls initializer w (v :: vs) w''

/-- What a constructor does with a capacity and an initializer. -/
structure Creates (capacity : Nat) (initializer : Initializer W T) (w : W) (i₀ : Fin N)
    (result : Option (Except InvalidChannelSize (Channel T N)) × W) : Prop where
  tooLarge : 2 ^ 30 < capacity → result = (some (.error .tooLarge), w)
  notAPowerOfTwo : capacity ≤ 2 ^ 30 → (∀ k, capacity ≠ 2 ^ k) →
    result = (some (.error .notAPowerOfTwo), w)
  accepted : ∀ ring : RingBufferMeta, ring.bufferSize = capacity →
    (∃ vs w' ch, Calls initializer w vs w' ∧ vs.length = capacity ∧
      result = (some (.ok ch), w') ∧ ∀ initial : Nat → T,
        (∀ (k : Nat) v, vs[k]? = some v → initial k = v) →
          ch.Represents ring (Sys.init initial i₀)) ∨
    ∃ vs w₁ w₂, Calls initializer w vs w₁ ∧ vs.length < capacity ∧
      initializer w₁ = (none, w₂) ∧ result = (none, w₂)

section

variable {capacity : Nat} {initializer : Initializer W T} {w w' w₁ w₂ : W} {vs : List T}
  {ring : RingBufferMeta}

/-! ## The shape -/

theorem isPowerOfTwo_two_pow (k : Nat) : isPowerOfTwo (2 ^ k) = true := by
  unfold isPowerOfTwo
  rw [Nat.log2_two_pow, beq_self_eq_true]

theorem isPowerOfTwo_eq_false {n : Nat} (h : ∀ k, n ≠ 2 ^ k) : isPowerOfTwo n = false := by
  unfold isPowerOfTwo
  rw [beq_eq_false_iff_ne]
  exact h n.log2

/-- The capacity of a ring as a `usize`. -/
theorem eq_two_pow_of_bufferSize (h : ring.bufferSize = capacity) : capacity = 2 ^ ring.shift := by
  rw [ring.bufferSize_eq] at h
  exact_mod_cast h.symm

/-- **The assertions hold**, and the fields are those of the ring. -/
theorem RingShape.new_eq (h : ring.bufferSize = capacity) :
    RingShape.new capacity = some ring.shape := by
  have hle := ring.bufferSize_le
  have hcast : usizeAsI64 capacity = ring.bufferSize := by
    rw [usizeAsI64_eq (by unfold i64Max; omega), h]
  have hpow : isPowerOfTwo capacity = true := by
    rw [eq_two_pow_of_bufferSize h]
    exact isPowerOfTwo_two_pow _
  unfold RingShape.new
  rw [if_pos hpow, if_pos (by unfold maxChannelSize; omega), hcast]
  rfl

theorem i64AsUsize_bufferSize (h : ring.bufferSize = capacity) :
    i64AsUsize ring.shape.bufferSize = capacity := by
  have hle := ring.bufferSize_le
  have hpos := ring.bufferSize_pos
  show (BitVec.ofInt 64 ring.bufferSize).toNat = capacity
  rw [toNat_ofInt_of_nonneg (by omega) (by unfold i64Max; omega)]
  omega

/-- The trailing zeros of a capacity count its laps. -/
theorem trailingZeros_two_pow {k : Nat} (hk : k ≤ 30) : trailingZeros (2 ^ k) = k := by
  have hlt : 2 ^ k < 2 ^ 64 := Nat.pow_lt_pow_right (by omega) (by omega)
  have hpos : 0 < 2 ^ k := Nat.two_pow_pos k
  have hne : BitVec.ofNat 64 (2 ^ k) ≠ 0#64 := by
    intro heq
    have hnat := congrArg BitVec.toNat heq
    rw [BitVec.toNat_ofNat, Nat.mod_eq_of_lt hlt] at hnat
    exact absurd hnat (by simp)
  have hbit := BitVec.getLsbD_true_ctz_of_ne_zero hne
  rw [BitVec.getLsbD_ofNat, Nat.testBit_two_pow] at hbit
  exact (of_decide_eq_true (Bool.and_eq_true_iff.mp hbit).2).symm

theorem shape_indexOfSeq (seq : Int) : ring.shape.indexOfSeq seq = ring.indexOfSeq seq := by
  show i64AsUsize (i64And seq ring.indexMask) = ring.indexOfSeq seq
  unfold i64AsUsize i64And RingBufferMeta.indexOfSeq
  rw [BitVec.ofInt_toInt]

/-- The slot states of a new channel compute index and flag as the ring does. -/
theorem newAllEmpty_slotState (h : ring.bufferSize = capacity) (seq : Int) :
    (U32SlotStates.newAllEmpty ring.shape).slotState seq = ring.slotState seq := by
  have hshift : (U32SlotStates.newAllEmpty ring.shape).indexShift = ring.shift := by
    show trailingZeros (i64AsUsize ring.shape.bufferSize) = ring.shift
    rw [i64AsUsize_bufferSize h, eq_two_pow_of_bufferSize h, trailingZeros_two_pow ring.shift_le]
  unfold U32SlotStates.slotState RingBufferMeta.slotState
  rw [hshift]
  exact Prod.ext (shape_indexOfSeq seq) rfl

/-! ## The calls of the initializer -/

theorem initSlots_of_calls (h : Calls initializer w vs w') :
    initSlots initializer vs.length w = (some vs, w') := by
  induction h with
  | nil => rfl
  | cons hv _ ih =>
    rw [List.length_cons, initSlots, hv]
    dsimp only
    rw [ih]

theorem initSlots_of_panic {n : Nat} (h : Calls initializer w vs w₁) (hlt : vs.length < n)
    (hp : initializer w₁ = (none, w₂)) : initSlots initializer n w = (none, w₂) := by
  induction h generalizing n with
  | nil =>
    obtain ⟨m, rfl⟩ := Nat.exists_eq_succ_of_ne_zero (Nat.ne_of_gt hlt)
    rw [initSlots, hp]
  | cons hv _ ih =>
    obtain ⟨m, rfl⟩ := Nat.exists_eq_succ_of_ne_zero (Nat.ne_of_gt (Nat.zero_lt_of_lt hlt))
    rw [initSlots, hv]
    dsimp only
    rw [ih (Nat.lt_of_succ_lt_succ hlt) hp]

variable (initializer w) in
/-- Either `n` calls return, or one of them panics. -/
theorem calls_or_panic (n : Nat) : (∃ vs w', Calls initializer w vs w' ∧ vs.length = n) ∨
    ∃ vs w₁ w₂, Calls initializer w vs w₁ ∧ vs.length < n ∧ initializer w₁ = (none, w₂) := by
  induction n generalizing w with
  | zero => exact Or.inl ⟨[], w, Calls.nil, rfl⟩
  | succ n ih =>
    rcases hcall : initializer w with ⟨_ | v, w'⟩
    · exact Or.inr ⟨[], w, w', Calls.nil, Nat.succ_pos n, hcall⟩
    · rcases ih w' with ⟨vs, w'', hvs, hlen⟩ | ⟨vs, w₁, w₂, hvs, hlt, hp⟩
      · exact Or.inl ⟨v :: vs, w'', Calls.cons hcall hvs, by rw [List.length_cons, hlen]⟩
      · exact Or.inr ⟨v :: vs, w₁, w₂, Calls.cons hcall hvs, Nat.succ_lt_succ hlt, hp⟩

/-! ## The channel -/

/-- A channel of the ring's shape is the state the runs start from. -/
theorem assemble_represents (i₀ : Fin N) (h : ring.bufferSize = capacity)
    (hlen : vs.length = capacity) {initial : Nat → T}
    (hinit : ∀ (k : Nat) v, vs[k]? = some v → initial k = v) :
    (Channel.assemble ring.shape ⟨vs, ring.shape⟩ : Channel T N).Represents ring
      (Sys.init initial i₀) where
  ringMeta := rfl
  senderMeta := rfl
  receiverMeta := fun _ => rfl
  bufferSize := rfl
  claimed := rfl
  consumed := fun _ => rfl
  wakers := fun _ => rfl
  slots := by
    intro seq
    have hlt := ring.indexOfSeq_lt seq
    show vs[ring.shape.indexOfSeq seq]? = some (initial (ring.indexOfSeq seq))
    rw [shape_indexOfSeq, List.getElem?_eq_getElem (by omega)]
    exact congrArg some (hinit _ _ (List.getElem?_eq_getElem (by omega))).symm
  slotState := newAllEmpty_slotState h
  states := by
    intro seq
    have hlt := ring.indexOfSeq_lt seq
    show (List.replicate (i64AsUsize ring.shape.bufferSize) _)[ring.indexOfSeq seq]? = some 0
    rw [i64AsUsize_bufferSize h, List.getElem?_replicate, if_pos (by omega)]

/-- A constructor whose `channel_with_ring` assembles the parties with the ring's shape. -/
theorem creates_createWith (i₀ : Fin N) {channelWithRing : RingBuffer T → Option (Channel T N)}
    (hring : ∀ (ring : RingBufferMeta) (vs : List T),
      channelWithRing ⟨vs, ring.shape⟩ = some (Channel.assemble ring.shape ⟨vs, ring.shape⟩)) :
    Creates capacity initializer w i₀ (createWith channelWithRing capacity initializer w) where
  tooLarge := by
    intro hlt
    unfold createWith InvalidChannelSize.validate maxChannelSize
    rw [if_pos hlt]
  notAPowerOfTwo := by
    intro hle hpow
    unfold createWith InvalidChannelSize.validate
    rw [if_neg (by unfold maxChannelSize; omega), isPowerOfTwo_eq_false hpow]
    rfl
  accepted := by
    intro ring h
    have hok : InvalidChannelSize.validate capacity = .ok () :=
      validate_eq_ok.mpr ⟨ring.shift, ring.shift_le, eq_two_pow_of_bufferSize h⟩
    unfold createWith RingBuffer.initWith
    rw [hok, RingShape.new_eq h]
    dsimp only
    rcases calls_or_panic initializer w capacity with
      ⟨vs, w', hvs, hlen⟩ | ⟨vs, w₁, w₂, hvs, hlt, hp⟩
    · have hslots : initSlots initializer capacity w = (some vs, w') := by
        rw [← hlen]
        exact initSlots_of_calls hvs
      refine Or.inl ⟨vs, w', Channel.assemble ring.shape ⟨vs, ring.shape⟩, hvs, hlen, ?_,
        fun initial hinit => assemble_represents i₀ h hlen hinit⟩
      rw [hslots]
      dsimp only
      rw [hring]
      rfl
    · refine Or.inr ⟨vs, w₁, w₂, hvs, hlt, hp, ?_⟩
      rw [initSlots_of_panic hvs hlt hp]

end

/-- **Creating a channel**, with either topology: the sizes refused, the calls of the initializer,
and the state that is built. (A fanout has a receiver.) -/
theorem channel_created (capacity : Nat) (initializer : Initializer W T) (w : W) :
    (∀ i₀ : Fin N,
      Creates capacity initializer w i₀ (Fanout.channelWith N capacity initializer w)) ∧
      Creates capacity initializer w 0 (Mpsc.channelWith capacity initializer w) := by
  refine ⟨fun i₀ => creates_createWith i₀ fun ring vs => rfl,
    creates_createWith 0 fun ring vs => ?_⟩
  have h : ring.bufferSize = (2 ^ ring.shift : Nat) := ring.bufferSize_eq
  unfold Mpsc.channelWithRing
  dsimp only
  rw [i64AsUsize_bufferSize h, RingShape.new_eq h]
  rfl

end EnsoChannel
