import EnsoChannel.Memory

/-!
# The receiver side, one atomic step at a time

A receive call as a small-step machine: `DefaultConsumerSequencer::try_claim_at_most` and
`claim_at_most_async` (`consumer.rs`), the scan of `scan_available_until` with one slot-state load
a step (`slot_states.rs`), and the guard with its drop (`receiver.rs`). `claim_at_most_async`
is the call with stage `first`: when its scan finds nothing it registers its waker and scans a
second time.

A call that was given a guard stays in the table until the guard is released, so a live guard is
a call standing at `guard`; nothing in the shared memory records it.

The sum that ends the range to scan is exact. A limit of `2 ^ 63` is cast to `i64::MIN`, and from a
cursor of `-1` the `i64` sum is out of range: `recvStepWith` of `Builds.lean` is this step as the
two builds compute it.
-/

namespace EnsoChannel

variable {T : Type} {N : Nat}

/-- `try_recv` and `try_recv_at_most`, or the first and second half of a poll. -/
inductive Stage
  | sync
  | first
  | second
  deriving DecidableEq, Repr

/-- What the sequencer was called with. -/
structure RecvCall where
  limit : Int
  stage : Stage
  deriving DecidableEq

/-- Where a receive call stands. -/
inductive RecvPc
  | idle
  | load (q : RecvCall)
  /-- In `scan_available_until`, about to load the slot state of `seq`, with everything from
  `lastClaimed + 1` up to `seq - 1` found available. -/
  | scan (q : RecvCall) (lastClaimed last seq : Int) (shutdown : Bool)
  /-- In a poll, about to register the waker. -/
  | register (q : RecvCall)
  /-- A `ReadRef` or `ReadRefs` over `first … last` is live. -/
  | guard (first last : Int)
  | empty
  | disconnected
  | pending
  | released
  /-- The guard was leaked with `mem::forget`. -/
  | leaked
  deriving DecidableEq

/-- What moves a receive call: the library code, or the owner of the guard. -/
inductive RecvAct
  | run
  | release
  | leak
  deriving DecidableEq, Repr

/-- The end of `try_claim_at_most`: the scan from `lastClaimed + 1` got as far as `available`. -/
def recvReturn (r : Nat) (i : Fin N) (q : RecvCall) (lastClaimed available : Int)
    (shutdown : Bool) : Option (Event T N) × RecvPc :=
  if available ≤ lastClaimed then
    if shutdown then (some (.ret r i .disconnected), .disconnected)
    else
      match q.stage with
      | .sync => (some (.ret r i .empty), .empty)
      | .first => (none, .register q)
      | .second => (some (.ret r i .pending), .pending)
  else (some (.ret r i (.items (lastClaimed + 1) available)), .guard (lastClaimed + 1) available)

/-- One step of receive call `r` on receiver `i`. -/
def recvStep (ring : RingBufferMeta) (r : Nat) (i : Fin N) (m : Mem T N) :
    RecvPc → RecvAct → Option (Option (Event T N) × RecvPc)
  | .load q, .run =>
    let lastClaimed := m.consumed i
    let n := min q.limit ring.bufferSize
    let startSeq := lastClaimed + 1
    let highestToConsume := lastClaimed + n
    if startSeq ≤ highestToConsume then
      some (none, .scan q lastClaimed highestToConsume startSeq false)
    else
      -- an empty range: the loop of the scan does not run
      some (recvReturn r i q lastClaimed (startSeq - 1) false)
  | .scan q lastClaimed last seq shutdown, .run =>
    let raw := m.states (ring.slotState seq).1
    let shutdown := shutdown || shutdownOf raw
    if lapOf raw ≠ (ring.slotState seq).2 then
      some (recvReturn r i q lastClaimed (seq - 1) shutdown)
    else if seq = last then some (recvReturn r i q lastClaimed seq shutdown)
    else some (none, .scan q lastClaimed last (seq + 1) shutdown)
  | .register q, .run => some (some (.register i r), .load { q with stage := .second })
  | .guard first last, .release =>
    -- the guard of `try_recv_at_most(0)` has `end_seq == Sequence::INIT`
    if last = Sequence.init then some (none, .released)
    else some (some (.release i first last), .released)
  | .guard _ _, .leak => some (none, .leaked)
  | _, _ => none

/-- The start of a receive call; a limit of 0 returns the empty guard at once. -/
def recvStart (limit : Nat) (async : Bool) : RecvPc :=
  if limit = 0 then .guard 0 Sequence.init
  else .load { limit := usizeAsI64 limit, stage := if async then .first else .sync }

/-- The call is over and its guard, if it got one, is gone. -/
def RecvPc.finished : RecvPc → Bool
  | .empty | .disconnected | .pending | .released | .leaked => true
  | _ => false

/-- The call has read the cursor and still depends on what it read: it is scanning, or its guard
is live. -/
def RecvPc.reading : RecvPc → Bool
  | .scan _ _ _ _ _ => true
  | .guard _ last => last != Sequence.init
  | _ => false

end EnsoChannel
