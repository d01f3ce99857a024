import EnsoChannel.Memory

/-!
# The sender side, one atomic step at a time

A sender call as a small-step machine over the shared memory: `try_send`, `try_reserve` and
`try_send_at_most` (`sender.rs`), the claim loop, `commit`, `commit_range` and `close`
(`pub_mul.rs`, `slot_states.rs`), and the permits with their drops (`guards.rs`). One step is at
most one access to the shared memory: a load of `claimed`, a load of one `consumed` cursor, the
compare-exchange, one slot write (`modify_at`), one slot-state load or store, the store of
`claimed`, one `wake`. The local computation that follows an access belongs to its step.

What the user's code does is in the action: which permit method it calls, what value a closure,
a recycler or a write leaves in the slot, and whether it panics there. A closure that panics
part-way leaves an arbitrary value; so does a recycler. `leak` is `mem::forget`.

The drops catch a panic of the recycler with `catch_unwind`, and its payload is dropped there: by a
permit's drop before it looks at the result, by the drain of a batch after `terminate()`. A payload
whose own drop panics therefore makes a difference in a permit's drop only (`panicsTwice`).

The sums are exact; `System.lean` says where the `i64` sums are.

| source | here |
|---|---|
| `MultiPublisherSequencer::try_claim_at_most` | `loadClaimed`, `maxConsumed`, `compareExchange` |
| `SenderImpl::try_send` after the claim | `writing` |
| `WritePermitImpl`, its `Drop` | `permit`, `recycling` |
| `WritePermitsImpl`, its `Drop` | `permits`, `draining` |
| `BatchWritePermitImpl`, its `Drop` | `batchPermit`, `batchRecycling` |
| `commit` / `commit_range` | `publishing`, `notifying` |
| `SharedState::close` | `closing` |
-/

namespace EnsoChannel

variable {T : Type} {N : Nat}

/-- `TryClaimError`. -/
inductive TryClaimError
  | empty
  | shutdown
  deriving DecidableEq, Repr

/-- The three send operations. -/
inductive SendCall (T : Type)
  | trySend (v : T)
  | tryReserve
  | trySendAtMost (limit : Nat)
  deriving DecidableEq

/-- The limit the operation claims with: `try_claim` claims at most 1. -/
def SendCall.limit : SendCall T → Int
  | .trySend _ => 1
  | .tryReserve => 1
  | .trySendAtMost limit => usizeAsI64 limit

/-- `WritePermitsImpl`: its `start_seq`, `end_seq` and `next_seq`. -/
structure Permits where
  startSeq : Int
  endSeq : Int
  nextSeq : Int
  deriving DecidableEq

/-- Where a `close()` stands. -/
inductive ClosePc
  | load
  /-- The window scan, about to load the slot state of `seq`. -/
  | scan (raw lastClaimed seq : Int)
  | mark (raw lastPublished : Int)
  | store (raw : Int)
  | notify (i : Nat)
  deriving DecidableEq

/-- Who called `close()`: the drop of a permit whose recycler panicked, the drop of one permit of
a batch, or the drop of the last sender. -/
inductive CloseCaller
  | permit
  | batch (p : Permits)
  | lastSender
  deriving DecidableEq

/-- Where a sender call stands. -/
inductive SenderPc (T : Type)
  | idle
  | loadClaimed (c : SendCall T)
  /-- The loop of `max_consumed`, about to load cursor `i`. -/
  | maxConsumed (c : SendCall T) (last : Int) (i : Nat) (minConsumed : Int)
  | compareExchange (c : SendCall T) (last maxConsumed highest : Int)
  | refused (e : TryClaimError)
  /-- `try_send`, about to write its item. -/
  | writing (v : T) (seq : Int)
  | permit (seq : Int)
  /-- In the drop of a permit that was not written, about to run the recycler. -/
  | recycling (seq : Int)
  | permits (p : Permits)
  | batchPermit (p : Permits) (seq : Int)
  | batchRecycling (p : Permits) (seq : Int)
  /-- In the drop of a batch. -/
  | draining (p : Permits)
  /-- In `commit_range(first, last)` (or `commit`), about to store the state of `seq`. -/
  | publishing (first seq last : Int)
  /-- In `notify`, about to wake receiver `i`. -/
  | notifying (i : Nat)
  | closing (pos : ClosePc) (caller : CloseCaller)
  | committed
  /-- The permit is gone and its sequences stay unpublished: its recycler panicked. -/
  | poisoned
  /-- The permit is gone and its sequences stay unpublished: it was leaked, `try_send` unwound out
  of its write, or the drop of the permit unwound before its branch. -/
  | abandoned
  /-- The `close()` of the last sender's drop has returned. -/
  | tornDown
  deriving DecidableEq

/-- What moves a sender call: the library code itself (`run`), or user code. -/
inductive SenderAct (T : Type)
  | run
  /-- `write(v)`, or an `update_in_place` whose closure leaves `v`. -/
  | write (v : T)
  /-- The recycler returns and leaves `v`. -/
  | recycled (v : T)
  /-- User code (a closure, a recycler, the drop of the old item) panics and leaves `v`. -/
  | panics (v : T)
  /-- The recycler of a permit's drop panics and leaves `v`, and the drop of the panic's payload
  panics too. -/
  | panicsTwice (v : T)
  /-- `next()` of a batch. -/
  | next
  | drop
  | leak

/-- User code panics. -/
def SenderAct.isPanic : SenderAct T → Bool
  | .panics _ | .panicsTwice _ => true
  | _ => false

/-! ## The claim loop -/

/-- The head of the claim loop, `claimed` having been read as `raw`. -/
def claimLoop (c : SendCall T) (raw : Int) : SenderPc T :=
  if hasShutdown raw then .refused .shutdown
  else .maxConsumed c raw 0 Sequence.shutdownOpen

/-- The body of the claim loop after `max_consumed()`. -/
def claimBody (ring : RingBufferMeta) (c : SendCall T) (last maxConsumed : Int) : SenderPc T :=
  if maxConsumed = Sequence.shutdownOpen then .refused .shutdown
  else
    let n := min c.limit ring.bufferSize
    let startSeq := last + 1
    let maxAvailable := last + ring.availableSlots last maxConsumed
    if startSeq > maxAvailable then .refused .empty
    else
      let available := min (maxAvailable - last) n
      .compareExchange c last maxConsumed (last + available)

/-- What the operation does with the sequences `start … last` it was granted. -/
def granted (c : SendCall T) (start last : Int) : SenderPc T :=
  match c with
  | .trySend v => .writing v last
  | .tryReserve => .permit last
  | .trySendAtMost _ => .permits ⟨start, last, start⟩

/-! ## `close` -/

/-- The value of a `claimed` cursor, the shutdown bit stripped when it is set. -/
def lastClaimedOf (raw : Int) : Int := if hasShutdown raw then i64And raw valueMask else raw

/-- One step of `close()`; `none` for the next position when it returns. -/
def closeStep (ring : RingBufferMeta) (k : Nat) (m : Mem T N) :
    ClosePc → Option (Event T N) × Option ClosePc
  | .load =>
    let raw := m.claimed
    let lastClaimed := lastClaimedOf raw
    let next : ClosePc :=
      if lastClaimed < 0 then .mark raw lastClaimed
      else .scan raw lastClaimed (max (lastClaimed - (ring.bufferSize - 1)) 0)
    (some (.closeStart k), some next)
  | .scan raw lastClaimed seq =>
    -- `scan_last_available`
    if seq ≤ lastClaimed then
      if lapOf (m.states (ring.slotState seq).1) ≠ (ring.slotState seq).2 then
        (none, some (.mark raw (seq - 1)))
      else (none, some (.scan raw lastClaimed (seq + 1)))
    else (none, some (.mark raw lastClaimed))
  | .mark raw lastPublished => (some (.mark (lastPublished + 1)), some (.store raw))
  | .store raw => (some (.shut raw), some (.notify 0))
  | .notify i =>
    if h : i < N then (some (.wake ⟨i, h⟩ (m.wakers ⟨i, h⟩)), some (.notify (i + 1)))
    else (some (.closeEnd k), none)

/-- Where the caller of `close()` goes on. -/
def CloseCaller.resume : CloseCaller → SenderPc T
  | .permit => .poisoned
  | .batch p => .permits p
  | .lastSender => .tornDown

/-! ## One step of a sender call -/

/-- One step of sender call `k`: the event, if the step changes the shared memory, and where the
call stands after it. -/
def senderStep (ring : RingBufferMeta) (k : Nat) (m : Mem T N) :
    SenderPc T → SenderAct T → Option (Option (Event T N) × SenderPc T)
  | .loadClaimed c, .run => some (none, claimLoop c m.claimed)
  | .maxConsumed c last i minConsumed, .run =>
    if h : i < N then
      some (none, .maxConsumed c last (i + 1) (min minConsumed (m.consumed ⟨i, h⟩)))
    else some (none, claimBody ring c last minConsumed)
  | .compareExchange c last _ highest, .run =>
    if m.claimed = last then
      some (some (.claim k (last + 1) highest), granted c (last + 1) highest)
    else some (none, claimLoop c m.claimed)
  | .writing v seq, .run => some (some (.store k seq v), .publishing seq seq seq)
  | .writing v seq, .panics _ => some (some (.store k seq v), .abandoned)
  | .permit seq, .write v => some (some (.store k seq v), .publishing seq seq seq)
  | .permit seq, .panics v => some (some (.store k seq v), .recycling seq)
  | .permit seq, .drop => some (none, .recycling seq)
  | .permit _, .leak => some (none, .abandoned)
  | .recycling seq, .recycled v => some (some (.store k seq v), .publishing seq seq seq)
  | .recycling seq, .panics v => some (some (.store k seq v), .closing .load .permit)
  -- the payload is dropped before the branch that calls `terminate()`
  | .recycling seq, .panicsTwice v => some (some (.store k seq v), .abandoned)
  | .permits p, .next =>
    if p.nextSeq > p.endSeq then some (none, .permits p)
    else some (none, .batchPermit { p with nextSeq := p.nextSeq + 1 } p.nextSeq)
  | .permits p, .drop => some (none, .draining p)
  | .permits _, .leak => some (none, .abandoned)
  | .batchPermit p seq, .write v => some (some (.store k seq v), .permits p)
  | .batchPermit p seq, .panics v => some (some (.store k seq v), .batchRecycling p seq)
  | .batchPermit p seq, .drop => some (none, .batchRecycling p seq)
  | .batchPermit p _, .leak => some (none, .permits p)
  | .batchRecycling p seq, .recycled v => some (some (.store k seq v), .permits p)
  | .batchRecycling p seq, .panics v =>
    -- the batch stays with the user, who may go on with it after the `terminate()`
    some (some (.store k seq v), .closing .load (.batch p))
  | .batchRecycling p seq, .panicsTwice v => some (some (.store k seq v), .permits p)
  | .draining p, .run =>
    if p.endSeq = -1 then some (none, .committed)
    else if p.nextSeq ≤ p.endSeq then none
    else some (none, .publishing p.startSeq p.startSeq p.endSeq)
  | .draining p, .recycled v =>
    if p.endSeq ≠ -1 ∧ p.nextSeq ≤ p.endSeq then
      some (some (.store k p.nextSeq v), .draining { p with nextSeq := p.nextSeq + 1 })
    else none
  | .draining p, .panics v =>
    if p.endSeq ≠ -1 ∧ p.nextSeq ≤ p.endSeq then
      some (some (.store k p.nextSeq v), .closing .load .permit)
    else none
  | .publishing first seq last, .run =>
    if seq ≤ last then some (some (.publish k seq), .publishing first (seq + 1) last)
    else some (none, .notifying 0)
  | .notifying i, .run =>
    if h : i < N then some (some (.wake ⟨i, h⟩ (m.wakers ⟨i, h⟩)), .notifying (i + 1))
    else some (none, .committed)
  | .closing pos caller, .run =>
    match closeStep ring k m pos with
    | (e, some pos') => some (e, .closing pos' caller)
    | (e, none) => some (e, caller.resume)
  | _, _ => none

/-- The start of an operation; `try_send_at_most(0)` returns an empty batch at once. -/
def SendCall.start (c : SendCall T) : SenderPc T :=
  match c with
  | .trySendAtMost 0 => .permits ⟨0, -1, 0⟩
  | c => .loadClaimed c

/-- The operation is over: nothing of it borrows the sender any more. -/
def SenderPc.finished : SenderPc T → Bool
  | .refused _ | .committed | .poisoned | .abandoned | .tornDown => true
  | _ => false

end EnsoChannel
