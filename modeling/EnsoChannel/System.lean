import EnsoChannel.Lib.Lts
import EnsoChannel.Receiver
import EnsoChannel.Sender

/-!
# The channel as a system of interleaved calls

Any number of sender handles, cloned and dropped; any number of sender calls under way at once,
several of them on one handle (`&self` methods, permits that outlive the call); `N` receivers,
each with any number of receive calls and guards (`mpsc` is `N = 1`: the exclusive gate loads one
cursor, as the fanout gate of one receiver does). A `Label` is one atomic step of one party.

`Sys.trace` is a history variable: every step that changes the shared memory, and every return of
a receive call, is recorded there; no step reads it.

What the borrow checker guarantees is in the guards of `step`: a sender handle is dropped only
when no call on it is under way and no permit of it is live (a leaked permit does not count), a
receiver only when no call on it is under way and no guard of it is live. Dropping the last sender
handle drops `SharedState`, which runs `close()`: a call of its own that nothing runs against but
the receivers.

## Disciplines

* `InRange`: limits of the send operations are at most `i64::MAX`, and fewer than `2 ^ 62`
  sequences are claimed, so that `Int` arithmetic is the `i64` arithmetic of the source, but at the
  one receive below. `InRangeOf` is the same for the other step functions of this development.
* `OneGuard`: a receive call starts only when its receiver has no call under way and no live
  guard.
* `LoneRelease`: a guard is released only when no other guard of its receiver is live and no other
  receive call has read the cursor; the empty guards of a limit of 0 apart.
* `InOrder`: a guard is released only when no guard of its receiver with a later end was.
* `NoLeak`: permits and guards are not leaked.
* `TidyOf`: `InRangeOf`, `OneGuard` and `NoLeak`.

Out of scope: the sums of `claimBody` and `recvStep` are exact. A limit of `2 ^ 63` is cast to
`i64::MIN`, and from a cursor of `-1` the `i64` sum is then out of range: a debug build panics there
and a release build wraps to `i64::MAX`. `InRange` excludes it for the senders; the results that do
not ask for `InRange`, and the receive calls, speak of the exact sum at that input. The two builds
are `stepWith`.
-/

namespace EnsoChannel

open Lib

variable {T : Type} {N : Nat}

/-- A state of the channel with all its users. -/
structure Sys (T : Type) (N : Nat) where
  mem : Mem T N
  /-- The live sender handles, and the number of handles ever made. -/
  senders : Nat → Bool
  nextSender : Nat
  receivers : Fin N → Bool
  /-- The sender calls: where each stands, and on which handle it was made. -/
  sends : Nat → SenderPc T
  sendHandle : Nat → Nat
  nextSend : Nat
  /-- The receive calls: where each stands, on which receiver, and whether it is a poll. -/
  recvs : Nat → RecvPc
  recvReceiver : Nat → Fin N
  recvAsync : Nat → Bool
  nextRecv : Nat
  trace : History T N

inductive Label (T : Type) (N : Nat)
  | clone (h : Nat)
  | dropSender (h : Nat)
  | send (h : Nat) (c : SendCall T)
  | sender (k : Nat) (act : SenderAct T)
  | recv (i : Fin N) (limit : Nat) (async : Bool)
  | receiver (r : Nat) (act : RecvAct)
  | dropReceiver (i : Fin N)

/-- A new channel: one sender handle and `N` receivers (`N` is positive: `i₀` only names the
receiver of the calls not made yet). -/
def Sys.init (initial : Nat → T) (i₀ : Fin N) : Sys T N where
  mem := Mem.init initial
  senders := fun h => h == 0
  nextSender := 1
  receivers := fun _ => true
  sends := fun _ => .idle
  sendHandle := fun _ => 0
  nextSend := 0
  recvs := fun _ => .idle
  recvReceiver := fun _ => i₀
  recvAsync := fun _ => false
  nextRecv := 0
  trace := []

/-- Perform an event, if there is one, and record it. -/
def Sys.perform (ring : RingBufferMeta) (σ : Sys T N) : Option (Event T N) → Sys T N
  | none => σ
  | some e => { σ with mem := σ.mem.apply ring e, trace := e :: σ.trace }

/-- No call on sender handle `h` is under way and no permit of it is live. -/
def Sys.SenderIdle (σ : Sys T N) (h : Nat) : Prop :=
  ∀ k < σ.nextSend, σ.sendHandle k = h → (σ.sends k).finished = true

/-- No call on receiver `i` is under way and no guard of it is live. -/
def Sys.ReceiverIdle (σ : Sys T N) (i : Fin N) : Prop :=
  ∀ r < σ.nextRecv, σ.recvReceiver r = i → (σ.recvs r).finished = true

/-- `h` is the last live sender handle. -/
def Sys.LastSender (σ : Sys T N) (h : Nat) : Prop :=
  ∀ h' < σ.nextSender, h' ≠ h → σ.senders h' = false

instance (σ : Sys T N) (h : Nat) : Decidable (σ.SenderIdle h) :=
  inferInstanceAs (Decidable (∀ k < σ.nextSend, _ → _))

instance (σ : Sys T N) (i : Fin N) : Decidable (σ.ReceiverIdle i) :=
  inferInstanceAs (Decidable (∀ r < σ.nextRecv, _ → _))

instance (σ : Sys T N) (h : Nat) : Decidable (σ.LastSender h) :=
  inferInstanceAs (Decidable (∀ h' < σ.nextSender, _ → _))

/-- **One step of the system.** -/
def step (ring : RingBufferMeta) (σ : Sys T N) : Label T N → Option (Sys T N)
  | .clone h =>
    if σ.senders h then
      some { σ with
        senders := Function.update σ.senders σ.nextSender true
        nextSender := σ.nextSender + 1 }
    else none
  | .dropSender h =>
    if σ.senders h = true ∧ σ.SenderIdle h then
      if σ.LastSender h then
        some { σ with
          senders := Function.update σ.senders h false
          sends := Function.update σ.sends σ.nextSend (.closing .load .lastSender)
          sendHandle := Function.update σ.sendHandle σ.nextSend h
          nextSend := σ.nextSend + 1 }
      else some { σ with senders := Function.update σ.senders h false }
    else none
  | .send h c =>
    if σ.senders h then
      some { σ with
        sends := Function.update σ.sends σ.nextSend c.start
        sendHandle := Function.update σ.sendHandle σ.nextSend h
        nextSend := σ.nextSend + 1 }
    else none
  | .sender k act =>
    if k < σ.nextSend then
      match senderStep ring k σ.mem (σ.sends k) act with
      | none => none
      | some (e, pc) => some { σ.perform ring e with sends := Function.update σ.sends k pc }
    else none
  | .recv i limit async =>
    if σ.receivers i then
      some { σ with
        recvs := Function.update σ.recvs σ.nextRecv (recvStart limit async)
        recvReceiver := Function.update σ.recvReceiver σ.nextRecv i
        recvAsync := Function.update σ.recvAsync σ.nextRecv async
        nextRecv := σ.nextRecv + 1 }
    else none
  | .receiver r act =>
    if r < σ.nextRecv then
      match recvStep ring r (σ.recvReceiver r) σ.mem (σ.recvs r) act with
      | none => none
      | some (e, pc) => some { σ.perform ring e with recvs := Function.update σ.recvs r pc }
    else none
  | .dropReceiver i =>
    if σ.receivers i = true ∧ σ.ReceiverIdle i then
      some { σ.perform ring (some (.dropReceiver i)) with
        receivers := Function.update σ.receivers i false }
    else none

/-! ## Disciplines -/

/-- Limits of send operations fit an `i64`, and the steps of `next` claim fewer than `2 ^ 62`
sequences. -/
def InRangeOf (next : Sys T N → Label T N → Option (Sys T N)) (σ : Sys T N) (l : Label T N) :
    Prop :=
  (∀ h n, l = .send h (.trySendAtMost n) → (n : Int) ≤ i64Max) ∧
    ∀ σ', next σ l = some σ' → highest σ'.trace + 1 < 2 ^ 62

/-- Limits of send operations fit an `i64`, and fewer than `2 ^ 62` sequences are claimed. -/
def InRange (ring : RingBufferMeta) : Sys T N → Label T N → Prop := InRangeOf (step ring)

/-- Each receiver releases its guard before its next receive call. -/
def OneGuard (σ : Sys T N) (l : Label T N) : Prop :=
  ∀ i limit async, l = .recv i limit async → σ.ReceiverIdle i

/-- A guard that is not empty is released only when its receiver has no other such guard live and
no other receive call that has read the cursor. -/
def LoneRelease (σ : Sys T N) (l : Label T N) : Prop :=
  ∀ r, l = .receiver r .release → (σ.recvs r).reading = true → ∀ r' < σ.nextRecv, r' ≠ r →
    σ.recvReceiver r' = σ.recvReceiver r → (σ.recvs r').reading = false

/-- A guard is released only when no guard of its receiver with a later end was. -/
def InOrder (σ : Sys T N) (l : Label T N) : Prop :=
  ∀ r first last, l = .receiver r .release → σ.recvs r = .guard first last →
    last ≠ Sequence.init →
      ∀ a b, Event.release (σ.recvReceiver r) a b ∈ σ.trace → b ≤ last

/-- Permits and guards are not leaked. -/
def NoLeak (l : Label T N) : Prop := (∀ k, l ≠ .sender k .leak) ∧ ∀ r, l ≠ .receiver r .leak

/-- In range, one guard at a time, and nothing leaked. -/
def TidyOf (next : Sys T N → Label T N → Option (Sys T N)) (σ : Sys T N) (l : Label T N) : Prop :=
  InRangeOf next σ l ∧ OneGuard σ l ∧ NoLeak l

/-! The disciplines of a single label are decidable, so that a concrete run can be checked. -/

instance (next : Sys T N → Label T N → Option (Sys T N)) (σ : Sys T N) (l : Label T N) :
    Decidable (InRangeOf next σ l) :=
  have : Decidable (∀ h n, l = .send h (.trySendAtMost n) → (n : Int) ≤ i64Max) :=
    match l with
    | .send _ (.trySendAtMost n) =>
      decidable_of_iff ((n : Int) ≤ i64Max)
        ⟨fun hn _ _ h => by cases h; exact hn, fun h => h _ _ rfl⟩
    | .send _ (.trySend _) | .send _ .tryReserve | .clone _ | .dropSender _ | .sender _ _
    | .recv _ _ _ | .receiver _ _ | .dropReceiver _ => isTrue fun _ _ h => by cases h
  have : Decidable (∀ σ', next σ l = some σ' → highest σ'.trace + 1 < 2 ^ 62) :=
    inferInstanceAs (Decidable (∀ σ' ∈ next σ l, _))
  inferInstanceAs (Decidable (_ ∧ _))

instance (ring : RingBufferMeta) (σ : Sys T N) (l : Label T N) : Decidable (InRange ring σ l) :=
  inferInstanceAs (Decidable (InRangeOf (step ring) σ l))

instance (σ : Sys T N) (l : Label T N) : Decidable (OneGuard σ l) :=
  match l with
  | .recv i _ _ =>
    decidable_of_iff (σ.ReceiverIdle i)
      ⟨fun hi _ _ _ h => by cases h; exact hi, fun h => h _ _ _ rfl⟩
  | .clone _ | .dropSender _ | .send _ _ | .sender _ _ | .receiver _ _ | .dropReceiver _ =>
    isTrue fun _ _ _ h => by cases h

instance (l : Label T N) : Decidable (NoLeak l) :=
  match l with
  | .sender k .leak => isFalse fun h => h.1 k rfl
  | .receiver r .leak => isFalse fun h => h.2 r rfl
  | .sender _ .run | .sender _ (.write _) | .sender _ (.recycled _) | .sender _ (.panics _)
  | .sender _ (.panicsTwice _) | .sender _ .next | .sender _ .drop | .clone _ | .dropSender _
  | .send _ _ | .recv _ _ _ | .receiver _ .run | .receiver _ .release | .dropReceiver _ =>
    isTrue ⟨fun _ h => (by cases h), fun _ h => (by cases h)⟩

instance (next : Sys T N → Label T N → Option (Sys T N)) (σ : Sys T N) (l : Label T N) :
    Decidable (TidyOf next σ l) :=
  inferInstanceAs (Decidable (_ ∧ _ ∧ _))

end EnsoChannel
