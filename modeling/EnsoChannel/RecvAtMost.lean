import EnsoChannel.AtMost
import EnsoChannel.Builds

/-!
# Receiving batches of at most `limit`

`try_recv_at_most` and `recv_at_most_async` for every `usize` limit, from every state that a run in
range reaches.

A limit above `i64::MAX` turns negative in the cast to `i64`, and the receiver scans an empty range;
but for a limit of `2 ^ 63` from a cursor of `-1`: the `i64` sum that ends the range is then below
`i64::MIN`, a debug build panics, and a release build wraps around to `i64::MAX` and scans until it
finds nothing more. The calls here are therefore run by `buildStep`; `receives_atMost` is the call
of the model.

`exact_recv_at_most`: in either build `try_recv_at_most` and a poll return exactly what is readable,
up to the limit and the capacity, unless the limit is above `i64::MAX` and the sum does not wrap
around (a release build then says that nothing is there); `recv_at_most_misses` is such a call. It
needs that no cursor went back: a sequence is then never overwritten before it is read
(`LagInv.inPlace`).
-/

namespace EnsoChannel

open Lib

variable {T : Type} {N : Nat}

/-- `ReadBatchIter`: the items of the `n` sequences from `seq` on. -/
def readFrom (ring : RingBufferMeta) (slots : Nat → T) (seq : Int) : Nat → List T
  | 0 => []
  | n + 1 => slots (ring.indexOfSeq seq) :: readFrom ring slots (seq + 1) n

/-- `iter()` of a guard over `first … last`. -/
def readBatch (ring : RingBufferMeta) (slots : Nat → T) (first last : Int) : List T :=
  readFrom ring slots first (last + 1 - first).toNat

/-- `p` contiguous sequences are published right after the cursor of receiver `i`. -/
def Sys.Readable (σ : Sys T N) (i : Fin N) (p : Nat) : Prop :=
  (∀ s, σ.mem.consumed i < s → s ≤ σ.mem.consumed i + p → Published σ.trace s) ∧
    ¬ Published σ.trace (σ.mem.consumed i + p + 1)

/-- In the build, the sum that ends the range to scan does not overflow, and the debug assertion of
`scan_available_until` does not fail. -/
def LoadPasses (b : Build) (ring : RingBufferMeta) (lastClaimed limit : Int) : Prop :=
  ∃ last, b.i64 (lastClaimed + min limit ring.bufferSize) = .ok last ∧
    b.debugAssert (decide (lastClaimed + 1 ≤ last)) = .ok ()

/-- What `try_recv_at_most(limit)`, or one poll, is to do from `σ` with `p` sequences readable, its
call standing at `pc` in `σ'`. -/
def ExactRecv (b : Build) (ring : RingBufferMeta) (i : Fin N) (limit : Nat) (async : Bool) (p : Nat)
    (σ σ' : Sys T N) (pc : RecvPc) : Prop :=
  (1 ≤ p → ∃ n : Nat, (n : Int) = min (min (limit : Int) ring.bufferSize) p ∧
      pc = .guard (σ.mem.consumed i + 1) (σ.mem.consumed i + n) ∧ σ.Untouched σ' ∧
      (∀ slots : Nat → T,
        readBatch ring slots (σ.mem.consumed i + 1) (σ.mem.consumed i + n) =
          (List.range n).map fun j => slots (ring.indexOfSeq (σ.mem.consumed i + 1 + (j : Nat)))) ∧
      ∃ σ'', buildStep b ring σ' (.receiver σ.nextRecv .release) = some σ'' ∧
        σ''.mem = { σ.mem with
          consumed := Function.update σ.mem.consumed i (σ.mem.consumed i + n) }) ∧
    (p = 0 → shutdownOf (σ.mem.states (ring.indexOfSeq (σ.mem.consumed i + 1))) = true →
      pc = .disconnected ∧ σ.Untouched σ') ∧
    (p = 0 → shutdownOf (σ.mem.states (ring.indexOfSeq (σ.mem.consumed i + 1))) = false →
      if async then pc = .pending ∧
        σ'.mem = { σ.mem with wakers := Function.update σ.mem.wakers i (some σ.nextRecv) }
      else pc = .empty ∧ σ.Untouched σ')

/-- In the build `b`, `try_recv_at_most(limit)` and `recv_at_most_async(limit)` on receiver `i`, run
without interference, do what they are to do, and no debug assertion fails. (A call that panics is
left where it panicked.) -/
def ReceivesExactly (b : Build) (ring : RingBufferMeta) (i : Fin N) (limit : Nat) (σ : Sys T N) :
    Prop :=
  ∃ p, σ.Readable i p ∧ LoadPasses b ring (σ.mem.consumed i) (usizeAsI64 limit) ∧
    ∀ async, ∃ σ', Sys.ReceivesBy (buildStep b ring) i limit async σ σ' ∧
      ExactRecv b ring i limit async p σ σ' (σ'.recvs σ.nextRecv)

/-- The range to scan ends where the limit and the capacity say. In a release build it also does so
for a limit of `2 ^ 63`, cast to `i64::MIN`, from a cursor of `-1`: the sum wraps to `i64::MAX`. -/
def LimitFits (b : Build) (lastClaimed : Int) (limit : Nat) : Prop :=
  (limit : Int) ≤ i64Max ∨ b = .release ∧ limit = 2 ^ 63 ∧ lastClaimed = -1

/-- Every readable sequence the guard is to cover is the one its slot holds (to whole wraps of the
lap flag). -/
def Sys.InPlace (ring : RingBufferMeta) (i : Fin N) (limit : Nat) (σ : Sys T N) : Prop :=
  ∀ s, σ.mem.consumed i < s → s ≤ σ.mem.consumed i + min (limit : Int) ring.bufferSize →
    (∀ s', σ.mem.consumed i < s' → s' ≤ s → Published σ.trace s') →
      held ring.bufferSize σ.trace (s % ring.bufferSize) ≡ s [ZMOD ring.bufferSize * 2 ^ 31]

/-- Nothing is readable on receiver `i`, and the next slot carries no shutdown bit. -/
def Sys.Vacant (ring : RingBufferMeta) (i : Fin N) (σ : Sys T N) : Prop :=
  ¬ Published σ.trace (σ.mem.consumed i + 1) ∧
    shutdownOf (σ.mem.states (ring.indexOfSeq (σ.mem.consumed i + 1))) = false

section

variable {ring : RingBufferMeta} {initial : Nat → T} {σ σ' : Sys T N} {i : Fin N} {limit : Nat}
  {m : Mem T N} {h : History T N} {s : Int} {async : Bool}

theorem readFrom_eq (slots : Nat → T) (n : Nat) (seq : Int) :
    readFrom ring slots seq n =
      (List.range n).map fun j => slots (ring.indexOfSeq (seq + (j : Nat))) := by
  induction n generalizing seq with
  | zero => rfl
  | succ n ih =>
    rw [readFrom, ih, List.range_succ_eq_map, List.map_cons, List.map_map]
    refine congrArg₂ _ (by simp) (List.map_congr_left fun j _ => ?_)
    show slots (ring.indexOfSeq (seq + 1 + (j : Nat))) =
      slots (ring.indexOfSeq (seq + ((j + 1 : Nat) : Int)))
    rw [Nat.cast_add, Nat.cast_one, add_assoc, add_comm (1 : Int)]

variable (ring) in
/-- **A guard iterates its sequences in order.** -/
theorem readBatch_eq (slots : Nat → T) (first : Int) (n : Nat) :
    readBatch ring slots first (first - 1 + n) =
      (List.range n).map fun j => slots (ring.indexOfSeq (first + (j : Nat))) := by
  unfold readBatch
  rw [show (first - 1 + (n : Int) + 1 - first).toNat = n by omega, readFrom_eq]

variable (ring initial) in
/-- A flag is in place iff the slot holds the sequence, to whole wraps of the flag. -/
theorem available_iff_held :
    ring.Available (replay ring initial h).states s ↔
      held ring.bufferSize h (s % ring.bufferSize) ≡ s [ZMOD ring.bufferSize * 2 ^ 31] := by
  have hc := ring.bufferSize_pos
  have hcell : held ring.bufferSize h (s % ring.bufferSize) % ring.bufferSize =
      s % ring.bufferSize :=
    held_emod (Int.emod_nonneg s (by omega)) (Int.emod_lt_of_pos s hc)
  unfold RingBufferMeta.Available
  rw [lapOf_replay, Int.ModEq, ← slotState_eq_iff]
  unfold RingBufferMeta.slotState
  rw [Prod.mk.injEq, ring.indexOfSeq_eq_iff]
  exact (and_iff_right hcell).symm

/-- The state after the start of a receive call on `i`, but for where the call stands. -/
def Sys.asked (σ : Sys T N) (i : Fin N) (async : Bool) : Sys T N :=
  { σ with
    recvReceiver := Function.update σ.recvReceiver σ.nextRecv i
    recvAsync := Function.update σ.recvAsync σ.nextRecv async
    nextRecv := σ.nextRecv + 1 }

theorem receives_start (hnext : SameButLoad ring next) (hlive : σ.receivers i = true)
    (hs : Settles next (fun _ => .receiver σ.nextRecv .run)
      ((σ.asked i async).withRecv σ.nextRecv σ.mem σ.trace (recvStart limit async)) σ') :
    Sys.ReceivesBy next i limit async σ σ' := by
  refine ⟨_, (hnext.recv σ i limit async).trans ?_, hs⟩
  simp only [step, if_pos hlive]
  rfl

/-- A receive call that is over, or holds a guard, is settled. -/
theorem recv_rest {r : Nat} {t : History T N} {pc : RecvPc} (hnext : SameButLoad ring next)
    (hload : ∀ q, pc ≠ .load q) (hpc : ∀ j, recvStep ring r j m pc .run = none) :
    Settles next (fun _ => .receiver r .run) (σ.withRecv r m t pc) (σ.withRecv r m t pc) :=
  Settles.rest ((hnext.withRecv hload .run).trans (step_withRecv_none (hpc _)))

/-- The load of a receive call on `i` goes on to scan up to `last`. -/
def LoadsUpTo (ring : RingBufferMeta) (next : Sys T N → Label T N → Option (Sys T N)) (i : Fin N)
    (limit : Nat) (last : Int) (σ : Sys T N) : Prop :=
  ∀ async q m t, m.consumed i = σ.mem.consumed i → q.limit = usizeAsI64 limit →
    next ((σ.asked i async).withRecv σ.nextRecv m t (.load q)) (.receiver σ.nextRecv .run) =
      some ((σ.asked i async).returned ring σ.nextRecv m t
        (recvScan σ.nextRecv i q (σ.mem.consumed i) last))

/-- **What a receive call does** that scans up to `last`: it returns a guard as far as the scan got,
or says that the channel is disconnected or empty; a poll that finds nothing registers its waker and
looks again. -/
theorem receives_upTo (hnext : SameButLoad ring next) (async : Bool)
    (hlive : σ.receivers i = true) (hlimit : limit ≠ 0) {last available : Int} {shutdown : Bool}
    (hload : LoadsUpTo ring next i limit last σ)
    (hout : ring.scanAvailableUntil σ.mem.states (σ.mem.consumed i + 1) last =
      (available, shutdown)) :
    ∃ σ', Sys.ReceivesBy next i limit async σ σ' ∧ σ'.senders = σ.senders ∧
      σ'.receivers = σ.receivers ∧
      (σ.mem.consumed i < available →
        σ'.recvs σ.nextRecv = .guard (σ.mem.consumed i + 1) available ∧ σ'.mem = σ.mem ∧
          (available ≠ Sequence.init →
            ∃ σ'', next σ' (.receiver σ.nextRecv .release) = some σ'' ∧
              σ''.mem = { σ.mem with
                consumed := Function.update σ.mem.consumed i available } ∧
              σ''.receivers = σ.receivers)) ∧
      (available ≤ σ.mem.consumed i → shutdown = true →
        σ'.recvs σ.nextRecv = .disconnected ∧ σ'.mem = σ.mem) ∧
      (available ≤ σ.mem.consumed i → shutdown = false →
        if async then σ'.recvs σ.nextRecv = .pending ∧
          σ'.mem = { σ.mem with wakers := Function.update σ.mem.wakers i (some σ.nextRecv) }
        else σ'.recvs σ.nextRecv = .empty ∧ σ'.mem = σ.mem) := by
  have hr : σ.nextRecv < (σ.asked i async).nextRecv := Nat.lt_succ_self _
  have hi : ∀ async, (σ.asked i async).recvReceiver σ.nextRecv = i :=
    fun _ => Function.update_self _ _ _
  -- one claim, of the call itself or of the second half of a poll
  have hclaim : ∀ async q m t σ', m.consumed i = σ.mem.consumed i → m.states = σ.mem.states →
      q.limit = usizeAsI64 limit →
      Settles next (fun _ => .receiver σ.nextRecv .run)
        ((σ.asked i async).returned ring σ.nextRecv m t (recvReturn σ.nextRecv i q
          (σ.mem.consumed i) available shutdown)) σ' →
        Settles next (fun _ => .receiver σ.nextRecv .run)
          ((σ.asked i async).withRecv σ.nextRecv m t (.load q)) σ' := by
    intro async q m t σ' hcons hstates hq hs
    refine load_alone hnext (Nat.lt_succ_self _)
      ((hload async q m t hcons hq).trans (by rw [hi async])) ?_
    rw [hi async, hstates, hout]
    exact hs
  have hstart : recvStart limit async =
      .load { limit := usizeAsI64 limit, stage := if async then .first else .sync } :=
    if_neg hlimit
  have hreceives : ∀ {σ'}, Settles next (fun _ => .receiver σ.nextRecv .run)
      ((σ.asked i async).returned ring σ.nextRecv σ.mem σ.trace (recvReturn σ.nextRecv i
        { limit := usizeAsI64 limit, stage := if async then .first else .sync }
        (σ.mem.consumed i) available shutdown)) σ' →
          Sys.ReceivesBy next i limit async σ σ' := by
    intro σ' hs
    refine receives_start hnext hlive ?_
    rw [hstart]
    exact hclaim async _ _ _ _ rfl rfl rfl hs
  by_cases hitems : available ≤ σ.mem.consumed i
  · cases shutdown with
    | true =>
      simp only [recvReturn, if_pos hitems] at hreceives
      exact ⟨_, hreceives (recv_rest hnext (by simp) fun _ => rfl), rfl, rfl,
        fun h => absurd h (by omega), fun _ _ => ⟨withRecv_recvs, rfl⟩,
        fun _ h => absurd h (by simp)⟩
    | false =>
      cases async with
      | false =>
        simp only [recvReturn, if_pos hitems] at hreceives
        exact ⟨_, hreceives (recv_rest hnext (by simp) fun _ => rfl), rfl, rfl,
          fun h => absurd h (by omega), fun _ h => absurd h (by simp),
          fun _ _ => ⟨withRecv_recvs, rfl⟩⟩
      | true =>
        simp only [recvReturn, if_pos hitems] at hreceives
        -- the second half of the poll
        have hagain : Settles next (fun _ => .receiver σ.nextRecv .run)
            ((σ.asked i true).withRecv σ.nextRecv σ.mem σ.trace
              (.register { limit := usizeAsI64 limit, stage := .first }))
            ((σ.asked i true).withRecv σ.nextRecv
              { σ.mem with wakers := Function.update σ.mem.wakers i (some σ.nextRecv) }
              (.ret σ.nextRecv i .pending :: .register i σ.nextRecv :: σ.trace) .pending) := by
          refine recvSettles_move hnext (by simp) hr (o := (some (.register i σ.nextRecv),
            .load { limit := usizeAsI64 limit, stage := .second })) ?_
            (hclaim true _ _ _ _ rfl rfl rfl ?_)
          · rw [hi true]
            rfl
          · simp only [recvReturn, if_pos hitems]
            exact recv_rest hnext (by simp) fun _ => rfl
        exact ⟨_, hreceives hagain, rfl, rfl, fun h => absurd h (by omega),
          fun _ h => absurd h (by simp), fun _ _ => ⟨withRecv_recvs, rfl⟩⟩
  · simp only [recvReturn, if_neg hitems] at hreceives
    refine ⟨_, hreceives (recv_rest hnext (by simp) fun _ => rfl), rfl, rfl,
      fun _ => ⟨withRecv_recvs, rfl, fun hne => ?_⟩, fun h => absurd h hitems,
      fun h => absurd h hitems⟩
    refine ⟨_, (hnext.withRecv (by simp) .release).trans (step_withRecv
      (e := some (.release i (σ.mem.consumed i + 1) available)) (q := .released) hr ?_), ?_, rfl⟩
    · rw [hi async]
      simp only [recvStep, if_neg hne]
    · rfl

variable (ring) in
/-- What a receive call of the model does. -/
theorem receives_atMost (async : Bool) (hlive : σ.receivers i = true) (hlimit : limit ≠ 0)
    {available : Int} {shutdown : Bool}
    (hout : recvClaim ring σ.mem.states (σ.mem.consumed i) (usizeAsI64 limit) =
      (available, shutdown)) :
    ∃ σ', Sys.Receives ring i limit async σ σ' ∧ σ'.senders = σ.senders ∧
      σ'.receivers = σ.receivers ∧
      (σ.mem.consumed i < available →
        σ'.recvs σ.nextRecv = .guard (σ.mem.consumed i + 1) available ∧ σ'.mem = σ.mem ∧
          (available ≠ Sequence.init →
            ∃ σ'', step ring σ' (.receiver σ.nextRecv .release) = some σ'' ∧
              σ''.mem = { σ.mem with
                consumed := Function.update σ.mem.consumed i available } ∧
              σ''.receivers = σ.receivers)) ∧
      (available ≤ σ.mem.consumed i → shutdown = true →
        σ'.recvs σ.nextRecv = .disconnected ∧ σ'.mem = σ.mem) ∧
      (available ≤ σ.mem.consumed i → shutdown = false →
        if async then σ'.recvs σ.nextRecv = .pending ∧
          σ'.mem = { σ.mem with wakers := Function.update σ.mem.wakers i (some σ.nextRecv) }
        else σ'.recvs σ.nextRecv = .empty ∧ σ'.mem = σ.mem) := by
  refine receives_upTo sameButLoad_step async hlive hlimit (fun async q m t hcons hq => ?_) hout
  refine step_withRecv (Nat.lt_succ_self _) ?_
  have hi : (σ.asked i async).recvReceiver σ.nextRecv = i := Function.update_self _ _ _
  rw [hi, recvStep_load, hcons, hq]

theorem exists_readable (hi : Inv ring initial σ) (hlive : σ.receivers i = true) :
    ∃ p, σ.Readable i p := by
  have hl := hi.sound.legal
  have hpos := neg_one_le_position (i := i) hl
  have hc := hi.sound.consumed_eq (hi.not_dropped hlive)
  obtain ⟨f, hf⟩ := exists_frontier
    (P := fun s => Published σ.trace (σ.mem.consumed i + 1 + s)) (b := highest σ.trace)
    fun s hs => by
      have hrange := (hs.range hl).2
      omega
  have hf₀ := hf.nonneg
  refine ⟨f.toNat, fun s h₀ h₁ => ?_, ?_⟩
  · have hbelow := hf.below (s - (σ.mem.consumed i + 1)) (by omega) (by omega)
    rwa [show σ.mem.consumed i + 1 + (s - (σ.mem.consumed i + 1)) = s by omega] at hbelow
  · have hout := hf.outside
    rwa [show σ.mem.consumed i + (f.toNat : Int) + 1 = σ.mem.consumed i + 1 + f by omega]

theorem Sys.Readable.unique {p q : Nat} (hp : σ.Readable i p) (hq : σ.Readable i q) : p = q := by
  rcases lt_trichotomy p q with hlt | heq | hgt
  · exact absurd (hq.1 _ (by omega) (by omega)) hp.2
  · exact heq
  · exact absurd (hp.1 _ (by omega) (by omega)) hq.2

/-- A slot does not carry the flags of two laps that follow each other. -/
theorem not_available_next_lap {states : Nat → RawState} (ha : ring.Available states s) :
    ¬ ring.Available states (s + ring.bufferSize) := by
  have hc := ring.bufferSize_pos
  intro hnext
  have hidx : ring.indexOfSeq (s + ring.bufferSize) = ring.indexOfSeq s :=
    (RingBufferMeta.indexOfSeq_eq_iff ring).mpr (by simp)
  unfold RingBufferMeta.Available at ha hnext
  rw [hidx, ha] at hnext
  have heq : ring.slotState s = ring.slotState (s + ring.bufferSize) := Prod.ext hidx.symm hnext
  have hdvd := Int.ModEq.dvd ((slotState_eq_iff ring).mp heq)
  rw [add_sub_cancel_left] at hdvd
  have hle := Int.le_of_dvd hc hdvd
  omega

/-- **The scan reaches what is readable** where every sequence is in place, also when it was to go
on beyond a whole ring. -/
theorem scan_readable {p : Nat} {last : Int} (hi : Inv ring initial σ)
    (hlive : σ.receivers i = true) (hp : σ.Readable i p) (hlimit : 1 ≤ limit)
    (hplace : σ.InPlace ring i limit)
    (hle : σ.mem.consumed i + min (limit : Int) ring.bufferSize ≤ last)
    (hlast : last = σ.mem.consumed i + min (limit : Int) ring.bufferSize ∨
      ring.bufferSize ≤ limit) :
    Extent (ring.Available σ.mem.states) (σ.mem.consumed i + 1) last
      (σ.mem.consumed i + min (min (limit : Int) ring.bufferSize) p) := by
  have hc := ring.bufferSize_pos
  have hl := hi.sound.legal
  have hpos := neg_one_le_position (i := i) hl
  have hhigh := position_le_highest (i := i) hl
  have hcons := hi.sound.consumed_eq (hi.not_dropped hlive)
  have hwithin : ∀ t, σ.mem.consumed i + 1 ≤ t →
      t ≤ σ.mem.consumed i + min (min (limit : Int) ring.bufferSize) p →
        ring.Available σ.mem.states t := by
    intro t h₀ h₁
    rw [hi.sound.mem, available_iff_held ring initial]
    exact hplace t (by omega) (by omega) fun s h₀ h₁ => hp.1 s h₀ (by omega)
  refine ⟨by omega, by omega, hwithin, fun hlt => ?_⟩
  rcases lt_or_ge (p : Int) (min (limit : Int) ring.bufferSize) with hshort | hfull
  · -- the next sequence is not published
    rw [show min (min (limit : Int) ring.bufferSize) p = p by omega]
    intro hflag
    refine hp.2 (published_of_flag hl (by omega) (by omega)
      (?_ : lapOf ((replay ring initial σ.trace).states _) = _))
    rw [← hi.sound.mem]
    exact hflag
  · -- a whole ring is readable: the next sequence has the slot of the first
    have hring : ring.bufferSize ≤ limit := hlast.resolve_left (by omega)
    have hnot := not_available_next_lap (hwithin (σ.mem.consumed i + 1) (le_refl _) (by omega))
    rwa [show σ.mem.consumed i + min (min (limit : Int) ring.bufferSize) p + 1 =
      σ.mem.consumed i + 1 + ring.bufferSize by omega]

/-- **Where cursors only move up, every readable sequence is in place.** -/
theorem LagInv.inPlace (hi : Inv ring initial σ) (hl : LagInv ring.bufferSize σ)
    (hlive : σ.receivers i = true) : σ.InPlace ring i limit := by
  intro s h₀ h₁ hprev
  have hd := hi.not_dropped hlive
  have hcons := hi.sound.consumed_eq hd
  have hflag := (hl.flag_iff hi hd (by omega) (by omega)).mpr (hprev s h₀ (le_refl s))
  rw [← available_iff_held ring initial, ← hi.sound.mem]
  exact hflag

/-! ### The range to scan in a build -/

theorem sameButLoad_buildStep (b : Build) : SameButLoad ring (buildStep b ring : Sys T N → _) where
  recv _ _ _ _ := rfl
  receiver σ r act hpc := by
    have hstep : recvStepWith b ring r (σ.recvReceiver r) σ.mem (σ.recvs r) act =
        .ok (recvStep ring r (σ.recvReceiver r) σ.mem (σ.recvs r) act) := by
      unfold recvStepWith
      split
      · rename_i q heq
        exact absurd heq (hpc q)
      · rfl
    rw [buildStep, stepWith_receiver hstep]

/-- The load of a receive call whose sum and assertion pass. -/
theorem recvStepWith_load {b : Build} {r : Nat} {q : RecvCall} {last : Int}
    (hlow : -1 ≤ m.consumed i) (hhigh : m.consumed i < 2 ^ 62)
    (hlast : b.i64 (m.consumed i + min q.limit ring.bufferSize) = .ok last)
    (hord : b.debugAssert (decide (m.consumed i + 1 ≤ last)) = .ok ()) :
    recvStepWith b ring r i m (.load q) .run =
      .ok (some (recvScan r i q (m.consumed i) last)) := by
  simp only [recvStepWith, hlast]
  rw [Build.i64_bind (by omega) (by omega)]
  show (b.debugAssert (decide (m.consumed i + 1 ≤ last)) >>= _) = _
  rw [hord]
  show (b.i64 (m.consumed i + 1 - 1) >>= _) = _
  rw [Build.i64_bind (by omega) (by omega), recvScan]
  split <;> rfl

theorem loadsUpTo_buildStep {b : Build} {last : Int} (hlow : -1 ≤ σ.mem.consumed i)
    (hhigh : σ.mem.consumed i < 2 ^ 62)
    (hlast : b.i64 (σ.mem.consumed i + min (usizeAsI64 limit) ring.bufferSize) = .ok last)
    (hord : b.debugAssert (decide (σ.mem.consumed i + 1 ≤ last)) = .ok ()) :
    LoadsUpTo ring (buildStep b ring) i limit last σ := by
  intro async q m t hcons hq
  have hi : (σ.asked i async).recvReceiver σ.nextRecv = i := Function.update_self _ _ _
  have hr : σ.nextRecv < ((σ.asked i async).withRecv σ.nextRecv m t (.load q)).nextRecv :=
    Nat.lt_succ_self _
  have hstep : recvStepWith b ring σ.nextRecv i m (.load q) .run =
      .ok (some (recvScan σ.nextRecv i q (σ.mem.consumed i) last)) := by
    rw [← hcons] at hlow hhigh hlast hord ⊢
    rw [← hq] at hlast
    exact recvStepWith_load hlow hhigh hlast hord
  have hstep : recvStepWith b ring σ.nextRecv
      (((σ.asked i async).withRecv σ.nextRecv m t (.load q)).recvReceiver σ.nextRecv) m
      (((σ.asked i async).withRecv σ.nextRecv m t (.load q)).recvs σ.nextRecv) .run =
        .ok (some (recvScan σ.nextRecv i q (σ.mem.consumed i) last)) := by
    rw [withRecv_recvs]
    exact hi.symm ▸ hstep
  exact (buildStep_receiver hr hstep).trans (congrArg some perform_withRecv)

/-- A limit that turns negative wraps around only as `2 ^ 63`, and only from a cursor of `-1`. -/
theorem Build.i64_of_gt {b : Build} {lastClaimed last : Int} (hlow : -1 ≤ lastClaimed)
    (hhigh : lastClaimed < 2 ^ 62) (h₀ : i64Max < (limit : Int)) (h₁ : limit < 2 ^ 64)
    (hlast : b.i64 (lastClaimed + min (usizeAsI64 limit) ring.bufferSize) = .ok last)
    (hord : lastClaimed + 1 ≤ last) :
    b = .release ∧ limit = 2 ^ 63 ∧ lastClaimed = -1 ∧ last = i64Max := by
  have hc := ring.bufferSize_pos
  have hcast := usizeAsI64_of_gt h₀ h₁
  unfold i64Max at h₀ ⊢
  rw [hcast, min_eq_left (by omega)] at hlast
  by_cases hrange : -2 ^ 63 ≤ lastClaimed + ((limit : Int) - 2 ^ 64)
  · -- the sum does not wrap: it is below the cursor
    rw [Build.i64_eq hrange (by omega)] at hlast
    cases hlast
    omega
  · have hlimit : limit = 2 ^ 63 := by omega
    have hlc : lastClaimed = -1 := by omega
    subst hlimit hlc
    cases b with
    | debug =>
      rw [Build.i64, if_neg (by decide)] at hlast
      exact absurd hlast (by simp)
    | release =>
      refine ⟨rfl, rfl, rfl, ?_⟩
      have hwrap :
          (BitVec.ofInt 64 (-1 + (((2 ^ 63 : Nat) : Int) - 2 ^ 64))).toInt = 2 ^ 63 - 1 := by
        decide
      rw [Build.i64, hwrap] at hlast
      exact (Except.ok.inj hlast).symm

/-- **Where the scan is to end**: a range in order has a limit that fits, and ends where the limit
and the capacity say, or beyond a whole ring. -/
theorem scanRange_end {b : Build} {lastClaimed last : Int} (hlow : -1 ≤ lastClaimed)
    (hhigh : lastClaimed < 2 ^ 62) (h₁ : limit < 2 ^ 64)
    (hlast : b.i64 (lastClaimed + min (usizeAsI64 limit) ring.bufferSize) = .ok last)
    (hord : lastClaimed + 1 ≤ last) :
    LimitFits b lastClaimed limit ∧ lastClaimed + min (limit : Int) ring.bufferSize ≤ last ∧
      (last = lastClaimed + min (limit : Int) ring.bufferSize ∨ ring.bufferSize ≤ limit) := by
  have hc := ring.bufferSize_pos
  have hle := ring.bufferSize_le
  rcases le_or_gt (limit : Int) i64Max with hmax | hmax
  · rw [usizeAsI64_eq hmax, Build.i64_eq (by omega) (by omega)] at hlast
    cases hlast
    exact ⟨Or.inl hmax, le_refl _, Or.inl rfl⟩
  · obtain ⟨rfl, rfl, rfl, rfl⟩ := Build.i64_of_gt hlow hhigh hmax h₁ hlast hord
    refine ⟨Or.inr ⟨rfl, rfl, rfl⟩, ?_, Or.inr ?_⟩
    · unfold i64Max
      omega
    · push_cast
      omega

variable (ring) in
/-- A limit that fits gives a range in order. -/
theorem LimitFits.range {b : Build} {lastClaimed : Int} (hfits : LimitFits b lastClaimed limit)
    (hlow : -1 ≤ lastClaimed) (hhigh : lastClaimed < 2 ^ 62) (h₀ : 1 ≤ limit) :
    ∃ last, b.i64 (lastClaimed + min (usizeAsI64 limit) ring.bufferSize) = .ok last ∧
      lastClaimed + 1 ≤ last := by
  have hc := ring.bufferSize_pos
  have hle := ring.bufferSize_le
  rcases hfits with hmax | ⟨rfl, rfl, rfl⟩
  · rw [usizeAsI64_eq hmax]
    exact ⟨_, Build.i64_eq (by omega) (by omega), by omega⟩
  · refine ⟨i64Max, ?_, by unfold i64Max; omega⟩
    rw [usizeAsI64_of_gt (by unfold i64Max; norm_num) (by norm_num), min_eq_left (by omega)]
    decide

/-! ### The outcome -/

theorem Inv.consumed_range (hi : Inv ring initial σ) (hlive : σ.receivers i = true) :
    -1 ≤ σ.mem.consumed i ∧ σ.mem.consumed i < 2 ^ 62 := by
  have hl := hi.sound.legal
  have hlow := neg_one_le_position (i := i) hl
  have hhigh := position_le_highest (i := i) hl
  have hbound := hi.sound.bound
  rw [hi.sound.consumed_eq (hi.not_dropped hlive)]
  omega

/-- **With a limit that fits**, a receive call does what it is to do where the sequences are in
place. -/
theorem LimitFits.receivesExactly_iff {b : Build} (hfits : LimitFits b (σ.mem.consumed i) limit)
    (hi : Inv ring initial σ) (hlive : σ.receivers i = true) (h₀ : 1 ≤ limit)
    (h₁ : limit < 2 ^ 64) : ReceivesExactly b ring i limit σ ↔ σ.InPlace ring i limit := by
  obtain ⟨hlow, hhigh⟩ := hi.consumed_range hlive
  obtain ⟨last, hlast, hord⟩ := hfits.range ring hlow hhigh h₀
  obtain ⟨-, hend, hring⟩ := scanRange_end hlow hhigh h₁ hlast hord
  obtain ⟨p, hp⟩ := exists_readable hi hlive
  have hc := ring.bufferSize_pos
  have horder : σ.mem.consumed i + 1 - 1 ≤ last := by omega
  have hscan := scanAvailableUntil_extent ring σ.mem.states horder
  generalize hout : ring.scanAvailableUntil σ.mem.states (σ.mem.consumed i + 1) last = out at hscan
  obtain ⟨available, shutdown⟩ := out
  dsimp only at hscan
  have hcall := fun async => receives_upTo (sameButLoad_buildStep b) async hlive (by omega)
    (loadsUpTo_buildStep hlow hhigh hlast (Build.debugAssert_eq hord)) hout
  constructor
  · rintro ⟨p', hp', -, hall⟩ s hs₀ hs₁ hprev
    obtain rfl := hp.unique hp'
    have hs₂ : s ≤ σ.mem.consumed i + p := by
      by_contra hgt
      exact hp.2 (hprev _ (by omega) (by omega))
    obtain ⟨σ', hrecv, hexact⟩ := hall false
    obtain ⟨σ'', hrecv', -, -, hitems, hdisc, hempty⟩ := hcall false
    obtain rfl := hrecv.unique hrecv'
    obtain ⟨n, hn, hpc, -⟩ := hexact.1 (by omega)
    have hgot : σ.mem.consumed i + n = available := by
      rcases lt_or_ge (σ.mem.consumed i) available with hlt | hge
      · rw [(hitems hlt).1] at hpc
        cases hpc
        rfl
      · cases shutdown with
        | true =>
          rw [(hdisc hge rfl).1] at hpc
          exact absurd hpc (by simp)
        | false =>
          have hnone := hempty hge rfl
          rw [if_neg (by simp)] at hnone
          rw [hnone.1] at hpc
          exact absurd hpc (by simp)
    rw [← available_iff_held ring initial, ← hi.sound.mem]
    exact hscan.within s (by omega) (by omega)
  · intro hplace
    have hreach := hscan.unique (scan_readable hi hlive hp h₀ hplace hend hring)
    refine ⟨p, hp, ⟨last, hlast, Build.debugAssert_eq hord⟩, fun async => ?_⟩
    obtain ⟨σ', hrecv, hsenders, hreceivers, hitems, hdisc, hempty⟩ := hcall async
    have hone : p = 0 → shutdown =
        shutdownOf (σ.mem.states (ring.indexOfSeq (σ.mem.consumed i + 1))) := by
      intro hzero
      refine scanAvailableUntil_stuck hord ?_
      rw [hout, show available = σ.mem.consumed i by omega]
    refine ⟨σ', hrecv, fun hpos => ?_, fun hzero hb => ?_, fun hzero hb => ?_⟩
    · obtain ⟨n, hn⟩ : ∃ n : Nat, (n : Int) = min (min (limit : Int) ring.bufferSize) p :=
        ⟨(min (min (limit : Int) ring.bufferSize) p).toNat, by omega⟩
      have hn₀ : 0 < (n : Int) := by omega
      have hne : σ.mem.consumed i + n ≠ -1 := by omega
      obtain rfl : available = σ.mem.consumed i + n := by omega
      obtain ⟨hpc, hmem, hrelease⟩ := hitems (lt_add_of_pos_right _ hn₀)
      refine ⟨n, hn, hpc, ⟨hmem, hsenders, hreceivers⟩, fun slots => ?_,
        (hrelease hne).imp fun _ hr => ⟨hr.1, hr.2.1⟩⟩
      have hiter := readBatch_eq ring slots (σ.mem.consumed i + 1) n
      rwa [add_sub_cancel_right] at hiter
    · obtain ⟨hpc, hmem⟩ := hdisc (by omega) ((hone hzero).trans hb)
      exact ⟨hpc, hmem, hsenders, hreceivers⟩
    · have hb := (hone hzero).trans hb
      cases async with
      | false =>
        obtain ⟨hpc, hmem⟩ := hempty (by omega) hb
        exact ⟨hpc, hmem, hsenders, hreceivers⟩
      | true => exact hempty (by omega) hb

/-- What a release build does with a limit that does not fit: it scans nothing. -/
theorem receives_nothing (async : Bool) (hi : Inv ring initial σ) (hlive : σ.receivers i = true)
    (h₀ : 1 ≤ limit) (h₁ : limit < 2 ^ 64)
    (hfits : ¬ LimitFits .release (σ.mem.consumed i) limit) :
    ∃ σ', Sys.ReceivesBy (buildStep .release ring) i limit async σ σ' ∧ σ'.senders = σ.senders ∧
      σ'.receivers = σ.receivers ∧
      if async then σ'.recvs σ.nextRecv = .pending ∧
        σ'.mem = { σ.mem with wakers := Function.update σ.mem.wakers i (some σ.nextRecv) }
      else σ'.recvs σ.nextRecv = .empty ∧ σ'.mem = σ.mem := by
  obtain ⟨hlow, hhigh⟩ := hi.consumed_range hlive
  have hlast : Build.release.i64 (σ.mem.consumed i + min (usizeAsI64 limit) ring.bufferSize) =
      .ok (BitVec.ofInt 64 (σ.mem.consumed i + min (usizeAsI64 limit) ring.bufferSize)).toInt := rfl
  generalize (BitVec.ofInt 64 _).toInt = last at hlast
  have hempty : last ≤ σ.mem.consumed i := by
    by_contra hgt
    exact hfits (scanRange_end hlow hhigh h₁ hlast (by omega)).1
  have hout : ring.scanAvailableUntil σ.mem.states (σ.mem.consumed i + 1) last =
      (σ.mem.consumed i, false) := by
    unfold RingBufferMeta.scanAvailableUntil
    rw [show (last + 1 - (σ.mem.consumed i + 1)).toNat = 0 by omega]
    simp [RingBufferMeta.scanAvailable]
  obtain ⟨σ', hrecv, hsenders, hreceivers, -, -, hnone⟩ :=
    receives_upTo (sameButLoad_buildStep .release) async hlive (by omega)
      (loadsUpTo_buildStep hlow hhigh hlast rfl) hout
  exact ⟨σ', hrecv, hsenders, hreceivers, hnone (le_refl _) rfl⟩

/-- **With a limit that does not fit**, a debug build panics, and a release build says that nothing
is there. -/
theorem receivesExactly_of_not_fits {b : Build} (hi : Inv ring initial σ)
    (hlive : σ.receivers i = true) (h₀ : 1 ≤ limit) (h₁ : limit < 2 ^ 64)
    (hfits : ¬ LimitFits b (σ.mem.consumed i) limit) :
    ReceivesExactly b ring i limit σ ↔ b = .release ∧ σ.Vacant ring i := by
  obtain ⟨hlow, hhigh⟩ := hi.consumed_range hlive
  cases b with
  | debug =>
    refine iff_of_false (fun ⟨_, _, ⟨last, hlast, hassert⟩, _⟩ => ?_) (by simp)
    by_cases hord : σ.mem.consumed i + 1 ≤ last
    · exact hfits (scanRange_end hlow hhigh h₁ hlast hord).1
    · rw [decide_eq_false hord] at hassert
      exact absurd hassert (by simp [Build.debugAssert])
  | release =>
    rw [and_iff_right rfl]
    obtain ⟨p, hp⟩ := exists_readable hi hlive
    have hzero : p = 0 ↔ ¬ Published σ.trace (σ.mem.consumed i + 1) := by
      constructor
      · rintro rfl
        simpa using hp.2
      · intro hunp
        by_contra hne
        exact hunp (hp.1 _ (by omega) (by omega))
    constructor
    · rintro ⟨p', hp', -, hall⟩
      obtain rfl := hp.unique hp'
      obtain ⟨σ', hrecv, hitems, hdisc, -⟩ := hall false
      obtain ⟨σ'', hrecv', -, -, hnone⟩ := receives_nothing false hi hlive h₀ h₁ hfits
      obtain rfl := hrecv.unique hrecv'
      rw [if_neg (by simp)] at hnone
      have hp₀ : p = 0 := by
        by_contra hne
        obtain ⟨n, -, hpc, -⟩ := hitems (by omega)
        rw [hnone.1] at hpc
        exact absurd hpc (by simp)
      refine ⟨hzero.mp hp₀, ?_⟩
      rw [Bool.eq_false_iff]
      intro hb
      rw [hnone.1] at hdisc
      exact absurd (hdisc hp₀ hb).1 (by simp)
    · rintro ⟨hunp, hb⟩
      obtain rfl := hzero.mpr hunp
      refine ⟨0, hp, ⟨_, rfl, rfl⟩, fun async => ?_⟩
      obtain ⟨σ', hrecv, hsenders, hreceivers, hnone⟩ :=
        receives_nothing async hi hlive h₀ h₁ hfits
      refine ⟨σ', hrecv, fun h => absurd h (by omega), fun _ hb' => ?_, fun _ _ => ?_⟩
      · rw [hb] at hb'
        exact absurd hb' (by simp)
      · cases async with
        | false => exact ⟨hnone.1, hnone.2, hsenders, hreceivers⟩
        | true => exact hnone

/-- **Exact at-most receive.** From every state that a run in range reaches,
`try_recv_at_most(limit)` and a poll of `recv_at_most_async(limit)`, run without interference in
either build, do exactly what they are to do, except: for the limits above `i64::MAX`, unless the
sum wraps around, or a release build has nothing to say; and where a sequence the guard is to cover
was overwritten in its slot (the cursor went back). -/
theorem exact_recv_at_most {i₀ : Fin N} {ls : List (Label T N)}
    (hrun : Run (step ring) (InRange ring) (Sys.init initial i₀) ls σ)
    (hlive : σ.receivers i = true) (h₀ : 1 ≤ limit) (h₁ : limit < 2 ^ 64) (b : Build) :
    ReceivesExactly b ring i limit σ ↔
      (LimitFits b (σ.mem.consumed i) limit ∧ σ.InPlace ring i limit) ∨
        (¬ LimitFits b (σ.mem.consumed i) limit ∧ b = .release ∧ σ.Vacant ring i) := by
  have hi := Inv.of_run (fun hok => hok) (inv_init ring initial i₀) hrun
  by_cases hfits : LimitFits b (σ.mem.consumed i) limit
  · simp only [hfits, hfits.receivesExactly_iff hi hlive h₀ h₁, true_and, not_true, false_and,
      or_false]
  · simp only [hfits, receivesExactly_of_not_fits hi hlive h₀ h₁ hfits, false_and, false_or,
      not_false_iff, true_and]

/-- Two items are sent on a ring of four slots. A debug build is asked for three, a release build
for `2 ^ 63`. -/
theorem exact_recv_at_most_two :
    ∃ (ls : List (Label Nat 1)) (σ : Sys Nat 1),
      Run (step ⟨2, by decide⟩) (InRange ⟨2, by decide⟩) (Sys.init (fun _ => 0) 0) ls σ ∧
        Published σ.trace 1 ∧ ReceivesExactly .debug ⟨2, by decide⟩ 0 3 σ ∧
        ReceivesExactly .release ⟨2, by decide⟩ 0 (2 ^ 63) σ := by
  have hex : (exec (step ⟨2, by decide⟩) (fun σ l => InRange ⟨2, by decide⟩ σ l ∧ OneGuard σ l)
      (Sys.init (fun _ => 0) 0)
      (List.flatten [[.send 0 (.trySend 7)], List.replicate 9 (.sender 0 .run),
        [.send 0 (.trySend 8)], List.replicate 9 (.sender 1 .run)])).any
      (fun σ : Sys Nat 1 => decide (Published σ.trace 1 ∧ σ.receivers 0 = true ∧
        σ.mem.consumed 0 = -1)) = true := by
    decide +kernel
  obtain ⟨σ, hrun, hσ⟩ := Run.of_exec_any hex
  obtain ⟨hpub, hlive, hcons⟩ := of_decide_eq_true hσ
  have hg := ((served_init ⟨2, by decide⟩ (fun _ => 0) 0).of_run id hrun).guarded
  have hrun' : Run (step ⟨2, by decide⟩) (InRange ⟨2, by decide⟩) _ _ σ :=
    hrun.mono fun hok => hok.1
  refine ⟨_, σ, hrun', hpub, ?_, ?_⟩
  · exact (exact_recv_at_most hrun' hlive (by norm_num) (by norm_num) .debug).mpr
      (Or.inl ⟨Or.inl (by unfold i64Max; norm_num), hg.lag.inPlace hg.inv hlive⟩)
  · exact (exact_recv_at_most hrun' hlive (by norm_num) (by norm_num) .release).mpr
      (Or.inl ⟨Or.inr ⟨rfl, rfl, hcons⟩, hg.lag.inPlace hg.inv hlive⟩)

/-- **A limit of `usize::MAX` finds nothing**: an item is waiting, and the receiver is told that the
channel is empty. A debug build panics. -/
theorem recv_at_most_misses :
    ∃ (ls : List (Label Nat 1)) (σ σ' : Sys Nat 1),
      Run (step ⟨1, by decide⟩) (InRange ⟨1, by decide⟩) (Sys.init (fun _ => 0) 0) ls σ ∧
        Published σ.trace 0 ∧ σ.mem.consumed 0 = -1 ∧
        Sys.ReceivesBy (buildStep .release ⟨1, by decide⟩) 0 (2 ^ 64 - 1) false σ σ' ∧
        σ'.recvs σ.nextRecv = .empty ∧
        ∀ b, ¬ ReceivesExactly b ⟨1, by decide⟩ 0 (2 ^ 64 - 1) σ := by
  have hex : (exec (step ⟨1, by decide⟩) (InRange ⟨1, by decide⟩) (Sys.init (fun _ => 0) 0)
      (List.flatten [[.send 0 (.trySend 7)], List.replicate 9 (.sender 0 .run)])).any
      (fun σ : Sys Nat 1 => decide (Published σ.trace 0 ∧ σ.receivers 0 = true ∧
        σ.mem.consumed 0 = -1)) = true := by
    decide +kernel
  obtain ⟨σ, hrun, hσ⟩ := Run.of_exec_any hex
  obtain ⟨hpub, hlive, hcons⟩ := of_decide_eq_true hσ
  have hi := Inv.of_run (fun hok => hok) (inv_init ⟨1, by decide⟩ (fun _ => 0) 0) hrun
  have hfits : ∀ b, ¬ LimitFits b (σ.mem.consumed 0) (2 ^ 64 - 1) := by
    rintro b (hmax | ⟨-, hwrap, -⟩)
    · exact absurd hmax (by unfold i64Max; norm_num)
    · exact absurd hwrap (by norm_num)
  obtain ⟨σ', hrecv, -, -, hnone⟩ :=
    receives_nothing false hi hlive (by norm_num) (by norm_num) (hfits .release)
  rw [if_neg (by simp)] at hnone
  refine ⟨_, σ, σ', hrun, hpub, hcons, hrecv, hnone.1, fun b hexact => ?_⟩
  have hvacant := ((receivesExactly_of_not_fits hi hlive (by norm_num) (by norm_num)
    (hfits b)).mp hexact).2
  refine hvacant.1 ?_
  rw [hcons]
  exact hpub

end

end EnsoChannel
