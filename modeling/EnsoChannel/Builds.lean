import EnsoChannel.Boundary

/-!
# Debug builds and release builds

The two ways the crate is built differ in two places: `+` and `-` on `i64` panic on overflow in a
debug build and wrap in a release build, and `debug_assert!` is checked only in a debug build
(`slot_states.rs` has three). `stepWith` is one step of the system with that arithmetic, in the
order in which the source computes; the steps without arithmetic are those of `step`.

* `debug_faults_iff`: in every run in range, whatever the receive limits, a debug build panics in
  one place only: at the first step of a receive call whose limit does not fit an `i64`. Every
  other step is the step of the model, in both builds.
* `builds_agree`: where the limits fit, neither build ever panics and both have exactly the runs of
  the model.

The overflow checks and two of the assertions need nothing but `Inv`. For the rest, `Proper` says
what a call carries: a batch that is not the empty one of a limit of 0 is in order, and the last
published sequence that a `close()` found is a sequence.
-/

namespace EnsoChannel

open Lib

variable {T : Type} {N : Nat}

/-! ## The two builds -/

inductive Build
  | debug
  | release
  deriving DecidableEq

/-- What a debug build panics with. -/
inductive Fault
  | overflow
  | assertion
  deriving DecidableEq

/-- An `i64` operation whose exact result is `x`. -/
def Build.i64 : Build → Int → Except Fault Int
  | .debug, x => if i64Min ≤ x ∧ x ≤ i64Max then .ok x else .error .overflow
  | .release, x => .ok (BitVec.ofInt 64 x).toInt

/-- `debug_assert!`. -/
def Build.debugAssert : Build → Bool → Except Fault Unit
  | .debug, true => .ok ()
  | .debug, false => .error .assertion
  | .release, _ => .ok ()

/-- The head of the claim loop. -/
def claimLoopWith (b : Build) (c : SendCall T) (raw : Int) : Except Fault (SenderPc T) :=
  if hasShutdown raw then pure (.refused .shutdown)
  else do
    let _startSeq ← b.i64 (raw + 1)
    pure (.maxConsumed c raw 0 Sequence.shutdownOpen)

/-- The body of the claim loop, with `available_slots`. -/
def claimBodyWith (b : Build) (ring : RingBufferMeta) (c : SendCall T) (last maxConsumed : Int) :
    Except Fault (SenderPc T) :=
  if maxConsumed = Sequence.shutdownOpen then pure (.refused .shutdown)
  else do
    let n := min c.limit ring.bufferSize
    let startSeq ← b.i64 (last + 1)
    let wrapPoint ← b.i64 (last - ring.bufferSize)
    let availableCapacity ← b.i64 (maxConsumed - wrapPoint)
    let maxAvailable ← b.i64 (last + availableCapacity)
    if startSeq > maxAvailable then pure (.refused .empty)
    else
      let room ← b.i64 (maxAvailable - last)
      let highest ← b.i64 (last + min room n)
      pure (.compareExchange c last maxConsumed highest)

/-- One step of `close()`. -/
def closeStepWith (b : Build) (ring : RingBufferMeta) (k : Nat) (m : Mem T N) :
    ClosePc → Except Fault (Option (Event T N) × Option ClosePc)
  | .load =>
    let raw := m.claimed
    let lastClaimed := lastClaimedOf raw
    if lastClaimed < 0 then pure (some (.closeStart k), some (.mark raw lastClaimed))
    else do
      let width ← b.i64 (ring.bufferSize - 1)
      let below ← b.i64 (lastClaimed - width)
      let windowStart := max below 0
      -- `scan_last_available`
      b.debugAssert (decide (windowStart ≤ lastClaimed))
      let _lastAvailable ← b.i64 (windowStart - 1)
      pure (some (.closeStart k), some (.scan raw lastClaimed windowStart))
  | .mark raw lastPublished => do
    let boundary ← b.i64 (lastPublished + 1)
    pure (some (.mark boundary), some (.store raw))
  | pos => pure (closeStep ring k m pos)

/-- One step of a sender call. -/
def senderStepWith (b : Build) (ring : RingBufferMeta) (k : Nat) (m : Mem T N) :
    SenderPc T → SenderAct T → Except Fault (Option (Option (Event T N) × SenderPc T))
  | .loadClaimed c, .run => do
    let pc ← claimLoopWith b c m.claimed
    pure (some (none, pc))
  | .maxConsumed c last i minConsumed, .run =>
    if h : i < N then
      pure (some (none, .maxConsumed c last (i + 1) (min minConsumed (m.consumed ⟨i, h⟩))))
    else do
      let pc ← claimBodyWith b ring c last minConsumed
      pure (some (none, pc))
  | .compareExchange c last _ highest, .run =>
    if m.claimed = last then do
      let startSeq ← b.i64 (last + 1)
      pure (some (some (.claim k startSeq highest), granted c startSeq highest))
    else do
      let pc ← claimLoopWith b c m.claimed
      pure (some (none, pc))
  | .permits p, .next =>
    if p.nextSeq > p.endSeq then pure (some (none, .permits p))
    else do
      let nextSeq ← b.i64 (p.nextSeq + 1)
      pure (some (none, .batchPermit { p with nextSeq := nextSeq } p.nextSeq))
  | .draining p, .run =>
    if p.endSeq = -1 then pure (some (none, .committed))
    else if p.nextSeq ≤ p.endSeq then pure none
    else do
      -- `publish_range`
      b.debugAssert (decide (p.startSeq ≤ p.endSeq))
      pure (some (none, .publishing p.startSeq p.startSeq p.endSeq))
  | .draining p, .recycled v =>
    if p.endSeq ≠ -1 ∧ p.nextSeq ≤ p.endSeq then do
      let nextSeq ← b.i64 (p.nextSeq + 1)
      pure (some (some (.store k p.nextSeq v), .draining { p with nextSeq := nextSeq }))
    else pure none
  | .closing pos caller, .run => do
    match ← closeStepWith b ring k m pos with
    | (e, some pos') => pure (some (e, .closing pos' caller))
    | (e, none) => pure (some (e, caller.resume))
  | pc, act => pure (senderStep ring k m pc act)

/-- One step of a receive call. -/
def recvStepWith (b : Build) (ring : RingBufferMeta) (r : Nat) (i : Fin N) (m : Mem T N) :
    RecvPc → RecvAct → Except Fault (Option (Option (Event T N) × RecvPc))
  | .load q, .run => do
    let lastClaimed := m.consumed i
    let n := min q.limit ring.bufferSize
    let startSeq ← b.i64 (lastClaimed + 1)
    let highestToConsume ← b.i64 (lastClaimed + n)
    -- `scan_available_until`
    b.debugAssert (decide (startSeq ≤ highestToConsume))
    let lastAvailable ← b.i64 (startSeq - 1)
    if startSeq ≤ highestToConsume then
      pure (some (none, .scan q lastClaimed highestToConsume startSeq false))
    else pure (some (recvReturn r i q lastClaimed lastAvailable false))
  | pc, act => pure (recvStep ring r i m pc act)

/-- **One step of the system in a build**: a panic, or what the step leads to. -/
def stepWith (b : Build) (ring : RingBufferMeta) (σ : Sys T N) :
    Label T N → Except Fault (Option (Sys T N))
  | .sender k act =>
    if k < σ.nextSend then do
      match ← senderStepWith b ring k σ.mem (σ.sends k) act with
      | none => pure none
      | some (e, pc) => pure (some { σ.perform ring e with sends := Function.update σ.sends k pc })
    else pure none
  | .receiver r act =>
    if r < σ.nextRecv then do
      match ← recvStepWith b ring r (σ.recvReceiver r) σ.mem (σ.recvs r) act with
      | none => pure none
      | some (e, pc) => pure (some { σ.perform ring e with recvs := Function.update σ.recvs r pc })
    else pure none
  | l => pure (step ring σ l)

/-- The channel as a build runs it. A panic has no next state. -/
def buildStep (b : Build) (ring : RingBufferMeta) (σ : Sys T N) (l : Label T N) :
    Option (Sys T N) :=
  match stepWith b ring σ l with
  | .ok out => out
  | .error _ => none

/-- `InRange` for a build. -/
def BuildInRange (b : Build) (ring : RingBufferMeta) : Sys T N → Label T N → Prop :=
  InRangeOf (buildStep b ring)

/-- The limits of the receive operations fit an `i64`. -/
def ReceivesFit (l : Label T N) : Prop :=
  ∀ i n async, l = .recv i n async → (n : Int) ≤ i64Max

/-- `l` is the first step of a receive call whose limit, as an `i64`, is not positive. -/
def Oversized (σ : Sys T N) (l : Label T N) : Prop :=
  ∃ r q, l = .receiver r .run ∧ r < σ.nextRecv ∧ σ.recvs r = .load q ∧ q.limit < 1

/-- The batch is in order, or the empty one. -/
def Permits.Proper (p : Permits) : Prop := p.startSeq ≤ p.endSeq ∨ p.endSeq = -1

/-- The sequence a `close()` found is one. -/
def ClosePc.Proper : ClosePc → Prop
  | .mark _ lastPublished => -1 ≤ lastPublished ∧ lastPublished < 2 ^ 62
  | _ => True

def CloseCaller.Proper : CloseCaller → Prop
  | .batch p => p.Proper
  | .permit | .lastSender => True

/-- What a sender call carries besides `SenderInv`. -/
def SenderPc.Proper : SenderPc T → Prop
  | .permits p | .batchPermit p _ | .batchRecycling p _ | .draining p => p.Proper
  | .closing pos caller => pos.Proper ∧ caller.Proper
  | _ => True

section

variable {ring : RingBufferMeta} {initial : Nat → T} {σ σ' : Sys T N} {l : Label T N} {k r : Nat}
  {i : Fin N} {m : Mem T N} {h : History T N} {b : Build}

/-! ## The arithmetic is exact -/

/-- In the range of `i64` both builds compute the exact result. -/
theorem Build.i64_eq {x : Int} (h₀ : -2 ^ 63 ≤ x) (h₁ : x < 2 ^ 63) : b.i64 x = .ok x := by
  cases b with
  | debug => rw [Build.i64, if_pos ⟨h₀, by unfold i64Max; omega⟩]
  | release => rw [Build.i64, BitVec.toInt_ofInt, Int.bmod_eq_of_le] <;> omega

theorem Build.i64_bind {α : Type} {f : Int → Except Fault α} {x : Int} (h₀ : -2 ^ 63 ≤ x)
    (h₁ : x < 2 ^ 63) : (b.i64 x >>= f) = f x := by
  rw [Build.i64_eq h₀ h₁]
  rfl

theorem Build.debugAssert_eq {p : Prop} [Decidable p] (hp : p) :
    b.debugAssert (decide p) = .ok () := by
  rw [decide_eq_true hp]
  cases b <;> rfl

theorem Build.debugAssert_bind {α : Type} {f : Unit → Except Fault α} {p : Prop} [Decidable p]
    (hp : p) : (b.debugAssert (decide p) >>= f) = f () := by
  rw [Build.debugAssert_eq hp]
  rfl

theorem claimLoopWith_eq (hs : Sound ring initial h m) (c : SendCall T) :
    claimLoopWith b c m.claimed = .ok (claimLoop c m.claimed) := by
  unfold claimLoopWith claimLoop
  split
  · rfl
  · rename_i hopen
    have hraw : -1 ≤ m.claimed := hasShutdown_eq_false.mp (Bool.eq_false_iff.mpr hopen)
    have heq := hs.claimed.eq_highest hs.bound hraw
    have hb := hs.bound
    simp (disch := omega) only [Build.i64_bind]
    rfl

theorem claimBodyWith_eq {c : SendCall T} {last maxConsumed : Int} {n : Nat}
    (hb : highest h + 1 < 2 ^ 62)
    (hi : SenderInv ring.bufferSize h k (.maxConsumed c last n maxConsumed)) :
    claimBodyWith b ring c last maxConsumed = .ok (claimBody ring c last maxConsumed) := by
  obtain ⟨hlimit, h₀, h₁, hg⟩ := hi
  have hc := ring.bufferSize_pos
  have hc' := ring.bufferSize_le
  unfold claimBodyWith claimBody
  split
  · rfl
  · rename_i hopen
    obtain ⟨hlow, hhigh, -⟩ := hg.resolve_left fun hl => hopen hl.1
    have hslots := ring.availableSlots_eq last maxConsumed
    have hfold : maxConsumed - (last - ring.bufferSize) = ring.availableSlots last maxConsumed :=
      rfl
    simp (disch := omega) only [Build.i64_bind, hfold]
    split <;> rfl

theorem closeStepWith_eq {pos : ClosePc} (hs : Sound ring initial h m) (hp : pos.Proper) :
    closeStepWith b ring k m pos = .ok (closeStep ring k m pos) := by
  cases pos with
  | load =>
    have hle := hs.claimed.lastClaimedOf_le hs.bound
    have hb := hs.bound
    have hc := ring.bufferSize_pos
    have hc' := ring.bufferSize_le
    simp only [closeStepWith, closeStep]
    split
    · rfl
    · rename_i hneg
      simp (disch := omega) only [Build.i64_bind, Build.debugAssert_bind]
      rfl
  | mark raw lastPublished =>
    obtain ⟨h₀, h₁⟩ := hp
    simp (disch := omega) only [closeStepWith, Build.i64_bind]
    rfl
  | _ => rfl

/-- A batch of which `next()` has something left ends below the bound. -/
theorem OwnBatch.lt_bound {p : Permits} (ho : OwnBatch h k p) (hs : Sound ring initial h m)
    (hp : p.nextSeq ≤ p.endSeq) : p.endSeq + 1 < 2 ^ 62 := by
  have hown := (ho.2.2.2 p.endSeq (ho.2.1.trans hp) (le_refl _)).1
  have hle := owner_eq_some hs.legal hown
  have hb := hs.bound
  omega

/-- **One step of a sender call is the same in both builds**, and panics in none. -/
theorem senderStepWith_eq {pc : SenderPc T} (hs : Sound ring initial h m)
    (hi : SenderInv ring.bufferSize h k pc) (hp : pc.Proper) (act : SenderAct T) :
    senderStepWith b ring k m pc act = .ok (senderStep ring k m pc act) := by
  have hb := hs.bound
  unfold senderStepWith
  split
  · rw [claimLoopWith_eq hs]
    rfl
  · rename_i c last i minConsumed
    simp only [senderStep]
    split
    · rfl
    · rw [claimBodyWith_eq hb hi]
      rfl
  · rename_i c last maxConsumed highest
    simp only [senderStep]
    split
    · rename_i hcas
      have hlast : last = EnsoChannel.highest h :=
        hcas ▸ hs.claimed.eq_highest hs.bound (hcas ▸ hi.2.1)
      have hneg := neg_one_le_highest h
      simp (disch := omega) only [Build.i64_bind]
      rfl
    · rw [claimLoopWith_eq hs]
      rfl
  · rename_i p
    simp only [senderStep]
    split
    · rfl
    · rename_i hnext
      have hlast := hi.lt_bound hs (not_lt.mp hnext)
      have hstart := hi.1.trans hi.2.1
      simp (disch := omega) only [Build.i64_bind]
      rfl
  · rename_i p
    simp only [senderStep]
    split
    · rfl
    · split
      · rfl
      · rename_i hend _
        rw [Build.debugAssert_bind (hp.resolve_right hend)]
        rfl
  · rename_i p v
    simp only [senderStep]
    split
    · rename_i hnext
      have hlast := hi.lt_bound hs hnext.2
      have hstart := hi.1.trans hi.2.1
      simp (disch := omega) only [Build.i64_bind]
      rfl
    · rfl
  · rename_i pos caller
    rw [closeStepWith_eq hs hp.1]
    simp only [senderStep]
    show (match closeStep ring k m pos with
      | (e, some pos') => _
      | (e, none) => _) = _
    rcases closeStep ring k m pos with ⟨e, _ | pos'⟩ <;> rfl
  · rfl

/-- **One step of a receive call is the same in both builds**, if the limit is positive. -/
theorem recvStepWith_eq {pc : RecvPc} {act : RecvAct} (hs : Sound ring initial h m)
    (hlive : pc.finished = false → ¬ Dropped h i)
    (hlimit : ∀ q, pc = .load q → act = .run → 1 ≤ q.limit) :
    recvStepWith b ring r i m pc act = .ok (recvStep ring r i m pc act) := by
  have hb := hs.bound
  have hlow := neg_one_le_position (i := i) hs.legal
  have hhigh := position_le_highest (i := i) hs.legal
  have hc := ring.bufferSize_pos
  have hc' := ring.bufferSize_le
  unfold recvStepWith
  split
  · rename_i q
    have hq := hlimit q rfl rfl
    have hcons := hs.consumed_eq (hlive rfl)
    simp only [recvStep]
    simp (disch := omega) only [Build.i64_bind, Build.debugAssert_bind]
    split <;> rfl
  · rfl

/-- **A debug build panics on a limit that is not positive.** -/
theorem recvStepWith_oversized {q : RecvCall} (hs : Sound ring initial h m)
    (hlive : ¬ Dropped h i) (hq : q.limit < 1) :
    ∃ f, recvStepWith .debug ring r i m (.load q) .run = .error f := by
  have hb := hs.bound
  have hlow := neg_one_le_position (i := i) hs.legal
  have hhigh := position_le_highest (i := i) hs.legal
  have hcons := hs.consumed_eq hlive
  have hmin := min_le_left q.limit ring.bufferSize
  simp only [recvStepWith]
  simp (disch := omega) only [Build.i64_bind]
  by_cases hrange : i64Min ≤ m.consumed i + min q.limit ring.bufferSize
  · refine ⟨.assertion, ?_⟩
    unfold i64Min at hrange
    simp (disch := omega) only [Build.i64_bind]
    rw [decide_eq_false (by omega)]
    rfl
  · refine ⟨.overflow, ?_⟩
    rw [Build.i64, if_neg fun hin => hrange hin.1]
    rfl

/-! ## What a sender call carries -/

theorem ClaimedIs.neg_one_le {raw : Int} (hc : ClaimedIs h raw) (hb : highest h + 1 < 2 ^ 62) :
    -1 ≤ lastClaimedOf raw := by
  have hneg := neg_one_le_highest h
  rcases hc.lastClaimedOf_cases hb with heq | hle <;> omega

theorem proper_claimLoop {c : SendCall T} {raw : Int} : (claimLoop c raw).Proper :=
  claimLoop_cases (P := SenderPc.Proper) trivial fun _ => trivial

theorem SenderMoves.proper {pc pc' : SenderPc T} {act : SenderAct T} {e : Option (Event T N)}
    (hm : SenderMoves ring k m pc act e pc') (hs : Sound ring initial h m)
    (hi : SenderInv ring.bufferSize h k pc) (hscan : SenderScan ring.bufferSize h pc)
    (hp : pc.Proper) : pc'.Proper := by
  have hb := hs.bound
  cases hm with
  | load | retry => exact proper_claimLoop
  | gateEnd => exact claimBody_cases (P := SenderPc.Proper) (fun _ => trivial) fun _ => trivial
  | claim =>
    have hlt := hi.2.2.1
    refine granted_cases (P := SenderPc.Proper) (fun _ => trivial) trivial (Or.inl ?_)
    dsimp only
    omega
  | recyclePanics | drainPanics => exact ⟨trivial, trivial⟩
  | batchRecyclePanics => exact ⟨trivial, hp⟩
  | closeUnclaimed hneg =>
    have hge := ClaimedIs.neg_one_le hs.claimed hb
    exact ⟨⟨hge, by omega⟩, hp.2⟩
  | closeFound =>
    obtain ⟨h₀, h₁, h₂, h₃, -⟩ := hscan
    exact ⟨⟨by omega, by omega⟩, hp.2⟩
  | closeScanEnd =>
    obtain ⟨h₀, h₁, h₂, h₃, -⟩ := hscan
    exact ⟨⟨by omega, by omega⟩, hp.2⟩
  | closeLoad | closeScan | closeMark | closeStore | closeWake => exact ⟨trivial, hp.2⟩
  | closeEnd =>
    rename_i caller _
    cases caller with
    | batch p => exact hp.2
    | _ => trivial
  | _ => first | exact hp | trivial

/-! ## The system -/

/-- What every run in range keeps. -/
structure Prepared (ring : RingBufferMeta) (initial : Nat → T) (σ : Sys T N) : Prop where
  inv : Inv ring initial σ
  scan : ∀ k, SenderScan ring.bufferSize σ.trace (σ.sends k)
  proper : ∀ k, (σ.sends k).Proper

theorem prepared_init (ring : RingBufferMeta) (initial : Nat → T) (i₀ : Fin N) :
    Prepared ring initial (Sys.init initial i₀) :=
  ⟨inv_init ring initial i₀, fun _ => trivial, fun _ => trivial⟩

theorem prepared_step (hp : Prepared ring initial σ) (hok : InRange ring σ l)
    (hst : step ring σ l = some σ') : Prepared ring initial σ' := by
  have hm := moves_of_step hst
  refine ⟨inv_step hp.inv hok hst, senderScan_step hp.inv hp.scan hm, ?_⟩
  refine hm.forall_sends (J := fun k pc => σ.sends k = pc) (K := fun _ pc => pc.Proper)
    (fun _ => rfl) (fun _ _ _ => start_cases trivial (Or.inr rfl))
    (fun _ _ _ _ _ _ => ⟨trivial, trivial⟩) ?_ fun k _ _ => hp.proper k
  intro k act e pc _ _ hsm _ _ _
  exact hsm.proper hp.inv.sound (hp.inv.send k) (hp.scan k) (hp.proper k)

/-- A step of a receive call that is the step of the model, or that goes on to `pc`. -/
theorem stepWith_receiver {act : RecvAct}
    (hst : recvStepWith b ring r (σ.recvReceiver r) σ.mem (σ.recvs r) act =
      .ok (recvStep ring r (σ.recvReceiver r) σ.mem (σ.recvs r) act)) :
    stepWith b ring σ (.receiver r act) = .ok (step ring σ (.receiver r act)) := by
  simp only [stepWith, step]
  split
  · rw [hst]
    rcases recvStep ring r (σ.recvReceiver r) σ.mem (σ.recvs r) act with _ | ⟨e, pc⟩ <;> rfl
  · rfl

theorem buildStep_receiver {act : RecvAct} {e : Option (Event T N)} {pc : RecvPc}
    (hr : r < σ.nextRecv)
    (hst : recvStepWith b ring r (σ.recvReceiver r) σ.mem (σ.recvs r) act = .ok (some (e, pc))) :
    buildStep b ring σ (.receiver r act) =
      some { σ.perform ring e with recvs := Function.update σ.recvs r pc } := by
  simp only [buildStep, stepWith, if_pos hr, hst]
  rfl

/-- **A step that is not the first of an oversized receive call** is the step of the model. -/
theorem Prepared.stepWith_eq (hp : Prepared ring initial σ) (hover : ¬ Oversized σ l) (b : Build) :
    stepWith b ring σ l = .ok (step ring σ l) := by
  cases l with
  | sender k act =>
    simp only [stepWith, step]
    split
    · rw [senderStepWith_eq hp.inv.sound (hp.inv.send k) (hp.proper k)]
      rcases senderStep ring k σ.mem (σ.sends k) act with _ | ⟨e, pc⟩ <;> rfl
    · rfl
  | receiver r act =>
    by_cases hr : r < σ.nextRecv
    · refine stepWith_receiver (recvStepWith_eq hp.inv.sound (hp.inv.borrow.live_of_recv hr) ?_)
      rintro q hq rfl
      by_contra hlimit
      exact hover ⟨r, q, rfl, hr, hq, not_le.mp hlimit⟩
    · simp only [stepWith, step, if_neg hr]
      rfl
  | _ => rfl

theorem Prepared.buildStep_eq (hp : Prepared ring initial σ) (hover : ¬ Oversized σ l)
    (b : Build) : buildStep b ring σ l = step ring σ l := by
  rw [buildStep, hp.stepWith_eq hover b]

/-- **The first step of an oversized receive call panics** in a debug build. -/
theorem Prepared.stepWith_oversized (hp : Prepared ring initial σ) (hover : Oversized σ l) :
    ∃ f, stepWith .debug ring σ l = .error f := by
  obtain ⟨r, q, rfl, hr, hpc, hq⟩ := hover
  have hlive := hp.inv.borrow.live_of_recv hr (by rw [hpc]; rfl)
  obtain ⟨f, hf⟩ := recvStepWith_oversized (r := r) hp.inv.sound hlive hq
  refine ⟨f, ?_⟩
  rw [stepWith, if_pos hr, hpc, hf]
  rfl

/-- A step of a build, where it is the step of the model, is in range there too. -/
theorem BuildInRange.inRange (hok : BuildInRange b ring σ l)
    (heq : buildStep b ring σ l = step ring σ l) : InRange ring σ l := by
  refine ⟨hok.1, fun σ' hst => hok.2 σ' ?_⟩
  rw [heq, hst]

/-- Every run of a debug build is a run of the model. -/
theorem debug_run {i₀ : Fin N} {ls : List (Label T N)}
    (hrun : Run (buildStep .debug ring) (BuildInRange .debug ring) (Sys.init initial i₀) ls σ) :
    Run (step ring) (InRange ring) (Sys.init initial i₀) ls σ := by
  refine hrun.transfer (I := Prepared ring initial) prepared_step ?_ (prepared_init ring initial i₀)
  intro σ l σ' hp hok hst
  have hover : ¬ Oversized σ l := by
    intro hover
    obtain ⟨f, hf⟩ := hp.stepWith_oversized hover
    rw [buildStep, hf] at hst
    exact absurd hst (by simp)
  have heq := hp.buildStep_eq hover .debug
  exact ⟨hok.inRange heq, heq ▸ hst⟩

/-! ## Limits that fit -/

/-- The limit of a receive call that has not loaded the cursor is positive. -/
def RecvPc.Positive : RecvPc → Prop
  | .load q | .scan q _ _ _ _ | .register q => 1 ≤ q.limit
  | _ => True

theorem positive_start {limit : Nat} {async : Bool} (hlimit : (limit : Int) ≤ i64Max) :
    (recvStart limit async).Positive := by
  unfold recvStart
  split
  · trivial
  · show 1 ≤ usizeAsI64 limit
    rw [usizeAsI64_eq hlimit]
    omega

theorem Returns.positive {q : RecvCall} {lastClaimed available : Int} {shutdown : Bool}
    {e : Option (Event T N)} {pc : RecvPc}
    (hret : Returns r i q lastClaimed available shutdown e pc) (hq : 1 ≤ q.limit) :
    pc.Positive := by
  cases hret with
  | again => exact hq
  | _ => trivial

theorem RecvMoves.positive {pc pc' : RecvPc} {act : RecvAct} {e : Option (Event T N)}
    (hm : RecvMoves ring r i m pc act e pc') (hq : pc.Positive) : pc'.Positive := by
  cases hm with
  | loadEmpty _ hret | scanEnd _ _ hret | scanStop _ hret => exact hret.positive hq
  | load | scanNext | register => exact hq
  | _ => trivial

/-- What every run with limits that fit keeps. -/
def Fitting (ring : RingBufferMeta) (initial : Nat → T) (σ : Sys T N) : Prop :=
  Prepared ring initial σ ∧ ∀ r, (σ.recvs r).Positive

theorem fitting_init (ring : RingBufferMeta) (initial : Nat → T) (i₀ : Fin N) :
    Fitting ring initial (Sys.init initial i₀) :=
  ⟨prepared_init ring initial i₀, fun _ => trivial⟩

theorem fitting_step (hf : Fitting ring initial σ) (hok : InRange ring σ l ∧ ReceivesFit l)
    (hst : step ring σ l = some σ') : Fitting ring initial σ' := by
  refine ⟨prepared_step hf.1 hok.1 hst, ?_⟩
  refine (moves_of_step hst).forall_recvs (J := fun _ _ pc => pc.Positive)
    (K := fun _ _ pc => pc.Positive) hf.2 (fun i limit async hl => ?_)
    (fun _ _ _ _ _ _ hrm hq _ _ => hrm.positive hq) fun _ _ hq => hq
  exact positive_start (hok.2 i limit async hl)

theorem Fitting.not_oversized (hf : Fitting ring initial σ) : ¬ Oversized σ l := by
  rintro ⟨r, q, -, -, hpc, hq⟩
  have hpos := hf.2 r
  rw [hpc] at hpos
  exact absurd hpos (not_le.mpr hq)

/-! ## The results -/

/-- **Where a debug build panics.** In every state that a debug build reaches, whatever the receive
limits and in every interleaving, the steps that panic are exactly the first steps of the receive
calls whose limit does not fit an `i64`; every other step, in both builds, is the step of the
model. -/
theorem debug_faults_iff {i₀ : Fin N} {ls : List (Label T N)}
    (hrun : Run (buildStep .debug ring) (BuildInRange .debug ring) (Sys.init initial i₀) ls σ)
    (l : Label T N) :
    ((∃ f, stepWith .debug ring σ l = .error f) ↔ Oversized σ l) ∧
      (¬ Oversized σ l → ∀ b, stepWith b ring σ l = .ok (step ring σ l)) := by
  have hp : Prepared ring initial σ :=
    (debug_run hrun).invariant prepared_step (prepared_init ring initial i₀)
  refine ⟨⟨fun ⟨f, hf⟩ => ?_, hp.stepWith_oversized⟩, hp.stepWith_eq⟩
  by_contra hover
  rw [hp.stepWith_eq hover .debug] at hf
  exact absurd hf (by simp)

/-- `try_recv_at_most(usize::MAX)` on a new channel: its first step panics. -/
theorem debug_faults_iff_oversized :
    ∃ (l : Label Nat 1) (σ : Sys Nat 1),
      Run (buildStep .debug ⟨1, by decide⟩) (BuildInRange .debug ⟨1, by decide⟩)
        (Sys.init (fun _ => 0) 0) [.recv 0 (2 ^ 64 - 1) false] σ ∧
        ∃ f, stepWith .debug ⟨1, by decide⟩ σ l = .error f := by
  obtain ⟨σ, hst, hnext, hpc⟩ : ∃ σ : Sys Nat 1,
      buildStep .debug ⟨1, by decide⟩ (Sys.init (fun _ => 0) 0) (.recv 0 (2 ^ 64 - 1) false) =
        some σ ∧ 0 < σ.nextRecv ∧ σ.recvs 0 = .load ⟨-1, .sync⟩ :=
    ⟨_, rfl, Nat.one_pos, by decide⟩
  have hok : BuildInRange .debug ⟨1, by decide⟩ (Sys.init (fun _ => 0) 0 : Sys Nat 1)
      (.recv 0 (2 ^ 64 - 1) false) :=
    ⟨fun _ _ heq => (by cases heq), fun σ' hst' => (by cases hst'; decide)⟩
  have hrun := Run.single hok hst
  have hover : Oversized σ (.receiver 0 .run) := ⟨0, _, rfl, hnext, hpc, by decide⟩
  exact ⟨_, σ, hrun, (debug_faults_iff hrun _).1.mpr hover⟩

/-- **Where the limits fit, both builds are the model**: they have exactly its runs, and no step
panics in either. -/
theorem builds_agree (b : Build) (i₀ : Fin N) (ls : List (Label T N)) (σ : Sys T N) :
    (Run (buildStep b ring) (fun σ l => BuildInRange b ring σ l ∧ ReceivesFit l)
        (Sys.init initial i₀) ls σ ↔
      Run (step ring) (fun σ l => InRange ring σ l ∧ ReceivesFit l) (Sys.init initial i₀) ls σ) ∧
      (Run (step ring) (fun σ l => InRange ring σ l ∧ ReceivesFit l) (Sys.init initial i₀) ls σ →
        ∀ l, stepWith b ring σ l = .ok (step ring σ l)) := by
  have hinit := fitting_init ring initial i₀
  refine ⟨⟨fun hrun => ?_, fun hrun => ?_⟩, fun hrun l => ?_⟩
  · refine hrun.transfer (I := Fitting ring initial) fitting_step ?_ hinit
    intro σ l σ' hf hok hst
    have heq := hf.1.buildStep_eq (l := l) hf.not_oversized b
    exact ⟨⟨hok.1.inRange heq, hok.2⟩, heq ▸ hst⟩
  · refine hrun.transfer (I := Fitting ring initial) ?_ ?_ hinit
    · intro σ l σ' hf hok hst
      have heq := hf.1.buildStep_eq (l := l) hf.not_oversized b
      exact fitting_step hf ⟨hok.1.inRange heq, hok.2⟩ (heq ▸ hst)
    · intro σ l σ' hf hok hst
      have heq := hf.1.buildStep_eq (l := l) hf.not_oversized b
      exact ⟨⟨⟨hok.1.1, fun σ' hst' => hok.1.2 σ' (heq ▸ hst')⟩, hok.2⟩, by rw [heq, hst]⟩
  · have hf : Fitting ring initial σ := hrun.invariant fitting_step hinit
    exact hf.1.stepWith_eq hf.not_oversized b

end

end EnsoChannel
