import EnsoChannel.AtRest
import EnsoChannel.LockFree
import EnsoChannel.WaitFree

/-!
# Every call ends, and everything sent arrives

Nobody waits in this channel: no operation blocks, and a call that loses a race for `claimed` loses
it to a call that was granted something. So when no new operation is started, the calls under way
come to their ends in any order of their steps.

* `Sys.workLeft`: the steps that the calls under way and the permits and guards in hand have left.
  A call in the claim loop is charged for what a grant gives it to do, and a write of `claimed` for
  the retries it costs the others.
* `calls_end`: a run in which nothing new is started takes at most that many steps, whatever is
  interleaved, leaked or panics in it; and as long as a call is under way or a permit or a guard is
  in hand, that call has a step. So there is no deadlock and no livelock, and every such run that
  goes on as long as it can ends with no call under way.
* `all_delivered`: from every state of an orderly run the channel can be brought to rest and
  emptied: each live receiver can be given every item that was sent, with what was under way
  included.
-/

namespace EnsoChannel

open Lib

variable {T : Type} {N : Nat}

/-! ## The work left -/

/-- A batch whose `next()` returns `None`. -/
def SenderPc.exhausted : SenderPc T → Bool
  | .permits p => decide (p.nextSeq > p.endSeq)
  | _ => false

/-- No new operation is started, and a batch that returns `None` is not asked again. -/
def Winding (σ : Sys T N) : Label T N → Prop
  | .sender k .next => (σ.sends k).exhausted = false
  | .sender _ _ | .receiver _ _ => True
  | _ => False

instance (σ : Sys T N) (l : Label T N) : Decidable (Winding σ l) :=
  match l with
  | .sender k .next => inferInstanceAs (Decidable ((σ.sends k).exhausted = false))
  | .sender _ .run | .sender _ (.write _) | .sender _ (.recycled _) | .sender _ (.panics _)
  | .sender _ (.panicsTwice _) | .sender _ .drop | .sender _ .leak | .receiver _ _ => isTrue trivial
  | .clone _ | .dropSender _ | .send _ _ | .recv _ _ _ | .dropReceiver _ => isFalse id

/-- A bound of the steps of a `close()` with its caller's own; `x` is what its write of `claimed`
costs the others. -/
def closeCost (ring : RingBufferMeta) (N x : Nat) : Nat := ring.bufferSize.toNat + N + x + 6

/-- The steps of the drop of a batch. -/
def Permits.dropRank (ring : RingBufferMeta) (N x : Nat) (p : Permits) : Nat :=
  (p.endSeq + 1 - p.nextSeq).toNat + (p.endSeq + 1 - p.startSeq).toNat + closeCost ring N x + N + 3

/-- The steps of a batch and its drop: for each permit of it, a write, or a recycler that panics. -/
def Permits.rank (ring : RingBufferMeta) (N x : Nat) (p : Permits) : Nat :=
  (p.endSeq + 1 - p.nextSeq).toNat * (closeCost ring N x + 1) + p.dropRank ring N x + 1

/-- What a grant gives a call to do at most: a batch of the whole capacity. -/
def grantRank (ring : RingBufferMeta) (N x : Nat) : Nat :=
  ring.bufferSize.toNat * (closeCost ring N x + 3) + closeCost ring N x + N + 5

/-- What the write of `claimed` in a `close()` costs the others, while it is to come. -/
def ClosePc.credit (x : Nat) : ClosePc → Nat
  | .notify _ => 0
  | _ => x

/-- The steps of a caller of `close()` after it. -/
def CloseCaller.rank (ring : RingBufferMeta) (N x : Nat) : CloseCaller → Nat
  | .batch p => p.rank ring N x
  | _ => 0

/-- The steps a call has left, those in the claim loop apart. -/
def SenderPc.beyond (ring : RingBufferMeta) (N x : Nat) : SenderPc T → Nat
  | .loadClaimed _ | .maxConsumed _ _ _ _ | .compareExchange _ _ _ _ => grantRank ring N x + x
  | .permit _ => closeCost ring N x + 1
  | .recycling _ => closeCost ring N x
  | .permits p => p.rank ring N x
  | .batchPermit p _ => closeCost ring N x + 1 + p.rank ring N x
  | .batchRecycling p _ => closeCost ring N x + p.rank ring N x
  | .draining p => p.dropRank ring N x
  | .closing pos caller => pos.work ring N + pos.credit x + caller.rank ring N x
  | pc => pc.work ring N

/-- The steps a sender call has left at most, while nobody else writes `claimed`. -/
def SenderPc.rank (ring : RingBufferMeta) (N x : Nat) (claimed : Int) (pc : SenderPc T) : Nat :=
  pc.stepsLeft N claimed + pc.beyond ring N x

/-- The steps a receive call and its guard have left. -/
def RecvPc.rank (ring : RingBufferMeta) (pc : RecvPc) : Nat :=
  if pc.finished then 0 else pc.work ring + 1

/-- The retries that a write of `claimed` costs the other calls. -/
def Sys.retries (σ : Sys T N) : Nat := σ.nextSend * (N + 2)

/-- **The steps left.** -/
def Sys.workLeft (ring : RingBufferMeta) (σ : Sys T N) : Nat :=
  ∑ k ∈ Finset.range σ.nextSend, (σ.sends k).rank ring N σ.retries σ.mem.claimed +
    ∑ r ∈ Finset.range σ.nextRecv, (σ.recvs r).rank ring

/-- The sequences that the calls in the claim loop may still claim. -/
def Sys.demand (ring : RingBufferMeta) (σ : Sys T N) : Nat :=
  ∑ k ∈ Finset.range σ.nextSend, if (σ.sends k).claiming then ring.bufferSize.toNat else 0

/-- What brings a sender call to its end: a permit is dropped, a recycler returns, and otherwise the
library code runs. -/
def endAct (ring : RingBufferMeta) (recycle : T → T) (m : Mem T N) : SenderPc T → SenderAct T
  | .permit _ | .permits _ | .batchPermit _ _ => .drop
  | pc => nextAct ring recycle m pc

/-- What brings a receive call to its end: its guard is released. -/
def endRecvAct : RecvPc → RecvAct
  | .guard _ _ => .release
  | _ => .run

/-- The calls that were made have started. -/
structure Started (σ : Sys T N) : Prop where
  send : ∀ k < σ.nextSend, σ.sends k ≠ .idle
  recv : ∀ r < σ.nextRecv, σ.recvs r ≠ .idle

section

variable {ring : RingBufferMeta} {initial : Nat → T} {recycle : T → T} {σ σ' : Sys T N}
  {l : Label T N} {k r x : Nat} {h : History T N} {m : Mem T N} {i : Fin N}
  {pc pc' : SenderPc T} {act : SenderAct T} {e : Option (Event T N)}

/-! ## A step of a sender call -/

theorem beyond_of_claiming (hpc : pc.claiming = true) :
    pc.beyond ring N x = grantRank ring N x + x := by
  cases pc with
  | loadClaimed | maxConsumed | compareExchange => rfl
  | _ => exact absurd hpc (by simp [SenderPc.claiming])

theorem stepsLeft_of_not_claiming {c : Int} (hpc : pc.claiming = false) :
    pc.stepsLeft N c = 0 := by
  cases pc with
  | loadClaimed | maxConsumed | compareExchange =>
    exact absurd hpc (by simp [SenderPc.claiming])
  | _ => rfl

variable (ring) in
/-- A grant gives no more to do than the call was charged for. -/
theorem beyond_granted (c : SendCall T) {a b : Int} (hle : b + 1 - a ≤ ring.bufferSize) :
    (granted c a b).beyond ring N x < grantRank ring N x := by
  have hn : (b + 1 - a).toNat ≤ ring.bufferSize.toNat := by omega
  refine granted_cases (P := fun pc => pc.beyond ring N x < grantRank ring N x) (fun v => ?_) ?_ ?_
  · show N + 4 < grantRank ring N x
    unfold grantRank closeCost
    omega
  · show closeCost ring N x + 1 < grantRank ring N x
    unfold grantRank
    omega
  · show (b + 1 - a).toNat * (closeCost ring N x + 1) +
      ((b + 1 - a).toNat + (b + 1 - a).toNat + closeCost ring N x + N + 3) + 1 < _
    have hmul : (b + 1 - a).toNat * (closeCost ring N x + 3) ≤
        ring.bufferSize.toNat * (closeCost ring N x + 3) := Nat.mul_le_mul_right _ hn
    unfold grantRank
    simp only [Nat.mul_add] at hmul ⊢
    omega

/-- **A step of a sender call uses up some of its work**, and if it writes `claimed`, pays for what
that costs the others. -/
theorem SenderMoves.rank_lt (hi : SenderInv ring.bufferSize h k pc)
    (hnext : act = .next → pc.exhausted = false)
    (hm : SenderMoves ring k m pc act e pc') (hpc' : pc'.claiming = false) :
    pc'.beyond ring N x + (if e.any Event.writesClaimed then x else 0) <
      pc.rank ring N x m.claimed := by
  unfold SenderPc.rank
  have hwork : pc.finishing = true → act = .run → pc'.work ring N < pc.work ring N := by
    rintro hpc rfl
    exact hm.work_lt hpc
  cases hm with
  | @load c =>
    refine lt_of_lt_of_le ?_ (Nat.le_add_right _ _)
    revert hpc'
    refine claimLoop_cases (P := fun pc => pc.claiming = false → pc.beyond ring N x + 0 < N + 3)
      (fun _ => Nat.succ_pos _) fun _ hpc => absurd hpc (by simp [SenderPc.claiming])
  | gate => exact absurd hpc' (by simp [SenderPc.claiming])
  | @gateEnd c last y i hi =>
    refine lt_of_lt_of_le ?_ (Nat.le_add_right _ _)
    revert hpc'
    refine claimBody_cases (P := fun pc => pc.claiming = false → pc.beyond ring N x + 0 < _)
      (fun _ _ => ?_) fun _ hpc => absurd hpc (by simp [SenderPc.claiming])
    show 0 < N - i + 2 + _
    omega
  | @claim c last y b hcas =>
    obtain ⟨-, -, hlt, hb, -⟩ := hi
    have hgrant : (granted c (last + 1) b).beyond ring N x < grantRank ring N x :=
      beyond_granted ring c (by omega)
    show _ + x < 1 + _ + (grantRank ring N x + x)
    omega
  | @retry c last y b hcas =>
    refine lt_of_lt_of_le ?_ (Nat.le_add_right _ _)
    revert hpc'
    refine claimLoop_cases (P := fun pc => pc.claiming = false → pc.beyond ring N x + 0 < _)
      (fun _ => ?_) fun _ hpc => absurd hpc (by simp [SenderPc.claiming])
    show 0 < 1 + _
    omega
  | write | publish | publishEnd | wake | wakeEnd =>
    exact Nat.lt_of_lt_of_eq (hwork rfl rfl) (Nat.zero_add _).symm
  | writePanics => exact Nat.succ_pos _
  | @permitWrite v seq =>
    show (seq + 1 - seq).toNat + N + 2 + 0 < 0 + (closeCost ring N x + 1)
    unfold closeCost
    omega
  | permitPanics | permitDrop =>
    show closeCost ring N x + 0 < 0 + (closeCost ring N x + 1)
    omega
  | permitLeak => exact Nat.succ_pos _
  | @recycled v seq =>
    show (seq + 1 - seq).toNat + N + 2 + 0 < 0 + closeCost ring N x
    unfold closeCost
    omega
  | recyclePanicsTwice =>
    show 0 < 0 + closeCost ring N x
    unfold closeCost
    omega
  | recyclePanics =>
    show ring.bufferSize.toNat + N + 5 + x + 0 + 0 < 0 + closeCost ring N x
    unfold closeCost
    omega
  | nextNone hp => exact absurd (hnext rfl) (by simpa [SenderPc.exhausted] using hp)
  | @next p hp =>
    show closeCost ring N x + 1 + Permits.rank ring N x { p with nextSeq := p.nextSeq + 1 } + 0 <
      0 + p.rank ring N x
    have hn : (p.endSeq + 1 - p.nextSeq).toNat = (p.endSeq + 1 - (p.nextSeq + 1)).toNat + 1 := by
      omega
    unfold Permits.rank Permits.dropRank
    dsimp only
    rw [hn, Nat.succ_mul]
    omega
  | @permitsDrop p =>
    show p.dropRank ring N x + 0 < 0 + p.rank ring N x
    unfold Permits.rank
    omega
  | permitsLeak => exact Nat.succ_pos _
  | @batchWrite p v seq | @batchLeak p seq =>
    show p.rank ring N x + 0 < 0 + (closeCost ring N x + 1 + p.rank ring N x)
    omega
  | @batchPanics p v seq | @batchDrop p seq =>
    show closeCost ring N x + p.rank ring N x + 0 <
      0 + (closeCost ring N x + 1 + p.rank ring N x)
    omega
  | @batchRecycled p v seq | @batchRecyclePanicsTwice p v seq =>
    show p.rank ring N x + 0 < 0 + (closeCost ring N x + p.rank ring N x)
    unfold closeCost
    omega
  | @batchRecyclePanics p v seq =>
    show ring.bufferSize.toNat + N + 5 + x + p.rank ring N x + 0 <
      0 + (closeCost ring N x + p.rank ring N x)
    unfold closeCost
    omega
  | drainEmpty => exact Nat.lt_of_lt_of_eq (Nat.succ_pos _) (Nat.zero_add _).symm
  | @drainDone p hp hnext =>
    show (p.endSeq + 1 - p.startSeq).toNat + N + 2 + 0 < 0 + p.dropRank ring N x
    unfold Permits.dropRank
    omega
  | @drainRecycled p v hp =>
    show Permits.dropRank ring N x { p with nextSeq := p.nextSeq + 1 } + 0 <
      0 + p.dropRank ring N x
    unfold Permits.dropRank
    dsimp only
    omega
  | @drainPanics p v hp =>
    show ring.bufferSize.toNat + N + 5 + x + 0 + 0 < 0 + p.dropRank ring N x
    unfold Permits.dropRank closeCost
    omega
  | closeUnclaimed | closeLoad | closeScan | closeFound | closeScanEnd | closeMark | closeStore
  | closeWake =>
    have hlt := hwork rfl rfl
    simp only [SenderPc.work] at hlt
    simp only [SenderPc.beyond, SenderPc.stepsLeft, ClosePc.credit, Option.any,
      Event.writesClaimed, if_true, Bool.false_eq_true, if_false]
    omega
  | @closeEnd i caller hi =>
    cases caller with
    | batch p =>
      show p.rank ring N x + 0 < 0 + (N - i + 1 + 0 + p.rank ring N x)
      omega
    | permit | lastSender => exact Nat.lt_of_lt_of_eq (Nat.succ_pos _) (Nat.zero_add _).symm

/-- A step in the claim loop. -/
theorem SenderMoves.rank_lt_claiming (hm : SenderMoves ring k m pc act e pc')
    (hpc' : pc'.claiming = true) :
    e = none ∧ pc'.rank ring N x m.claimed < pc.rank ring N x m.claimed := by
  obtain ⟨hpc, rfl, hlt⟩ := hm.claiming hpc'
  refine ⟨rfl, ?_⟩
  unfold SenderPc.rank
  rw [beyond_of_claiming hpc, beyond_of_claiming hpc']
  omega

/-- What another party's write of `claimed` costs a call. -/
theorem rank_le_retry (pc : SenderPc T) (c c' : Int) :
    pc.rank ring N x c' ≤ pc.rank ring N x c + (N + 2) := by
  have hle : pc.stale c' * (N + 2) ≤ 1 * (N + 2) := Nat.mul_le_mul_right _ (stale_le_one pc c')
  unfold SenderPc.rank
  cases pc with
  | maxConsumed | compareExchange =>
    simp only [SenderPc.stepsLeft]
    omega
  | _ => exact Nat.le_add_right _ _

/-! ## A step of a receive call -/

theorem RecvMoves.rank_lt {pc pc' : RecvPc} {act : RecvAct} {c : Int} (hi : RecvInv c h pc)
    (hm : RecvMoves ring r i m pc act e pc') : pc'.rank ring < pc.rank ring := by
  have hfin := hm.unfinished
  unfold RecvPc.rank
  rw [hfin]
  cases act with
  | run =>
    have hlt := hm.work_lt hi
    split <;> simp only [Bool.false_eq_true, if_false] <;> omega
  | release | leak =>
    cases hm <;> exact Nat.succ_pos _

/-! ## A step of the system -/

theorem Moves.sender_frame {act : SenderAct T} (hm : Moves ring σ (.sender k act) σ') :
    k < σ.nextSend ∧ σ'.nextSend = σ.nextSend ∧ σ'.recvs = σ.recvs ∧
      σ'.nextRecv = σ.nextRecv ∧ σ'.recvReceiver = σ.recvReceiver ∧ σ'.receivers = σ.receivers := by
  cases hm with
  | sender hk => exact ⟨hk, by simp⟩

theorem Moves.receiver_frame {act : RecvAct} (hm : Moves ring σ (.receiver r act) σ') :
    r < σ.nextRecv ∧ σ'.nextRecv = σ.nextRecv ∧ σ'.sends = σ.sends ∧
      σ'.nextSend = σ.nextSend ∧ σ'.recvReceiver = σ.recvReceiver ∧
        σ'.receivers = σ.receivers := by
  cases hm with
  | receiver hr => exact ⟨hr, by simp⟩

theorem sender_workLeft {act : SenderAct T} (hi : Inv ring initial σ)
    (hw : Winding σ (.sender k act)) (hm : Moves ring σ (.sender k act) σ') :
    σ'.workLeft ring < σ.workLeft ring := by
  obtain ⟨hk, hsend, hrecvs, hrecv, -, -⟩ := hm.sender_frame
  obtain ⟨e, hsm, -, hmem⟩ := hm.sends_self
  have hnext : act = .next → (σ.sends k).exhausted = false := by
    rintro rfl
    exact hw
  have hclaimed : e.any Event.writesClaimed = false → σ'.mem.claimed = σ.mem.claimed := by
    intro he
    rw [hmem]
    cases e with
    | none => rfl
    | some e => exact claimed_unwritten he
  have hretries : σ'.retries = σ.retries := by
    unfold Sys.retries
    rw [hsend]
  unfold Sys.workLeft
  rw [hretries, hsend, hrecvs, hrecv]
  refine Nat.add_lt_add_right (sum_add_le (d := if e.any Event.writesClaimed then N + 2 else 0)
    (x := 1) hk ?_ ?_) _
  · intro j hj hjk
    rw [hm.sends_other hj fun act' heq => hjk (by cases heq; rfl)]
    cases he : e.any Event.writesClaimed with
    | false =>
      rw [hclaimed he]
      exact Nat.le_add_right _ _
    | true => exact rank_le_retry _ _ _
  · cases hpc' : (σ'.sends k).claiming with
    | true =>
      obtain ⟨rfl, hlt⟩ := hsm.rank_lt_claiming (x := σ.retries) hpc'
      rw [hclaimed rfl]
      exact hlt
    | false =>
      have hlt := hsm.rank_lt (x := σ.retries) (hi.send k) hnext hpc'
      unfold SenderPc.rank at hlt ⊢
      rw [stepsLeft_of_not_claiming hpc']
      cases he : e.any Event.writesClaimed with
      | false =>
        rw [he, if_neg (by simp)] at hlt
        rw [if_neg (by simp)]
        omega
      | true =>
        rw [he, if_pos rfl] at hlt
        show 0 + _ + σ.retries + 1 ≤ _
        omega

theorem receiver_workLeft {act : RecvAct} (hi : Inv ring initial σ)
    (hm : Moves ring σ (.receiver r act) σ') : σ'.workLeft ring < σ.workLeft ring := by
  obtain ⟨hr, hrecv, hsends, hsend, -, -⟩ := hm.receiver_frame
  obtain ⟨e, hrm, -, hmem, -⟩ := hm.recvs_self
  have hclaimed : σ'.mem.claimed = σ.mem.claimed := by
    rw [hmem]
    cases e with
    | none => rfl
    | some e =>
      have hside := hrm.sendSide
      refine claimed_unwritten ?_
      cases e with
      | claim | shut => exact absurd hside (by simp [Event.sendSide])
      | _ => rfl
  have hretries : σ'.retries = σ.retries := by
    unfold Sys.retries
    rw [hsend]
  unfold Sys.workLeft
  rw [hretries, hsend, hsends, hrecv, hclaimed]
  refine Nat.add_lt_add_left (sum_add_le (d := 0) (x := 1) hr ?_ ?_) _
  · intro j hj hjr
    rw [(hm.recvs_other hj fun act' heq => hjr (by cases heq; rfl)).1]
    exact le_refl _
  · exact hrm.rank_lt (hi.recv r)

/-- **Every step uses up some of the work left**, if no operation is started. -/
theorem workLeft_lt (hi : Inv ring initial σ) (hw : Winding σ l) (hst : step ring σ l = some σ') :
    σ'.workLeft ring < σ.workLeft ring := by
  have hm := moves_of_step hst
  cases l with
  | sender k act => exact sender_workLeft hi hw hm
  | receiver r act => exact receiver_workLeft hi hm
  | _ => exact absurd hw (by simp [Winding])

/-! ## The calls that were made have started -/

theorem SenderMoves.started (hm : SenderMoves ring k m pc act e pc') : pc' ≠ .idle := by
  cases hm with
  | load | retry => exact claimLoop_cases (P := fun pc => pc ≠ .idle) (by simp) (by simp)
  | gateEnd => exact claimBody_cases (P := fun pc => pc ≠ .idle) (by simp) (by simp)
  | claim => exact granted_cases (P := fun pc => pc ≠ .idle) (by simp) (by simp) (by simp)
  | closeEnd => cases ‹CloseCaller› <;> simp [CloseCaller.resume]
  | _ => simp

theorem Returns.started {q : RecvCall} {lastClaimed available : Int} {shutdown : Bool} {pc : RecvPc}
    (hret : Returns r i q lastClaimed available shutdown e pc) : pc ≠ .idle := by
  cases hret <;> simp

theorem RecvMoves.started {pc pc' : RecvPc} {act : RecvAct}
    (hm : RecvMoves ring r i m pc act e pc') : pc' ≠ .idle := by
  cases hm with
  | loadEmpty _ hret | scanEnd _ _ hret | scanStop _ hret => exact hret.started
  | _ => simp

theorem started_step (hs : Started σ) (hm : Moves ring σ l σ') : Started σ' := by
  cases hm with
  | clone | dropSender | dropReceiver => exact ⟨hs.send, hs.recv⟩
  | dropLast =>
    refine ⟨fun k hk => ?_, hs.recv⟩
    show Function.update σ.sends σ.nextSend _ k ≠ .idle
    rcases Nat.lt_succ_iff_lt_or_eq.mp hk with hlt | rfl
    · rw [Function.update_of_ne (by omega)]
      exact hs.send k hlt
    · rw [Function.update_self]
      simp
  | @send h c =>
    refine ⟨fun k hk => ?_, hs.recv⟩
    show Function.update σ.sends σ.nextSend _ k ≠ .idle
    rcases Nat.lt_succ_iff_lt_or_eq.mp hk with hlt | rfl
    · rw [Function.update_of_ne (by omega)]
      exact hs.send k hlt
    · rw [Function.update_self]
      exact start_cases (P := fun pc => pc ≠ .idle) (by simp) (by simp)
  | @sender k₀ act e pc hk₀ hst =>
    refine ⟨fun k hk => ?_, by simpa using hs.recv⟩
    show Function.update σ.sends k₀ pc k ≠ .idle
    by_cases hkk : k = k₀
    · rw [hkk, Function.update_self]
      exact (senderMoves_of_step hst).started
    · rw [Function.update_of_ne hkk]
      exact hs.send k (by simpa using hk)
  | @recv i limit async =>
    refine ⟨hs.send, fun r hr => ?_⟩
    show Function.update σ.recvs σ.nextRecv _ r ≠ .idle
    rcases Nat.lt_succ_iff_lt_or_eq.mp hr with hlt | rfl
    · rw [Function.update_of_ne (by omega)]
      exact hs.recv r hlt
    · rw [Function.update_self, recvStart]
      split <;> simp
  | @receiver r₀ act e pc hr₀ hst =>
    refine ⟨by simpa using hs.send, fun r hr => ?_⟩
    show Function.update σ.recvs r₀ pc r ≠ .idle
    by_cases hrr : r = r₀
    · rw [hrr, Function.update_self]
      exact (recvMoves_of_step hst).started
    · rw [Function.update_of_ne hrr]
      exact hs.recv r (by simpa using hr)

theorem started_init (initial : Nat → T) (i₀ : Fin N) : Started (Sys.init initial i₀) :=
  ⟨fun k hk => absurd hk (Nat.not_lt_zero k), fun r hr => absurd hr (Nat.not_lt_zero r)⟩

/-! ## A call that is under way has a step -/

variable (ring recycle k m) in
theorem senderStep_endAct (hfin : pc.finished = false) (hidle : pc ≠ .idle) :
    ∃ out, senderStep ring k m pc (endAct ring recycle m pc) = some out := by
  cases pc with
  | idle => exact absurd rfl hidle
  | refused | committed | poisoned | abandoned | tornDown =>
    exact absurd hfin (by simp [SenderPc.finished])
  | writing | publishing | notifying | closing => exact senderStep_finishing ring k m rfl
  | maxConsumed c last i y =>
    simp only [endAct, nextAct, senderStep]
    split <;> exact ⟨_, rfl⟩
  | compareExchange c last y b =>
    simp only [endAct, nextAct, senderStep]
    split <;> exact ⟨_, rfl⟩
  | draining p =>
    simp only [endAct, nextAct]
    split
    · rename_i hp
      simp only [senderStep, if_pos hp]
      exact ⟨_, rfl⟩
    · rename_i hp
      simp only [senderStep]
      split
      · exact ⟨_, rfl⟩
      · rename_i hend
        rw [if_neg fun hle => hp ⟨hend, hle⟩]
        exact ⟨_, rfl⟩
  | _ => exact ⟨_, rfl⟩

variable (ring r i m) in
theorem recvStep_endRecvAct {pc : RecvPc} (hfin : pc.finished = false) (hidle : pc ≠ .idle) :
    ∃ out, recvStep ring r i m pc (endRecvAct pc) = some out := by
  cases pc with
  | idle => exact absurd rfl hidle
  | empty | disconnected | pending | released | leaked =>
    exact absurd hfin (by simp [RecvPc.finished])
  | guard first last =>
    simp only [endRecvAct, recvStep]
    split <;> exact ⟨_, rfl⟩
  | _ => exact recvStep_running ring r i m rfl

variable (ring recycle m) in
theorem endAct_cases (pc : SenderPc T) : endAct ring recycle m pc = .drop ∨
    endAct ring recycle m pc = .run ∨ ∃ v, endAct ring recycle m pc = .recycled v := by
  unfold endAct nextAct
  cases pc with
  | draining =>
    dsimp only
    split <;> simp
  | _ => simp

variable (ring recycle) in
theorem exists_end_sender (hs : Started σ) (hk : k < σ.nextSend)
    (hfin : (σ.sends k).finished = false) :
    ∃ σ', step ring σ (.sender k (endAct ring recycle σ.mem (σ.sends k))) = some σ' := by
  obtain ⟨out, hout⟩ := senderStep_endAct ring recycle k σ.mem hfin (hs.send k hk)
  exact exists_step_of_senderStep hk hout

variable (ring) in
theorem exists_end_receiver (hs : Started σ) (hr : r < σ.nextRecv)
    (hfin : (σ.recvs r).finished = false) :
    ∃ σ', step ring σ (.receiver r (endRecvAct (σ.recvs r))) = some σ' := by
  obtain ⟨out, hout⟩ := recvStep_endRecvAct ring r σ.mem (σ.recvReceiver r) hfin (hs.recv r hr)
  exact exists_step_of_recvStep hr hout

theorem winding_end (k : Nat) :
    Winding σ (.sender k (endAct ring recycle σ.mem (σ.sends k))) := by
  rcases endAct_cases ring recycle σ.mem (σ.sends k) with hact | hact | ⟨v, hact⟩ <;>
    rw [hact] <;> trivial

/-! ## Every call ends -/

/-- **No deadlock and no livelock.** In every run in range, and with the permits and guards used,
dropped, leaked and panicked in as their users please: from any state on, a run in which no
operation is started takes at most the steps that are left, whatever is interleaved; and as long as
some call is under way or some permit or guard is in hand, that call has a step. -/
theorem calls_end {i₀ : Fin N} {ls₁ ls₂ : List (Label T N)}
    (hrun₁ : Run (step ring) (InRange ring) (Sys.init initial i₀) ls₁ σ)
    (hrun₂ : Run (step ring) (fun σ l => InRange ring σ l ∧ Winding σ l) σ ls₂ σ') :
    ls₂.length + σ'.workLeft ring ≤ σ.workLeft ring ∧
      (∀ k < σ'.nextSend, (σ'.sends k).finished = false →
        ∃ act σ'', Winding σ' (.sender k act) ∧ step ring σ' (.sender k act) = some σ'') ∧
      ∀ r < σ'.nextRecv, (σ'.recvs r).finished = false →
        ∃ act σ'', step ring σ' (.receiver r act) = some σ'' := by
  have hi : Inv ring initial σ := hrun₁.invariant inv_step (inv_init ring initial i₀)
  have hs : Started σ := hrun₁.invariant (I := Started)
    (fun hs _ hst => started_step hs (moves_of_step hst)) (started_init initial i₀)
  have hs' : Started σ' := hrun₂.invariant (I := Started)
    (fun hs _ hst => started_step hs (moves_of_step hst)) hs
  refine ⟨?_, fun k hk hfin => ?_, fun r hr hfin => ?_⟩
  · exact hrun₂.length_add_le (I := Inv ring initial) (fun hi hok hst => inv_step hi hok.1 hst)
      (fun hi hok hst => workLeft_lt hi hok.2 hst) hi
  · obtain ⟨σ'', hst⟩ := exists_end_sender ring id hs' hk hfin
    exact ⟨_, σ'', winding_end k, hst⟩
  · obtain ⟨σ'', hst⟩ := exists_end_receiver ring hs' hr hfin
    exact ⟨_, σ'', hst⟩

/-- Two sends have read `claimed`; one of them is granted sequence 0, and the other one has a step
left to find out. -/
theorem calls_end_race :
    ∃ (ls₁ ls₂ : List (Label Nat 1)) (σ σ' : Sys Nat 1),
      Run (step ⟨1, by decide⟩) (InRange ⟨1, by decide⟩) (Sys.init (fun _ => 0) 0) ls₁ σ ∧
        Run (step ⟨1, by decide⟩) (fun σ l => InRange ⟨1, by decide⟩ σ l ∧ Winding σ l) σ ls₂ σ' ∧
        σ'.sends 1 = .writing 7 0 ∧
        ls₂.length + σ'.workLeft ⟨1, by decide⟩ ≤ σ.workLeft ⟨1, by decide⟩ ∧
        ∃ act σ'', Winding σ' (.sender 0 act) ∧
          step ⟨1, by decide⟩ σ' (.sender 0 act) = some σ'' := by
  have hex : (exec (step ⟨1, by decide⟩) (InRange ⟨1, by decide⟩) (Sys.init (fun _ => 0) 0)
      (List.flatten [[.send 0 (.trySend 5), .send 0 (.trySend 7)],
        List.replicate 3 (.sender 0 .run), List.replicate 3 (.sender 1 .run)])).any
      (fun σ : Sys Nat 1 => (exec (step ⟨1, by decide⟩)
        (fun σ l => InRange ⟨1, by decide⟩ σ l ∧ Winding σ l) σ [.sender 1 .run]).any
          fun σ' => decide (σ'.sends 1 = .writing 7 0 ∧ 0 < σ'.nextSend ∧
            (σ'.sends 0).finished = false)) = true := by
    decide +kernel
  obtain ⟨σ, hrun₁, hex⟩ := Run.of_exec_any hex
  obtain ⟨σ', hrun₂, hσ'⟩ := Run.of_exec_any hex
  obtain ⟨hpc, hk, hfin⟩ := of_decide_eq_true hσ'
  obtain ⟨hwork, hstep, -⟩ := calls_end hrun₁ hrun₂
  exact ⟨_, _, σ, σ', hrun₁, hrun₂, hpc, hwork, hstep 0 hk hfin⟩

/-! ## What is still claimed -/

theorem demand_sender {act : SenderAct T} (hi : Inv ring initial σ)
    (hm : Moves ring σ (.sender k act) σ') :
    highest σ'.trace + σ'.demand ring ≤ highest σ.trace + σ.demand ring := by
  obtain ⟨hk, hsend, -⟩ := hm.sender_frame
  obtain ⟨e, hsm, htrace, -⟩ := hm.sends_self
  have hother : ∀ j < σ.nextSend, j ≠ k →
      (if (σ'.sends j).claiming then ring.bufferSize.toNat else 0) ≤
        (if (σ.sends j).claiming then ring.bufferSize.toNat else 0) + 0 := by
    intro j hj hjk
    rw [hm.sends_other hj fun act' heq => hjk (by cases heq; rfl)]
    exact le_refl _
  unfold Sys.demand
  rw [hsend]
  cases hpc' : (σ'.sends k).claiming with
  | true =>
    obtain ⟨hpc, rfl, -⟩ := hsm.claiming hpc'
    have hsum := sum_add_le (x := 0) hk hother (by rw [hpc, hpc']; omega)
    rw [htrace]
    show highest σ.trace + _ ≤ _
    omega
  | false =>
    by_cases hclaim : ∃ k' a b, e = some (.claim k' a b)
    · obtain ⟨k', a, b, rfl⟩ := hclaim
      have hlegal := hi.legal_step hm
      rw [htrace] at hlegal
      obtain ⟨-, ha, -⟩ := hlegal
      have hinv := hi.send k
      have hpc : (σ.sends k).claiming = true ∧ b + 1 - a ≤ ring.bufferSize := by
        generalize σ.sends k = pc at hsm hinv
        generalize σ'.sends k = pc' at hsm
        cases hsm with
        | claim =>
          obtain ⟨-, -, -, hb, -⟩ := hinv
          exact ⟨rfl, by omega⟩
      have hsum := sum_add_le (x := ring.bufferSize.toNat) hk hother
        (by rw [hpc.1, hpc', if_pos rfl]; simp)
      have hc := ring.bufferSize_pos
      rw [htrace]
      show max b (highest σ.trace) + _ ≤ _
      omega
    · have hsum := sum_add_le (x := 0) hk hother (by rw [hpc']; simp)
      have hhigh : highest σ'.trace = highest σ.trace := by
        rw [htrace]
        cases e with
        | none => rfl
        | some e => exact highest_cons_of_ne fun k' a b heq => hclaim ⟨k', a, b, by rw [heq]⟩
      omega

theorem receiver_highest {act : RecvAct} (hm : Moves ring σ (.receiver r act) σ') :
    highest σ'.trace = highest σ.trace := by
  obtain ⟨e, hrm, htrace, -⟩ := hm.recvs_self
  rw [htrace]
  cases e with
  | none => rfl
  | some e =>
    refine highest_cons_of_ne ?_
    rintro k a b rfl
    exact absurd hrm.sendSide (by simp [Event.sendSide])

/-- **A step claims no more than the calls in the claim loop may.** -/
theorem demand_step (hi : Inv ring initial σ) (hw : Winding σ l) (hm : Moves ring σ l σ') :
    highest σ'.trace + σ'.demand ring ≤ highest σ.trace + σ.demand ring := by
  cases l with
  | sender k act => exact demand_sender hi hm
  | receiver r act =>
    obtain ⟨-, -, hsends, hsend, -⟩ := hm.receiver_frame
    unfold Sys.demand
    rw [receiver_highest hm, hsends, hsend]
  | _ => exact absurd hw (by simp [Winding])

/-! ## The way to rest -/

/-- The step brings a call to its end. -/
def Ends (ring : RingBufferMeta) (recycle : T → T) (σ : Sys T N) (l : Label T N) : Prop :=
  (∃ k, l = .sender k (endAct ring recycle σ.mem (σ.sends k))) ∨
    ∃ r, l = .receiver r (endRecvAct (σ.recvs r))

theorem Ends.winding (he : Ends ring recycle σ l) : Winding σ l := by
  rcases he with ⟨k, rfl⟩ | ⟨r, rfl⟩
  · exact winding_end k
  · trivial

/-- Steps of receive calls are orderly. -/
theorem orderly_receiver {act : RecvAct} (hact : act ≠ .leak)
    (hroom : highest σ.trace + 1 < 2 ^ 62) : Orderly ring σ (.receiver r act) := by
  refine ⟨⟨⟨fun _ _ heq => (by cases heq), fun σ' hst => ?_⟩, fun _ _ _ heq => (by cases heq),
    fun _ heq => (by cases heq), fun r' heq => ?_⟩, fun _ _ heq => (by cases heq)⟩
  · rw [receiver_highest (moves_of_step hst)]
    exact hroom
  · cases heq
    exact hact rfl

/-- Such a step is orderly, as long as there is room for what is still claimed. -/
theorem Ends.orderly (he : Ends ring recycle σ l) (hi : Inv ring initial σ)
    (hroom : highest σ.trace + σ.demand ring + 1 < 2 ^ 62) : Orderly ring σ l := by
  have hwind := he.winding
  rcases he with ⟨k, rfl⟩ | ⟨r, rfl⟩
  · have hact := endAct_cases ring recycle σ.mem (σ.sends k)
    refine ⟨⟨⟨fun _ _ heq => (by cases heq), fun σ' hst => ?_⟩, fun _ _ _ heq => (by cases heq),
      fun k' heq => ?_, fun _ heq => (by cases heq)⟩, fun k' act heq hpanic => ?_⟩
    · have := demand_step hi hwind (moves_of_step hst)
      omega
    · rw [(Label.sender.inj heq).2] at hact
      rcases hact with hact | hact | ⟨v, hact⟩ <;> cases hact
    · rw [(Label.sender.inj heq).2] at hact
      rcases hact with rfl | rfl | ⟨v, rfl⟩ <;> exact absurd hpanic (by simp [SenderAct.isPanic])
  · refine orderly_receiver ?_ (by omega)
    unfold endRecvAct
    split <;> simp

/-- No call is under way, and no permit and no guard is in hand. -/
structure Sys.Done (σ : Sys T N) : Prop where
  rest : σ.AtRest
  recv : ∀ r < σ.nextRecv, (σ.recvs r).finished = true

/-- **The calls under way can be brought to their ends.** -/
theorem Whole.reaches_done (hw : Whole ring initial σ) (hs : Started σ)
    (hroom : highest σ.trace + σ.demand ring + 1 < 2 ^ 62) :
    ∃ ls σ', Run (step ring) (Orderly ring) σ ls σ' ∧ σ'.Done ∧ σ'.receivers = σ.receivers ∧
      highest σ'.trace + 1 < 2 ^ 62 := by
  suffices hends : ∃ ls σ',
      Run (step ring) (fun τ l => Orderly ring τ l ∧ Ends ring id τ l) σ ls σ' ∧ σ'.Done ∧
        σ'.receivers = σ.receivers ∧ highest σ'.trace + 1 < 2 ^ 62 by
    obtain ⟨ls, σ', hrun, hdone⟩ := hends
    exact ⟨ls, σ', hrun.mono fun hok => hok.1, hdone⟩
  refine Run.reaches (I := fun τ => (Whole ring initial τ ∧ Started τ) ∧
      highest τ.trace + τ.demand ring + 1 < 2 ^ 62 ∧ τ.receivers = σ.receivers)
    (μ := fun τ => τ.workLeft ring) ?_ ?_ ⟨⟨hw, hs⟩, hroom, rfl⟩
  · rintro τ l τ' ⟨⟨hw, hs⟩, hroom, hrecv⟩ ⟨hok, he⟩ hst
    have hm := moves_of_step hst
    have hdem := demand_step hw.delivering.served.guarded.inv he.winding hm
    refine ⟨⟨whole_step hw hok hst, started_step hs hm⟩, by omega, ?_⟩
    rcases he with ⟨k, rfl⟩ | ⟨r, rfl⟩
    · rw [hm.sender_frame.2.2.2.2.2, hrecv]
    · rw [hm.receiver_frame.2.2.2.2.2, hrecv]
  · rintro τ ⟨⟨hw, hs⟩, hroom, hrecv⟩
    have hi := hw.delivering.served.guarded.inv
    by_cases hsend : ∃ k < τ.nextSend, (τ.sends k).finished = false
    · obtain ⟨k, hk, hfin⟩ := hsend
      obtain ⟨τ', hst⟩ := exists_end_sender ring id hs hk hfin
      have he : Ends ring id τ (.sender k (endAct ring id τ.mem (τ.sends k))) := Or.inl ⟨k, rfl⟩
      exact Or.inr ⟨_, τ', ⟨he.orderly hi hroom, he⟩, hst, workLeft_lt hi he.winding hst⟩
    by_cases hrecvs : ∃ r < τ.nextRecv, (τ.recvs r).finished = false
    · obtain ⟨r, hr, hfin⟩ := hrecvs
      obtain ⟨τ', hst⟩ := exists_end_receiver ring hs hr hfin
      have he : Ends ring id τ (.receiver r (endRecvAct (τ.recvs r))) := Or.inr ⟨r, rfl⟩
      exact Or.inr ⟨_, τ', ⟨he.orderly hi hroom, he⟩, hst, workLeft_lt hi he.winding hst⟩
    refine Or.inl ⟨⟨fun k hk => ?_, fun r hr => ?_⟩, hrecv, by omega⟩
    · by_contra hfin
      exact hsend ⟨k, hk, Bool.eq_false_iff.mpr hfin⟩
    · by_contra hfin
      exact hrecvs ⟨r, hr, Bool.eq_false_iff.mpr hfin⟩

/-! ## The receivers take what is left -/

/-- What a receive call `r` on receiver `i` leaves as it was, until its guard is released. -/
structure Beside (σ : Sys T N) (r : Nat) (i : Fin N) (τ : Sys T N) : Prop where
  sends : τ.sends = σ.sends ∧ τ.nextSend = σ.nextSend
  receivers : τ.receivers = σ.receivers
  claims : highest τ.trace = highest σ.trace
  places : ∀ j, position τ.trace j = position σ.trace j
  call : τ.nextRecv = r + 1 ∧ τ.recvReceiver r = i
  others : ∀ r' < r, (τ.recvs r').finished = true

theorem Returns.unreleased {q : RecvCall} {lastClaimed available : Int} {shutdown : Bool}
    {pc : RecvPc} {e : Event T N}
    (hret : Returns r i q lastClaimed available shutdown (some e) pc) :
    ∀ j a b, e ≠ .release j a b := by
  cases hret <;> simp

/-- Before its release a receive call moves no cursor. -/
theorem RecvMoves.run_unreleased {pc pc' : RecvPc} {e : Event T N}
    (hm : RecvMoves ring r i m pc .run (some e) pc') : ∀ j a b, e ≠ .release j a b := by
  cases hm with
  | loadEmpty _ hret | scanEnd _ _ hret | scanStop _ hret => exact hret.unreleased
  | register => simp

theorem beside_step {τ τ' : Sys T N} (hb : Beside σ r i τ)
    (hm : Moves ring τ (.receiver r .run) τ') : Beside σ r i τ' := by
  obtain ⟨hr, hnext, hsends, hsend, hrecvs, hlive⟩ := hm.receiver_frame
  obtain ⟨e, hrm, htrace, -⟩ := hm.recvs_self
  refine ⟨?_, by rw [hlive, hb.receivers], by rw [receiver_highest hm, hb.claims], fun j => ?_, ?_,
    fun r' hr' => ?_⟩
  · rw [hsends, hsend]
    exact hb.sends
  · rw [htrace, ← hb.places j]
    cases e with
    | none => rfl
    | some e => exact position_cons_of_ne fun a b => hrm.run_unreleased j a b
  · rw [hnext, hrecvs]
    exact hb.call
  · rw [(hm.recvs_other (by omega) fun act heq => by cases heq; omega).1]
    exact hb.others r' hr'

/-- So is a receive call where every call is over. -/
theorem Sys.Done.orderly_recv (hd : σ.Done) (hroom : highest σ.trace + 1 < 2 ^ 62) (i : Fin N)
    (limit : Nat) (async : Bool) : Orderly ring σ (.recv i limit async) := by
  refine ⟨⟨⟨fun _ _ heq => (by cases heq), fun σ' hst => ?_⟩, ?_, by simp [NoLeak]⟩,
    fun _ _ heq => (by cases heq)⟩
  · cases moves_of_step hst
    exact hroom
  · rintro j limit async heq r hr -
    exact hd.recv r hr

theorem beside_start {limit : Nat} {async : Bool} {σ₁ : Sys T N} (hd : σ.Done)
    (hm : Moves ring σ (.recv i limit async) σ₁) : Beside σ σ.nextRecv i σ₁ := by
  cases hm
  refine ⟨⟨rfl, rfl⟩, rfl, rfl, fun _ => rfl, ⟨rfl, Function.update_self _ _ _⟩, fun r' hr' => ?_⟩
  show (Function.update σ.recvs σ.nextRecv _ r').finished = true
  rw [Function.update_of_ne (by omega)]
  exact hd.recv r' hr'

variable (ring) in
/-- The release of the guard of a call that ran alone. -/
theorem Beside.release {first last : Int} {σ₂ : Sys T N} (hb : Beside σ σ.nextRecv i σ₂)
    (hd : σ.Done) (hguard : σ₂.recvs σ.nextRecv = .guard first last) (hlast : 0 ≤ last) :
    ∃ σ₃, step ring σ₂ (.receiver σ.nextRecv .release) = some σ₃ ∧ σ₃.Done ∧
      σ₃.receivers = σ.receivers ∧ highest σ₃.trace = highest σ.trace ∧
        position σ₃.trace i = last ∧ ∀ j, j ≠ i → position σ₃.trace j = position σ.trace j := by
  obtain ⟨hnext, hcall⟩ := hb.call
  have hst : ∃ σ₃, step ring σ₂ (.receiver σ.nextRecv .release) = some σ₃ := by
    have hout : recvStep ring σ.nextRecv (σ₂.recvReceiver σ.nextRecv) σ₂.mem
        (σ₂.recvs σ.nextRecv) .release =
          some (some (.release (σ₂.recvReceiver σ.nextRecv) first last), .released) := by
      rw [hguard, recvStep, if_neg]
      unfold Sequence.init
      omega
    exact exists_step_of_recvStep (by omega) hout
  obtain ⟨σ₃, hst⟩ := hst
  have hm := moves_of_step hst
  obtain ⟨-, hnext₃, hsends, hsend, -, hlive⟩ := hm.receiver_frame
  obtain ⟨e, hrm, htrace, -⟩ := hm.recvs_self
  have hreleased : e = some (.release i first last) ∧ σ₃.recvs σ.nextRecv = .released := by
    rw [hguard, hcall] at hrm
    generalize σ₃.recvs σ.nextRecv = pc at hrm
    cases hrm with
    | release => exact ⟨rfl, rfl⟩
    | releaseEmpty hinit => exact absurd hlast (by rw [hinit]; decide)
  obtain ⟨rfl, hpc⟩ := hreleased
  refine ⟨σ₃, hst, ⟨fun k hk => ?_, fun r hr => ?_⟩, by rw [hlive, hb.receivers],
    by rw [receiver_highest hm, hb.claims], ?_, fun j hj => ?_⟩
  · rw [hsends, hb.sends.1]
    exact hd.rest k (by rw [hsend, hb.sends.2] at hk; exact hk)
  · by_cases hr' : r = σ.nextRecv
    · rw [hr', hpc]
      rfl
    · rw [(hm.recvs_other (by omega) fun act heq => by cases heq; omega).1]
      exact hb.others r (by omega)
  · rw [htrace]
    exact if_pos rfl
  · rw [htrace, ← hb.places j]
    exact if_neg (Ne.symm hj)

/-- **One receiver takes what it has not read**, in one call. -/
theorem Whole.takes_all (hw : Whole ring initial σ) (hd : σ.Done) (hlive : σ.receivers i = true)
    (hroom : highest σ.trace + 1 < 2 ^ 62) :
    ∃ ls σ', Run (step ring) (Orderly ring) σ ls σ' ∧ σ'.Done ∧ σ'.receivers = σ.receivers ∧
      highest σ'.trace = highest σ.trace ∧ position σ'.trace i = highest σ.trace ∧
        ∀ j, j ≠ i → position σ'.trace j = position σ.trace j := by
  by_cases hall : position σ.trace i = highest σ.trace
  · exact ⟨[], σ, Run.nil, hd, rfl, rfl, hall, fun _ _ => rfl⟩
  have hg := hw.delivering.served.guarded
  have hc := ring.bufferSize_pos
  have hcap := ring.bufferSize_le
  have hneg := neg_one_le_position (i := i) hg.inv.sound.legal
  have hle := position_le_highest (i := i) hg.inv.sound.legal
  have hlag := hg.lag.lag i (hg.inv.not_dropped hlive)
  have hcons := hg.inv.sound.consumed_eq (hg.inv.not_dropped hlive)
  have hread : σ.Readable i (highest σ.trace - position σ.trace i).toNat :=
    hw.readable hd.rest hlive (by omega)
  -- a call for the whole capacity
  have hlimit : 1 ≤ ring.bufferSize.toNat := by omega
  obtain ⟨σ₂, ⟨σ₁, hst₁, hsettles⟩, hpc⟩ :=
    receives_answer false hw.delivering.served hlive hread hlimit (by unfold i64Max; omega)
  have hguard : σ₂.recvs σ.nextRecv = .guard (position σ.trace i + 1) (highest σ.trace) := by
    rw [hpc, recvAnswer, if_pos (by omega), hcons]
    show RecvPc.guard _ (position σ.trace i + min (min ((ring.bufferSize.toNat : Nat) : Int)
      ring.bufferSize) ((highest σ.trace - position σ.trace i).toNat : Nat)) = _
    congr 1
    omega
  have halone : ∃ ls, Run (step ring) (Orderly ring) σ₁ ls σ₂ ∧ Beside σ σ.nextRecv i σ₂ :=
    hsettles.run (fun {τ τ'} hb hst => ⟨beside_step hb (moves_of_step hst),
      orderly_receiver (by simp) (by rw [hb.claims]; exact hroom)⟩)
      (beside_start hd (moves_of_step hst₁))
  obtain ⟨ls, hrun₂, hb⟩ := halone
  obtain ⟨σ₃, hst₃, hd₃, hlive₃, hhigh₃, hpos₃⟩ := hb.release ring hd hguard (by omega)
  have hrun₁ : Run (step ring) (Orderly ring) σ _ σ₁ :=
    Run.single (hd.orderly_recv hroom i ring.bufferSize.toNat false) hst₁
  have hrun₃ : Run (step ring) (Orderly ring) σ₂ _ σ₃ :=
    Run.single (orderly_receiver (by simp) (by rw [hb.claims]; exact hroom)) hst₃
  exact ⟨_, σ₃, (hrun₁.trans hrun₂).trans hrun₃, hd₃, hlive₃, hhigh₃, hpos₃⟩

theorem Whole.all_take (is : List (Fin N)) (hw : Whole ring initial σ) (hd : σ.Done)
    (hroom : highest σ.trace + 1 < 2 ^ 62) :
    ∃ ls σ', Run (step ring) (Orderly ring) σ ls σ' ∧ σ'.Done ∧ σ'.receivers = σ.receivers ∧
      highest σ'.trace = highest σ.trace ∧
        (∀ i ∈ is, σ.receivers i = true → position σ'.trace i = highest σ'.trace) ∧
          ∀ j ∉ is, position σ'.trace j = position σ.trace j := by
  induction is generalizing σ with
  | nil => exact ⟨[], σ, Run.nil, hd, rfl, rfl, by simp, fun _ _ => rfl⟩
  | cons i is ih =>
    -- the first receiver, and then the others
    have hfirst : ∃ ls σ₁, Run (step ring) (Orderly ring) σ ls σ₁ ∧ σ₁.Done ∧
        σ₁.receivers = σ.receivers ∧ highest σ₁.trace = highest σ.trace ∧
          (σ.receivers i = true → position σ₁.trace i = highest σ.trace) ∧
            ∀ j, j ≠ i → position σ₁.trace j = position σ.trace j := by
      by_cases hlive : σ.receivers i = true
      · obtain ⟨ls, σ₁, hrun, hd₁, hlive₁, hhigh₁, hpos, hsame⟩ := hw.takes_all hd hlive hroom
        exact ⟨ls, σ₁, hrun, hd₁, hlive₁, hhigh₁, fun _ => hpos, hsame⟩
      · exact ⟨[], σ, Run.nil, hd, rfl, rfl, fun h => absurd h hlive, fun _ _ => rfl⟩
    obtain ⟨ls₁, σ₁, hrun₁, hd₁, hlive₁, hhigh₁, hpos₁, hsame₁⟩ := hfirst
    obtain ⟨ls₂, σ₂, hrun₂, hd₂, hlive₂, hhigh₂, hpos₂, hsame₂⟩ :=
      ih (hw.of_run id hrun₁) hd₁ (by rw [hhigh₁]; exact hroom)
    refine ⟨_, σ₂, hrun₁.trans hrun₂, hd₂, hlive₂.trans hlive₁, hhigh₂.trans hhigh₁, ?_, ?_⟩
    · intro j hj hlive
      by_cases hjs : j ∈ is
      · exact hpos₂ j hjs (by rw [hlive₁]; exact hlive)
      · obtain rfl := (List.mem_cons.mp hj).resolve_right hjs
        rw [hsame₂ j hjs, hpos₁ hlive, hhigh₂, hhigh₁]
    · intro j hj
      rw [List.mem_cons, not_or] at hj
      rw [hsame₂ j hj.2, hsame₁ j hj.1]

/-- **Everything sent can arrive.** From every state of an orderly run that has room for what its
calls may still claim, the calls under way, the permits and the guards in hand can be brought to
their ends, and then every live receiver can be given all items that were ever sent, in order. -/
theorem all_delivered {i₀ : Fin N} {ls : List (Label T N)}
    (hrun : Run (step ring) (Orderly ring) (Sys.init initial i₀) ls σ)
    (hroom : highest σ.trace + σ.demand ring + 1 < 2 ^ 62) :
    ∃ ls' σ', Run (step ring) (Orderly ring) σ ls' σ' ∧ σ.trace <:+ σ'.trace ∧ σ'.Done ∧
      ∀ i, σ.receivers i = true → σ'.receivers i = true ∧ received σ'.trace i = σ'.items := by
  have hw := (whole_init ring initial i₀).of_run id hrun
  have hs : Started σ := hrun.invariant (I := Started)
    (fun hs _ hst => started_step hs (moves_of_step hst)) (started_init initial i₀)
  obtain ⟨ls₁, σ₁, hrun₁, hd₁, hlive₁, hroom₁⟩ := hw.reaches_done hs hroom
  have hw₁ := hw.of_run id hrun₁
  obtain ⟨ls₂, σ₂, hrun₂, hd₂, hlive₂, -, hall, -⟩ :=
    hw₁.all_take (List.finRange N) hd₁ hroom₁
  have hw₂ := hw₁.of_run id hrun₂
  refine ⟨_, σ₂, hrun₁.trans hrun₂, trace_suffix (hrun₁.trans hrun₂), hd₂, fun i hlive => ?_⟩
  refine ⟨by rw [hlive₂, hlive₁, hlive], ?_⟩
  have ht := hw₂.delivering.given i
  have hpos := hall i (List.mem_finRange i) (by rw [hlive₁, hlive])
  unfold received Sys.items
  rw [ht.count, ht.eq_position fun r hr _ => hd₂.recv r hr, hpos]

/-- A reserved sequence, a guard over the item before it, and a send that is still in its loop. -/
theorem all_delivered_busy :
    ∃ (ls ls' : List (Label Nat 1)) (σ σ' : Sys Nat 1),
      Run (step ⟨1, by decide⟩) (Orderly ⟨1, by decide⟩) (Sys.init (fun _ => 0) 0) ls σ ∧
        σ.sends 1 = .permit 1 ∧ σ.recvs 0 = .guard 0 0 ∧ (σ.sends 2).claiming = true ∧
        Run (step ⟨1, by decide⟩) (Orderly ⟨1, by decide⟩) σ ls' σ' ∧ σ'.Done ∧
        received σ'.trace 0 = σ'.items := by
  have hex : (exec (step ⟨1, by decide⟩) (Orderly ⟨1, by decide⟩) (Sys.init (fun _ => 0) 0)
      (List.flatten [[.send 0 (.trySend 7)], List.replicate 9 (.sender 0 .run),
        [.send 0 .tryReserve], List.replicate 4 (.sender 1 .run), [.recv 0 1 false],
        List.replicate 2 (.receiver 0 .run), [.send 0 (.trySend 8), .sender 2 .run]])).any
      (fun σ : Sys Nat 1 => decide (σ.sends 1 = .permit 1 ∧ σ.recvs 0 = .guard 0 0 ∧
        (σ.sends 2).claiming = true ∧ σ.receivers 0 = true ∧ highest σ.trace = 1 ∧
          σ.demand ⟨1, by decide⟩ = 2)) = true := by
    decide +kernel
  obtain ⟨σ, hrun, hσ⟩ := Run.of_exec_any hex
  obtain ⟨hpermit, hguard, hclaiming, hlive, hhigh, hdemand⟩ := of_decide_eq_true hσ
  obtain ⟨ls', σ', hrun', -, hdone, hall⟩ := all_delivered hrun (by rw [hhigh, hdemand]; norm_num)
  exact ⟨_, ls', σ, σ', hrun, hpermit, hguard, hclaiming, hrun', hdone, (hall 0 hlive).2⟩

end

end EnsoChannel
