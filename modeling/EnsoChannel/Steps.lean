import EnsoChannel.System

/-!
# What one step does

The inversion of `step`, once, label by label (`Moves`, `moves_of_step`). Every invariant of the
system is a case analysis of `Moves`; no other module unfolds `step`.

`record` is what a step does to the trace: `Sys.perform` appends the event to the trace and its
effect to the memory, and leaves the rest of the state alone.

The steps of a call are inverted the same way: `SenderMoves` and `RecvMoves` list them, one
constructor for each branch of `senderStep` and `recvStep`, with what the branch tested. A finished
call does not move (`senderStep_finished`, `recvStep_finished`), and the tear-down, the `close()` of
the last sender's drop, is a call of its own from its start to its end (`senderStep_teardown`).
-/

namespace EnsoChannel

open Lib

variable {T : Type} {N : Nat}

/-! ## Recording an event -/

/-- The trace after a step with the event `e`. -/
def record : Option (Event T N) → History T N → History T N
  | none, h => h
  | some e, h => e :: h

section Perform

variable (ring : RingBufferMeta) (σ : Sys T N) (e : Option (Event T N))

@[simp] theorem perform_trace : (σ.perform ring e).trace = record e σ.trace := by
  cases e <;> rfl

@[simp] theorem perform_senders : (σ.perform ring e).senders = σ.senders := by cases e <;> rfl

@[simp] theorem perform_nextSender : (σ.perform ring e).nextSender = σ.nextSender := by
  cases e <;> rfl

@[simp] theorem perform_receivers : (σ.perform ring e).receivers = σ.receivers := by
  cases e <;> rfl

@[simp] theorem perform_sends : (σ.perform ring e).sends = σ.sends := by cases e <;> rfl

@[simp] theorem perform_sendHandle : (σ.perform ring e).sendHandle = σ.sendHandle := by
  cases e <;> rfl

@[simp] theorem perform_nextSend : (σ.perform ring e).nextSend = σ.nextSend := by cases e <;> rfl

@[simp] theorem perform_recvs : (σ.perform ring e).recvs = σ.recvs := by cases e <;> rfl

@[simp] theorem perform_recvReceiver : (σ.perform ring e).recvReceiver = σ.recvReceiver := by
  cases e <;> rfl

@[simp] theorem perform_recvAsync : (σ.perform ring e).recvAsync = σ.recvAsync := by
  cases e <;> rfl

@[simp] theorem perform_nextRecv : (σ.perform ring e).nextRecv = σ.nextRecv := by cases e <;> rfl

end Perform

/-! ## The inversion -/

/-- `Moves ring σ l σ'`: the step `l` from `σ` to `σ'`, with the guard it passed. -/
inductive Moves (ring : RingBufferMeta) (σ : Sys T N) : Label T N → Sys T N → Prop
  | clone {h : Nat} (hlive : σ.senders h = true) :
      Moves ring σ (.clone h) { σ with
        senders := Function.update σ.senders σ.nextSender true
        nextSender := σ.nextSender + 1 }
  | dropSender {h : Nat} (hlive : σ.senders h = true) (hidle : σ.SenderIdle h)
      (hother : ¬ σ.LastSender h) :
      Moves ring σ (.dropSender h) { σ with senders := Function.update σ.senders h false }
  | dropLast {h : Nat} (hlive : σ.senders h = true) (hidle : σ.SenderIdle h)
      (hlast : σ.LastSender h) :
      Moves ring σ (.dropSender h) { σ with
        senders := Function.update σ.senders h false
        sends := Function.update σ.sends σ.nextSend (.closing .load .lastSender)
        sendHandle := Function.update σ.sendHandle σ.nextSend h
        nextSend := σ.nextSend + 1 }
  | send {h : Nat} {c : SendCall T} (hlive : σ.senders h = true) :
      Moves ring σ (.send h c) { σ with
        sends := Function.update σ.sends σ.nextSend c.start
        sendHandle := Function.update σ.sendHandle σ.nextSend h
        nextSend := σ.nextSend + 1 }
  | sender {k : Nat} {act : SenderAct T} {e : Option (Event T N)} {pc : SenderPc T}
      (hk : k < σ.nextSend) (hst : senderStep ring k σ.mem (σ.sends k) act = some (e, pc)) :
      Moves ring σ (.sender k act)
        { σ.perform ring e with sends := Function.update σ.sends k pc }
  | recv {i : Fin N} {limit : Nat} {async : Bool} (hlive : σ.receivers i = true) :
      Moves ring σ (.recv i limit async) { σ with
        recvs := Function.update σ.recvs σ.nextRecv (recvStart limit async)
        recvReceiver := Function.update σ.recvReceiver σ.nextRecv i
        recvAsync := Function.update σ.recvAsync σ.nextRecv async
        nextRecv := σ.nextRecv + 1 }
  | receiver {r : Nat} {act : RecvAct} {e : Option (Event T N)} {pc : RecvPc}
      (hr : r < σ.nextRecv)
      (hst : recvStep ring r (σ.recvReceiver r) σ.mem (σ.recvs r) act = some (e, pc)) :
      Moves ring σ (.receiver r act)
        { σ.perform ring e with recvs := Function.update σ.recvs r pc }
  | dropReceiver {i : Fin N} (hlive : σ.receivers i = true) (hidle : σ.ReceiverIdle i) :
      Moves ring σ (.dropReceiver i) { σ.perform ring (some (.dropReceiver i)) with
        receivers := Function.update σ.receivers i false }

/-- **A step is one of the moves.** -/
theorem moves_of_step {ring : RingBufferMeta} {σ σ' : Sys T N} {l : Label T N}
    (hst : step ring σ l = some σ') : Moves ring σ l σ' := by
  cases l with
  | clone h =>
    simp only [step] at hst
    split at hst
    · rename_i hlive
      cases hst
      exact .clone hlive
    · cases hst
  | dropSender h =>
    simp only [step] at hst
    split at hst
    · rename_i hd
      split at hst
      · rename_i hlast
        cases hst
        exact .dropLast hd.1 hd.2 hlast
      · rename_i hother
        cases hst
        exact .dropSender hd.1 hd.2 hother
    · cases hst
  | send h c =>
    simp only [step] at hst
    split at hst
    · rename_i hlive
      cases hst
      exact .send hlive
    · cases hst
  | sender k act =>
    simp only [step] at hst
    split at hst
    · rename_i hk
      split at hst
      · cases hst
      · rename_i e pc heq
        cases hst
        exact .sender hk heq
    · cases hst
  | recv i limit async =>
    simp only [step] at hst
    split at hst
    · rename_i hlive
      cases hst
      exact .recv hlive
    · cases hst
  | receiver r act =>
    simp only [step] at hst
    split at hst
    · rename_i hr
      split at hst
      · cases hst
      · rename_i e pc heq
        cases hst
        exact .receiver hr heq
    · cases hst
  | dropReceiver i =>
    simp only [step] at hst
    split at hst
    · rename_i hd
      cases hst
      exact .dropReceiver hd.1 hd.2
    · cases hst

/-- A call that can take a step can take it in the system. -/
theorem exists_step_of_senderStep {ring : RingBufferMeta} {σ : Sys T N} {k : Nat}
    {act : SenderAct T} {out : Option (Event T N) × SenderPc T} (hk : k < σ.nextSend)
    (hst : senderStep ring k σ.mem (σ.sends k) act = some out) :
    ∃ σ', step ring σ (.sender k act) = some σ' := by
  simp only [step, if_pos hk, hst]
  exact ⟨_, rfl⟩

theorem exists_step_of_recvStep {ring : RingBufferMeta} {σ : Sys T N} {r : Nat} {act : RecvAct}
    {out : Option (Event T N) × RecvPc} (hr : r < σ.nextRecv)
    (hst : recvStep ring r (σ.recvReceiver r) σ.mem (σ.recvs r) act = some out) :
    ∃ σ', step ring σ (.receiver r act) = some σ' := by
  simp only [step, if_pos hr, hst]
  exact ⟨_, rfl⟩

/-- A step records at most one event. -/
theorem Moves.trace_cases {ring : RingBufferMeta} {σ σ' : Sys T N} {l : Label T N}
    (hm : Moves ring σ l σ') : ∃ e, σ'.trace = record e σ.trace := by
  cases hm with
  | sender | receiver | dropReceiver => exact ⟨_, perform_trace ring σ _⟩
  | _ => exact ⟨none, rfl⟩

/-! ## The moves of a sender call -/

/-- `SenderMoves ring k m pc act e pc'`: the steps of sender call `k` in the memory `m`. -/
inductive SenderMoves (ring : RingBufferMeta) (k : Nat) (m : Mem T N) :
    SenderPc T → SenderAct T → Option (Event T N) → SenderPc T → Prop
  | load {c : SendCall T} : SenderMoves ring k m (.loadClaimed c) .run none (claimLoop c m.claimed)
  | gate {c : SendCall T} {last minConsumed : Int} {i : Nat} (hi : i < N) :
      SenderMoves ring k m (.maxConsumed c last i minConsumed) .run none
        (.maxConsumed c last (i + 1) (min minConsumed (m.consumed ⟨i, hi⟩)))
  | gateEnd {c : SendCall T} {last minConsumed : Int} {i : Nat} (hi : ¬ i < N) :
      SenderMoves ring k m (.maxConsumed c last i minConsumed) .run none
        (claimBody ring c last minConsumed)
  | claim {c : SendCall T} {last maxConsumed highest : Int} (hcas : m.claimed = last) :
      SenderMoves ring k m (.compareExchange c last maxConsumed highest) .run
        (some (.claim k (last + 1) highest)) (granted c (last + 1) highest)
  | retry {c : SendCall T} {last maxConsumed highest : Int} (hcas : m.claimed ≠ last) :
      SenderMoves ring k m (.compareExchange c last maxConsumed highest) .run none
        (claimLoop c m.claimed)
  | write {v : T} {seq : Int} :
      SenderMoves ring k m (.writing v seq) .run (some (.store k seq v)) (.publishing seq seq seq)
  | writePanics {v w : T} {seq : Int} :
      SenderMoves ring k m (.writing v seq) (.panics w) (some (.store k seq v)) .abandoned
  | permitWrite {v : T} {seq : Int} :
      SenderMoves ring k m (.permit seq) (.write v) (some (.store k seq v))
        (.publishing seq seq seq)
  | permitPanics {v : T} {seq : Int} :
      SenderMoves ring k m (.permit seq) (.panics v) (some (.store k seq v)) (.recycling seq)
  | permitDrop {seq : Int} : SenderMoves ring k m (.permit seq) .drop none (.recycling seq)
  | permitLeak {seq : Int} : SenderMoves ring k m (.permit seq) .leak none .abandoned
  | recycled {v : T} {seq : Int} :
      SenderMoves ring k m (.recycling seq) (.recycled v) (some (.store k seq v))
        (.publishing seq seq seq)
  | recyclePanics {v : T} {seq : Int} :
      SenderMoves ring k m (.recycling seq) (.panics v) (some (.store k seq v))
        (.closing .load .permit)
  | recyclePanicsTwice {v : T} {seq : Int} :
      SenderMoves ring k m (.recycling seq) (.panicsTwice v) (some (.store k seq v)) .abandoned
  | nextNone {p : Permits} (hp : p.nextSeq > p.endSeq) :
      SenderMoves ring k m (.permits p) .next none (.permits p)
  | next {p : Permits} (hp : ¬ p.nextSeq > p.endSeq) :
      SenderMoves ring k m (.permits p) .next none
        (.batchPermit { p with nextSeq := p.nextSeq + 1 } p.nextSeq)
  | permitsDrop {p : Permits} : SenderMoves ring k m (.permits p) .drop none (.draining p)
  | permitsLeak {p : Permits} : SenderMoves ring k m (.permits p) .leak none .abandoned
  | batchWrite {p : Permits} {v : T} {seq : Int} :
      SenderMoves ring k m (.batchPermit p seq) (.write v) (some (.store k seq v)) (.permits p)
  | batchPanics {p : Permits} {v : T} {seq : Int} :
      SenderMoves ring k m (.batchPermit p seq) (.panics v) (some (.store k seq v))
        (.batchRecycling p seq)
  | batchDrop {p : Permits} {seq : Int} :
      SenderMoves ring k m (.batchPermit p seq) .drop none (.batchRecycling p seq)
  | batchLeak {p : Permits} {seq : Int} :
      SenderMoves ring k m (.batchPermit p seq) .leak none (.permits p)
  | batchRecycled {p : Permits} {v : T} {seq : Int} :
      SenderMoves ring k m (.batchRecycling p seq) (.recycled v) (some (.store k seq v))
        (.permits p)
  | batchRecyclePanics {p : Permits} {v : T} {seq : Int} :
      SenderMoves ring k m (.batchRecycling p seq) (.panics v) (some (.store k seq v))
        (.closing .load (.batch p))
  | batchRecyclePanicsTwice {p : Permits} {v : T} {seq : Int} :
      SenderMoves ring k m (.batchRecycling p seq) (.panicsTwice v) (some (.store k seq v))
        (.permits p)
  | drainEmpty {p : Permits} (hp : p.endSeq = -1) :
      SenderMoves ring k m (.draining p) .run none .committed
  | drainDone {p : Permits} (hp : p.endSeq ≠ -1) (hnext : ¬ p.nextSeq ≤ p.endSeq) :
      SenderMoves ring k m (.draining p) .run none (.publishing p.startSeq p.startSeq p.endSeq)
  | drainRecycled {p : Permits} {v : T} (hp : p.endSeq ≠ -1 ∧ p.nextSeq ≤ p.endSeq) :
      SenderMoves ring k m (.draining p) (.recycled v) (some (.store k p.nextSeq v))
        (.draining { p with nextSeq := p.nextSeq + 1 })
  | drainPanics {p : Permits} {v : T} (hp : p.endSeq ≠ -1 ∧ p.nextSeq ≤ p.endSeq) :
      SenderMoves ring k m (.draining p) (.panics v) (some (.store k p.nextSeq v))
        (.closing .load .permit)
  | publish {first seq last : Int} (hseq : seq ≤ last) :
      SenderMoves ring k m (.publishing first seq last) .run (some (.publish k seq))
        (.publishing first (seq + 1) last)
  | publishEnd {first seq last : Int} (hseq : ¬ seq ≤ last) :
      SenderMoves ring k m (.publishing first seq last) .run none (.notifying 0)
  | wake {i : Nat} (hi : i < N) :
      SenderMoves ring k m (.notifying i) .run (some (.wake ⟨i, hi⟩ (m.wakers ⟨i, hi⟩)))
        (.notifying (i + 1))
  | wakeEnd {i : Nat} (hi : ¬ i < N) : SenderMoves ring k m (.notifying i) .run none .committed
  | closeUnclaimed {caller : CloseCaller} (hneg : lastClaimedOf m.claimed < 0) :
      SenderMoves ring k m (.closing .load caller) .run (some (.closeStart k))
        (.closing (.mark m.claimed (lastClaimedOf m.claimed)) caller)
  | closeLoad {caller : CloseCaller} (hneg : ¬ lastClaimedOf m.claimed < 0) :
      SenderMoves ring k m (.closing .load caller) .run (some (.closeStart k))
        (.closing (.scan m.claimed (lastClaimedOf m.claimed)
          (max (lastClaimedOf m.claimed - (ring.bufferSize - 1)) 0)) caller)
  | closeScan {raw lastClaimed seq : Int} {caller : CloseCaller} (hseq : seq ≤ lastClaimed)
      (hflag : lapOf (m.states (ring.indexOfSeq seq)) = ring.availableFlag seq) :
      SenderMoves ring k m (.closing (.scan raw lastClaimed seq) caller) .run none
        (.closing (.scan raw lastClaimed (seq + 1)) caller)
  | closeFound {raw lastClaimed seq : Int} {caller : CloseCaller} (hseq : seq ≤ lastClaimed)
      (hflag : lapOf (m.states (ring.indexOfSeq seq)) ≠ ring.availableFlag seq) :
      SenderMoves ring k m (.closing (.scan raw lastClaimed seq) caller) .run none
        (.closing (.mark raw (seq - 1)) caller)
  | closeScanEnd {raw lastClaimed seq : Int} {caller : CloseCaller} (hseq : ¬ seq ≤ lastClaimed) :
      SenderMoves ring k m (.closing (.scan raw lastClaimed seq) caller) .run none
        (.closing (.mark raw lastClaimed) caller)
  | closeMark {raw lastPublished : Int} {caller : CloseCaller} :
      SenderMoves ring k m (.closing (.mark raw lastPublished) caller) .run
        (some (.mark (lastPublished + 1))) (.closing (.store raw) caller)
  | closeStore {raw : Int} {caller : CloseCaller} :
      SenderMoves ring k m (.closing (.store raw) caller) .run (some (.shut raw))
        (.closing (.notify 0) caller)
  | closeWake {i : Nat} {caller : CloseCaller} (hi : i < N) :
      SenderMoves ring k m (.closing (.notify i) caller) .run
        (some (.wake ⟨i, hi⟩ (m.wakers ⟨i, hi⟩))) (.closing (.notify (i + 1)) caller)
  | closeEnd {i : Nat} {caller : CloseCaller} (hi : ¬ i < N) :
      SenderMoves ring k m (.closing (.notify i) caller) .run (some (.closeEnd k)) caller.resume

section Calls

variable {ring : RingBufferMeta} {k r : Nat} {i : Fin N} {m : Mem T N} {pc pc' : SenderPc T}
  {act : SenderAct T} {e : Option (Event T N)}

/-- A step of a `close()` is one of the moves of its call. -/
theorem senderMoves_of_closeStep (pos : ClosePc) (caller : CloseCaller) :
    SenderMoves ring k m (.closing pos caller) .run (closeStep ring k m pos).1
      (match (closeStep ring k m pos).2 with
        | some pos' => .closing pos' caller
        | none => caller.resume) := by
  fun_cases closeStep ring k m pos
  case case1 raw lastClaimed next =>
    show SenderMoves ring k m (.closing .load caller) .run (some (.closeStart k))
      (.closing (if lastClaimedOf m.claimed < 0 then _ else _) caller)
    split
    · exact .closeUnclaimed ‹_›
    · exact .closeLoad ‹_›
  case case3 hseq hflag => exact .closeScan hseq (not_not.mp hflag)
  all_goals constructor <;> assumption

/-- **A step of a sender call is one of its moves.** -/
theorem senderMoves_of_step (hst : senderStep ring k m pc act = some (e, pc')) :
    SenderMoves ring k m pc act e pc' := by
  revert hst
  fun_cases senderStep ring k m pc act
  all_goals intro hst
  all_goals cases hst
  case case37 pos caller pos' heq =>
    have hmove : SenderMoves ring k m _ _ _ _ := senderMoves_of_closeStep pos caller
    rwa [heq] at hmove
  case case38 pos caller heq =>
    have hmove : SenderMoves ring k m _ _ _ _ := senderMoves_of_closeStep pos caller
    rwa [heq] at hmove
  all_goals constructor <;> first | assumption | rfl

/-! Where the claim loop and an operation go on, for a property of the position. -/

theorem claimLoop_cases {P : SenderPc T → Prop} {c : SendCall T} {raw : Int}
    (hrefused : P (.refused .shutdown))
    (hgate : hasShutdown raw = false → P (.maxConsumed c raw 0 Sequence.shutdownOpen)) :
    P (claimLoop c raw) := by
  unfold claimLoop
  split
  · exact hrefused
  · rename_i hopen
    exact hgate (Bool.eq_false_iff.mpr hopen)

theorem claimBody_cases {P : SenderPc T → Prop} {c : SendCall T} {last maxConsumed : Int}
    (hrefused : ∀ e, P (.refused e)) (hcas : ∀ b, P (.compareExchange c last maxConsumed b)) :
    P (claimBody ring c last maxConsumed) := by
  unfold claimBody
  split
  · exact hrefused _
  · dsimp only
    split
    · exact hrefused _
    · exact hcas _

theorem granted_cases {P : SenderPc T → Prop} {c : SendCall T} {start last : Int}
    (hwriting : ∀ v, P (.writing v last)) (hpermit : P (.permit last))
    (hpermits : P (.permits ⟨start, last, start⟩)) : P (granted c start last) := by
  cases c with
  | trySend v => exact hwriting v
  | tryReserve => exact hpermit
  | trySendAtMost n => exact hpermits

theorem start_cases {P : SenderPc T → Prop} {c : SendCall T} (hload : P (.loadClaimed c))
    (hempty : P (.permits ⟨0, -1, 0⟩)) : P c.start := by
  unfold SendCall.start
  split
  · exact hempty
  · exact hload

/-- An operation with a positive limit starts with a claim. -/
theorem start_of_limit {c : SendCall T} (hlimit : 1 ≤ c.limit) : c.start = .loadClaimed c := by
  cases c with
  | trySendAtMost n =>
    cases n with
    | zero =>
      have hzero : usizeAsI64 0 = 0 := by decide
      have hlimit : 1 ≤ usizeAsI64 0 := hlimit
      omega
    | succ n => rfl
  | _ => rfl

/-- The `close()` of the last sender's drop, under way or over. -/
def SenderPc.teardown : SenderPc T → Bool
  | .closing _ .lastSender | .tornDown => true
  | _ => false

theorem claimLoop_teardown (c : SendCall T) (raw : Int) : (claimLoop c raw).teardown = false :=
  claimLoop_cases (P := fun pc => pc.teardown = false) rfl fun _ => rfl

theorem claimBody_teardown (c : SendCall T) (last maxConsumed : Int) :
    (claimBody ring c last maxConsumed).teardown = false :=
  claimBody_cases (P := fun pc => pc.teardown = false) (fun _ => rfl) fun _ => rfl

theorem granted_teardown (c : SendCall T) (start last : Int) :
    (granted c start last).teardown = false :=
  granted_cases (P := fun pc => pc.teardown = false) (fun _ => rfl) rfl rfl

theorem start_teardown (c : SendCall T) : c.start.teardown = false :=
  start_cases (P := fun pc => pc.teardown = false) rfl rfl

theorem closing_teardown (pos pos' : ClosePc) (caller : CloseCaller) :
    (SenderPc.closing pos' caller : SenderPc T).teardown =
      (SenderPc.closing pos caller : SenderPc T).teardown := by
  cases caller <;> rfl

theorem resume_teardown (pos : ClosePc) (caller : CloseCaller) :
    (caller.resume : SenderPc T).teardown =
      (SenderPc.closing pos caller : SenderPc T).teardown := by
  cases caller <;> rfl

/-- **The tear-down is a call of its own**: no other call turns into it, and it into no other. -/
theorem SenderMoves.teardown (hm : SenderMoves ring k m pc act e pc') :
    pc'.teardown = pc.teardown := by
  cases hm with
  | load | retry => exact claimLoop_teardown _ _
  | gateEnd => exact claimBody_teardown _ _ _
  | claim => exact granted_teardown _ _ _
  | closeUnclaimed | closeLoad | closeScan | closeFound | closeScanEnd | closeMark | closeStore
  | closeWake => exact closing_teardown _ _ _
  | closeEnd => exact resume_teardown _ _
  | _ => rfl

theorem senderStep_teardown (hst : senderStep ring k m pc act = some (e, pc')) :
    pc'.teardown = pc.teardown :=
  (senderMoves_of_step hst).teardown

theorem SenderPc.teardown_cases (ht : pc.teardown = true) :
    (∃ pos, pc = .closing pos .lastSender) ∨ pc = .tornDown := by
  cases pc with
  | closing pos caller =>
    cases caller with
    | lastSender => exact Or.inl ⟨pos, rfl⟩
    | _ => exact absurd ht (by simp [SenderPc.teardown])
  | tornDown => exact Or.inr rfl
  | _ => exact absurd ht (by simp [SenderPc.teardown])

/-- A finished call does not move. -/
theorem SenderMoves.unfinished (hm : SenderMoves ring k m pc act e pc') : pc.finished = false := by
  cases hm <;> rfl

theorem senderStep_finished (hst : senderStep ring k m pc act = some (e, pc')) :
    pc.finished = false :=
  (senderMoves_of_step hst).unfinished

end Calls

/-! ## The moves of a receive call -/

/-- `Returns r i q lastClaimed available shutdown e pc`: how a receive call ends whose scan got as
far as `available`. -/
inductive Returns (r : Nat) (i : Fin N) (q : RecvCall) (lastClaimed available : Int) :
    Bool → Option (Event T N) → RecvPc → Prop
  | items {shutdown : Bool} (ha : lastClaimed < available) :
      Returns r i q lastClaimed available shutdown
        (some (.ret r i (.items (lastClaimed + 1) available))) (.guard (lastClaimed + 1) available)
  | disconnected (ha : available ≤ lastClaimed) :
      Returns r i q lastClaimed available true (some (.ret r i .disconnected)) .disconnected
  | empty (ha : available ≤ lastClaimed) (hq : q.stage = .sync) :
      Returns r i q lastClaimed available false (some (.ret r i .empty)) .empty
  | again (ha : available ≤ lastClaimed) (hq : q.stage = .first) :
      Returns r i q lastClaimed available false none (.register q)
  | pending (ha : available ≤ lastClaimed) (hq : q.stage = .second) :
      Returns r i q lastClaimed available false (some (.ret r i .pending)) .pending

/-- `RecvMoves ring r i m pc act e pc'`: the steps of receive call `r` on receiver `i`. -/
inductive RecvMoves (ring : RingBufferMeta) (r : Nat) (i : Fin N) (m : Mem T N) :
    RecvPc → RecvAct → Option (Event T N) → RecvPc → Prop
  | load {q : RecvCall} (hn : m.consumed i + 1 ≤ m.consumed i + min q.limit ring.bufferSize) :
      RecvMoves ring r i m (.load q) .run none
        (.scan q (m.consumed i) (m.consumed i + min q.limit ring.bufferSize) (m.consumed i + 1)
          false)
  | loadEmpty {q : RecvCall} {e : Option (Event T N)} {pc : RecvPc}
      (hn : ¬ m.consumed i + 1 ≤ m.consumed i + min q.limit ring.bufferSize)
      (hret : Returns r i q (m.consumed i) (m.consumed i + 1 - 1) false e pc) :
      RecvMoves ring r i m (.load q) .run e pc
  | scanNext {q : RecvCall} {lastClaimed last seq : Int} {shutdown : Bool}
      (hflag : lapOf (m.states (ring.indexOfSeq seq)) = ring.availableFlag seq)
      (hseq : seq ≠ last) :
      RecvMoves ring r i m (.scan q lastClaimed last seq shutdown) .run none
        (.scan q lastClaimed last (seq + 1)
          (shutdown || shutdownOf (m.states (ring.indexOfSeq seq))))
  | scanEnd {q : RecvCall} {lastClaimed last seq : Int} {shutdown : Bool}
      {e : Option (Event T N)} {pc : RecvPc}
      (hflag : lapOf (m.states (ring.indexOfSeq seq)) = ring.availableFlag seq)
      (hseq : seq = last)
      (hret : Returns r i q lastClaimed seq
        (shutdown || shutdownOf (m.states (ring.indexOfSeq seq))) e pc) :
      RecvMoves ring r i m (.scan q lastClaimed last seq shutdown) .run e pc
  | scanStop {q : RecvCall} {lastClaimed last seq : Int} {shutdown : Bool}
      {e : Option (Event T N)} {pc : RecvPc}
      (hflag : lapOf (m.states (ring.indexOfSeq seq)) ≠ ring.availableFlag seq)
      (hret : Returns r i q lastClaimed (seq - 1)
        (shutdown || shutdownOf (m.states (ring.indexOfSeq seq))) e pc) :
      RecvMoves ring r i m (.scan q lastClaimed last seq shutdown) .run e pc
  | register {q : RecvCall} :
      RecvMoves ring r i m (.register q) .run (some (.register i r))
        (.load { q with stage := .second })
  | releaseEmpty {first last : Int} (hlast : last = Sequence.init) :
      RecvMoves ring r i m (.guard first last) .release none .released
  | release {first last : Int} (hlast : last ≠ Sequence.init) :
      RecvMoves ring r i m (.guard first last) .release (some (.release i first last)) .released
  | leak {first last : Int} : RecvMoves ring r i m (.guard first last) .leak none .leaked

section RecvCalls

variable {ring : RingBufferMeta} {r : Nat} {i : Fin N} {m : Mem T N} {pc pc' : RecvPc}
  {act : RecvAct} {e : Option (Event T N)}

theorem returns_of_recvReturn {q : RecvCall} {lastClaimed available : Int} {shutdown : Bool}
    (h : recvReturn r i q lastClaimed available shutdown = (e, pc)) :
    Returns r i q lastClaimed available shutdown e pc := by
  revert h
  fun_cases recvReturn r i q lastClaimed available shutdown
  all_goals intro h
  all_goals cases h
  case case1 ha hs => rw [hs]; exact .disconnected ha
  case case2 ha hs hq => rw [Bool.eq_false_iff.mpr hs]; exact .empty ha hq
  case case3 ha hs hq => rw [Bool.eq_false_iff.mpr hs]; exact .again ha hq
  case case4 ha hs hq => rw [Bool.eq_false_iff.mpr hs]; exact .pending ha hq
  case case5 ha => exact .items (not_le.mp ha)

/-- **A step of a receive call is one of its moves.** -/
theorem recvMoves_of_step (hst : recvStep ring r i m pc act = some (e, pc')) :
    RecvMoves ring r i m pc act e pc' := by
  revert hst
  fun_cases recvStep ring r i m pc act
  case case1 hn => intro hst; cases hst; exact .load hn
  case case2 hn =>
    intro hst
    exact .loadEmpty hn (returns_of_recvReturn (Option.some.inj hst))
  case case3 hflag =>
    intro hst
    exact .scanStop hflag (returns_of_recvReturn (Option.some.inj hst))
  case case4 hflag =>
    intro hst
    exact .scanEnd (not_not.mp hflag) rfl (returns_of_recvReturn (Option.some.inj hst))
  case case5 hflag hseq => intro hst; cases hst; exact .scanNext (not_not.mp hflag) hseq
  case case6 => intro hst; cases hst; exact .register
  case case7 => intro hst; cases hst; exact .releaseEmpty rfl
  case case8 hlast => intro hst; cases hst; exact .release hlast
  case case9 => intro hst; cases hst; exact .leak
  case case10 => intro hst; cases hst

/-- A finished call does not move. -/
theorem RecvMoves.unfinished (hm : RecvMoves ring r i m pc act e pc') : pc.finished = false := by
  cases hm <;> rfl

theorem recvStep_finished (hst : recvStep ring r i m pc act = some (e, pc')) :
    pc.finished = false :=
  (recvMoves_of_step hst).unfinished

end RecvCalls

/-! ## Invariants of the calls -/

section Rules

variable {ring : RingBufferMeta} {σ σ' : Sys T N} {l : Label T N}

/-- **Where an event comes from**: a step leaves the memory and the trace alone, or it performs one
event of a sender call or of a receive call, or it drops a receiver. -/
theorem Moves.event_cases (hm : Moves ring σ l σ') :
    (σ'.trace = σ.trace ∧ σ'.mem = σ.mem) ∨
      ∃ e, σ'.trace = e :: σ.trace ∧ σ'.mem = σ.mem.apply ring e ∧
        ((∃ k act pc, l = .sender k act ∧ k < σ.nextSend ∧
            SenderMoves ring k σ.mem (σ.sends k) act (some e) pc) ∨
          (∃ r act pc, l = .receiver r act ∧ r < σ.nextRecv ∧
            RecvMoves ring r (σ.recvReceiver r) σ.mem (σ.recvs r) act (some e) pc) ∨
          ∃ i, l = .dropReceiver i ∧ e = .dropReceiver i) := by
  cases hm with
  | clone | dropSender | dropLast | send | recv => exact Or.inl ⟨rfl, rfl⟩
  | @sender k act e pc hk hst =>
    cases e with
    | none => exact Or.inl ⟨rfl, rfl⟩
    | some e =>
      exact Or.inr ⟨e, rfl, rfl, Or.inl ⟨k, act, pc, rfl, hk, senderMoves_of_step hst⟩⟩
  | @receiver r act e pc hr hst =>
    cases e with
    | none => exact Or.inl ⟨rfl, rfl⟩
    | some e =>
      exact Or.inr ⟨e, rfl, rfl, Or.inr (Or.inl ⟨r, act, pc, rfl, hr, recvMoves_of_step hst⟩)⟩
  | @dropReceiver i =>
    exact Or.inr ⟨.dropReceiver i, rfl, rfl, Or.inr (Or.inr ⟨i, rfl, rfl⟩)⟩

/-- **The rule for an invariant of the sender calls**: it holds where a call starts, a step of the
call itself keeps it, and so does every other step. -/
theorem Moves.forall_sends {J K : Nat → SenderPc T → Prop} (hm : Moves ring σ l σ')
    (hJ : ∀ k, J k (σ.sends k))
    (hstart : ∀ h c, l = .send h c → K σ.nextSend c.start)
    (hclose : ∀ h, l = .dropSender h → σ.senders h = true → σ.LastSender h →
      σ'.trace = σ.trace → σ'.mem = σ.mem → K σ.nextSend (.closing .load .lastSender))
    (hown : ∀ k act e pc, l = .sender k act → k < σ.nextSend →
      SenderMoves ring k σ.mem (σ.sends k) act e pc → J k (σ.sends k) →
        σ'.trace = record e σ.trace → σ'.mem = (σ.perform ring e).mem → K k pc)
    (hother : ∀ k, (∀ act, l ≠ .sender k act) → J k (σ.sends k) → K k (σ.sends k)) :
    ∀ k, K k (σ'.sends k) := by
  have hsame : (∀ k act, l ≠ .sender k act) → ∀ k, K k (σ.sends k) :=
    fun hl k => hother k (hl k) (hJ k)
  cases hm with
  | clone | dropSender | recv | dropReceiver => exact hsame (by simp)
  | receiver => rw [perform_sends]; exact hsame (by simp)
  | @dropLast h hlive hidle hlast =>
    exact (Function.forall_update_iff σ.sends _).mpr
      ⟨hclose h rfl hlive hlast rfl rfl, fun k _ => hsame (by simp) k⟩
  | @send h c =>
    exact (Function.forall_update_iff σ.sends _).mpr ⟨hstart h c rfl, fun k _ => hsame (by simp) k⟩
  | @sender k act e pc hk hst =>
    refine (Function.forall_update_iff σ.sends _).mpr ⟨?_, fun k' hk' => ?_⟩
    · exact hown k act e pc rfl hk (senderMoves_of_step hst) (hJ k) (perform_trace ring σ e) rfl
    · refine hother k' ?_ (hJ k')
      rintro act' heq
      cases heq
      exact hk' rfl

/-- The rule for an invariant of the receive calls, each on its receiver. -/
theorem Moves.forall_recvs {J K : Nat → Fin N → RecvPc → Prop} (hm : Moves ring σ l σ')
    (hJ : ∀ r, J r (σ.recvReceiver r) (σ.recvs r))
    (hstart : ∀ i limit async, l = .recv i limit async →
      K σ.nextRecv i (recvStart limit async))
    (hown : ∀ r act e pc, l = .receiver r act → r < σ.nextRecv →
      RecvMoves ring r (σ.recvReceiver r) σ.mem (σ.recvs r) act e pc →
        J r (σ.recvReceiver r) (σ.recvs r) → σ'.trace = record e σ.trace →
          σ'.mem = (σ.perform ring e).mem → K r (σ.recvReceiver r) pc)
    (hother : ∀ r, (∀ act, l ≠ .receiver r act) → J r (σ.recvReceiver r) (σ.recvs r) →
      K r (σ.recvReceiver r) (σ.recvs r)) :
    ∀ r, K r (σ'.recvReceiver r) (σ'.recvs r) := by
  have hsame : (∀ r act, l ≠ .receiver r act) →
      ∀ r, K r (σ.recvReceiver r) (σ.recvs r) := fun hl r => hother r (hl r) (hJ r)
  cases hm with
  | clone | dropSender | dropLast | send | dropReceiver => exact hsame (by simp)
  | sender => rw [perform_recvReceiver, perform_recvs]; exact hsame (by simp)
  | @recv i limit async hlive =>
    intro r
    show K r (Function.update σ.recvReceiver σ.nextRecv i r)
      (Function.update σ.recvs σ.nextRecv (recvStart limit async) r)
    by_cases hr : r = σ.nextRecv
    · rw [hr, Function.update_self, Function.update_self]
      exact hstart i limit async rfl
    · rw [Function.update_of_ne hr, Function.update_of_ne hr]
      exact hsame (by simp) r
  | @receiver r₀ act e pc hr₀ hst =>
    intro r
    show K r ((σ.perform ring e).recvReceiver r) (Function.update σ.recvs r₀ pc r)
    rw [perform_recvReceiver]
    by_cases hr : r = r₀
    · rw [hr, Function.update_self]
      exact hown r₀ act e pc rfl hr₀ (recvMoves_of_step hst) (hJ r₀) (perform_trace ring σ e) rfl
    · rw [Function.update_of_ne hr]
      refine hother r ?_ (hJ r)
      rintro act' heq
      cases heq
      exact hr rfl

/-- A step of another party leaves a sender call where it is. -/
theorem Moves.sends_other {k : Nat} (hm : Moves ring σ l σ') (hk : k < σ.nextSend)
    (hl : ∀ act, l ≠ .sender k act) : σ'.sends k = σ.sends k := by
  cases hm with
  | clone | dropSender | recv | dropReceiver => rfl
  | receiver => rw [perform_sends]
  | dropLast | send => exact Function.update_of_ne (by omega) _ _
  | sender => exact Function.update_of_ne (fun heq => hl _ (by rw [heq])) _ _

/-- A step that is not the call's own leaves it where it is, unless it makes the call. -/
theorem Moves.sends_cases {k : Nat} (hm : Moves ring σ l σ') (hl : ∀ act, l ≠ .sender k act) :
    σ'.sends k = σ.sends k ∨ (∃ h c, l = .send h c ∧ σ.nextSend = k ∧ σ'.sends k = c.start) ∨
      σ'.sends k = .closing .load .lastSender := by
  have hcases := hm.forall_sends (J := fun k pc => pc = σ.sends k)
    (K := fun k pc => (∃ act, l = .sender k act) ∨ pc = σ.sends k ∨
      (∃ h c, l = .send h c ∧ σ.nextSend = k ∧ pc = c.start) ∨ pc = .closing .load .lastSender)
    (fun _ => rfl) (fun h c heq => Or.inr (Or.inr (Or.inl ⟨h, c, heq, rfl, rfl⟩)))
    (fun _ _ _ _ _ _ => Or.inr (Or.inr (Or.inr rfl)))
    (fun k act _ _ heq _ _ _ _ _ => Or.inl ⟨act, heq⟩)
    (fun _ _ heq => Or.inr (Or.inl heq)) k
  exact hcases.resolve_left fun ⟨act, heq⟩ => hl act heq

/-- A step of a sender call is one of its moves. -/
theorem Moves.sends_self {k : Nat} {act : SenderAct T} (hm : Moves ring σ (.sender k act) σ') :
    ∃ e, SenderMoves ring k σ.mem (σ.sends k) act e (σ'.sends k) ∧
      σ'.trace = record e σ.trace ∧ σ'.mem = (σ.perform ring e).mem := by
  cases hm with
  | @sender _ _ e pc hk hst =>
    refine ⟨e, ?_, perform_trace ring σ e, rfl⟩
    show SenderMoves ring k σ.mem (σ.sends k) act e (Function.update σ.sends k pc k)
    rw [Function.update_self]
    exact senderMoves_of_step hst

/-- A step is a move of the call, or it is not a step of it. -/
theorem Moves.sender_cases (hm : Moves ring σ l σ') (k : Nat) :
    (∃ act e, l = .sender k act ∧ SenderMoves ring k σ.mem (σ.sends k) act e (σ'.sends k) ∧
        σ'.trace = record e σ.trace ∧ σ'.mem = (σ.perform ring e).mem) ∨
      ∀ act, l ≠ .sender k act := by
  by_cases hself : ∃ act, l = .sender k act
  · obtain ⟨act, rfl⟩ := hself
    obtain ⟨e, hsm, htrace, hmem⟩ := hm.sends_self
    exact Or.inl ⟨act, e, rfl, hsm, htrace, hmem⟩
  · exact Or.inr fun act heq => hself ⟨act, heq⟩

/-- A step of another party leaves a receive call where it is. -/
theorem Moves.recvs_other {r : Nat} (hm : Moves ring σ l σ') (hr : r < σ.nextRecv)
    (hl : ∀ act, l ≠ .receiver r act) :
    σ'.recvs r = σ.recvs r ∧ σ'.recvReceiver r = σ.recvReceiver r := by
  cases hm with
  | clone | dropSender | dropLast | send | dropReceiver => exact ⟨rfl, rfl⟩
  | sender => rw [perform_recvs, perform_recvReceiver]; exact ⟨rfl, rfl⟩
  | recv =>
    exact ⟨Function.update_of_ne (by omega) _ _, Function.update_of_ne (by omega) _ _⟩
  | receiver =>
    exact ⟨Function.update_of_ne (fun heq => hl _ (by rw [heq])) _ _,
      by rw [perform_recvReceiver]⟩

/-- A step of a receive call is one of its moves. -/
theorem Moves.recvs_self {r : Nat} {act : RecvAct} (hm : Moves ring σ (.receiver r act) σ') :
    ∃ e, RecvMoves ring r (σ.recvReceiver r) σ.mem (σ.recvs r) act e (σ'.recvs r) ∧
      σ'.trace = record e σ.trace ∧ σ'.mem = (σ.perform ring e).mem ∧ σ'.sends = σ.sends ∧
        σ'.recvReceiver = σ.recvReceiver ∧ σ'.nextRecv = σ.nextRecv := by
  cases hm with
  | @receiver _ _ e pc hr hst =>
    refine ⟨e, ?_, perform_trace ring σ e, rfl, perform_sends ring σ e,
      perform_recvReceiver ring σ e, perform_nextRecv ring σ e⟩
    show RecvMoves ring r _ σ.mem (σ.recvs r) act e (Function.update σ.recvs r pc r)
    rw [Function.update_self]
    exact recvMoves_of_step hst

theorem Moves.nextSend_le (hm : Moves ring σ l σ') : σ.nextSend ≤ σ'.nextSend := by
  cases hm with
  | sender | receiver | dropReceiver => rw [perform_nextSend]
  | dropLast | send => exact Nat.le_succ _
  | _ => exact le_refl _

theorem Moves.nextRecv_le (hm : Moves ring σ l σ') : σ.nextRecv ≤ σ'.nextRecv := by
  cases hm with
  | sender | receiver | dropReceiver => rw [perform_nextRecv]
  | recv => exact Nat.le_succ _
  | _ => exact le_refl _

/-- A handle that is dropped was live. -/
theorem Moves.live_of_dropSender {h : Nat} (hm : Moves ring σ (.dropSender h) σ') :
    σ.senders h = true := by
  cases hm with
  | dropSender hlive | dropLast hlive => exact hlive

/-- A tear-down stays one. -/
theorem Moves.teardown {k : Nat} (hm : Moves ring σ l σ') (hk : k < σ.nextSend)
    (ht : (σ.sends k).teardown = true) : (σ'.sends k).teardown = true := by
  cases hm with
  | clone | dropSender | recv | dropReceiver => exact ht
  | receiver => rwa [perform_sends]
  | dropLast | send =>
    show (Function.update σ.sends σ.nextSend _ k).teardown = true
    rwa [Function.update_of_ne (by omega)]
  | @sender k₀ act e pc hk₀ hst =>
    show (Function.update σ.sends k₀ pc k).teardown = true
    by_cases hkk : k = k₀
    · rw [hkk, Function.update_self, senderStep_teardown hst, ← hkk]
      exact ht
    · rwa [Function.update_of_ne hkk]

end Rules

end EnsoChannel
