import EnsoChannel.Scans
import EnsoChannel.Steps

/-!
# Operations without interference

One party runs by itself from a state in which the others stand still: the sequential meaning of the
operations, computed from the small steps of `Sender.lean` and `Receiver.lean`. A call is followed
with `Settles` until it asks its user for something or is over, so every result here is a
termination result too.

* `Sys.Sends`, `Sys.Acts`: a send operation, and what the user then does with its permit. While a
  permit is dropped the recycler is run; here it is a function that does not panic.
* `Sys.Receives`: `try_recv_at_most`, or one poll. `Sys.ReceivesBy` is the same for a step function
  that may compute the end of the scan otherwise (`SameButLoad`).
* `claim_alone`: the claim loop returns `tryClaimAtMost`, in one iteration.
* `commit_alone`: `commit_range` publishes its range (`publishFrom`) and wakes everybody.
* `scan_alone`: the receiver's scan returns `scanAvailable`; `load_alone`: a receive claim returns
  `scanAvailableUntil`; `closeScan_alone`: the scan of `close()` ends at `closeBoundary`.

A call that runs alone changes its own place in the table, the memory and the trace and nothing
else: `Sys.withSend` and `Sys.withRecv` are the states it goes through.
-/

namespace EnsoChannel

open Lib

variable {T : Type} {N : Nat}

/-! ## The states of a call that runs alone -/

/-- The memory after a step with the event `e`. -/
def Mem.effect (ring : RingBufferMeta) (m : Mem T N) : Option (Event T N) → Mem T N
  | none => m
  | some e => m.apply ring e

/-- The state in which sender call `k` stands at `pc`, with memory `m` and trace `t`. -/
def Sys.withSend (σ : Sys T N) (k : Nat) (m : Mem T N) (t : History T N) (pc : SenderPc T) :
    Sys T N :=
  { σ with mem := m, trace := t, sends := Function.update σ.sends k pc }

/-- The state in which receive call `r` stands at `pc`, with memory `m` and trace `t`. -/
def Sys.withRecv (σ : Sys T N) (r : Nat) (m : Mem T N) (t : History T N) (pc : RecvPc) : Sys T N :=
  { σ with mem := m, trace := t, recvs := Function.update σ.recvs r pc }

/-- What a call does next when its user is not asked: the library code runs on, and where a slot
is to be recycled the recycler leaves `recycle` of what it found there. -/
def nextAct (ring : RingBufferMeta) (recycle : T → T) (m : Mem T N) : SenderPc T → SenderAct T
  | .recycling seq => .recycled (recycle (m.slots (ring.indexOfSeq seq)))
  | .batchRecycling _ seq => .recycled (recycle (m.slots (ring.indexOfSeq seq)))
  | .draining p =>
    if p.endSeq ≠ -1 ∧ p.nextSeq ≤ p.endSeq then
      .recycled (recycle (m.slots (ring.indexOfSeq p.nextSeq)))
    else .run
  | _ => .run

/-- Sender call `k` runs from `σ` to `σ'`, where its user is asked or it is over. -/
def Sys.SenderSettles (ring : RingBufferMeta) (recycle : T → T) (k : Nat) (σ σ' : Sys T N) : Prop :=
  Settles (step ring) (fun σ => .sender k (nextAct ring recycle σ.mem (σ.sends k))) σ σ'

/-- The operation `c` on sender handle `h`, run without interference. Its call is `σ.nextSend`. -/
def Sys.Sends (ring : RingBufferMeta) (recycle : T → T) (h : Nat) (c : SendCall T)
    (σ σ' : Sys T N) : Prop :=
  ∃ σ₁, step ring σ (.send h c) = some σ₁ ∧ Sys.SenderSettles ring recycle σ.nextSend σ₁ σ'

/-- The user of call `k` does `act`, and the call runs on without interference. -/
def Sys.Acts (ring : RingBufferMeta) (recycle : T → T) (k : Nat) (act : SenderAct T)
    (σ σ' : Sys T N) : Prop :=
  ∃ σ₁, step ring σ (.sender k act) = some σ₁ ∧ Sys.SenderSettles ring recycle k σ₁ σ'

/-- `try_recv_at_most(limit)`, or one poll of `recv_at_most_async(limit)`, on receiver `i`, run
without interference by the steps of `next`. Its call is `σ.nextRecv`. -/
def Sys.ReceivesBy (next : Sys T N → Label T N → Option (Sys T N)) (i : Fin N) (limit : Nat)
    (async : Bool) (σ σ' : Sys T N) : Prop :=
  ∃ σ₁, next σ (.recv i limit async) = some σ₁ ∧
    Settles next (fun _ => .receiver σ.nextRecv .run) σ₁ σ'

/-- The same by the steps of the model. -/
def Sys.Receives (ring : RingBufferMeta) : Fin N → Nat → Bool → Sys T N → Sys T N → Prop :=
  Sys.ReceivesBy (step ring)

/-- `next` moves the receive calls as the model does, but for the load of the cursor. -/
structure SameButLoad (ring : RingBufferMeta) (next : Sys T N → Label T N → Option (Sys T N)) :
    Prop where
  recv : ∀ σ i limit async, next σ (.recv i limit async) = step ring σ (.recv i limit async)
  receiver : ∀ σ r act, (∀ q, σ.recvs r ≠ .load q) →
    next σ (.receiver r act) = step ring σ (.receiver r act)

/-- `max_consumed()` while nobody moves: the minimum of the first `i` cursors. -/
def Mem.gate (m : Mem T N) : Nat → Int
  | 0 => Sequence.shutdownOpen
  | i + 1 => if h : i < N then min (m.gate i) (m.consumed ⟨i, h⟩) else m.gate i

/-- `try_claim_at_most(limit)` while nobody moves: the sequences it is granted. -/
def tryClaimAtMost (ring : RingBufferMeta) (m : Mem T N) (limit : Int) :
    Except TryClaimError (Int × Int) :=
  if hasShutdown m.claimed then .error .shutdown
  else if m.gate N = Sequence.shutdownOpen then .error .shutdown
  else
    let available := ring.availableSlots m.claimed (m.gate N)
    if m.claimed + 1 > m.claimed + available then .error .empty
    else .ok (m.claimed + 1, m.claimed + min available (min limit ring.bufferSize))

section

variable {ring : RingBufferMeta} {recycle : T → T} {σ σ' σ'' : Sys T N} {k r : Nat} {m : Mem T N}
  {t : History T N} {pc q : SenderPc T} {act : SenderAct T} {e : Option (Event T N)} {i : Fin N}
  {next : Sys T N → Label T N → Option (Sys T N)}

/-! ## Determinism -/

theorem Sys.Sends.unique {h : Nat} {c : SendCall T} (h₁ : Sys.Sends ring recycle h c σ σ')
    (h₂ : Sys.Sends ring recycle h c σ σ'') : σ' = σ'' := by
  obtain ⟨σ₁, hst₁, hs₁⟩ := h₁
  obtain ⟨σ₂, hst₂, hs₂⟩ := h₂
  obtain rfl := Option.some.inj (hst₁.symm.trans hst₂)
  exact Settles.unique hs₁ hs₂

theorem Sys.Acts.unique (h₁ : Sys.Acts ring recycle k act σ σ')
    (h₂ : Sys.Acts ring recycle k act σ σ'') : σ' = σ'' := by
  obtain ⟨σ₁, hst₁, hs₁⟩ := h₁
  obtain ⟨σ₂, hst₂, hs₂⟩ := h₂
  obtain rfl := Option.some.inj (hst₁.symm.trans hst₂)
  exact Settles.unique hs₁ hs₂

theorem Sys.ReceivesBy.unique {limit : Nat} {async : Bool}
    (h₁ : Sys.ReceivesBy next i limit async σ σ') (h₂ : Sys.ReceivesBy next i limit async σ σ'') :
    σ' = σ'' := by
  obtain ⟨σ₁, hst₁, hs₁⟩ := h₁
  obtain ⟨σ₂, hst₂, hs₂⟩ := h₂
  obtain rfl := Option.some.inj (hst₁.symm.trans hst₂)
  exact Settles.unique hs₁ hs₂

theorem Sys.Receives.unique {limit : Nat} {async : Bool}
    (h₁ : Sys.Receives ring i limit async σ σ') (h₂ : Sys.Receives ring i limit async σ σ'') :
    σ' = σ'' :=
  Sys.ReceivesBy.unique h₁ h₂

/-! ## Stepping a call -/

@[simp] theorem withSend_sends : (σ.withSend k m t pc).sends k = pc := Function.update_self _ _ _

@[simp] theorem withRecv_recvs {pc : RecvPc} : (σ.withRecv r m t pc).recvs r = pc :=
  Function.update_self _ _ _

/-- A call stands where it stands. -/
theorem withSend_self (hpc : σ.sends k = pc) : σ.withSend k σ.mem σ.trace pc = σ := by
  unfold Sys.withSend
  rw [← hpc, Function.update_eq_self]

theorem step_withSend (hk : k < σ.nextSend) (hst : senderStep ring k m pc act = some (e, q)) :
    step ring (σ.withSend k m t pc) (.sender k act) =
      some (σ.withSend k (m.effect ring e) (record e t) q) := by
  have hpc : senderStep ring k (σ.withSend k m t pc).mem ((σ.withSend k m t pc).sends k) act =
      some (e, q) := by
    rw [withSend_sends]
    exact hst
  have hk : k < (σ.withSend k m t pc).nextSend := hk
  simp only [step, if_pos hk, hpc]
  cases e <;> simp [Sys.withSend, Sys.perform, Mem.effect, record]

theorem step_withSend_none (hst : senderStep ring k m pc act = none) :
    step ring (σ.withSend k m t pc) (.sender k act) = none := by
  have hpc : senderStep ring k (σ.withSend k m t pc).mem ((σ.withSend k m t pc).sends k) act =
      none := by
    rw [withSend_sends]
    exact hst
  simp only [step, hpc]
  split <;> rfl

/-- One step of a call that runs alone. -/
theorem settles_move (hk : k < σ.nextSend)
    (hst : senderStep ring k m pc (nextAct ring recycle m pc) = some (e, q))
    (hs : Sys.SenderSettles ring recycle k
      (σ.withSend k (m.effect ring e) (record e t) q) σ'') :
    Sys.SenderSettles ring recycle k (σ.withSend k m t pc) σ'' := by
  refine Settles.move ?_ hs
  rw [withSend_sends]
  exact step_withSend hk hst

/-- A call that asks its user, or is over, is settled. -/
theorem settles_rest (hst : senderStep ring k m pc (nextAct ring recycle m pc) = none) :
    Sys.SenderSettles ring recycle k (σ.withSend k m t pc) (σ.withSend k m t pc) := by
  refine Settles.rest ?_
  rw [withSend_sends]
  exact step_withSend_none hst

/-- What a step of a receive call that runs alone leaves. -/
theorem perform_withRecv {pc q : RecvPc} :
    ({ (σ.withRecv r m t pc).perform ring e with
        recvs := Function.update (σ.withRecv r m t pc).recvs r q } : Sys T N) =
      σ.withRecv r (m.effect ring e) (record e t) q := by
  cases e <;> simp [Sys.withRecv, Sys.perform, Mem.effect, record]

theorem step_withRecv {pc q : RecvPc} {act : RecvAct} (hr : r < σ.nextRecv)
    (hst : recvStep ring r (σ.recvReceiver r) m pc act = some (e, q)) :
    step ring (σ.withRecv r m t pc) (.receiver r act) =
      some (σ.withRecv r (m.effect ring e) (record e t) q) := by
  have hpc : recvStep ring r ((σ.withRecv r m t pc).recvReceiver r) (σ.withRecv r m t pc).mem
      ((σ.withRecv r m t pc).recvs r) act = some (e, q) := by
    rw [withRecv_recvs]
    exact hst
  have hr : r < (σ.withRecv r m t pc).nextRecv := hr
  simp only [step, if_pos hr, hpc]
  rw [← perform_withRecv]

theorem step_withRecv_none {pc : RecvPc} {act : RecvAct}
    (hst : recvStep ring r (σ.recvReceiver r) m pc act = none) :
    step ring (σ.withRecv r m t pc) (.receiver r act) = none := by
  have hpc : recvStep ring r ((σ.withRecv r m t pc).recvReceiver r) (σ.withRecv r m t pc).mem
      ((σ.withRecv r m t pc).recvs r) act = none := by
    rw [withRecv_recvs]
    exact hst
  simp only [step, hpc]
  split <;> rfl

/-! ## The claim loop -/

/-- The gate reads the remaining cursors. -/
theorem gate_alone {c : SendCall T} {last : Int} (hk : k < σ.nextSend) {i : Nat} (hi : i ≤ N)
    (hs : Sys.SenderSettles ring recycle k
      (σ.withSend k m t (.maxConsumed c last N (m.gate N))) σ'') :
    Sys.SenderSettles ring recycle k (σ.withSend k m t (.maxConsumed c last i (m.gate i))) σ'' := by
  induction hi using Nat.decreasingInduction with
  | self => exact hs
  | of_succ i hlt ih =>
    refine settles_move hk (e := none) (q := .maxConsumed c last (i + 1) (m.gate (i + 1))) ?_ ih
    simp only [nextAct, senderStep, dif_pos hlt, Mem.gate]

/-- What the loop body does when the compare-exchange is not disturbed. -/
def Sys.claimed (σ : Sys T N) (k : Nat) (m : Mem T N) (t : History T N) (c : SendCall T) :
    Except TryClaimError (Int × Int) → Sys T N
  | .error e => σ.withSend k m t (.refused e)
  | .ok (a, b) => σ.withSend k { m with claimed := b } (.claim k a b :: t) (granted c a b)

/-- **The claim loop returns `tryClaimAtMost`** in its first iteration. -/
theorem claim_alone {c : SendCall T} (hk : k < σ.nextSend)
    (hs : Sys.SenderSettles ring recycle k
      (σ.claimed k m t c (tryClaimAtMost ring m c.limit)) σ'') :
    Sys.SenderSettles ring recycle k (σ.withSend k m t (.loadClaimed c)) σ'' := by
  refine settles_move hk (e := none) (q := claimLoop c m.claimed) rfl ?_
  show Sys.SenderSettles ring recycle k (σ.withSend k m t (claimLoop c m.claimed)) σ''
  unfold tryClaimAtMost at hs
  unfold claimLoop
  by_cases hshut : hasShutdown m.claimed = true
  · rw [if_pos hshut] at hs ⊢
    exact hs
  rw [if_neg hshut] at hs ⊢
  refine gate_alone hk (Nat.zero_le N) ?_
  refine settles_move hk (e := none) (q := claimBody ring c m.claimed (m.gate N)) ?_ ?_
  · simp only [nextAct, senderStep, lt_irrefl, dite_false]
  show Sys.SenderSettles ring recycle k
    (σ.withSend k m t (claimBody ring c m.claimed (m.gate N))) σ''
  unfold claimBody
  by_cases hdropped : m.gate N = Sequence.shutdownOpen
  · rw [if_pos hdropped] at hs ⊢
    exact hs
  rw [if_neg hdropped] at hs ⊢
  by_cases hfull : m.claimed + 1 > m.claimed + ring.availableSlots m.claimed (m.gate N)
  · rw [if_pos hfull] at hs ⊢
    exact hs
  rw [if_neg hfull] at hs ⊢
  rw [add_sub_cancel_left]
  show Sys.SenderSettles ring recycle k (σ.withSend k m t (.compareExchange c m.claimed (m.gate N)
    (m.claimed + min (ring.availableSlots m.claimed (m.gate N)) (min c.limit ring.bufferSize)))) σ''
  generalize m.claimed + min (ring.availableSlots m.claimed (m.gate N))
    (min c.limit ring.bufferSize) = b at hs ⊢
  refine settles_move hk (e := some (.claim k (m.claimed + 1) b))
    (q := granted c (m.claimed + 1) b) ?_ hs
  simp only [nextAct, senderStep, if_true]

/-- The state after the start of an operation on handle `h`, but for where its call stands. -/
def Sys.called (σ : Sys T N) (h : Nat) : Sys T N :=
  { σ with
    sendHandle := Function.update σ.sendHandle σ.nextSend h
    nextSend := σ.nextSend + 1 }

theorem sends_start {h : Nat} {c : SendCall T} (hlive : σ.senders h = true)
    (hs : Sys.SenderSettles ring recycle σ.nextSend
      ((σ.called h).withSend σ.nextSend σ.mem σ.trace c.start) σ') :
    Sys.Sends ring recycle h c σ σ' := by
  refine ⟨_, ?_, hs⟩
  simp only [step, if_pos hlive]
  rfl

/-- **An operation that claims** goes on with what `tryClaimAtMost` grants it. -/
theorem sends_claim {h : Nat} {c : SendCall T} (hlive : σ.senders h = true)
    (hstart : c.start = .loadClaimed c)
    (hs : Sys.SenderSettles ring recycle σ.nextSend
      ((σ.called h).claimed σ.nextSend σ.mem σ.trace c (tryClaimAtMost ring σ.mem c.limit)) σ') :
    Sys.Sends ring recycle h c σ σ' := by
  refine sends_start hlive ?_
  rw [hstart]
  exact claim_alone (Nat.lt_succ_self _) hs

/-! ## Committing -/

theorem published_wake {j : Fin N} {w : Option Nat} {s : Int} :
    Published (.wake j w :: t) s ↔ Published t s :=
  published_cons_of_ne (by simp)

variable (ring recycle) in
/-- `notify` wakes the remaining receivers. -/
theorem notify_alone (hk : k < σ.nextSend) {i : Nat} (hi : i ≤ N) :
    ∃ w t', Sys.SenderSettles ring recycle k (σ.withSend k m t (.notifying i))
        (σ.withSend k { m with wakers := w } t' .committed) ∧
      ∀ s, Published t' s ↔ Published t s := by
  induction hi using Nat.decreasingInduction generalizing m t with
  | self =>
    refine ⟨m.wakers, t, settles_move hk (e := none) (q := .committed) ?_ (settles_rest rfl),
      fun _ => Iff.rfl⟩
    simp only [nextAct, senderStep, lt_irrefl, dite_false]
  | of_succ i hlt ih =>
    obtain ⟨w, t', hs, hp⟩ := ih (m := m.apply ring (.wake ⟨i, hlt⟩ (m.wakers ⟨i, hlt⟩)))
      (t := .wake ⟨i, hlt⟩ (m.wakers ⟨i, hlt⟩) :: t)
    refine ⟨w, t', settles_move hk (e := some (.wake ⟨i, hlt⟩ (m.wakers ⟨i, hlt⟩)))
      (q := .notifying (i + 1)) ?_ hs, fun s => (hp s).trans published_wake⟩
    simp only [nextAct, senderStep, dif_pos hlt]

variable (ring recycle) in
/-- **`commit_range` publishes its range**, one store after the other, and wakes everybody. -/
theorem commit_alone (hk : k < σ.nextSend) (n : Nat) (first seq : Int) :
    ∃ w t', Sys.SenderSettles ring recycle k
        (σ.withSend k m t (.publishing first seq (seq + n - 1)))
        (σ.withSend k { m with states := ring.publishFrom m.states seq n, wakers := w } t'
          .committed) ∧
      ∀ s, Published t' s ↔ Published t s ∨ seq ≤ s ∧ s < seq + n := by
  induction n generalizing m t seq with
  | zero =>
    obtain ⟨w, t', hs, hp⟩ := notify_alone ring recycle (m := m) (t := t) hk (Nat.zero_le N)
    refine ⟨w, t', settles_move hk (e := none) (q := .notifying 0) ?_ hs, fun s => ?_⟩
    · simp only [nextAct, senderStep]
      rw [if_neg (by omega)]
    · rw [hp, Nat.cast_zero]
      exact (or_iff_left (by omega)).symm
  | succ n ih =>
    obtain ⟨w, t', hs, hp⟩ := ih (m := m.apply ring (.publish k seq)) (t := .publish k seq :: t)
      (seq + 1)
    have hlast : seq + 1 + (n : Int) - 1 = seq + ((n + 1 : Nat) : Int) - 1 := by
      push_cast
      omega
    rw [hlast] at hs
    refine ⟨w, t', settles_move hk (e := some (.publish k seq))
      (q := .publishing first (seq + 1) (seq + ((n + 1 : Nat) : Int) - 1)) ?_ hs, fun s => ?_⟩
    · simp only [nextAct, senderStep]
      rw [if_pos (by push_cast; omega)]
    · rw [hp, published_publish]
      push_cast
      constructor
      · rintro ((rfl | h) | h)
        · exact Or.inr (by omega)
        · exact Or.inl h
        · exact Or.inr (by omega)
      · rintro (h | h)
        · exact Or.inl (Or.inr h)
        · rcases eq_or_lt_of_le h.1 with heq | hlt
          · exact Or.inl (Or.inl heq)
          · exact Or.inr (by omega)

/-! ## Scanning -/

/-- The state after receive call `r` has returned with `out`. -/
def Sys.returned (ring : RingBufferMeta) (σ : Sys T N) (r : Nat) (m : Mem T N) (t : History T N)
    (out : Option (Event T N) × RecvPc) : Sys T N :=
  σ.withRecv r (m.effect ring out.1) (record out.1 t) out.2

theorem sameButLoad_step : SameButLoad ring (step ring : Sys T N → Label T N → _) :=
  ⟨fun _ _ _ _ => rfl, fun _ _ _ _ => rfl⟩

theorem SameButLoad.withRecv (hnext : SameButLoad ring next) {pc : RecvPc}
    (hpc : ∀ q, pc ≠ .load q) (act : RecvAct) :
    next (σ.withRecv r m t pc) (.receiver r act) =
      step ring (σ.withRecv r m t pc) (.receiver r act) := by
  refine hnext.receiver _ r act fun q => ?_
  rw [withRecv_recvs]
  exact hpc q

/-- One step of a receive call that runs alone. -/
theorem recvSettles_move {pc : RecvPc} {o : Option (Event T N) × RecvPc}
    (hnext : SameButLoad ring next) (hpc : ∀ q, pc ≠ .load q) (hr : r < σ.nextRecv)
    (hst : recvStep ring r (σ.recvReceiver r) m pc .run = some o)
    (hs : Settles next (fun _ => .receiver r .run) (σ.returned ring r m t o) σ'') :
    Settles next (fun _ => .receiver r .run) (σ.withRecv r m t pc) σ'' :=
  Settles.move ((hnext.withRecv hpc .run).trans (step_withRecv hr hst)) hs

/-- **The receiver's scan** of `n + 1` more slots returns what `scanAvailable` computes. -/
theorem scan_alone {q : RecvCall} {lastClaimed : Int} (hnext : SameButLoad ring next)
    (hr : r < σ.nextRecv) (n : Nat) (seq : Int) (shutdown : Bool)
    (hs : Settles next (fun _ => .receiver r .run)
      (σ.returned ring r m t (recvReturn r (σ.recvReceiver r) q lastClaimed
        (ring.scanAvailable m.states seq shutdown (n + 1)).1
        (ring.scanAvailable m.states seq shutdown (n + 1)).2)) σ'') :
    Settles next (fun _ => .receiver r .run)
      (σ.withRecv r m t (.scan q lastClaimed (seq + n) seq shutdown)) σ'' := by
  induction n generalizing seq shutdown with
  | zero =>
    refine recvSettles_move hnext (by simp) hr ?_ hs
    simp only [recvStep, RingBufferMeta.scanAvailable]
    split
    · rfl
    · simp
  | succ n ih =>
    rw [RingBufferMeta.scanAvailable] at hs
    by_cases hflag : lapOf (m.states (ring.slotState seq).1) ≠ (ring.slotState seq).2
    · refine recvSettles_move hnext (by simp) hr ?_ hs
      simp only [recvStep, if_pos hflag]
    · simp only [if_neg hflag] at hs
      have hrest := ih (seq + 1) (shutdown || shutdownOf (m.states (ring.slotState seq).1)) hs
      rw [show seq + 1 + (n : Int) = seq + ((n + 1 : Nat) : Int) by push_cast; omega] at hrest
      refine recvSettles_move hnext (by simp) hr (o := (none, _)) ?_ hrest
      simp only [recvStep, if_neg hflag]
      rw [if_neg (by omega)]

/-- Where a receive call goes that has loaded the cursor `lastClaimed` and is to scan up to
`last`. -/
def recvScan (r : Nat) (i : Fin N) (q : RecvCall) (lastClaimed last : Int) :
    Option (Event T N) × RecvPc :=
  if lastClaimed + 1 ≤ last then (none, .scan q lastClaimed last (lastClaimed + 1) false)
  else recvReturn r i q lastClaimed (lastClaimed + 1 - 1) false

/-- The model scans as many slots as the limit and the capacity allow. -/
theorem recvStep_load {q : RecvCall} :
    recvStep ring r i m (.load q) .run =
      some (recvScan r i q (m.consumed i) (m.consumed i + min q.limit ring.bufferSize)) := by
  simp only [recvStep, recvScan]
  split <;> rfl

/-- **A receive claim that scans up to `last`** returns what `scanAvailableUntil` computes. -/
theorem load_alone {q : RecvCall} {lastClaimed last : Int} (hnext : SameButLoad ring next)
    (hr : r < σ.nextRecv)
    (hload : next (σ.withRecv r m t (.load q)) (.receiver r .run) =
      some (σ.returned ring r m t (recvScan r (σ.recvReceiver r) q lastClaimed last)))
    (hs : Settles next (fun _ => .receiver r .run)
      (σ.returned ring r m t (recvReturn r (σ.recvReceiver r) q lastClaimed
        (ring.scanAvailableUntil m.states (lastClaimed + 1) last).1
        (ring.scanAvailableUntil m.states (lastClaimed + 1) last).2)) σ'') :
    Settles next (fun _ => .receiver r .run) (σ.withRecv r m t (.load q)) σ'' := by
  refine Settles.move hload ?_
  unfold RingBufferMeta.scanAvailableUntil at hs
  by_cases hn : lastClaimed + 1 ≤ last
  · obtain ⟨n, rfl⟩ : ∃ n : Nat, last = lastClaimed + 1 + n :=
      ⟨(last - (lastClaimed + 1)).toNat, by omega⟩
    rw [show (lastClaimed + 1 + n + 1 - (lastClaimed + 1)).toNat = n + 1 by omega] at hs
    rw [recvScan, if_pos hn]
    exact scan_alone hnext hr n (lastClaimed + 1) false hs
  · rw [show (last + 1 - (lastClaimed + 1)).toNat = 0 by omega] at hs
    rw [recvScan, if_neg hn]
    exact hs

/-- The sequential `try_claim_at_most(limit)` of a receiver whose cursor is `lastClaimed`. -/
def recvClaim (ring : RingBufferMeta) (states : Nat → RawState) (lastClaimed limit : Int) :
    Int × Bool :=
  ring.scanAvailableUntil states (lastClaimed + 1) (lastClaimed + min limit ring.bufferSize)

/-! ## The scan of `close()` -/

/-- **The boundary of a `close()`** that runs alone is `closeBoundary`. -/
theorem closeScan_alone {raw lastClaimed : Int} {caller : CloseCaller} (hk : k < σ.nextSend)
    (n : Nat) (seq : Int) (hn : seq + n = lastClaimed + 1)
    (hs : Sys.SenderSettles ring recycle k
      (σ.withSend k m t (.closing (.mark raw (ring.scanLast m.states seq n)) caller)) σ'') :
    Sys.SenderSettles ring recycle k
      (σ.withSend k m t (.closing (.scan raw lastClaimed seq) caller)) σ'' := by
  induction n generalizing seq with
  | zero =>
    refine settles_move hk (e := none) (q := .closing (.mark raw lastClaimed) caller) ?_ ?_
    · simp only [nextAct, senderStep, closeStep]
      rw [if_neg (by push_cast at hn; omega)]
    · rw [RingBufferMeta.scanLast, show seq - 1 = lastClaimed by push_cast at hn; omega] at hs
      exact hs
  | succ n ih =>
    rw [RingBufferMeta.scanLast] at hs
    by_cases hflag : lapOf (m.states (ring.slotState seq).1) ≠ (ring.slotState seq).2
    · rw [if_pos hflag] at hs
      refine settles_move hk (e := none) (q := .closing (.mark raw (seq - 1)) caller) ?_ hs
      simp only [nextAct, senderStep, closeStep, if_pos hflag]
      rw [if_pos (by push_cast at hn; omega)]
    · rw [if_neg hflag] at hs
      refine settles_move hk (e := none) (q := .closing (.scan raw lastClaimed (seq + 1)) caller)
        ?_ (ih (seq + 1) (by push_cast at hn; omega) hs)
      simp only [nextAct, senderStep, closeStep, if_neg hflag]
      rw [if_pos (by push_cast at hn; omega)]

theorem close_alone {caller : CloseCaller} (hk : k < σ.nextSend)
    (hs : Sys.SenderSettles ring recycle k
      (σ.withSend k m (.closeStart k :: t) (.closing
        (.mark m.claimed (ring.closeBoundary m.states (lastClaimedOf m.claimed))) caller)) σ'') :
    Sys.SenderSettles ring recycle k (σ.withSend k m t (.closing .load caller)) σ'' := by
  unfold RingBufferMeta.closeBoundary at hs
  by_cases hneg : lastClaimedOf m.claimed < 0
  · rw [if_pos hneg] at hs
    refine settles_move hk (e := some (.closeStart k)) ?_ hs
    simp only [nextAct, senderStep, closeStep, if_pos hneg]
  · rw [if_neg hneg] at hs
    have hsize := ring.bufferSize_pos
    refine settles_move hk (e := some (.closeStart k))
      (q := .closing (.scan m.claimed (lastClaimedOf m.claimed)
        (max (lastClaimedOf m.claimed - (ring.bufferSize - 1)) 0)) caller) ?_
      (closeScan_alone hk _ _ ?_ hs)
    · simp only [nextAct, senderStep, closeStep, if_neg hneg]
    · omega

end

end EnsoChannel
