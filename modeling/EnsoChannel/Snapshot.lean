import EnsoChannel.RecvAtMost
import EnsoChannel.Poison

/-!
# A receive call answers for one instant

A receive call reads the cursor and then one slot state after the other, while the senders go on
publishing and closing. Its answer is still the answer for a single instant between its start and
its return: the one of its last slot-state load (`receive_linearizable`).

* `RecvMoves.scan_cases`: a step of the scan goes on to the next sequence, or it returns as far as
  the published sequences reach in the state in which it is taken. What the scan had passed before
  is published still, and the flag it loads tells whether the next sequence is (`LagInv.flag_iff`).
* `Asked`: what the position of a call remembers of the arguments it was made with.
* `recvAnswer`: what a call is to answer in a state, read off the state.
* `receives_answer`: a call that runs alone answers that.
-/

namespace EnsoChannel

open Lib

variable {T : Type} {N : Nat}

/-- The answer of `try_recv_at_most(limit)`, or of one poll, in the state `σ`, when `p` sequences
are readable. -/
def recvAnswer (ring : RingBufferMeta) (σ : Sys T N) (i : Fin N) (limit : Nat) (async : Bool)
    (p : Nat) : RecvResult :=
  if 1 ≤ p then
    .items (σ.mem.consumed i + 1) (σ.mem.consumed i + min (min (limit : Int) ring.bufferSize) p)
  else if shutdownOf (σ.mem.states (ring.indexOfSeq (σ.mem.consumed i + 1))) then .disconnected
  else if async then .pending
  else .empty

/-- Where a call stands that has answered. -/
def RecvResult.position : RecvResult → RecvPc
  | .items a b => .guard a b
  | .disconnected => .disconnected
  | .empty => .empty
  | .pending => .pending

/-- What the position of a call says about the arguments it was made with. -/
def AskedFor (ring : RingBufferMeta) (limit : Nat) (async : Bool) : RecvPc → Prop
  | .load q => q.limit = limit ∧ (q.stage = .sync ↔ async = false)
  | .register q => q.limit = limit ∧ async = true
  | .scan q lastClaimed last seq shutdown =>
    q.limit = limit ∧ (q.stage = .sync ↔ async = false) ∧
      last = lastClaimed + min (limit : Int) ring.bufferSize ∧
      (seq = lastClaimed + 1 → shutdown = false)
  | _ => True

section

variable {ring : RingBufferMeta} {initial : Nat → T} {σ σ' : Sys T N} {l : Label T N} {r : Nat}
  {i : Fin N} {limit : Nat} {async : Bool} {pc pc' : RecvPc} {act : RecvAct}
  {e : Option (Event T N)} {q : RecvCall} {lastClaimed last seq : Int} {shutdown : Bool}

/-! ## The end of the scan -/

/-- **A step of the scan goes on, or it returns as far as the published sequences reach now.** -/
theorem RecvMoves.scan_cases (hi : Inv ring initial σ) (hl : LagInv ring.bufferSize σ)
    (hd : ¬ Dropped σ.trace i)
    (hinv : RecvInv ring.bufferSize σ.trace (.scan q lastClaimed last seq shutdown))
    (hcur : lastClaimed = position σ.trace i)
    (hm : RecvMoves ring r i σ.mem (.scan q lastClaimed last seq shutdown) act e pc') :
    (e = none ∧ ∃ shutdown', pc' = .scan q lastClaimed last (seq + 1) shutdown') ∨
      ∃ available shutdown', Returns r i q lastClaimed available shutdown' e pc' ∧
        Extent (Published σ.trace) (lastClaimed + 1) last available ∧
        (available = lastClaimed → seq = lastClaimed + 1 ∧
          shutdown' = (shutdown || shutdownOf (σ.mem.states (ring.indexOfSeq seq)))) := by
  obtain ⟨h₀, h₁, h₂, h₃, h₄, hp⟩ := hinv
  have hflag : lapOf (σ.mem.states (ring.indexOfSeq seq)) = ring.availableFlag seq ↔
      Published σ.trace seq := hl.flag_iff hi hd (by omega) (by omega)
  cases hm with
  | scanNext => exact Or.inl ⟨rfl, _, rfl⟩
  | scanEnd hmatch hseq hret =>
    refine Or.inr ⟨_, _, hret, ?_, fun heq => by omega⟩
    refine ⟨by omega, by omega, fun t ht₀ ht₁ => ?_, fun hlt => by omega⟩
    rcases ht₁.lt_or_eq with hlt | rfl
    · exact hp t (by omega) hlt
    · exact hflag.mp hmatch
  | scanStop hmiss hret =>
    refine Or.inr ⟨_, _, hret, ?_, fun heq => ⟨by omega, rfl⟩⟩
    refine ⟨by omega, by omega, fun t ht₀ ht₁ => hp t (by omega) (by omega), fun _ => ?_⟩
    rw [sub_add_cancel]
    exact fun hpub => hmiss (hflag.mpr hpub)

/-- How far the published sequences reach, in numbers of sequences. -/
theorem Sys.Readable.extent {p : Nat} (hp : σ.Readable i p) {n : Int} (hn : 0 ≤ n) :
    Extent (Published σ.trace) (σ.mem.consumed i + 1) (σ.mem.consumed i + n)
      (σ.mem.consumed i + min n p) where
  lower := by omega
  upper := by omega
  within t h₀ h₁ := hp.1 t (by omega) (by omega)
  stop hlt := by
    rw [show min n (p : Int) = p by omega]
    exact hp.2

/-! ## The arguments of a call -/

theorem askedFor_start (h₀ : 1 ≤ limit) (h₁ : (limit : Int) ≤ i64Max) :
    AskedFor ring limit async (recvStart limit async) := by
  rw [recvStart, if_neg (by omega)]
  refine ⟨usizeAsI64_eq h₁, ?_⟩
  cases async with
  | false => exact ⟨fun _ => rfl, fun _ => rfl⟩
  | true => exact ⟨fun h => absurd h (by simp), fun h => absurd h (by simp)⟩

theorem Returns.askedFor {available : Int}
    (hret : Returns r i q lastClaimed available shutdown e pc) (hlimit : q.limit = limit)
    (hstage : q.stage = .sync ↔ async = false) : AskedFor ring limit async pc := by
  cases hret with
  | again ha hq =>
    refine ⟨hlimit, Bool.eq_true_of_not_eq_false fun h => ?_⟩
    rw [hstage.mpr h] at hq
    exact absurd hq (by simp)
  | _ => trivial

theorem RecvMoves.askedFor {m : Mem T N} {h : History T N} {c : Int}
    (hinv : RecvInv c h pc) (ha : AskedFor ring limit async pc)
    (hm : RecvMoves ring r i m pc act e pc') : AskedFor ring limit async pc' := by
  cases hm with
  | load hn => exact ⟨ha.1, ha.2, by rw [ha.1], fun _ => rfl⟩
  | loadEmpty hn hret => exact hret.askedFor ha.1 ha.2
  | scanNext hflag hseq =>
    obtain ⟨hlimit, hstage, hlast, -⟩ := ha
    have hlt := hinv.2.2.1
    exact ⟨hlimit, hstage, hlast, fun heq => by omega⟩
  | scanEnd hflag hseq hret | scanStop hflag hret => exact hret.askedFor ha.1 ha.2.1
  | register =>
    obtain ⟨hlimit, hasync⟩ := ha
    exact ⟨hlimit, fun h => absurd h (by simp), fun h => absurd (hasync.symm.trans h) (by simp)⟩
  | _ => trivial

/-- A call keeps to its arguments, whatever the others do. -/
theorem askedFor_of_run {ls : List (Label T N)} (hs : Served ring initial σ) (h₀ : 1 ≤ limit)
    (h₁ : (limit : Int) ≤ i64Max) {σ₁ : Sys T N}
    (hok : RangeOneGuard ring σ (.recv i limit async))
    (hst : step ring σ (.recv i limit async) = some σ₁)
    (hrun : Run (step ring) (RangeOneGuard ring) σ₁ ls σ') :
    σ.nextRecv < σ'.nextRecv ∧ σ'.recvReceiver σ.nextRecv = i ∧
      AskedFor ring limit async (σ'.recvs σ.nextRecv) := by
  have hs₁ := served_step hs hok.1 hok.2 hst
  refine hrun.invariant_with (I := Served ring initial)
    (J := fun σ' => σ.nextRecv < σ'.nextRecv ∧ σ'.recvReceiver σ.nextRecv = i ∧
      AskedFor ring limit async (σ'.recvs σ.nextRecv))
    (fun hs hok hst => served_step hs hok.1 hok.2 hst) ?_ hs₁ ?_
  · intro σ' l σ'' hs' ⟨hlt, hi, hasked⟩ _ hst'
    have hm := moves_of_step hst'
    by_cases hself : ∃ act, l = .receiver σ.nextRecv act
    · obtain ⟨act, rfl⟩ := hself
      obtain ⟨e, hrm, -, -, -, hrecv, hnext⟩ := hm.recvs_self
      exact ⟨by rwa [hnext], by rwa [hrecv], hrm.askedFor (hs'.guarded.inv.recv _) hasked⟩
    · obtain ⟨hpc, hrecv⟩ := hm.recvs_other hlt fun act heq => hself ⟨act, heq⟩
      exact ⟨hlt.trans_le hm.nextRecv_le, by rwa [hrecv], by rwa [hpc]⟩
  · cases moves_of_step hst with
    | recv =>
      refine ⟨Nat.lt_succ_self _, Function.update_self _ _ _, ?_⟩
      show AskedFor ring limit async (Function.update σ.recvs σ.nextRecv _ σ.nextRecv)
      rw [Function.update_self]
      exact askedFor_start h₀ h₁

/-! ## The answer -/

/-- A call that returns, having found that the published sequences reach to `available`, gives the
answer for this state. -/
theorem Returns.answer {p : Nat} {available : Int} {res : RecvResult} {r' : Nat} {j : Fin N}
    (hp : σ.Readable i p) (hlast : last = σ.mem.consumed i + min (limit : Int) ring.bufferSize)
    (h₀ : 1 ≤ limit) (hext : Extent (Published σ.trace) (σ.mem.consumed i + 1) last available)
    (hbit : available = σ.mem.consumed i →
      shutdown = shutdownOf (σ.mem.states (ring.indexOfSeq (σ.mem.consumed i + 1))))
    (hstage : q.stage = .sync ↔ async = false)
    (hret : Returns r i q (σ.mem.consumed i) available shutdown
      (some (Event.ret r' j res : Event T N)) pc) :
    res = recvAnswer ring σ i limit async p ∧ pc = res.position := by
  have hc := ring.bufferSize_pos
  have hreach : available = σ.mem.consumed i + min (min (limit : Int) ring.bufferSize) p := by
    refine hext.unique ?_
    rw [hlast]
    exact hp.extent (by omega)
  unfold recvAnswer
  cases hret with
  | items ha =>
    rw [if_pos (by omega), hreach]
    exact ⟨rfl, rfl⟩
  | disconnected ha =>
    rw [if_neg (by omega), if_pos (hbit (by omega)).symm]
    exact ⟨rfl, rfl⟩
  | empty ha hq =>
    rw [if_neg (by omega), if_neg (by rw [← hbit (by omega)]; simp), hstage.mp hq]
    exact ⟨rfl, rfl⟩
  | pending ha hq =>
    have hasync : async = true := by
      refine Bool.eq_true_of_not_eq_false fun h => ?_
      rw [hstage.mpr h] at hq
      exact absurd hq (by simp)
    rw [if_neg (by omega), if_neg (by rw [← hbit (by omega)]; simp), hasync]
    exact ⟨rfl, rfl⟩

variable (async) in
/-- **A call that runs alone gives the answer for the state it starts in.** -/
theorem receives_answer {p : Nat} (hs : Served ring initial σ) (hlive : σ.receivers i = true)
    (hp : σ.Readable i p) (h₀ : 1 ≤ limit) (h₁ : (limit : Int) ≤ i64Max) :
    ∃ σ', Sys.Receives ring i limit async σ σ' ∧
      σ'.recvs σ.nextRecv = (recvAnswer ring σ i limit async p).position := by
  have hg := hs.guarded
  have hc := ring.bufferSize_pos
  have horder : σ.mem.consumed i + 1 - 1 ≤
      σ.mem.consumed i + min (limit : Int) ring.bufferSize := by
    omega
  generalize hout : recvClaim ring σ.mem.states (σ.mem.consumed i) (usizeAsI64 limit) = out
  obtain ⟨available, shutdown⟩ := out
  obtain ⟨σ', hrecv, -, -, hitems, hdisc, hempty⟩ :=
    receives_atMost ring async hlive (by omega) hout
  have hscan := scanAvailableUntil_extent ring σ.mem.states horder
  unfold recvClaim at hout
  rw [usizeAsI64_eq h₁] at hout
  rw [hout] at hscan
  have hreach : available = _ :=
    hscan.unique (scan_readable hg.inv hlive hp h₀
    (hg.lag.inPlace hg.inv hlive) (le_refl _) (Or.inl rfl))
  refine ⟨σ', hrecv, ?_⟩
  unfold recvAnswer
  by_cases hone : 1 ≤ p
  · rw [if_pos hone, (hitems (by omega)).1, hreach]
    rfl
  · have hshut : shutdown =
        shutdownOf (σ.mem.states (ring.indexOfSeq (σ.mem.consumed i + 1))) := by
      rw [show available = σ.mem.consumed i by omega] at hout
      exact scanAvailableUntil_stuck (by omega) hout
    rw [if_neg hone, ← hshut]
    cases shutdown with
    | true =>
      rw [if_pos rfl, (hdisc (by omega) rfl).1]
      rfl
    | false =>
      rw [if_neg (by simp)]
      have hnone := hempty (by omega) rfl
      cases async with
      | true =>
        rw [if_pos rfl] at hnone ⊢
        exact hnone.1
      | false =>
        rw [if_neg (by simp)] at hnone ⊢
        exact hnone.1

/-- **A receive call answers for one instant.** In every run in range with one guard at a time,
whatever the senders and the other receivers do between its steps: the state in which the call
takes its last step, after its start and before its return, has an answer (a batch of what was
readable there, up to the limit and the capacity; `Disconnected` where the shutdown bit was set
and nothing was readable; `Empty` or `Pending` where neither), the call gives it, and so does a
call that starts there and runs alone. -/
theorem receive_linearizable {i₀ : Fin N} {ls₁ ls₂ : List (Label T N)} {σ₁ σ₂ σ₃ : Sys T N}
    {res : RecvResult}
    (hrun₁ : Run (step ring) (RangeOneGuard ring) (Sys.init initial i₀) ls₁ σ₁)
    (h₀ : 1 ≤ limit) (h₁ : (limit : Int) ≤ i64Max)
    (hok : RangeOneGuard ring σ₁ (.recv i limit async))
    (hstart : step ring σ₁ (.recv i limit async) = some σ₂)
    (hrun₂ : Run (step ring) (RangeOneGuard ring) σ₂ ls₂ σ)
    (hst : step ring σ (.receiver σ₁.nextRecv act) = some σ₃)
    (hret : σ₃.trace = .ret σ₁.nextRecv i res :: σ.trace) :
    (∃ p, σ.Readable i p ∧ res = recvAnswer ring σ i limit async p) ∧
      σ₃.recvs σ₁.nextRecv = res.position ∧
      ∀ σ', Sys.Receives ring i limit async σ σ' →
        σ'.recvs σ.nextRecv = σ₃.recvs σ₁.nextRecv := by
  have hs₁ := (served_init ring initial i₀).of_run (fun hok => hok) hrun₁
  have hs := (served_step hs₁ hok.1 hok.2 hstart).of_run (fun hok => hok) hrun₂
  have hi := hs.guarded.inv
  obtain ⟨hr, hri, hasked⟩ := askedFor_of_run hs₁ h₀ h₁ hok hstart hrun₂
  obtain ⟨e, hrm, htrace, -⟩ := (moves_of_step hst).recvs_self
  have hd := hi.borrow.live_of_recv hr hrm.unfinished
  have hcur := hs.guarded.current _ hr
  have hinv := hi.recv σ₁.nextRecv
  rw [hri] at hd hcur hrm
  have hlive : σ.receivers i = true := by
    rw [← Bool.not_eq_false, ← hi.borrow.dropped]
    exact hd
  have hcons := hi.sound.consumed_eq hd
  obtain ⟨p, hp⟩ := exists_readable hi hlive
  obtain rfl : e = some (.ret σ₁.nextRecv i res) := by
    cases e with
    | none => exact absurd (hret.symm.trans htrace) (by simp [record])
    | some e => exact congrArg some (List.cons.inj (htrace.symm.trans hret)).1
  -- the call is at its last slot-state load
  have hanswer : res = recvAnswer ring σ i limit async p ∧
      σ₃.recvs σ₁.nextRecv = res.position := by
    generalize σ.recvs σ₁.nextRecv = pc at hrm hcur hinv hasked
    cases pc with
    | load q =>
      have hc := ring.bufferSize_pos
      cases hrm with
      | loadEmpty hn => exact absurd hasked.1 (by omega)
    | scan q lastClaimed last seq shutdown =>
      obtain ⟨-, hstage, hlast, hfresh⟩ := hasked
      have hlc : lastClaimed = σ.mem.consumed i := Eq.trans hcur hcons.symm
      rcases hrm.scan_cases hi hs.guarded.lag hd hinv hcur with ⟨he, -⟩ | hends
      · exact absurd he (by simp)
      obtain ⟨available, shutdown', hreturns, hext, hbit⟩ := hends
      subst hlc
      refine hreturns.answer hp hlast h₀ hext (fun heq => ?_) hstage
      obtain ⟨hseq, hshut⟩ := hbit heq
      rw [hshut, hfresh hseq, Bool.false_or, hseq]
    | _ => cases hrm
  refine ⟨⟨p, hp, hanswer.1⟩, hanswer.2, fun σ' hrecv => ?_⟩
  obtain ⟨σ'', hrecv', hpc⟩ := receives_answer async hs hlive hp h₀ h₁
  rw [hrecv.unique hrecv', hpc, hanswer.2, hanswer.1]

/-- The call starts on an empty ring; an item is sent while it scans, and it returns the item. -/
theorem receive_linearizable_late :
    ∃ (ls : List (Label Nat 1)) (σ₁ σ₂ σ σ₃ : Sys Nat 1),
      step ⟨2, by decide⟩ σ₁ (.recv 0 2 false) = some σ₂ ∧
        Run (step ⟨2, by decide⟩) (RangeOneGuard ⟨2, by decide⟩) σ₂ ls σ ∧
        step ⟨2, by decide⟩ σ (.receiver 0 .run) = some σ₃ ∧ σ₁.Readable 0 0 ∧
        ∃ p, σ.Readable 0 p ∧ RecvResult.items 0 0 = recvAnswer ⟨2, by decide⟩ σ 0 2 false p := by
  have hex : (step ⟨2, by decide⟩ (Sys.init (fun _ => 0) (0 : Fin 1)) (.recv 0 2 false)).any
      (fun σ₂ : Sys Nat 1 =>
        (exec (step ⟨2, by decide⟩) (RangeOneGuard ⟨2, by decide⟩) σ₂
          (List.flatten [[.receiver 0 .run, .send 0 (.trySend 7)],
            List.replicate 9 (.sender 0 .run), [.receiver 0 .run]])).any fun σ =>
          (step ⟨2, by decide⟩ σ (.receiver 0 .run)).any fun σ₃ =>
            decide (σ₃.trace = .ret 0 0 (.items 0 0) :: σ.trace)) = true := by
    decide +kernel
  obtain ⟨σ₂, hstart, hex⟩ := (Option.any_eq_true _ _).mp hex
  obtain ⟨σ, hrun, hex⟩ := Run.of_exec_any hex
  obtain ⟨σ₃, hst, hret⟩ := (Option.any_eq_true _ _).mp hex
  refine ⟨_, _, σ₂, σ, σ₃, hstart, hrun, hst, ⟨fun s h₀ h₁ => ?_, by decide⟩, ?_⟩
  · have h₀ : -1 < s := h₀
    have h₁ : s ≤ -1 + (0 : Nat) := h₁
    omega
  · exact (receive_linearizable Run.nil (by norm_num) (by unfold i64Max; norm_num) (by decide)
      hstart hrun hst (of_decide_eq_true hret)).1

end

end EnsoChannel
