import EnsoChannel.Snapshot

/-!
# Wait-freedom

Only the claim loop ever repeats because of what others do. Everything else is done after a fixed
number of the call's own steps, however the steps of the other parties fall between them, and can
always take the next one:

* `recv_wait_free`: a receive call of `try_recv_at_most(limit)` returns after at most `n + 1` steps,
  a poll after at most `2 n + 3`, with `n = min(limit, capacity)` and `limit` at most `i64::MAX`.
* `commit_wait_free`: once a sender call writes, publishes, notifies or closes, it is through with
  it after at most `capacity + N + 5` steps.

Both are instances of `Run.countP_add_le`: `RecvPc.work` and `SenderPc.work` are the steps that are
left.
-/

namespace EnsoChannel

open Lib

variable {T : Type} {N : Nat}

/-- The call moves itself: it loads, scans, or registers its waker. -/
def RecvPc.running : RecvPc → Bool
  | .load _ | .scan _ _ _ _ _ | .register _ => true
  | _ => false

/-- The label is a step of the library code of receive call `r`. -/
def Label.runsReceiver (r : Nat) : Label T N → Bool
  | .receiver r' .run => r' == r
  | _ => false

/-- The label is a step of the library code of sender call `k`. -/
def Label.runsSender (k : Nat) : Label T N → Bool
  | .sender k' .run => k' == k
  | _ => false

/-- The slot states a scan of this call loads at most. -/
def RecvCall.loads (ring : RingBufferMeta) (q : RecvCall) : Nat :=
  (min q.limit ring.bufferSize).toNat

/-- The steps of the second half of a poll, its registration included. -/
def RecvCall.secondHalf (ring : RingBufferMeta) (q : RecvCall) : Nat :=
  match q.stage with
  | .first => q.loads ring + 2
  | _ => 0

/-- The steps a receive call has left at most. -/
def RecvPc.work (ring : RingBufferMeta) : RecvPc → Nat
  | .load q => q.loads ring + 1 + q.secondHalf ring
  | .scan q _ last seq _ => (last + 1 - seq).toNat + q.secondHalf ring
  | .register q => q.loads ring + 2
  | _ => 0

/-- The steps a receive call takes at most. -/
def recvSteps (ring : RingBufferMeta) (limit : Nat) (async : Bool) : Nat :=
  let n := (min (limit : Int) ring.bufferSize).toNat
  if async then 2 * n + 3 else n + 1

/-- The call is in library code that no claim follows. -/
def SenderPc.finishing : SenderPc T → Bool
  | .writing _ _ | .publishing _ _ _ | .notifying _ | .closing _ _ => true
  | _ => false

/-- The steps a `close()` over `N` receivers has left at most. -/
def ClosePc.work (ring : RingBufferMeta) (N : Nat) : ClosePc → Nat
  | .load => ring.bufferSize.toNat + N + 5
  | .scan _ lastClaimed seq => (lastClaimed + 1 - seq).toNat + N + 4
  | .mark _ _ => N + 3
  | .store _ => N + 2
  | .notify i => N - i + 1

/-- The steps a sender call has left until it asks its user, or is over. -/
def SenderPc.work (ring : RingBufferMeta) (N : Nat) : SenderPc T → Nat
  | .writing _ _ => N + 4
  | .publishing _ seq last => (last + 1 - seq).toNat + N + 2
  | .notifying i => N - i + 1
  | .closing pos _ => pos.work ring N
  | _ => 0

section

variable {ring : RingBufferMeta} {initial : Nat → T} {σ σ' : Sys T N} {l : Label T N} {k r : Nat}
  {i : Fin N} {m : Mem T N} {h : History T N} {c : Int}

/-! ## The receiver -/

variable (ring) in
theorem Returns.work_le {q : RecvCall} {lastClaimed available : Int} {shutdown : Bool}
    {e : Option (Event T N)} {pc : RecvPc}
    (hret : Returns r i q lastClaimed available shutdown e pc) :
    pc.work ring ≤ q.secondHalf ring := by
  cases hret with
  | again ha hq =>
    rw [RecvCall.secondHalf, hq]
    exact le_refl _
  | _ => exact Nat.zero_le _

/-- **A step of a receive call uses up some of its work.** -/
theorem RecvMoves.work_lt {pc pc' : RecvPc} {e : Option (Event T N)} (hinv : RecvInv c h pc)
    (hm : RecvMoves ring r i m pc .run e pc') : pc'.work ring < pc.work ring := by
  cases hm with
  | @load q hn =>
    show (m.consumed i + min q.limit ring.bufferSize + 1 - (m.consumed i + 1)).toNat + _ <
      (min q.limit ring.bufferSize).toNat + 1 + _
    omega
  | loadEmpty hn hret =>
    have hle := hret.work_le ring
    rw [RecvPc.work]
    omega
  | @scanNext q lastClaimed last seq shutdown hflag hseq =>
    have hle := hinv.2.2.2.1
    show (last + 1 - (seq + 1)).toNat + _ < (last + 1 - seq).toNat + _
    omega
  | @scanEnd q lastClaimed last seq _ _ _ hflag hseq hret
  | @scanStop q lastClaimed last seq _ _ _ hflag hret =>
    have hret := hret.work_le ring
    have hle := hinv.2.2.2.1
    show _ < (last + 1 - seq).toNat + _
    omega
  | @register q => exact Nat.lt_succ_self _

/-- No other step adds to it. -/
theorem RecvMoves.work_le {pc pc' : RecvPc} {act : RecvAct} {e : Option (Event T N)}
    (hact : act ≠ .run) (hm : RecvMoves ring r i m pc act e pc') :
    pc'.work ring ≤ pc.work ring := by
  cases hm with
  | release | releaseEmpty | leak => exact le_refl _
  | _ => exact absurd rfl hact

variable (ring r i m) in
/-- A call that moves itself can. -/
theorem recvStep_running {pc : RecvPc} (hpc : pc.running = true) :
    ∃ out, recvStep ring r i m pc .run = some out := by
  cases pc with
  | load | scan => exact recvStep_asking rfl
  | register => exact ⟨_, rfl⟩
  | _ => exact absurd hpc (by simp [RecvPc.running])

theorem work_pos_of_running (hi : Inv ring initial σ) (hpc : (σ.recvs r).running = true) :
    0 < (σ.recvs r).work ring := by
  have hinv := hi.recv r
  generalize σ.recvs r = pc at hinv hpc
  cases pc with
  | load q =>
    show 0 < q.loads ring + 1 + _
    omega
  | scan q lastClaimed last seq shutdown =>
    have hle := hinv.2.2.2.1
    show 0 < (last + 1 - seq).toNat + _
    omega
  | register => exact Nat.succ_pos _
  | _ => exact absurd hpc (by simp [RecvPc.running])

/-- The steps of a receive call in a run. -/
theorem recv_work {ls : List (Label T N)} (hi : Inv ring initial σ) (hr : r < σ.nextRecv)
    (hrun : Run (step ring) (InRange ring) σ ls σ') :
    ls.countP (Label.runsReceiver r) + (σ'.recvs r).work ring ≤ (σ.recvs r).work ring := by
  refine hrun.countP_add_le (I := fun σ => Inv ring initial σ ∧ r < σ.nextRecv)
    (μ := fun σ => (σ.recvs r).work ring) ?_ ?_ ?_ ⟨hi, hr⟩
  · intro σ l σ' hs hok hst
    exact ⟨inv_step hs.1 hok hst, hs.2.trans_le (moves_of_step hst).nextRecv_le⟩
  · intro σ l σ' hs _ hst hown
    cases l with
    | receiver r' act =>
      cases act with
      | run =>
        obtain rfl : r' = r := by simpa [Label.runsReceiver] using hown
        obtain ⟨e, hrm, -⟩ := (moves_of_step hst).recvs_self
        exact hrm.work_lt (hs.1.recv r')
      | _ => exact absurd hown (by simp [Label.runsReceiver])
    | _ => exact absurd hown (by simp [Label.runsReceiver])
  · intro σ l σ' hs _ hst hother
    have hm := moves_of_step hst
    by_cases hself : ∃ act, l = .receiver r act
    · obtain ⟨act, rfl⟩ := hself
      obtain ⟨e, hrm, -⟩ := hm.recvs_self
      refine hrm.work_le ?_
      rintro rfl
      exact absurd hother (by simp [Label.runsReceiver])
    · rw [(hm.recvs_other hs.2 fun act heq => hself ⟨act, heq⟩).1]

/-- **Receiving is wait-free**, for every limit up to `i64::MAX`, in every run in range: a receive
call takes at most `n + 1` steps of its own, a poll `2 n + 3`, whatever the other parties do
meanwhile; and as long as it has not returned it can take the next one. -/
theorem recv_wait_free {i₀ : Fin N} {limit : Nat} {async : Bool} {ls₁ ls₂ : List (Label T N)}
    {σ₁ σ₂ : Sys T N} (hmax : (limit : Int) ≤ i64Max)
    (hrun₁ : Run (step ring) (InRange ring) (Sys.init initial i₀) ls₁ σ₁)
    (hok : InRange ring σ₁ (.recv i limit async))
    (hstart : step ring σ₁ (.recv i limit async) = some σ₂)
    (hrun₂ : Run (step ring) (InRange ring) σ₂ ls₂ σ) :
    ls₂.countP (Label.runsReceiver σ₁.nextRecv) ≤ recvSteps ring limit async ∧
      ((σ.recvs σ₁.nextRecv).running = true →
        ls₂.countP (Label.runsReceiver σ₁.nextRecv) < recvSteps ring limit async ∧
          ∃ σ', step ring σ (.receiver σ₁.nextRecv .run) = some σ') := by
  have hi₁ := Inv.of_run (fun hok => hok) (inv_init ring initial i₀) hrun₁
  have hi₂ := inv_step hi₁ hok hstart
  have hi := Inv.of_run (fun hok => hok) hi₂ hrun₂
  have hnew : σ₁.nextRecv < σ₂.nextRecv ∧
      (σ₂.recvs σ₁.nextRecv).work ring ≤ recvSteps ring limit async := by
    cases moves_of_step hstart with
    | recv =>
      refine ⟨Nat.lt_succ_self _, ?_⟩
      show (Function.update σ₁.recvs σ₁.nextRecv (recvStart limit async) σ₁.nextRecv).work ring ≤ _
      rw [Function.update_self]
      unfold recvStart recvSteps
      rw [usizeAsI64_eq hmax]
      split
      · exact Nat.zero_le _
      · cases async <;>
          simp only [RecvPc.work, RecvCall.loads, RecvCall.secondHalf, Bool.false_eq_true,
            if_false, if_true] <;> omega
  have hwork := recv_work hi₂ hnew.1 hrun₂
  refine ⟨by omega, fun hpc => ⟨?_, ?_⟩⟩
  · have hpos := work_pos_of_running hi hpc
    omega
  · obtain ⟨out, hout⟩ := recvStep_running ring σ₁.nextRecv
      (σ.recvReceiver σ₁.nextRecv) σ.mem hpc
    have hr : σ₁.nextRecv < σ.nextRecv := hi.fresh.lt_of_recv (by
      intro hidle
      rw [hidle] at hpc
      exact absurd hpc (by simp [RecvPc.running]))
    exact exists_step_of_recvStep hr hout

/-- An item that was there is received in two steps of the call. -/
theorem recv_wait_free_two :
    ∃ (ls₂ : List (Label Nat 1)) (σ₁ σ₂ σ : Sys Nat 1),
      step ⟨1, by decide⟩ σ₁ (.recv 0 1 false) = some σ₂ ∧
        Run (step ⟨1, by decide⟩) (InRange ⟨1, by decide⟩) σ₂ ls₂ σ ∧
        σ.recvs σ₁.nextRecv = .guard 0 0 ∧
        ls₂.countP (Label.runsReceiver σ₁.nextRecv) ≤ 2 := by
  have hex : (exec (step ⟨1, by decide⟩) (InRange ⟨1, by decide⟩) (Sys.init (fun _ => 0) 0)
      (List.flatten [[.send 0 (.trySend 7)], List.replicate 9 (.sender 0 .run)])).any
      (fun σ₁ : Sys Nat 1 => decide (InRange ⟨1, by decide⟩ σ₁ (.recv 0 1 false)) &&
        (step ⟨1, by decide⟩ σ₁ (.recv 0 1 false)).any fun σ₂ =>
          (exec (step ⟨1, by decide⟩) (InRange ⟨1, by decide⟩) σ₂
            [.receiver 0 .run, .receiver 0 .run]).any fun σ =>
              decide (σ.recvs σ₁.nextRecv = .guard 0 0)) = true := by
    decide +kernel
  obtain ⟨σ₁, hrun₁, hex⟩ := Run.of_exec_any hex
  obtain ⟨hok, hex⟩ := Bool.and_eq_true_iff.mp hex
  obtain ⟨σ₂, hstart, hex⟩ := (Option.any_eq_true _ _).mp hex
  obtain ⟨σ, hrun₂, hpc⟩ := Run.of_exec_any hex
  have hsteps : recvSteps ⟨1, by decide⟩ 1 false = 2 := by decide
  refine ⟨_, σ₁, σ₂, σ, hstart, hrun₂, of_decide_eq_true hpc, ?_⟩
  rw [← hsteps]
  exact (recv_wait_free (by unfold i64Max; norm_num) hrun₁ (of_decide_eq_true hok) hstart hrun₂).1

/-! ## The sender -/

/-- **A step of a sender call that is finishing uses up some of its work.** -/
theorem SenderMoves.work_lt {pc pc' : SenderPc T} {e : Option (Event T N)}
    (hpc : pc.finishing = true) (hm : SenderMoves ring k m pc .run e pc') :
    pc'.work ring N < pc.work ring N := by
  have hc := ring.bufferSize_pos
  cases hm with
  | load | gate | gateEnd | claim | retry | drainEmpty | drainDone =>
    exact absurd hpc (by simp [SenderPc.finishing])
  | @write v seq =>
    show (seq + 1 - seq).toNat + N + 2 < N + 4
    omega
  | @publish first seq last hseq =>
    show (last + 1 - (seq + 1)).toNat + N + 2 < (last + 1 - seq).toNat + N + 2
    omega
  | @publishEnd first seq last hseq =>
    show N - 0 + 1 < (last + 1 - seq).toNat + N + 2
    omega
  | @wake i hi =>
    show N - (i + 1) + 1 < N - i + 1
    omega
  | @wakeEnd i hi => exact Nat.succ_pos _
  | closeUnclaimed hneg =>
    show N + 3 < ring.bufferSize.toNat + N + 5
    omega
  | closeLoad hneg =>
    show (lastClaimedOf m.claimed + 1 -
      max (lastClaimedOf m.claimed - (ring.bufferSize - 1)) 0).toNat + N + 4 <
        ring.bufferSize.toNat + N + 5
    omega
  | @closeScan raw lastClaimed seq caller hseq hflag =>
    show (lastClaimed + 1 - (seq + 1)).toNat + N + 4 < (lastClaimed + 1 - seq).toNat + N + 4
    omega
  | @closeFound raw lastClaimed seq caller hseq hflag =>
    show N + 3 < (lastClaimed + 1 - seq).toNat + N + 4
    omega
  | @closeScanEnd raw lastClaimed seq caller hseq =>
    show N + 3 < (lastClaimed + 1 - seq).toNat + N + 4
    omega
  | closeMark => exact Nat.lt_succ_self _
  | closeStore =>
    show N - 0 + 1 < N + 2
    omega
  | @closeWake i caller hi =>
    show N - (i + 1) + 1 < N - i + 1
    omega
  | closeEnd hi =>
    cases ‹CloseCaller› <;> exact Nat.succ_pos _

/-- What its user does meanwhile adds nothing to it. -/
theorem SenderMoves.work_le {pc pc' : SenderPc T} {act : SenderAct T} {e : Option (Event T N)}
    (hact : act ≠ .run) (hpc : pc.finishing = true) (hm : SenderMoves ring k m pc act e pc') :
    pc'.work ring N ≤ pc.work ring N := by
  cases hm with
  | writePanics => exact Nat.zero_le _
  | permitWrite | permitPanics | permitDrop | permitLeak | recycled | recyclePanics
  | recyclePanicsTwice | nextNone | next | permitsDrop | permitsLeak | batchWrite | batchPanics
  | batchDrop | batchLeak | batchRecycled | batchRecyclePanics | batchRecyclePanicsTwice
  | drainRecycled | drainPanics =>
    exact absurd hpc (by simp [SenderPc.finishing])
  | _ => exact absurd rfl hact

variable (ring k m) in
/-- A call that is finishing has a step. -/
theorem senderStep_finishing {pc : SenderPc T} (hpc : pc.finishing = true) :
    ∃ out, senderStep ring k m pc .run = some out := by
  cases pc with
  | writing v seq => exact ⟨_, rfl⟩
  | publishing first seq last =>
    simp only [senderStep]
    split <;> exact ⟨_, rfl⟩
  | notifying i =>
    simp only [senderStep]
    split <;> exact ⟨_, rfl⟩
  | closing pos caller =>
    simp only [senderStep]
    split <;> exact ⟨_, rfl⟩
  | _ => exact absurd hpc (by simp [SenderPc.finishing])

/-- A commit or a `close()` has never more than this left. -/
theorem SenderInv.work_le {pc : SenderPc T} (hl : Legal ring.bufferSize h)
    (hi : SenderInv ring.bufferSize h k pc) (hs : SenderScan ring.bufferSize h pc) :
    pc.work ring N ≤ ring.bufferSize.toNat + N + 5 := by
  have hc := ring.bufferSize_pos
  cases pc with
  | writing v seq =>
    show N + 4 ≤ _
    omega
  | publishing first seq last =>
    show (last + 1 - seq).toNat + N + 2 ≤ _
    obtain ⟨-, hown⟩ := hi
    rcases le_or_gt seq last with hle | hgt
    · obtain ⟨ho, hp⟩ := hown seq (le_refl _) hle
      have hlow := (uncommitted_of_owner hl ho hp).window hc hl
      have hupp := (owner_eq_some hl (hown last hle (le_refl _)).1).2
      omega
    · omega
  | notifying i =>
    show N - i + 1 ≤ _
    omega
  | closing pos caller =>
    cases pos with
    | load => exact le_refl _
    | scan raw lastClaimed seq =>
      obtain ⟨-, hlow, -⟩ := hs
      show (lastClaimed + 1 - seq).toNat + N + 4 ≤ _
      omega
    | mark raw lastPublished =>
      show N + 3 ≤ _
      omega
    | store raw =>
      show N + 2 ≤ _
      omega
    | notify i =>
      show N - i + 1 ≤ _
      omega
  | _ => exact Nat.zero_le _

/-- **Committing and closing are wait-free**, in every run in range: while a sender call writes its
item, publishes, notifies or closes, it takes at most `capacity + N + 5` steps of its own, whatever
the other parties do meanwhile, and it can always take the next one. For a call that publishes the
sequences `seq … last`, the bound is `last + 1 - seq + N + 2`. -/
theorem commit_wait_free {i₀ : Fin N} {ls₁ ls₂ : List (Label T N)}
    (hrun₁ : Run (step ring) (InRange ring) (Sys.init initial i₀) ls₁ σ) (hk : k < σ.nextSend)
    (hrun₂ : Run (step ring) (fun σ l => InRange ring σ l ∧ (σ.sends k).finishing = true)
      σ ls₂ σ') :
    ls₂.countP (Label.runsSender k) + (σ'.sends k).work ring N ≤ (σ.sends k).work ring N ∧
      (σ.sends k).work ring N ≤ ring.bufferSize.toNat + N + 5 ∧
      ((σ'.sends k).finishing = true → ∃ σ'', step ring σ' (.sender k .run) = some σ'') := by
  have hstart : Inv ring initial σ ∧ ∀ k, SenderScan ring.bufferSize σ.trace (σ.sends k) := by
    refine hrun₁.invariant (I := fun σ => Inv ring initial σ ∧
      ∀ k, SenderScan ring.bufferSize σ.trace (σ.sends k)) ?_
      ⟨inv_init ring initial i₀, fun _ => trivial⟩
    intro σ l σ' hs hok hst
    exact ⟨inv_step hs.1 hok hst, senderScan_step hs.1 hs.2 (moves_of_step hst)⟩
  obtain ⟨hi, hscan⟩ := hstart
  have hk' : k < σ'.nextSend :=
    hrun₂.invariant (I := fun σ => k < σ.nextSend)
      (fun hlt _ hst => lt_of_lt_of_le hlt (moves_of_step hst).nextSend_le) hk
  refine ⟨?_, (hi.send k).work_le hi.sound.legal (hscan k), fun hpc => ?_⟩
  · refine hrun₂.countP_add_le (I := fun σ => k < σ.nextSend)
      (μ := fun σ => (σ.sends k).work ring N) ?_ ?_ ?_ hk
    · exact fun hlt _ hst => lt_of_lt_of_le hlt (moves_of_step hst).nextSend_le
    · intro σ l σ' hlt hok hst hown
      cases l with
      | sender k' act =>
        cases act with
        | run =>
          obtain rfl : k' = k := by simpa [Label.runsSender] using hown
          obtain ⟨e, hsm, -⟩ := (moves_of_step hst).sends_self
          exact hsm.work_lt hok.2
        | _ => exact absurd hown (by simp [Label.runsSender])
      | _ => exact absurd hown (by simp [Label.runsSender])
    · intro σ l σ' hlt hok hst hother
      have hm := moves_of_step hst
      rcases hm.sender_cases k with ⟨act, e, rfl, hsm, -⟩ | hne
      · refine hsm.work_le ?_ hok.2
        rintro rfl
        exact absurd hother (by simp [Label.runsSender])
      · rw [hm.sends_other hlt hne]
  · obtain ⟨out, hout⟩ := senderStep_finishing ring k σ'.mem hpc
    exact exists_step_of_senderStep hk' hout

/-- A batch of two is published on a ring of two slots, in five steps of its call. -/
theorem commit_wait_free_batch :
    ∃ (ls₂ : List (Label Nat 1)) (σ σ' : Sys Nat 1),
      σ.sends 0 = .publishing 0 0 1 ∧ σ'.sends 0 = .committed ∧
        ls₂.countP (Label.runsSender 0) + 0 ≤ 5 := by
  have hex : (exec (step ⟨1, by decide⟩) (InRange ⟨1, by decide⟩) (Sys.init (fun _ => 0) 0)
      (List.flatten [[.send 0 (.trySendAtMost 2)], List.replicate 4 (.sender 0 .run),
        [.sender 0 .next, .sender 0 (.write 7), .sender 0 .next, .sender 0 (.write 8),
          .sender 0 .drop, .sender 0 .run]])).any
      (fun σ : Sys Nat 1 => decide (σ.sends 0 = .publishing 0 0 1 ∧ 0 < σ.nextSend) &&
        (exec (step ⟨1, by decide⟩)
          (fun σ l => InRange ⟨1, by decide⟩ σ l ∧ (σ.sends 0).finishing = true) σ
          (List.replicate 5 (.sender 0 .run))).any fun σ' =>
            decide (σ'.sends 0 = .committed)) = true := by
    decide +kernel
  obtain ⟨σ, hrun₁, hex⟩ := Run.of_exec_any hex
  obtain ⟨hσ, hex⟩ := Bool.and_eq_true_iff.mp hex
  obtain ⟨hpc, hk⟩ := of_decide_eq_true hσ
  obtain ⟨σ', hrun₂, hσ'⟩ := Run.of_exec_any hex
  have hpc' := of_decide_eq_true hσ'
  have hwork := (commit_wait_free hrun₁ hk hrun₂).1
  rw [hpc, hpc'] at hwork
  exact ⟨_, σ, σ', hpc, hpc', hwork⟩

end

end EnsoChannel
