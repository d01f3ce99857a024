import EnsoChannel.RecvAtMost
import EnsoChannel.Unrecycled

/-!
# No claim is left dangling

What becomes of the sequences of a sender call whose user code panics. A permit that is dropped
without a write runs the recycler; if that panics too, the drop calls `terminate()` and leaves its
sequences unpublished. Two places do not fit:

* `try_send` has no permit: when the drop of the old item panics in its write, the sequence is
  neither published nor is the channel terminated (`dangling_claim`).
* the drop of a permit drops the payload of the recycler's panic before it branches: when that
  panics too, it unwinds past `terminate()` (`unwinds_past_terminate`).

`no_dangling_claim`: unless one of these happens, an operation that is over has published its
sequences or the channel is terminated; and unless the scan of a `terminate()` misses the first
unpublished sequence, or that sequence is committed afterwards (`Repairs`), the receivers that come
to such a sequence are told.

`Accounted` is the invariant behind it: a call's sequences are published, still held by it, or given
up.
-/

namespace EnsoChannel

open Lib

variable {T : Type} {N : Nat}

/-- The sequences the call has still to publish. -/
def SenderPc.holds (s : Int) : SenderPc T → Prop
  | .writing _ seq | .permit seq | .recycling seq => s = seq
  | .permits p | .batchPermit p _ | .batchRecycling p _ | .draining p | .closing _ (.batch p) =>
    p.startSeq ≤ s ∧ s ≤ p.endSeq
  | .publishing _ seq last => seq ≤ s ∧ s ≤ last
  | _ => False

/-- The call has given its sequences up: its recycler panicked in the drop, or it has no permit any
more. -/
def SenderPc.lost : SenderPc T → Bool
  | .closing _ .permit | .poisoned | .abandoned => true
  | _ => false

/-- The call has given its sequences up, and the scan of its `terminate()` has ended. -/
def SenderPc.dangling : SenderPc T → Bool
  | .closing (.mark _ _) .permit | .closing (.store _) .permit | .closing (.notify _) .permit
  | .poisoned => true
  | _ => false

/-- Some call has given its sequences up, and the scan of its `terminate()` has ended. -/
def Sys.Dangling (σ : Sys T N) : Prop := ∃ k, (σ.sends k).dangling = true

/-- What such a call knows: the boundary is set, or it is about to set it. -/
def DanglingInv (c : Int) (h : History T N) : SenderPc T → Prop
  | .closing (.mark _ lastPublished) .permit =>
    ∃ f, Boundary c h f ∨ (Frontier (Published h) f ∧ lastPublished + 1 = f)
  | .closing (.store _) .permit | .closing (.notify _) .permit | .poisoned => ∃ f, Boundary c h f
  | _ => True

/-- Every sequence of call `k` is published, or the call still holds it, or has given it up. -/
def Accounted (h : History T N) (k : Nat) (pc : SenderPc T) : Prop :=
  ∀ s, owner h s = some k → Published h s ∨ pc.holds s ∨ pc.lost = true

/-- A panic is repaired. -/
structure Repairs (ring : RingBufferMeta) (σ : Sys T N) (l : Label T N) : Prop where
  /-- `try_send` does not unwind out of its write. -/
  write : ∀ k w, l = .sender k (.panics w) → ∀ v seq, σ.sends k ≠ .writing v seq
  /-- The drop of a permit does not unwind past its `terminate()`. -/
  payload : ∀ k w, l = .sender k (.panicsTwice w) → ∀ seq, σ.sends k ≠ .recycling seq
  /-- Where the scan of a drop's `terminate()` ends, the claimed value it has loaded hides nothing
  published, or the slot of the first unpublished sequence carries the bit already. -/
  scan : ∀ k raw lastClaimed seq raw' lastPublished σ', l = .sender k .run →
    σ.sends k = .closing (.scan raw lastClaimed seq) .permit → step ring σ l = some σ' →
      σ'.sends k = .closing (.mark raw' lastPublished) .permit →
        Sees ring.bufferSize σ.trace lastClaimed
  /-- From there on no commit publishes the first unpublished sequence. -/
  commit : ∀ k first seq last, l = .sender k .run → σ.sends k = .publishing first seq last →
    seq ≤ last → σ.Dangling → ¬ Frontier (Published σ.trace) seq

/-- The discipline of the runs in which every panic is repaired. -/
def RepairsOk (ring : RingBufferMeta) (σ : Sys T N) (l : Label T N) : Prop :=
  InRange ring σ l ∧ Repairs ring σ l

/-- The next sequence of receiver `i` was claimed, and its operation is over (and not leaked). -/
def Sys.Unowned (σ : Sys T N) (i : Fin N) : Prop :=
  ∃ k, owner σ.trace (σ.mem.consumed i + 1) = some k ∧ (σ.sends k).finished = true ∧
    σ.sends k ≠ .abandoned

/-- A receive call on `i`, run without interference, returns items or `Disconnected`. -/
def Sys.Informed (ring : RingBufferMeta) (σ : Sys T N) (i : Fin N) : Prop :=
  ∀ (limit : Nat) async, 1 ≤ limit → (limit : Int) ≤ i64Max →
    ∃ σ', Sys.Receives ring i limit async σ σ' ∧
      ((∃ b, σ.mem.consumed i + 1 ≤ b ∧
          σ'.recvs σ.nextRecv = .guard (σ.mem.consumed i + 1) b) ∨
        σ'.recvs σ.nextRecv = .disconnected)

/-- The invariant of the runs in which every panic is repaired. -/
structure Repaired (ring : RingBufferMeta) (initial : Nat → T) (σ : Sys T N) : Prop where
  inv : Inv ring initial σ
  closed : ClosedInv σ
  accounted : ∀ k, Accounted σ.trace k (σ.sends k)
  stopped : ∀ k, σ.sends k = .poisoned → hasShutdown σ.mem.claimed = true
  scan : ∀ k, SenderScan ring.bufferSize σ.trace (σ.sends k)
  dangling : ∀ k, DanglingInv ring.bufferSize σ.trace (σ.sends k)

/-- `s` is published. -/
structure NextPublished (ring : RingBufferMeta) (initial : Nat → T) (s : Int) (σ : Sys T N) :
    Prop where
  served : Served ring initial σ
  published : Published σ.trace s

/-- Some call has set the boundary `f`, and it is kept. -/
structure Warned (ring : RingBufferMeta) (initial : Nat → T) (f : Int) (σ : Sys T N) : Prop where
  served : Served ring initial σ
  dangling : σ.Dangling
  boundary : Boundary ring.bufferSize σ.trace f

section

variable {ring : RingBufferMeta} {initial : Nat → T} {σ σ' : Sys T N} {l : Label T N} {k : Nat}
  {h : History T N} {m : Mem T N} {i : Fin N} {c f s : Int} {pc pc' : SenderPc T}
  {act : SenderAct T} {e : Option (Event T N)}

/-! ### Every sequence is accounted for -/

/-- A call claims under its own name. -/
theorem SenderMoves.claim_self {k' : Nat} {a b : Int}
    (hm : SenderMoves ring k m pc act (some (.claim k' a b)) pc') : k' = k := by
  cases hm
  rfl

/-- An owner got its sequence from a claim of its own. -/
theorem owner_of_record (he : ∀ a b, e ≠ some (.claim k a b))
    (ho : owner (record e h) s = some k) : owner h s = some k := by
  cases e with
  | none => exact ho
  | some e =>
    cases e with
    | claim k' a b =>
      simp only [record, owner] at ho
      split at ho
      · exact absurd (by rw [Option.some.inj ho]) (he a b)
      · exact ho
    | _ => exact ho

theorem Published.record (hp : Published h s) : Published (record e h) s := by
  cases e with
  | none => exact hp
  | some e => exact hp.cons

/-- What a call does next with the sequences it holds. -/
theorem Accounted.next (ha : Accounted h k pc) (he : ∀ a b, e ≠ some (.claim k a b))
    (hholds : ∀ s, owner h s = some k → pc.holds s →
      Published (record e h) s ∨ pc'.holds s ∨ pc'.lost = true)
    (hlost : pc.lost = true → pc'.lost = true) : Accounted (record e h) k pc' := by
  intro s ho
  have ho := owner_of_record he ho
  rcases ha s ho with hp | hs | hl
  · exact Or.inl hp.record
  · exact hholds s ho hs
  · exact Or.inr (Or.inr (hlost hl))

theorem closing_holds {pos pos' : ClosePc} {caller : CloseCaller}
    (hs : (SenderPc.closing pos caller : SenderPc T).holds s) :
    (SenderPc.closing pos' caller : SenderPc T).holds s := by
  cases caller <;> exact hs

theorem closing_lost (pos pos' : ClosePc) (caller : CloseCaller) :
    (SenderPc.closing pos' caller : SenderPc T).lost =
      (SenderPc.closing pos caller : SenderPc T).lost := by
  cases caller <;> rfl

/-- A claim of one sequence is one sequence. -/
theorem granted_holds {call : SendCall T} {last b : Int}
    (hi : SenderInv c h k (.compareExchange call last s b)) {t : Int} (h₀ : last + 1 ≤ t)
    (h₁ : t ≤ b) : (granted call (last + 1) b).holds t := by
  obtain ⟨-, -, hlt, hb, -⟩ := hi
  cases call with
  | trySend v =>
    show t = b
    simp only [SendCall.limit] at hb
    omega
  | tryReserve =>
    show t = b
    simp only [SendCall.limit] at hb
    omega
  | trySendAtMost n => exact ⟨h₀, h₁⟩

/-- **One step of a call** accounts for its sequences. -/
theorem SenderMoves.accounted (hm : SenderMoves ring k m pc act e pc')
    (hl : Legal ring.bufferSize h) (hi : SenderInv ring.bufferSize h k pc)
    (ha : Accounted h k pc) : Accounted (record e h) k pc' := by
  cases hm with
  | @claim call last x b hcas =>
    intro s ho
    simp only [record, owner] at ho
    split at ho
    · rename_i hin
      exact Or.inr (Or.inl (granted_holds hi hin.1 hin.2))
    · rcases ha s ho with hp | hs | hlost
      · exact Or.inl hp.cons
      · exact hs.elim
      · exact absurd hlost (by simp [SenderPc.lost])
  | load | retry | gate | gateEnd | wake | wakeEnd =>
    exact ha.next (by simp) (fun _ _ hs => hs.elim) (by simp [SenderPc.lost])
  | write | permitWrite | recycled =>
    refine ha.next (by simp) (fun s _ hs => Or.inr (Or.inl ?_)) (by simp [SenderPc.lost])
    have hs : s = _ := hs
    exact ⟨hs.ge, hs.le⟩
  | writePanics | permitLeak | recyclePanics | recyclePanicsTwice | permitsLeak | drainPanics =>
    exact ha.next (by simp) (fun _ _ _ => Or.inr (Or.inr rfl)) (fun _ => rfl)
  | @drainEmpty p hp =>
    refine ha.next (by simp) (fun s ho hs => ?_) (by simp [SenderPc.lost])
    -- the empty batch has no sequence
    have hrange := owner_eq_some hl ho
    have hs : p.startSeq ≤ s ∧ s ≤ p.endSeq := hs
    omega
  | @publish first seq last hseq =>
    refine ha.next (by simp) (fun s _ hs => ?_) (by simp [SenderPc.lost])
    obtain ⟨h₀, h₁⟩ := hs
    rcases h₀.eq_or_lt with rfl | hlt
    · exact Or.inl (published_publish.mpr (Or.inl rfl))
    · exact Or.inr (Or.inl ⟨hlt, h₁⟩)
  | publishEnd hseq =>
    refine ha.next (by simp) (fun s _ hs => ?_) (by simp [SenderPc.lost])
    exact absurd (hs.1.trans hs.2) hseq
  | closeUnclaimed | closeLoad | closeScan | closeFound | closeScanEnd | closeMark | closeStore
  | closeWake =>
    refine ha.next (by simp) (fun _ _ hs => Or.inr (Or.inl (closing_holds hs))) fun hlost => ?_
    rwa [closing_lost] at hlost
  | closeEnd =>
    refine ha.next (by simp) (fun s _ hs => ?_) fun hlost => ?_
    · cases ‹CloseCaller› <;> exact Or.inr (Or.inl hs)
    · cases ‹CloseCaller› <;> exact hlost
  | _ => exact ha.next (by simp) (fun _ _ hs => Or.inr (Or.inl hs)) (by simp [SenderPc.lost])

/-- Another party claims nothing for call `k`. -/
theorem Moves.claim_other (hm : Moves ring σ l σ') (hl : ∀ act, l ≠ .sender k act)
    (htrace : σ'.trace = record e σ.trace) (a b : Int) : e ≠ some (.claim k a b) := by
  rintro rfl
  obtain ⟨k', act, pc, rfl, -, -, hsm⟩ := hm.of_sendSide htrace rfl
  exact hl act (by rw [hsm.claim_self])

theorem accounted_step (hi : Inv ring initial σ) (ha : ∀ k, Accounted σ.trace k (σ.sends k))
    (hm : Moves ring σ l σ') : ∀ k, Accounted σ'.trace k (σ'.sends k) := by
  have hfresh : ∀ pc, Accounted σ.trace σ.nextSend pc := by
    intro pc s ho
    have hidle := ha σ.nextSend s ho
    rw [hi.fresh.send _ (le_refl _)] at hidle
    exact Or.inl (hidle.resolve_right (by simp [SenderPc.holds, SenderPc.lost]))
  refine hm.forall_sends (J := fun k pc => σ.sends k = pc ∧ Accounted σ.trace k pc)
    (K := fun k pc => Accounted σ'.trace k pc) (fun k => ⟨rfl, ha k⟩) ?_ ?_ ?_ ?_
  · rintro h c rfl
    have htrace : σ'.trace = σ.trace := by cases hm; rfl
    rw [htrace]
    exact hfresh _
  · intro h _ _ _ htrace _
    rw [htrace]
    exact hfresh _
  · intro k act e pc _ _ hsm hk htrace _
    rw [htrace]
    exact hsm.accounted hi.sound.legal (hi.send k) hk.2
  · rintro k hl ⟨-, hk⟩
    obtain ⟨e, htrace⟩ := hm.trace_cases
    rw [htrace]
    exact hk.next (fun a b => hm.claim_other hl htrace a b) (fun _ _ hs => Or.inr (Or.inl hs)) id

/-! ### Where a call ends -/

/-- A call is poisoned at the end of the `terminate()` of a drop. -/
theorem SenderMoves.of_poisoned (hm : SenderMoves ring k m pc act e pc') (hpc : pc' = .poisoned) :
    ∃ i, pc = .closing (.notify i) .permit := by
  cases hm with
  | load | retry =>
    revert hpc
    exact claimLoop_cases (P := fun pc => pc = .poisoned → _) (by simp) (by simp)
  | gateEnd =>
    revert hpc
    exact claimBody_cases (P := fun pc => pc = .poisoned → _) (by simp) (by simp)
  | claim =>
    revert hpc
    exact granted_cases (P := fun pc => pc = .poisoned → _) (by simp) (by simp) (by simp)
  | @closeEnd i caller =>
    cases caller with
    | permit => exact ⟨i, rfl⟩
    | _ => exact absurd hpc (by simp [CloseCaller.resume])
  | _ => exact absurd hpc (by simp)

/-- A call is abandoned when its permit is leaked, when `try_send` unwinds out of its write, or when
the drop of its permit unwinds past `terminate()`. -/
theorem SenderMoves.of_abandoned (hm : SenderMoves ring k m pc act e pc')
    (hpc : pc' = .abandoned) :
    act = .leak ∨ (∃ v seq w, pc = .writing v seq ∧ act = .panics w) ∨
      ∃ seq w, pc = .recycling seq ∧ act = .panicsTwice w := by
  cases hm with
  | load | retry =>
    revert hpc
    exact claimLoop_cases (P := fun pc => pc = .abandoned → _) (by simp) (by simp)
  | gateEnd =>
    revert hpc
    exact claimBody_cases (P := fun pc => pc = .abandoned → _) (by simp) (by simp)
  | claim =>
    revert hpc
    exact granted_cases (P := fun pc => pc = .abandoned → _) (by simp) (by simp) (by simp)
  | closeEnd => cases ‹CloseCaller› <;> exact absurd hpc (by simp [CloseCaller.resume])
  | writePanics => exact Or.inr (Or.inl ⟨_, _, _, rfl, rfl⟩)
  | recyclePanicsTwice => exact Or.inr (Or.inr ⟨_, _, rfl, rfl⟩)
  | permitLeak | permitsLeak => exact Or.inl rfl
  | _ => exact absurd hpc (by simp)

/-- The scan of a `terminate()` has ended for good. -/
theorem SenderMoves.dangling (hm : SenderMoves ring k m pc act e pc')
    (hpc : pc.dangling = true) : pc'.dangling = true := by
  cases hm with
  | closeMark | closeStore | closeWake | closeEnd =>
    cases ‹CloseCaller› <;> first | rfl | exact absurd hpc (by simp [SenderPc.dangling])
  | _ => exact absurd hpc (by simp [SenderPc.dangling])

/-! ### The shutdown bit -/

theorem Sys.Dangling.step (hd : σ.Dangling) (hf : Fresh σ) (hm : Moves ring σ l σ') :
    σ'.Dangling := by
  obtain ⟨k, hk⟩ := hd
  have hlt : k < σ.nextSend := by
    refine hf.lt_of_send fun hidle => ?_
    rw [hidle] at hk
    exact absurd hk (by simp [SenderPc.dangling])
  refine ⟨k, ?_⟩
  rcases hm.sender_cases k with ⟨act, e, rfl, hsm, -, -⟩ | hl
  · exact hsm.dangling hk
  · rwa [hm.sends_other hlt hl]

/-- A step that repairs does not publish the first unpublished sequence. -/
theorem Moves.spares_frontier {e : Event T N} (hm : Moves ring σ l σ') (hok : Repairs ring σ l)
    (hd : σ.Dangling) (htrace : σ'.trace = e :: σ.trace) (hf : Frontier (Published σ.trace) f)
    (k : Nat) : e ≠ .publish k f := by
  rintro rfl
  obtain ⟨k', act, pc, rfl, -, -, hsm⟩ := hm.of_sendSide htrace rfl
  generalize hpc : σ.sends k' = pc₀ at hsm
  cases hsm with
  | publish hseq => exact hok.commit _ _ _ _ rfl hpc hseq hd hf

/-- **No commit takes the bit away** from the first unpublished sequence. -/
theorem Boundary.step (hb : Boundary ring.bufferSize σ.trace f) (hi' : Inv ring initial σ')
    (hd : σ.Dangling) (hok : Repairs ring σ l) (hm : Moves ring σ l σ') :
    Boundary ring.bufferSize σ'.trace f := by
  have hl := hi'.sound.legal
  rcases hm.event_cases with ⟨htrace, -⟩ | ⟨e, htrace, -, -⟩
  · rwa [htrace]
  · rw [htrace] at hl ⊢
    exact hb.cons ring.bufferSize_pos hl (hm.spares_frontier hok hd htrace hb.frontier)

theorem frontier_step (hf : Frontier (Published σ.trace) f) (hd : σ.Dangling)
    (hok : Repairs ring σ l) (hm : Moves ring σ l σ') : Frontier (Published σ'.trace) f := by
  rcases hm.event_cases with ⟨htrace, -⟩ | ⟨e, htrace, -, -⟩
  · rwa [htrace]
  · rw [htrace]
    exact frontier_cons hf (hm.spares_frontier hok hd htrace hf)

/-- A call whose scan has not ended has nothing to know. -/
theorem danglingInv_of_not_dangling (hpc : pc.dangling = false) : DanglingInv c h pc := by
  cases pc with
  | closing pos caller =>
    cases pos <;> cases caller <;> trivial
  | poisoned => exact absurd hpc (by simp [SenderPc.dangling])
  | _ => trivial

/-- No other party takes the boundary away. -/
theorem DanglingInv.other (hk : DanglingInv ring.bufferSize σ.trace (σ.sends k))
    (hi' : Inv ring initial σ') (hok : Repairs ring σ l) (hm : Moves ring σ l σ') :
    DanglingInv ring.bufferSize σ'.trace (σ.sends k) := by
  by_cases hdangling : (σ.sends k).dangling = true
  · have hd : σ.Dangling := ⟨k, hdangling⟩
    have hboundary : (∃ f, Boundary ring.bufferSize σ.trace f) →
        ∃ f, Boundary ring.bufferSize σ'.trace f :=
      fun hb => hb.imp fun f hb => hb.step hi' hd hok hm
    generalize σ.sends k = pc at hk hdangling
    cases pc with
    | closing pos caller =>
      cases caller with
      | permit =>
        cases pos with
        | mark raw lastPublished =>
          obtain ⟨f, hb | ⟨hf, heq⟩⟩ := hk
          · exact ⟨f, Or.inl (hb.step hi' hd hok hm)⟩
          · exact ⟨f, Or.inr ⟨frontier_step hf hd hok hm, heq⟩⟩
        | store | notify => exact hboundary hk
        | _ => trivial
      | _ => exact absurd hdangling (by simp [SenderPc.dangling])
    | poisoned => exact hboundary hk
    | _ => exact absurd hdangling (by simp [SenderPc.dangling])
  · exact danglingInv_of_not_dangling (Bool.eq_false_iff.mpr hdangling)

/-- **A step of the call itself** knows the boundary at the end of the scan, and sets it. -/
theorem SenderMoves.danglingInv (hm : SenderMoves ring k m pc act e pc')
    (hs : Sound ring initial h m) (hi : SenderInv ring.bufferSize h k pc)
    (hscan : SenderScan ring.bufferSize h pc) (hd : DanglingInv ring.bufferSize h pc)
    (hsees : ∀ raw lastClaimed seq raw' lastPublished, act = .run →
      pc = .closing (.scan raw lastClaimed seq) .permit →
        pc' = .closing (.mark raw' lastPublished) .permit →
          Sees ring.bufferSize h lastClaimed) :
    DanglingInv ring.bufferSize (record e h) pc' := by
  have hmove := hm
  cases hm with
  | load | retry =>
    exact claimLoop_cases (P := fun pc => DanglingInv _ _ pc) trivial fun _ => trivial
  | gateEnd =>
    exact claimBody_cases (P := fun pc => DanglingInv _ _ pc) (fun _ => trivial) fun _ => trivial
  | claim =>
    exact granted_cases (P := fun pc => DanglingInv _ _ pc) (fun _ => trivial) trivial trivial
  | @closeUnclaimed caller hneg =>
    cases caller with
    | permit =>
      have hnonneg := hs.claimed.lastClaimedOf_nonneg hs.bound hi.1
      omega
    | _ => trivial
  | closeFound | closeScanEnd =>
    cases ‹CloseCaller› with
    | permit =>
      obtain ⟨f, hb | hseen⟩ := hsees _ _ _ _ _ rfl rfl rfl
      · exact ⟨f, Or.inl hb⟩
      · exact ⟨f, Or.inr ⟨hseen.1, scan_end hs hscan hseen hmove⟩⟩
    | _ => trivial
  | @closeMark raw lastPublished caller =>
    cases caller with
    | permit =>
      obtain ⟨f, hb | ⟨hf, heq⟩⟩ := hd
      · exact ⟨f, hb.cons_of_ne (by simp)⟩
      · refine ⟨f, (frontier_congr (published_cons_iff (by simp))).mpr hf, Or.inl ?_⟩
        rw [heq]
    | _ => trivial
  | closeStore | closeWake | closeEnd =>
    cases ‹CloseCaller› with
    | permit => exact Exists.imp (fun f hb => Boundary.cons_of_ne hb (by simp)) hd
    | _ => trivial
  | closeLoad | closeScan => cases ‹CloseCaller› <;> trivial
  | _ => trivial

theorem danglingInv_step (hr : Repaired ring initial σ) (hi' : Inv ring initial σ')
    (hok : Repairs ring σ l) (hst : step ring σ l = some σ') :
    ∀ k, DanglingInv ring.bufferSize σ'.trace (σ'.sends k) := by
  have hm := moves_of_step hst
  intro k
  rcases hm.sender_cases k with ⟨act, e, rfl, hsm, htrace, -⟩ | hl
  · rw [htrace]
    refine hsm.danglingInv hr.inv.sound (hr.inv.send k) (hr.scan k) (hr.dangling k) ?_
    rintro raw lastClaimed seq raw' lastPublished rfl hpc hpc'
    exact hok.scan k raw lastClaimed seq raw' lastPublished σ' rfl hpc hst hpc'
  · rcases hm.sends_cases hl with hsame | ⟨h, c, -, -, hstart⟩ | hclosing
    · rw [hsame]
      exact (hr.dangling k).other hi' hok hm
    · rw [hstart]
      exact start_cases (P := fun pc => DanglingInv _ _ pc) trivial trivial
    · rw [hclosing]
      trivial

theorem repaired_init (ring : RingBufferMeta) (initial : Nat → T) (i₀ : Fin N) :
    Repaired ring initial (Sys.init initial i₀) where
  inv := inv_init ring initial i₀
  closed := closedInv_init initial i₀
  accounted _ _ ho := absurd ho (by simp [Sys.init, owner])
  stopped _ hpc := absurd hpc (by simp [Sys.init])
  scan _ := trivial
  dangling _ := trivial

theorem repaired_step (hr : Repaired ring initial σ) (hok : RepairsOk ring σ l)
    (hst : step ring σ l = some σ') : Repaired ring initial σ' := by
  have hm := moves_of_step hst
  have hi' := inv_step hr.inv hok.1 hst
  refine ⟨hi', closedInv_step hr.inv hr.closed hm, accounted_step hr.inv hr.accounted hm, ?_,
    senderScan_step hr.inv hr.scan hm, danglingInv_step hr hi' hok.2 hst⟩
  refine hm.forall_sends (J := fun k pc => σ.sends k = pc)
    (K := fun _ pc => pc = .poisoned → hasShutdown σ'.mem.claimed = true) (fun _ => rfl) ?_ ?_ ?_ ?_
  · exact fun h c _ => start_cases (P := fun pc => pc = .poisoned → _) (by simp) (by simp)
  · exact fun _ _ _ _ _ _ hpc => absurd hpc (by simp)
  · intro k act e pc _ _ hsm _ _ _ hpc
    obtain ⟨i, hclosing⟩ := hsm.of_poisoned hpc
    have hclosed := hr.closed.send k
    rw [hclosing] at hclosed
    exact hasShutdown_step hr.inv hm (hclosed.2.resolve_left (by simp))
  · exact fun k _ _ hpc => hasShutdown_step hr.inv hm (hr.stopped k hpc)

/-- In these runs only what the user leaks is abandoned. -/
theorem leak_of_abandoned {i₀ : Fin N} {ls : List (Label T N)}
    (hrun : Run (step ring) (RepairsOk ring) (Sys.init initial i₀) ls σ)
    (hpc : σ.sends k = .abandoned) : .sender k .leak ∈ ls := by
  refine hrun.invariant_log (I := fun _ => True)
    (J := fun ls σ => σ.sends k = .abandoned → .sender k .leak ∈ ls) (fun _ _ _ => trivial) ?_
    trivial (fun h => absurd h (by simp [Sys.init])) hpc
  intro ls l σ σ' _ _ hJ hok hst hpc
  have hm := moves_of_step hst
  refine List.mem_append.mpr ?_
  rcases hm.sender_cases k with ⟨act, e, rfl, hsm, -, -⟩ | hl
  · rcases hsm.of_abandoned hpc with rfl | ⟨v, seq, w, hwriting, rfl⟩ | ⟨seq, w, hrecycling, rfl⟩
    · exact Or.inr List.mem_cons_self
    · exact absurd hwriting (hok.2.write k w rfl v seq)
    · exact absurd hrecycling (hok.2.payload k w rfl seq)
  · rcases hm.sends_cases hl with hsame | ⟨h, c, -, -, hstart⟩ | hclosing
    · exact Or.inl (hJ (hsame ▸ hpc))
    · rw [hstart] at hpc
      revert hpc
      exact start_cases (P := fun pc => pc = .abandoned → _) (by simp) (by simp)
    · rw [hclosing] at hpc
      exact absurd hpc (by simp)

/-! ### What the receivers see -/

/-- A call that is over holds no sequence. -/
theorem Accounted.of_finished (ha : Accounted h k pc) (hfin : pc.finished = true)
    (ho : owner h s = some k) : Published h s ∨ pc = .poisoned ∨ pc = .abandoned := by
  rcases ha s ho with hp | hs | hlost
  · exact Or.inl hp
  · cases pc with
    | refused | committed | poisoned | abandoned | tornDown => exact hs.elim
    | _ => exact absurd hfin (by simp [SenderPc.finished])
  · cases pc with
    | poisoned => exact Or.inr (Or.inl rfl)
    | abandoned => exact Or.inr (Or.inr rfl)
    | refused | committed | tornDown => exact absurd hlost (by simp [SenderPc.lost])
    | _ => exact absurd hfin (by simp [SenderPc.finished])

/-- **The receiver is told**: the next sequence is published, or the shutdown bit is set at the
first one that is not. -/
theorem Repaired.told (hr : Repaired ring initial σ) (hun : σ.Unowned i) :
    Published σ.trace (σ.mem.consumed i + 1) ∨
      σ.Dangling ∧ ∃ f, Boundary ring.bufferSize σ.trace f := by
  obtain ⟨k, ho, hfin, hne⟩ := hun
  rcases (hr.accounted k).of_finished hfin ho with hp | hpc | hpc
  · exact Or.inl hp
  · have hd := hr.dangling k
    rw [hpc] at hd
    exact Or.inr ⟨⟨k, by rw [hpc]; rfl⟩, hd⟩
  · exact absurd hpc hne

/-- What the first slot of the scan says, a receive call returns. -/
theorem informed_of_slot (hlive : σ.receivers i = true)
    (hslot : ring.Available σ.mem.states (σ.mem.consumed i + 1) ∨
      shutdownOf (σ.mem.states (ring.indexOfSeq (σ.mem.consumed i + 1))) = true) :
    σ.Informed ring i := by
  intro limit async hlimit hmax
  have hc := ring.bufferSize_pos
  have hcast := usizeAsI64_eq hmax
  have hnext : σ.mem.consumed i <
      σ.mem.consumed i + min (usizeAsI64 limit) ring.bufferSize := by
    omega
  have horder : σ.mem.consumed i + 1 - 1 ≤
      σ.mem.consumed i + min (usizeAsI64 limit) ring.bufferSize := by
    omega
  have hscan := scanAvailableUntil_extent ring σ.mem.states horder
  generalize hout : recvClaim ring σ.mem.states (σ.mem.consumed i) (usizeAsI64 limit) = out
  obtain ⟨available, shutdown⟩ := out
  have hout' := hout
  unfold recvClaim at hout'
  rw [hout'] at hscan
  dsimp only at hscan
  obtain ⟨σ', hrecv, -, -, hitems, hdisc, -⟩ :=
    receives_atMost ring async hlive (by omega) hout
  refine ⟨σ', hrecv, ?_⟩
  rcases lt_or_ge (σ.mem.consumed i) available with hlt | hge
  · exact Or.inl ⟨available, hlt, (hitems hlt).1⟩
  · -- the scan stopped at the first slot
    have hlow := hscan.lower
    obtain rfl : available = σ.mem.consumed i := by omega
    have hmark := hslot.resolve_left (hscan.stop hnext)
    exact Or.inr (hdisc hge ((scanAvailableUntil_stuck hnext hout').trans hmark)).1

theorem Repaired.informed (hr : Repaired ring initial σ) (hlive : σ.receivers i = true)
    (hun : σ.Unowned i) (hplace : σ.InPlace ring i 1) : σ.Informed ring i := by
  refine informed_of_slot hlive ?_
  have hi := hr.inv
  have hc := ring.bufferSize_pos
  have hl := hi.sound.legal
  have hcons := hi.sound.consumed_eq (hi.not_dropped hlive)
  have hneg := neg_one_le_position (i := i) hl
  have havailable : Published σ.trace (σ.mem.consumed i + 1) →
      ring.Available σ.mem.states (σ.mem.consumed i + 1) := by
    intro hp
    rw [hi.sound.mem, available_iff_held ring initial, ← hi.sound.mem]
    refine hplace _ (by omega) (by omega) fun s h₀ h₁ => ?_
    rwa [show s = σ.mem.consumed i + 1 by omega]
  rcases hr.told hun with hp | ⟨-, f, hb⟩
  · exact Or.inl (havailable hp)
  · have hfacing := hb.facing (s := σ.mem.consumed i + 1) (by omega) fun u h₀ h₁ =>
      published_of_position (i := i) hl h₀ (by omega)
    rcases hfacing.next with hp | ⟨-, hmark⟩
    · exact Or.inl (havailable hp)
    · refine Or.inr ?_
      rw [hi.sound.mem] at hmark ⊢
      exact shutdownOf_replay.mpr hmark

theorem NextPublished.step (hp : NextPublished ring initial s σ)
    (hok : RepairsOk ring σ l ∧ OneGuard σ l) (hst : step ring σ l = some σ') :
    NextPublished ring initial s σ' :=
  ⟨served_step hp.served hok.1.1 hok.2 hst, (moves_of_step hst).published hp.published⟩

/-- A published next sequence is given before any bound that no claim reaches. -/
theorem NextPublished.facing (hp : NextPublished ring initial s σ) :
    Facing ring.bufferSize σ.trace (2 ^ 62) s where
  below t ht := by
    have hi := hp.served.guarded.inv
    by_contra hge
    have hrange := (ht t (by omega) (le_refl t)).range hi.sound.legal
    have hbound := hi.sound.bound
    omega
  next := Or.inl hp.published

theorem Warned.step (hw : Warned ring initial f σ) (hok : RepairsOk ring σ l ∧ OneGuard σ l)
    (hst : step ring σ l = some σ') : Warned ring initial f σ' := by
  have hm := moves_of_step hst
  have hs' := served_step hw.served hok.1.1 hok.2 hst
  exact ⟨hs', hw.dangling.step hw.served.guarded.inv.fresh hm,
    hw.boundary.step hs'.guarded.inv hw.dangling hok.1.2 hm⟩

/-- Whatever else goes on, if the receivers hold one guard at a time. -/
theorem Repaired.drains {ok : Sys T N → Label T N → Prop}
    (hok : ∀ {σ l}, ok σ l → RepairsOk ring σ l ∧ OneGuard σ l) (hr : Repaired ring initial σ)
    (hs : Served ring initial σ) (hlive : σ.receivers i = true) (hun : σ.Unowned i) :
    ∃ f, σ.Drains ring ok i f := by
  have hd := hr.inv.not_dropped hlive
  have hcons := hr.inv.sound.consumed_eq hd
  rcases hr.told hun with hp | ⟨hdangling, f, hb⟩
  · rw [hcons] at hp
    exact ⟨2 ^ 62, drains_of_facing rfl (fun hp => ⟨hp.served, hp.facing⟩)
      (fun hp hl hst => NextPublished.step hp (hok hl) hst) ⟨hs, hp⟩ hd⟩
  · exact ⟨f, drains_of_boundary (fun hw => ⟨hw.served, hw.boundary⟩)
      (fun hw hl hst => Warned.step hw (hok hl) hst) ⟨hs, hdangling, hb⟩ hd⟩

/-- **Panics in user code leave no dangling claim**, in every run in range in which they are
repaired. When an operation is over, it was leaked, or every sequence it claimed is published or the
channel is terminated; and a receiver whose next sequence is such a one (and was not overwritten in
its slot, the cursor having gone back) is given items or `Disconnected`, never `Empty`. With one
guard at a time this is so under every interleaving. -/
theorem no_dangling_claim {i₀ : Fin N} {ls : List (Label T N)}
    (hrun : Run (step ring) (RepairsOk ring) (Sys.init initial i₀) ls σ) :
    (∀ k, (σ.sends k).finished = true →
        (σ.sends k = .abandoned ∧ .sender k .leak ∈ ls) ∨
          ∀ s, owner σ.trace s = some k →
            Published σ.trace s ∨ hasShutdown σ.mem.claimed = true) ∧
      (∀ i, σ.receivers i = true → σ.Unowned i → σ.InPlace ring i 1 → σ.Informed ring i) ∧
      (Run (step ring) (fun σ l => RepairsOk ring σ l ∧ OneGuard σ l) (Sys.init initial i₀) ls σ →
        ∀ i, σ.receivers i = true → σ.Unowned i →
          ∃ f, σ.Drains ring (fun σ l => RepairsOk ring σ l ∧ OneGuard σ l) i f) := by
  have hr : Repaired ring initial σ :=
    hrun.invariant (fun hr hok hst => repaired_step hr hok hst) (repaired_init ring initial i₀)
  refine ⟨fun k hfin => ?_, fun i hlive hun hplace => hr.informed hlive hun hplace,
    fun hone i hlive hun => ?_⟩
  · by_cases hpc : σ.sends k = .abandoned
    · exact Or.inl ⟨hpc, leak_of_abandoned hrun hpc⟩
    · refine Or.inr fun s ho => ?_
      rcases (hr.accounted k).of_finished hfin ho with hp | hpoisoned | habandoned
      · exact Or.inl hp
      · exact Or.inr (hr.stopped k hpoisoned)
      · exact absurd habandoned hpc
  · have hs : Served ring initial σ :=
      (served_init ring initial i₀).of_run (fun hok => ⟨hok.1.1, hok.2⟩) hone
    exact hr.drains id hs hlive hun

/-! `Repairs` can be computed. -/

/-- `Repairs` as a check of one label. -/
def repairsCheck (ring : RingBufferMeta) (σ : Sys T N) : Label T N → Bool
  | .sender k (.panics _) =>
    match σ.sends k with
    | .writing _ _ => false
    | _ => true
  | .sender k (.panicsTwice _) =>
    match σ.sends k with
    | .recycling _ => false
    | _ => true
  | .sender k .run =>
    match σ.sends k with
    | .closing (.scan _ lastClaimed _) .permit => seesCheck ring.bufferSize σ.trace lastClaimed
    | .publishing _ seq _ => decide (0 < seq ∧ ¬ Published σ.trace (seq - 1))
    | _ => true
  | _ => true

theorem repairs_of_check (hcheck : repairsCheck ring σ l = true) : Repairs ring σ l where
  write := by
    rintro k w rfl v seq hpc
    simp [repairsCheck, hpc] at hcheck
  payload := by
    rintro k w rfl seq hpc
    simp [repairsCheck, hpc] at hcheck
  scan := by
    rintro k raw lastClaimed seq raw' lastPublished σ' rfl hpc - -
    simp only [repairsCheck, hpc] at hcheck
    exact sees_of_check hcheck
  commit := by
    rintro k first seq last rfl hpc - - hf
    simp only [repairsCheck, hpc, decide_eq_true_eq] at hcheck
    exact hcheck.2 (hf.below _ (by omega) (by omega))

/-- In a batch of two a closure panics, whose slot is recycled; then the recycler panics in the drop
of the batch. The channel is terminated, and the receiver is told. -/
theorem no_dangling_claim_batch :
    ∃ (ls : List (Label Nat 1)) (σ : Sys Nat 1),
      Run (step ⟨1, by decide⟩) (fun σ l => RepairsOk ⟨1, by decide⟩ σ l ∧ OneGuard σ l)
          (Sys.init (fun _ => 0) 0) ls σ ∧
        σ.sends 0 = .poisoned ∧
        (∀ s, owner σ.trace s = some 0 →
          Published σ.trace s ∨ hasShutdown σ.mem.claimed = true) ∧
        σ.Informed ⟨1, by decide⟩ 0 ∧
        ∃ f, σ.Drains ⟨1, by decide⟩
          (fun σ l => RepairsOk ⟨1, by decide⟩ σ l ∧ OneGuard σ l) 0 f := by
  have hex : (exec (step ⟨1, by decide⟩)
      (fun σ l => InRange ⟨1, by decide⟩ σ l ∧ OneGuard σ l ∧
        repairsCheck ⟨1, by decide⟩ σ l = true) (Sys.init (fun _ => 0) 0)
      (List.flatten [[.send 0 (.trySendAtMost 2)], List.replicate 4 (.sender 0 .run),
        [.sender 0 .next, .sender 0 (.panics 5), .sender 0 (.recycled 6), .sender 0 .drop,
          .sender 0 (.panics 7)], List.replicate 6 (.sender 0 .run)])).any
      (fun σ : Sys Nat 1 => decide (σ.sends 0 = .poisoned ∧ σ.receivers 0 = true ∧
        σ.mem.consumed 0 = -1 ∧ owner σ.trace 0 = some 0 ∧ ¬ Published σ.trace 0)) = true := by
    decide +kernel
  obtain ⟨σ, hrun, hσ⟩ := Run.of_exec_any hex
  obtain ⟨hpoisoned, hlive, hconsumed, howner, hunp⟩ := of_decide_eq_true hσ
  have hone : Run _ (fun σ l => RepairsOk ⟨1, by decide⟩ σ l ∧ OneGuard σ l) _ _ _ :=
    hrun.mono fun hok => ⟨⟨hok.1, repairs_of_check hok.2.2⟩, hok.2.1⟩
  have hun : σ.Unowned 0 :=
    ⟨0, by rw [hconsumed]; exact howner, by rw [hpoisoned]; rfl, by rw [hpoisoned]; simp⟩
  have hplace : σ.InPlace ⟨1, by decide⟩ 0 1 := by
    intro s h₀ h₁ hprev
    rw [hconsumed] at h₀ h₁ hprev
    exact absurd (hprev 0 (by omega) (by omega)) hunp
  obtain ⟨hover, hinformed, hdrains⟩ := no_dangling_claim (hone.mono fun hok => hok.1)
  refine ⟨_, σ, hone, hpoisoned, ?_, hinformed 0 hlive hun hplace, hdrains hone 0 hlive hun⟩
  refine (hover 0 (by rw [hpoisoned]; rfl)).resolve_left ?_
  rintro ⟨habandoned, -⟩
  rw [hpoisoned] at habandoned
  exact absurd habandoned (by simp)

/-- **`try_send` leaves a dangling claim** when the drop of the old item panics in its write: the
sequence is neither published nor is the channel terminated, and the receiver gets `Empty` although
a later item was sent. -/
theorem dangling_claim :
    ∃ (ls ls' : List (Label Nat 1)) (σ σ' : Sys Nat 1),
      Run (step ⟨1, by decide⟩) (RangeOneGuard ⟨1, by decide⟩) (Sys.init (fun _ => 0) 0) ls σ ∧
        (σ.sends 0).finished = true ∧ .sender 0 .leak ∉ ls ∧ owner σ.trace 0 = some 0 ∧
        ¬ Published σ.trace 0 ∧ hasShutdown σ.mem.claimed = false ∧
        Run (step ⟨1, by decide⟩) (RangeOneGuard ⟨1, by decide⟩) σ ls' σ' ∧
          Published σ'.trace 1 ∧ σ'.senders 0 = true ∧ σ'.recvs 0 = .empty := by
  have hex : (exec (step ⟨1, by decide⟩) (RangeOneGuard ⟨1, by decide⟩) (Sys.init (fun _ => 0) 0)
      (List.flatten [[.send 0 (.trySend 7)], List.replicate 4 (.sender 0 .run),
        [.sender 0 (.panics 7)]])).any
      (fun σ : Sys Nat 1 => decide ((σ.sends 0).finished = true ∧ owner σ.trace 0 = some 0 ∧
        ¬ Published σ.trace 0 ∧ hasShutdown σ.mem.claimed = false ∧
        (exec (step ⟨1, by decide⟩) (RangeOneGuard ⟨1, by decide⟩) σ
          (List.flatten [[.send 0 (.trySend 8)], List.replicate 9 (.sender 1 .run),
            [.recv 0 1 false, .receiver 0 .run, .receiver 0 .run]])).any
          (fun σ' : Sys Nat 1 => decide (Published σ'.trace 1 ∧ σ'.senders 0 = true ∧
            σ'.recvs 0 = .empty)) = true)) = true := by
    decide +kernel
  obtain ⟨σ, hrun, hσ⟩ := Run.of_exec_any hex
  obtain ⟨hfin, howner, hunp, hopen, hex'⟩ := of_decide_eq_true hσ
  obtain ⟨σ', hrun', hσ'⟩ := Run.of_exec_any hex'
  exact ⟨_, _, σ, σ', hrun, hfin, by simp, howner, hunp, hopen, hrun', of_decide_eq_true hσ'⟩

/-- **The drop of a permit unwinds past `terminate()`** when the recycler panics and the drop of the
payload does as well: the sequence is neither published nor is the channel terminated. -/
theorem unwinds_past_terminate :
    ∃ (ls : List (Label Nat 1)) (σ : Sys Nat 1),
      Run (step ⟨1, by decide⟩) (RangeOneGuard ⟨1, by decide⟩) (Sys.init (fun _ => 0) 0) ls σ ∧
        (σ.sends 0).finished = true ∧ .sender 0 .leak ∉ ls ∧ owner σ.trace 0 = some 0 ∧
        ¬ Published σ.trace 0 ∧ hasShutdown σ.mem.claimed = false := by
  have hex : (exec (step ⟨1, by decide⟩) (RangeOneGuard ⟨1, by decide⟩) (Sys.init (fun _ => 0) 0)
      (List.flatten [[.send 0 .tryReserve], List.replicate 4 (.sender 0 .run),
        [.sender 0 .drop, .sender 0 (.panicsTwice 5)]])).any
      (fun σ : Sys Nat 1 => decide ((σ.sends 0).finished = true ∧ owner σ.trace 0 = some 0 ∧
        ¬ Published σ.trace 0 ∧ hasShutdown σ.mem.claimed = false)) = true := by
    decide +kernel
  obtain ⟨σ, hrun, hσ⟩ := Run.of_exec_any hex
  obtain ⟨hfin, howner, hunp, hopen⟩ := of_decide_eq_true hσ
  exact ⟨_, σ, hrun, hfin, by simp, howner, hunp, hopen⟩

end

end EnsoChannel
