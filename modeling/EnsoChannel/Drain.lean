import EnsoChannel.Boundary

/-!
# The last sender's drop

Dropping the last sender handle runs `close()` with nobody but the receivers against it. The
sequences that are published then are all that ever will be, and the receivers have to drain
exactly the contiguous part of them.

* `TornInv` / `torn_step`: what that `close()` knows at each of its positions, given that where it
  starts the claimed value hides nothing (`Sees`). At its end the boundary is set.
* `drained`: from then on nothing is published, and every receive call drains.
* `close_disconnects`: whatever recyclers panicked before. The condition is needed:
  `close_misses_boundary` is a run in which a `terminate()` has stored a stale `claimed` value and
  the receiver is left with `Empty` for ever.
* `graceful_shutdown`: without recycler panics the condition always holds, and no call returns
  `Disconnected` before.
-/

namespace EnsoChannel

open Lib

variable {T : Type} {N : Nat}

/-- The `close()` of the last sender will set the boundary: the slot of the first unpublished
sequence carries the bit already, or the claimed value `lastClaimed` hides nothing published. -/
def Sees (c : Int) (h : History T N) (lastClaimed : Int) : Prop :=
  ∃ f, Boundary c h f ∨ Seen c h lastClaimed f

/-- When the last sender is dropped, its `close()` will set the boundary. -/
def CloseSees (ring : RingBufferMeta) (σ : Sys T N) (l : Label T N) : Prop :=
  ∀ h, l = .dropSender h → σ.LastSender h →
    Sees ring.bufferSize σ.trace (lastClaimedOf σ.mem.claimed)

/-- The discipline of the runs with panics. -/
def CloseOk (ring : RingBufferMeta) (σ : Sys T N) (l : Label T N) : Prop :=
  InRange ring σ l ∧ OneGuard σ l ∧ CloseSees ring σ l

/-- What the tear-down knows. -/
def TornInv (c : Int) (h : History T N) (claimed : Int) : SenderPc T → Prop
  | .closing .load .lastSender => Sees c h (lastClaimedOf claimed)
  | .closing (.scan _ lastClaimed _) .lastSender => Sees c h lastClaimed
  | .closing (.mark _ lastPublished) .lastSender =>
    ∃ f, Boundary c h f ∨ (Frontier (Published h) f ∧ lastPublished + 1 = f)
  | .closing (.store _) .lastSender => ∃ f, Boundary c h f
  | .closing (.notify _) .lastSender => ∃ f, Boundary c h f
  | .tornDown => ∃ f, Boundary c h f
  | _ => True

/-- The receiver leaked no guard. -/
def Sys.Unleaked (σ : Sys T N) (i : Fin N) : Prop :=
  ∀ r < σ.nextRecv, σ.recvReceiver r = i → σ.recvs r ≠ .leaked

/-- The invariant of the runs in which the last `close()` sets the boundary. -/
structure Draining (ring : RingBufferMeta) (initial : Nat → T) (σ : Sys T N) : Prop where
  served : Served ring initial σ
  scan : ∀ k, SenderScan ring.bufferSize σ.trace (σ.sends k)
  torn : ∀ k, TornInv ring.bufferSize σ.trace σ.mem.claimed (σ.sends k)
  given : ∀ i, σ.Unleaked i → Taken σ i

/-- What is kept once the last `close()`, that of call `k`, has returned in `σ₀`: the boundary, and
what was published then. -/
structure TornDown (ring : RingBufferMeta) (initial : Nat → T) (k : Nat) (f : Int)
    (σ₀ σ : Sys T N) : Prop where
  draining : Draining ring initial σ
  boundary : Boundary ring.bufferSize σ.trace f
  ended : σ.sends k = .tornDown
  published : ∀ s, Published σ.trace s ↔ Published σ₀.trace s

section

variable {ring : RingBufferMeta} {initial : Nat → T} {σ₀ σ σ' σ'' : Sys T N} {l : Label T N}
  {k r : Nat} {h h' : History T N} {m : Mem T N} {i : Fin N} {e : Event T N} {c f s : Int}
  {pc pc' : SenderPc T} {act : SenderAct T}

/-! ## The tear-down -/

theorem published_cons_iff (he : ∀ k s, e ≠ .publish k s) (s : Int) :
    Published (e :: h) s ↔ Published h s :=
  published_cons_of_ne fun k => he k s

theorem frontier_congr (hp : ∀ s, Published h' s ↔ Published h s) :
    Frontier (Published h') f ↔ Frontier (Published h) f := by
  have hext : Published h' = Published h := funext fun s => propext (hp s)
  rw [hext]

/-- The first unpublished sequence is claimed, or the next one to be. -/
theorem frontier_le_highest (hl : Legal c h) (hf : Frontier (Published h) f) :
    f ≤ highest h + 1 := by
  have hneg := neg_one_le_highest h
  by_contra hgt
  have hpub := hf.below (highest h + 1) (by omega) (by omega)
  have hrange := (hpub.range hl).2
  omega

theorem Boundary.cons_of_ne (hb : Boundary c h f) (he : ∀ k s, e ≠ .publish k s) :
    Boundary c (e :: h) f :=
  ⟨(frontier_congr (published_cons_iff he)).mpr hb.frontier,
    marked_cons hb.marked fun k s heq => absurd heq (he k s)⟩

theorem Seen.cons_of_ne {lastClaimed : Int} (hs : Seen c h lastClaimed f)
    (he : ∀ k s, e ≠ .publish k s) : Seen c (e :: h) lastClaimed f :=
  ⟨(frontier_congr (published_cons_iff he)).mpr hs.1, hs.2.1,
    fun t ht => hs.2.2 t ((published_cons_iff he t).mp ht)⟩

theorem Sees.cons_of_ne {lastClaimed : Int} (hs : Sees c h lastClaimed)
    (he : ∀ k s, e ≠ .publish k s) : Sees c (e :: h) lastClaimed := by
  obtain ⟨f, hb | hseen⟩ := hs
  · exact ⟨f, Or.inl (hb.cons_of_ne he)⟩
  · exact ⟨f, Or.inr (hseen.cons_of_ne he)⟩

/-- What is not part of the tear-down has nothing to know. -/
theorem tornInv_of_not_teardown {claimed : Int} (ht : pc.teardown = false) :
    TornInv c h claimed pc := by
  cases pc with
  | closing pos caller =>
    cases caller with
    | lastSender => exact absurd ht (by simp [SenderPc.teardown])
    | _ => cases pos <;> trivial
  | tornDown => exact absurd ht (by simp [SenderPc.teardown])
  | _ => trivial

/-- What the tear-down knows, no receiver takes away. -/
theorem TornInv.cons {claimed : Int} (ht : TornInv c h claimed pc)
    (he : pc.teardown = true → ∀ k s, e ≠ .publish k s) : TornInv c (e :: h) claimed pc := by
  by_cases htear : pc.teardown = true
  · have hne := he htear
    have hboundary : (∃ f, Boundary c h f) → ∃ f, Boundary c (e :: h) f :=
      fun hb => hb.imp fun f hb => hb.cons_of_ne hne
    rcases pc.teardown_cases htear with ⟨pos, rfl⟩ | rfl
    · cases pos with
      | load => exact Sees.cons_of_ne ht hne
      | scan raw lastClaimed seq => exact Sees.cons_of_ne ht hne
      | mark raw lastPublished =>
        obtain ⟨f, hb | ⟨hf, heq⟩⟩ := ht
        · exact ⟨f, Or.inl (hb.cons_of_ne hne)⟩
        · exact ⟨f, Or.inr ⟨(frontier_congr (published_cons_iff hne)).mpr hf, heq⟩⟩
      | store raw => exact hboundary ht
      | notify i => exact hboundary ht
    · exact hboundary ht
  · exact tornInv_of_not_teardown (Bool.eq_false_iff.mpr htear)

/-- **One step of the tear-down**: at its end the boundary is set. -/
theorem SenderMoves.tornInv {claimed : Int} {e : Option (Event T N)}
    (hm : SenderMoves ring k m pc act e pc') (hs : Sound ring initial h m)
    (hscan : SenderScan ring.bufferSize h pc) (ht : TornInv ring.bufferSize h m.claimed pc) :
    TornInv ring.bufferSize (record e h) claimed pc' := by
  by_cases htear : pc.teardown = true
  · rcases pc.teardown_cases htear with ⟨pos, rfl⟩ | rfl
    · have hmove := hm
      cases hm with
      | closeUnclaimed hneg =>
        obtain ⟨f, hb | hseen⟩ := ht
        · exact ⟨f, Or.inl (hb.cons_of_ne (by simp))⟩
        · -- nothing was ever claimed
          have hnn := hseen.1.nonneg
          have hle := hseen.2.1
          exact ⟨f, Or.inr ⟨(hseen.cons_of_ne (by simp)).1, by omega⟩⟩
      | closeLoad => exact Sees.cons_of_ne ht (by simp)
      | closeScan => exact ht
      | closeFound =>
        obtain ⟨f, hb | hseen⟩ := ht
        · exact ⟨f, Or.inl hb⟩
        · exact ⟨f, Or.inr ⟨hseen.1, scan_end hs hscan hseen hmove⟩⟩
      | closeScanEnd =>
        obtain ⟨f, hb | hseen⟩ := ht
        · exact ⟨f, Or.inl hb⟩
        · exact ⟨f, Or.inr ⟨hseen.1, scan_end hs hscan hseen hmove⟩⟩
      | closeMark =>
        obtain ⟨f, hb | ⟨hf, heq⟩⟩ := ht
        · exact ⟨f, hb.cons_of_ne (by simp)⟩
        · refine ⟨f, (frontier_congr (published_cons_iff (by simp))).mpr hf, Or.inl ?_⟩
          rw [heq]
      | closeStore | closeWake | closeEnd =>
        exact Exists.imp (fun f hb => Boundary.cons_of_ne hb (by simp)) ht
    · cases hm
  · rw [Bool.not_eq_true, ← hm.teardown] at htear
    exact tornInv_of_not_teardown htear

/-- A receiver's event leaves the cursor of the senders alone. -/
theorem claimed_apply (he : e.sendSide = false) : (m.apply ring e).claimed = m.claimed := by
  cases e <;> first | rfl | exact absurd he (by simp [Event.sendSide])

/-- A receiver's event publishes nothing. -/
theorem ne_publish_of_sendSide (he : e.sendSide = false) (k : Nat) (s : Int) :
    e ≠ .publish k s := by
  rintro rfl
  exact absurd he (by simp [Event.sendSide])

/-- What an event of the receivers' side is, for the steps of everybody but the tear-down. -/
theorem Moves.event_of_teardown (hm : Moves ring σ l σ') (hi : Inv ring initial σ)
    (ht : (σ.sends k).teardown = true) (hl : ∀ act, l ≠ .sender k act) :
    (σ'.trace = σ.trace ∧ σ'.mem = σ.mem) ∨
      ∃ e, σ'.trace = e :: σ.trace ∧ σ'.mem = σ.mem.apply ring e ∧ e.sendSide = false := by
  rcases hm.event_cases with hsame | ⟨e, htrace, hmem, -⟩
  · exact Or.inl hsame
  · exact Or.inr ⟨e, htrace, hmem, hm.silent_of_teardown hi.fresh hi.borrow ht hl htrace⟩

theorem tornInv_step (hi : Inv ring initial σ)
    (hscan : ∀ k, SenderScan ring.bufferSize σ.trace (σ.sends k))
    (ht : ∀ k, TornInv ring.bufferSize σ.trace σ.mem.claimed (σ.sends k))
    (hsees : CloseSees ring σ l) (hm : Moves ring σ l σ') :
    ∀ k, TornInv ring.bufferSize σ'.trace σ'.mem.claimed (σ'.sends k) := by
  refine hm.forall_sends
    (J := fun k pc => σ.sends k = pc ∧ TornInv ring.bufferSize σ.trace σ.mem.claimed pc)
    (K := fun _ pc => TornInv ring.bufferSize σ'.trace σ'.mem.claimed pc)
    (fun k => ⟨rfl, ht k⟩) ?_ ?_ ?_ ?_
  · exact fun h c _ => tornInv_of_not_teardown (start_teardown c)
  · intro h hl _ hlast htrace hmem
    rw [htrace, hmem]
    exact hsees h hl hlast
  · intro k act e pc _ _ hsm hk htrace _
    rw [htrace]
    exact hsm.tornInv hi.sound (hscan k) hk.2
  · rintro k hl ⟨hpc, hk⟩
    by_cases htear : (σ.sends k).teardown = true
    · rcases hm.event_of_teardown hi htear hl with ⟨htrace, hmem⟩ | ⟨e, htrace, hmem, he⟩
      · rwa [htrace, hmem]
      · rw [htrace, hmem, claimed_apply he]
        exact hk.cons fun _ => ne_publish_of_sendSide he
    · exact tornInv_of_not_teardown (Bool.eq_false_iff.mpr htear)

/-! ## What was given to a receiver that leaks nothing -/

theorem Unleaked.of_step (hu : σ'.Unleaked i) (hm : Moves ring σ l σ') :
    σ.Unleaked i ∧ ∀ r, l = .receiver r .leak → σ.recvReceiver r ≠ i := by
  constructor
  · intro r hr hri hpc
    by_cases hself : ∃ act, l = .receiver r act
    · obtain ⟨act, rfl⟩ := hself
      obtain ⟨e, hrm, -⟩ := hm.recvs_self
      have hfin := hrm.unfinished
      rw [hpc] at hfin
      exact absurd hfin (by simp [RecvPc.finished])
    · obtain ⟨hpc', hrecv⟩ := hm.recvs_other hr fun act heq => hself ⟨act, heq⟩
      exact hu r (hr.trans_le hm.nextRecv_le) (hrecv.trans hri) (hpc'.trans hpc)
  · rintro r rfl hri
    obtain ⟨e, hrm, -, -, -, hrecv, hnext⟩ := hm.recvs_self
    have hr : r < σ.nextRecv := by
      cases hm with
      | receiver hr => exact hr
    generalize hpc : σ'.recvs r = pc at hrm
    generalize σ.recvs r = pc₀ at hrm
    cases hrm with
    | leak => exact hu r (hnext ▸ hr) (by rw [hrecv, hri]) hpc

theorem Unleaked.of_run {ok : Sys T N → Label T N → Prop} {ls : List (Label T N)}
    (hrun : Run (step ring) ok σ ls σ') (hu : σ'.Unleaked i) : σ.Unleaked i := by
  induction hrun with
  | nil => exact hu
  | snoc _ _ hst ih => exact ih (Unleaked.of_step hu (moves_of_step hst)).1

/-- What an idle receiver was given, it has released. -/
theorem Taken.eq_position (ht : Taken σ i) (hidle : σ.ReceiverIdle i) :
    taken σ.trace i = position σ.trace i := by
  rcases ht.idle with heq | ⟨r, hr, hri, hend⟩
  · exact heq
  · rw [RecvPc.guardEnd_of_finished (hidle r hr hri)] at hend
    exact absurd hend (by simp)

/-- A receiver has released no more than it was given. -/
theorem Taken.position_le (ht : Taken σ i) (hg : Guarded ring initial σ) :
    position σ.trace i ≤ taken σ.trace i := by
  rcases ht.idle with heq | ⟨r, hr, hri, hend⟩
  · exact heq.ge
  · have hinv := hg.inv.recv r
    have hcur := hg.current r hr
    generalize σ.recvs r = pc at hend hinv hcur
    cases pc with
    | guard first last =>
      rw [RecvPc.guardEnd] at hend
      split at hend
      · exact absurd hend (by simp)
      · rename_i hlast
        have hfirst := hcur hlast
        have hle := (hinv.2 hlast).2.1
        have hlt := Option.some.inj hend
        rw [hri] at hfirst
        omega
    | _ => exact absurd hend (by simp [RecvPc.guardEnd])

theorem Taken.length (ht : Taken σ i) (hi : Inv ring initial σ) :
    ((delivered σ.trace i).length : Int) = taken σ.trace i + 1 := by
  have hneg := (ht.published hi).1
  rw [ht.count, seqs, List.length_map, List.length_range]
  omega

/-- A receiver is given nothing beyond the boundary. -/
theorem Taken.lt_frontier (ht : Taken σ i) (hi : Inv ring initial σ)
    (hf : Frontier (Published σ.trace) f) : taken σ.trace i < f := by
  have hle : taken σ.trace i + 1 ≤ f := by
    refine hf.le_of_below fun s h₀ h₁ => ?_
    exact (ht.published hi).2 s h₀ (by omega)
  omega

/-! ## After the last `close()` -/

theorem draining_init (ring : RingBufferMeta) (initial : Nat → T) (i₀ : Fin N) :
    Draining ring initial (Sys.init initial i₀) :=
  ⟨served_init ring initial i₀, fun _ => trivial, fun _ => trivial,
    fun i _ => taken_init initial i₀ i⟩

theorem draining_step (hd : Draining ring initial σ) (hrange : InRange ring σ l)
    (hone : OneGuard σ l) (hsees : CloseSees ring σ l) (hst : step ring σ l = some σ') :
    Draining ring initial σ' := by
  have hm := moves_of_step hst
  have hi := hd.served.guarded.inv
  refine ⟨served_step hd.served hrange hone hst, senderScan_step hi hd.scan hm,
    tornInv_step hi hd.scan hd.torn hsees hm, fun i hu => ?_⟩
  obtain ⟨hu, hleak⟩ := Unleaked.of_step hu hm
  exact taken_step hd.served (hd.given i hu) hleak hm

/-- After the last `close()` nobody but the receivers moves, and no sender is left to drop. -/
theorem tornDown_step (hi : Inv ring initial σ) (hk : σ.sends k = .tornDown)
    (hm : Moves ring σ l σ') : σ'.sends k = .tornDown ∧ CloseSees ring σ l ∧
      (σ'.trace = σ.trace ∨ ∃ e, σ'.trace = e :: σ.trace ∧ e.sendSide = false) := by
  have ht : (σ.sends k).teardown = true := by rw [hk]; rfl
  have hlt := hi.fresh.lt_of_teardown ht
  have hother : ∀ act, l ≠ .sender k act := by
    rintro act rfl
    obtain ⟨e, hsm, -⟩ := hm.sends_self
    have hfin := hsm.unfinished
    rw [hk] at hfin
    exact absurd hfin (by simp [SenderPc.finished])
  refine ⟨by rw [hm.sends_other hlt hother, hk], ?_, ?_⟩
  · rintro h rfl -
    have hlive := hm.live_of_dropSender
    rw [hi.borrow.torn k hlt ht h] at hlive
    exact absurd hlive (by simp)
  · rcases hm.event_of_teardown hi ht hother with ⟨htrace, -⟩ | ⟨e, htrace, -, he⟩
    · exact Or.inl htrace
    · exact Or.inr ⟨e, htrace, he⟩

theorem Draining.tornDown (hd : Draining ring initial σ) (hk : σ.sends k = .tornDown) :
    ∃ f, TornDown ring initial k f σ σ := by
  have ht := hd.torn k
  rw [hk] at ht
  obtain ⟨f, hb⟩ : ∃ f, Boundary ring.bufferSize σ.trace f := ht
  exact ⟨f, hd, hb, hk, fun _ => Iff.rfl⟩

theorem TornDown.step (ht : TornDown ring initial k f σ₀ σ) (hok : InRange ring σ l ∧ OneGuard σ l)
    (hst : step ring σ l = some σ') : TornDown ring initial k f σ₀ σ' := by
  obtain ⟨hk, hsees, htrace⟩ :=
    tornDown_step ht.draining.served.guarded.inv ht.ended (moves_of_step hst)
  have hd := draining_step ht.draining hok.1 hok.2 hsees hst
  rcases htrace with heq | ⟨e, heq, he⟩
  · exact ⟨hd, by rw [heq]; exact ht.boundary, hk, by rw [heq]; exact ht.published⟩
  · have hne := ne_publish_of_sendSide he
    refine ⟨hd, by rw [heq]; exact ht.boundary.cons_of_ne hne, hk, fun s => ?_⟩
    rw [heq, published_cons_iff hne, ht.published]

/-- **After the last `close()` every receiver drains what is published**, and nothing more will
be. -/
theorem drained {ok : Sys T N → Label T N → Prop}
    (hok : ∀ {σ l}, ok σ l → InRange ring σ l ∧ OneGuard σ l) (hd : Draining ring initial σ)
    (hk : σ.sends k = .tornDown) :
    ∃ f, Frontier (Published σ.trace) f ∧ ∀ ls' σ', Run (step ring) ok σ ls' σ' →
      Draining ring initial σ' ∧ (∀ s, Published σ'.trace s ↔ Published σ.trace s) ∧
        ∀ i, σ'.receivers i = true → σ.mem.consumed i ≤ σ'.mem.consumed i ∧
          σ'.mem.consumed i < f ∧ σ'.Drains ring ok i f := by
  obtain ⟨f, ht⟩ := hd.tornDown hk
  have hkeep : ∀ {σ₁ l σ₂}, TornDown ring initial k f σ σ₁ → ok σ₁ l → step ring σ₁ l = some σ₂ →
      TornDown ring initial k f σ σ₂ := fun ht hl hst => ht.step (hok hl) hst
  refine ⟨f, ht.boundary.frontier, fun ls' σ' hrun => ?_⟩
  have ht' := hrun.invariant hkeep ht
  have hg' := ht'.draining.served.guarded
  refine ⟨ht'.draining, ht'.published, fun i hlive => ?_⟩
  obtain ⟨hle, -, hlive'⟩ := hd.served.guarded.consumed_le hg' (trace_suffix hrun) hlive
  refine ⟨hle, ?_,
    drains_of_boundary (fun ht => ⟨ht.draining.served, ht.boundary⟩) hkeep ht' hlive'⟩
  rw [hg'.inv.sound.consumed_eq hlive']
  exact hg'.inv.position_lt_frontier ht'.boundary.frontier i

/-- From the last `close()` on a receiver is given at most `capacity` items. -/
theorem length_le_of_drained (hd : Draining ring initial σ) (hd' : Draining ring initial σ')
    (hf : Frontier (Published σ.trace) f) (hp : ∀ s, Published σ'.trace s ↔ Published σ.trace s)
    (hlive : ¬ Dropped σ.trace i) (hu : σ.Unleaked i) (hu' : σ'.Unleaked i) :
    ((delivered σ'.trace i).length : Int) ≤ (delivered σ.trace i).length + ring.bufferSize := by
  have hi := hd.served.guarded.inv
  have hi' := hd'.served.guarded.inv
  have ht := hd.given i hu
  have ht' := hd'.given i hu'
  rw [ht.length hi, ht'.length hi']
  have hlt := ht'.lt_frontier hi' ((frontier_congr hp).mpr hf)
  have hpos := ht.position_le hd.served.guarded
  have hlag := hd.served.guarded.lag.lag i hlive
  have hhigh := neg_one_le_highest σ.trace
  have hfh := frontier_le_highest hi.sound.legal hf
  omega

/-- `Seen` as a check. -/
def seenCheck (c : Int) (h : History T N) (lastClaimed f : Int) : Bool :=
  decide (0 ≤ f ∧ f ≤ lastClaimed + 1 ∧ ¬ Published h f ∧
      ∀ s ∈ List.range f.toNat, Published h (s : Int)) &&
    h.all fun e =>
      match e with
      | .publish _ t => decide (c ≤ t → t ≤ lastClaimed)
      | _ => true

theorem seen_of_check {lastClaimed : Int} (hcheck : seenCheck c h lastClaimed f = true) :
    Seen c h lastClaimed f := by
  simp only [seenCheck, Bool.and_eq_true, decide_eq_true_eq, List.all_eq_true] at hcheck
  obtain ⟨⟨h₀, h₁, hout, hbelow⟩, habove⟩ := hcheck
  refine ⟨⟨h₀, fun s hs₀ hs₁ => ?_, hout⟩, h₁, ?_⟩
  · have hs := hbelow s.toNat (List.mem_range.mpr (by omega))
    rwa [Int.toNat_of_nonneg hs₀] at hs
  · rintro t ⟨k, hk⟩
    have ht : decide (c ≤ t → t ≤ lastClaimed) = true := habove _ hk
    exact of_decide_eq_true ht

/-- Some `f` passes the check. -/
def seesCheck (c : Int) (h : History T N) (lastClaimed : Int) : Bool :=
  (List.range (highest h + 2).toNat).any fun f => seenCheck c h lastClaimed f

theorem sees_of_check {lastClaimed : Int} (hcheck : seesCheck c h lastClaimed = true) :
    Sees c h lastClaimed := by
  obtain ⟨f, -, hf⟩ := List.any_eq_true.mp hcheck
  exact ⟨f, Or.inr (seen_of_check hf)⟩

/-- `CloseSees` as a check of one label. -/
def closeCheck (ring : RingBufferMeta) (σ : Sys T N) : Label T N → Bool
  | .dropSender _ => seesCheck ring.bufferSize σ.trace (lastClaimedOf σ.mem.claimed)
  | _ => true

theorem closeSees_of_check (hcheck : closeCheck ring σ l = true) : CloseSees ring σ l := by
  rintro h rfl -
  exact sees_of_check hcheck

end

/-! ## Without recycler panics -/

/-- The call is in the drop of a permit, about to run the recycler. -/
def SenderPc.inRecycler : SenderPc T → Bool
  | .recycling _ | .batchRecycling _ _ | .draining _ => true
  | _ => false

/-- Recyclers do not panic. -/
def NoRecyclerPanic (σ : Sys T N) (l : Label T N) : Prop :=
  ∀ k act, l = .sender k act → act.isPanic = true → (σ.sends k).inRecycler = false

instance (σ : Sys T N) (l : Label T N) : Decidable (NoRecyclerPanic σ l) :=
  match l with
  | .sender k act =>
    decidable_of_iff (act.isPanic = true → (σ.sends k).inRecycler = false)
      ⟨fun h _ _ heq => by cases heq; exact h, fun h => h k act rfl⟩
  | .clone _ | .dropSender _ | .send _ _ | .recv _ _ _ | .receiver _ _ | .dropReceiver _ =>
    isTrue fun _ _ h => by cases h

/-- The discipline of the runs without recycler panics. -/
def Graceful (ring : RingBufferMeta) (σ : Sys T N) (l : Label T N) : Prop :=
  InRange ring σ l ∧ OneGuard σ l ∧ NoRecyclerPanic σ l

instance (ring : RingBufferMeta) (σ : Sys T N) (l : Label T N) : Decidable (Graceful ring σ l) :=
  inferInstanceAs (Decidable (_ ∧ _ ∧ _))

/-- The call is in a `terminate()`. -/
def SenderPc.terminating : SenderPc T → Bool
  | .closing _ caller => caller != .lastSender
  | _ => false

/-- A step of a `close()` that a receiver could notice, or a receiver that noticed. -/
def Event.ends : Event T N → Bool
  | .mark _ | .shut _ | .ret _ _ .disconnected => true
  | _ => false

/-- The scan of the call has met a shutdown bit. -/
def RecvPc.told : RecvPc → Bool
  | .scan _ _ _ _ shutdown => shutdown
  | _ => false

/-- Nothing has ended, and no receive call was told so. -/
structure Ongoing (σ : Sys T N) : Prop where
  events : ∀ e ∈ σ.trace, e.ends = false
  calls : ∀ r, (σ.recvs r).told = false

/-- Nothing ends before the last sender is dropped. -/
structure Calm (σ : Sys T N) : Prop where
  calls : ∀ k, (σ.sends k).terminating = false
  ongoing : (∀ k, (σ.sends k).teardown = false) → Ongoing σ

section

variable {ring : RingBufferMeta} {initial : Nat → T} {σ σ' : Sys T N} {l : Label T N}
  {k r : Nat} {h : History T N} {m : Mem T N} {i : Fin N} {e : Event T N} {c : Int}
  {pc pc' : SenderPc T} {act : SenderAct T}

/-- A `terminate()` comes from a recycler that panics. -/
theorem SenderMoves.terminating {e : Option (Event T N)} (hm : SenderMoves ring k m pc act e pc')
    (hact : act.isPanic = true → pc.inRecycler = false) (ht : pc.terminating = false) :
    pc'.terminating = false := by
  cases hm with
  | load | retry => exact claimLoop_cases (P := fun pc => pc.terminating = false) rfl fun _ => rfl
  | gateEnd =>
    exact claimBody_cases (P := fun pc => pc.terminating = false) (fun _ => rfl) fun _ => rfl
  | claim => exact granted_cases (P := fun pc => pc.terminating = false) (fun _ => rfl) rfl rfl
  | recyclePanics | batchRecyclePanics | drainPanics =>
    exact absurd (hact rfl) (by simp [SenderPc.inRecycler])
  | closeUnclaimed | closeLoad | closeScan | closeFound | closeScanEnd | closeMark | closeStore
  | closeWake => exact ht
  | closeEnd => cases ‹CloseCaller› <;> rfl
  | _ => rfl

/-- What ends the channel is a step of a `close()`. -/
theorem SenderMoves.closing_of_ends (hm : SenderMoves ring k m pc act (some e) pc')
    (he : e.ends = true) : ∃ pos caller, pc = .closing pos caller := by
  cases hm with
  | closeMark | closeStore => exact ⟨_, _, rfl⟩
  | _ => exact absurd he (by simp [Event.ends])

theorem not_marked {n : Int} (hn : ∀ e ∈ h, e.ends = false) : ¬ Marked c h n := by
  induction h with
  | nil => exact id
  | cons e h ih =>
    have hh := ih fun e' he' => hn e' (List.mem_cons_of_mem e he')
    cases e with
    | mark s => exact absurd (hn _ List.mem_cons_self) (by simp [Event.ends])
    | publish k s => exact fun hm => hh hm.2
    | _ => exact hh

/-- An untouched cursor is the highest claim. -/
theorem claimed_of_ongoing (hl : Legal c h) (hn : ∀ e ∈ h, e.ends = false) :
    (replay ring initial h).claimed = highest h := by
  induction h with
  | nil => rfl
  | cons e h ih =>
    have hh := ih hl.1 fun e' he' => hn e' (List.mem_cons_of_mem e he')
    cases e with
    | shut raw => exact absurd (hn _ List.mem_cons_self) (by simp [Event.ends])
    | claim k a b =>
      obtain ⟨-, ha, hab, -⟩ := hl
      show b = max b (highest h)
      omega
    | _ => exact hh

theorem Returns.untold {q : RecvCall} {lastClaimed available : Int} {pc : RecvPc}
    {e : Option (Event T N)} (hret : Returns r i q lastClaimed available false e pc) :
    pc.told = false ∧ ∀ e', e = some e' → e'.ends = false := by
  cases hret <;> simp [RecvPc.told, Event.ends]

/-- On slots without a shutdown bit no receive call is told anything. -/
theorem RecvMoves.untold {act : RecvAct} {pc pc' : RecvPc} {e : Option (Event T N)}
    (hm : RecvMoves ring r i m pc act e pc')
    (hbit : ∀ s, shutdownOf (m.states (ring.indexOfSeq s)) = false) (ht : pc.told = false) :
    pc'.told = false ∧ ∀ e', e = some e' → e'.ends = false := by
  cases hm with
  | loadEmpty _ hret => exact hret.untold
  | scanNext =>
    refine ⟨?_, by simp⟩
    rw [RecvPc.told, hbit, Bool.or_false]
    exact ht
  | @scanEnd q lastClaimed last seq shutdown e pc _ _ hret =>
    have ht : shutdown = false := ht
    rw [ht, hbit, Bool.or_false] at hret
    exact hret.untold
  | @scanStop q lastClaimed last seq shutdown e pc _ hret =>
    have ht : shutdown = false := ht
    rw [ht, hbit, Bool.or_false] at hret
    exact hret.untold
  | _ => simp [RecvPc.told, Event.ends]

theorem calm_init (initial : Nat → T) (i₀ : Fin N) : Calm (Sys.init initial i₀) where
  calls _ := rfl
  ongoing _ := ⟨fun _ he => absurd he List.not_mem_nil, fun _ => rfl⟩

theorem recvStart_told {limit : Nat} {async : Bool} : (recvStart limit async).told = false := by
  unfold recvStart
  split <;> rfl

/-- **Without recycler panics nothing ends before the last sender is dropped.** -/
theorem calm_step (hi : Inv ring initial σ) (hc : Calm σ) (hok : NoRecyclerPanic σ l)
    (hm : Moves ring σ l σ') : Calm σ' where
  calls := by
    refine hm.forall_sends (J := fun k pc => σ.sends k = pc ∧ pc.terminating = false)
      (K := fun _ pc => pc.terminating = false) (fun k => ⟨rfl, hc.calls k⟩) ?_
      (fun _ _ _ _ _ _ => rfl) ?_ fun k _ hk => hk.2
    · exact fun h c _ => start_cases (P := fun pc => pc.terminating = false) rfl rfl
    · rintro k act e pc rfl _ hsm ⟨-, hk⟩ _ _
      exact hsm.terminating (hok k act rfl) hk
  ongoing := by
    intro hnone
    have hnone₀ : ∀ k, (σ.sends k).teardown = false := by
      intro k
      rw [Bool.eq_false_iff]
      intro ht
      exact absurd (hm.teardown (hi.fresh.lt_of_teardown ht) ht) (by rw [hnone k]; simp)
    have ho := hc.ongoing hnone₀
    have hbit : ∀ s, shutdownOf (σ.mem.states (ring.indexOfSeq s)) = false := by
      intro s
      rw [Bool.eq_false_iff, hi.sound.mem]
      exact fun hs => not_marked ho.events (shutdownOf_replay.mp hs)
    constructor
    · rcases hm.event_cases with ⟨htrace, -⟩ | ⟨e, htrace, -, hfrom⟩
      · rw [htrace]
        exact ho.events
      · rw [htrace]
        refine List.forall_mem_cons.mpr ⟨?_, ho.events⟩
        rcases hfrom with ⟨k, act, pc, -, -, hsm⟩ | ⟨r, act, pc, -, -, hrm⟩ | ⟨i, -, rfl⟩
        · rw [Bool.eq_false_iff]
          intro he
          obtain ⟨pos, caller, hpc⟩ := hsm.closing_of_ends he
          have hterm := hc.calls k
          have htear := hnone₀ k
          rw [hpc] at hterm htear
          cases caller <;> simp [SenderPc.terminating, SenderPc.teardown] at hterm htear
        · exact (hrm.untold hbit (ho.calls r)).2 e rfl
        · rfl
    · refine hm.forall_recvs (J := fun _ _ pc => pc.told = false)
        (K := fun _ _ pc => pc.told = false) ho.calls ?_ ?_ fun r _ hr => hr
      · exact fun i limit async _ => recvStart_told
      · exact fun r act _ pc _ _ hrm hr _ _ => (hrm.untold hbit hr).1

/-- Without recycler panics the last `close()` sees the boundary. -/
theorem Calm.closeSees (hc : Calm σ) (hi : Inv ring initial σ) (hm : Moves ring σ l σ') :
    CloseSees ring σ l := by
  rintro h rfl -
  have hnone : ∀ k, (σ.sends k).teardown = false := by
    intro k
    rw [Bool.eq_false_iff]
    intro ht
    have hlt := hi.fresh.lt_of_teardown ht
    rw [hi.borrow.not_teardown hm.live_of_dropSender hlt] at ht
    exact absurd ht (by simp)
  have hl := hi.sound.legal
  have hneg := neg_one_le_highest σ.trace
  have hclaimed : lastClaimedOf σ.mem.claimed = highest σ.trace := by
    rw [hi.sound.mem, claimed_of_ongoing hl (hc.ongoing hnone).events, lastClaimedOf, if_neg]
    rw [hasShutdown_eq_true]
    omega
  obtain ⟨f, hf⟩ := exists_frontier (P := Published σ.trace) fun s hs => (hs.range hl).2
  refine ⟨f, Or.inr ⟨hf, ?_, fun t ht _ => ?_⟩⟩
  · rw [hclaimed]
    exact frontier_le_highest hl hf
  · rw [hclaimed]
    exact (ht.range hl).2

/-- **Graceful shutdown drains exactly the committed prefix**, in every run in range with one guard
at a time and without recycler panics. Before the last sender is dropped no receive call returns
`Disconnected`. Once that drop has returned, nothing more is published; a receive call at the next
sequence `s` returns items if `s` is below the first unpublished sequence `f`, and `Disconnected` if
it is `f`; and by then the receiver was given the sequences `0 … s - 1`. -/
theorem graceful_shutdown {i₀ : Fin N} {ls : List (Label T N)}
    (hrun : Run (step ring) (Graceful ring) (Sys.init initial i₀) ls σ) :
    ((∀ k, (σ.sends k).teardown = false) → ∀ r i, Event.ret r i .disconnected ∉ σ.trace) ∧
      ∀ k, σ.sends k = .tornDown → ∃ f, Frontier (Published σ.trace) f ∧
        ∀ ls' σ', Run (step ring) (Graceful ring) σ ls' σ' →
          (∀ s, Published σ'.trace s ↔ Published σ.trace s) ∧
          ∀ i, σ'.receivers i = true → σ.mem.consumed i ≤ σ'.mem.consumed i ∧
            σ'.mem.consumed i < f ∧ σ'.Drains ring (Graceful ring) i f ∧
            (σ'.Unleaked i → σ'.ReceiverIdle i →
              delivered σ'.trace i = seqs 0 (σ'.mem.consumed i)) := by
  have hboth : Draining ring initial σ ∧ Calm σ := by
    refine hrun.invariant (I := fun σ => Draining ring initial σ ∧ Calm σ) ?_
      ⟨draining_init ring initial i₀, calm_init initial i₀⟩
    rintro σ l σ' ⟨hd, hc⟩ hok hst
    have hm := moves_of_step hst
    have hi := hd.served.guarded.inv
    exact ⟨draining_step hd hok.1 hok.2.1 (hc.closeSees hi hm) hst, calm_step hi hc hok.2.2 hm⟩
  constructor
  · intro hnone r i hmem
    exact absurd ((hboth.2.ongoing hnone).events _ hmem) (by simp [Event.ends])
  · intro k hk
    have hserves : ∀ {σ : Sys T N} {l : Label T N}, Graceful ring σ l →
        InRange ring σ l ∧ OneGuard σ l := fun hok => ⟨hok.1, hok.2.1⟩
    obtain ⟨f, hf, hall⟩ := drained hserves hboth.1 hk
    refine ⟨f, hf, fun ls' σ' hrun' => ?_⟩
    obtain ⟨hd', hp, hdrain⟩ := hall ls' σ' hrun'
    refine ⟨hp, fun i hlive => ?_⟩
    obtain ⟨hle, hlt, hdrains⟩ := hdrain i hlive
    refine ⟨hle, hlt, hdrains, fun hu hidle => ?_⟩
    have hi' := hd'.served.guarded.inv
    have ht := hd'.given i hu
    rw [ht.count, ht.eq_position hidle, hi'.sound.consumed_eq (hi'.not_dropped hlive)]

/-- On a ring of one slot: a permit is leaked after one item was sent and received, and the sender
is dropped. The hole is the boundary, one lap after an item that was read. -/
theorem graceful_shutdown_hole :
    ∃ (ls : List (Label Nat 1)) (σ : Sys Nat 1),
      Run (step ⟨0, by decide⟩) (Graceful ⟨0, by decide⟩) (Sys.init (fun _ => 0) 0) ls σ ∧
        highest σ.trace = 1 ∧ σ.mem.consumed 0 = 0 ∧ ∃ f, Frontier (Published σ.trace) f ∧
          σ.Drains ⟨0, by decide⟩ (Graceful ⟨0, by decide⟩) 0 f := by
  have hex : (exec (step ⟨0, by decide⟩) (Graceful ⟨0, by decide⟩) (Sys.init (fun _ => 0) 0)
      (List.flatten [[.send 0 (.trySend 7)], List.replicate 9 (.sender 0 .run),
        [.recv 0 1 false, .receiver 0 .run, .receiver 0 .run, .receiver 0 .release,
          .send 0 .tryReserve], List.replicate 4 (.sender 1 .run),
        [.sender 1 .leak, .dropSender 0], List.replicate 6 (.sender 2 .run)])).any
      (fun σ : Sys Nat 1 => decide (highest σ.trace = 1 ∧ σ.mem.consumed 0 = 0 ∧
        σ.sends 2 = .tornDown ∧ σ.receivers 0 = true)) = true := by
    decide +kernel
  obtain ⟨σ, hrun, hσ⟩ := Run.of_exec_any hex
  obtain ⟨hhigh, hcons, htorn, hlive⟩ := of_decide_eq_true hσ
  obtain ⟨f, hf, hall⟩ := (graceful_shutdown hrun).2 2 htorn
  exact ⟨_, σ, hrun, hhigh, hcons, f, hf, ((hall [] σ .nil).2 0 hlive).2.2.1⟩

end

end EnsoChannel
