import EnsoChannel.Delivery

/-!
# The boundary

Where a receiver learns that the senders are gone: the shutdown bit on the slot of the first
sequence that was never published (`Boundary`). A `close()` looks for that slot with a scan of the
last lap below the `claimed` value it has loaded.

* `ScanInv`: in every run, all that such a scan has passed is published.
* `scan_end`: where nothing published hides behind the loaded value (`Seen`), the scan ends at the
  first unpublished sequence.
* `Boundary.cons`: the bit stays as long as that sequence is not published.
* `Sys.Drains`: what a receive call that starts now returns, and in how many steps: the next items
  up to the boundary, or `Disconnected` when there is none. `drains_of_facing`: this is what
  happens wherever the receiver is `Facing` something and that stays; `drains_of_boundary`: so it
  is wherever the boundary is set and stays.
-/

namespace EnsoChannel

open Lib

variable {T : Type} {N : Nat}

/-- `f` is the first sequence that is not published, and its slot carries the shutdown bit. -/
structure Boundary (c : Int) (h : History T N) (f : Int) : Prop where
  frontier : Frontier (Published h) f
  marked : Marked c h (f % c)

/-- Nothing published is hidden behind the claimed value `lastClaimed`: the first unpublished
sequence is at most the next one, and in the slots of the last lap below `lastClaimed` nothing
above it is published. -/
def Seen (c : Int) (h : History T N) (lastClaimed f : Int) : Prop :=
  Frontier (Published h) f ∧ f ≤ lastClaimed + 1 ∧
    ∀ t, Published h t → c ≤ t → t ≤ lastClaimed

/-- What a receiver at the next sequence `s` faces: nothing from `f` on can be given, and `s` itself
is published, or it is `f` and carries the bit. -/
structure Facing (c : Int) (h : History T N) (f s : Int) : Prop where
  below : ∀ t, (∀ u, 0 ≤ u → u ≤ t → Published h u) → t < f
  next : Published h s ∨ (s = f ∧ Marked c h (s % c))

/-- Everything before `s` is published. -/
def Behind (h : History T N) (s : Int) : Prop :=
  ∀ u, 0 ≤ u → u < s → Published h u

/-- What the scan of a `close()` has passed is published. -/
def ScanInv (c : Int) (h : History T N) : ClosePc → Prop
  | .scan _ lastClaimed seq =>
    lastClaimed ≤ highest h ∧ lastClaimed - (c - 1) ≤ seq ∧ 0 ≤ seq ∧ seq ≤ lastClaimed + 1 ∧
      ∀ s, 0 ≤ s → s < seq → Published h s
  | _ => True

/-- `ScanInv` for the `close()` a sender call is in, if it is in one. -/
def SenderScan (c : Int) (h : History T N) : SenderPc T → Prop
  | .closing pos _ => ScanInv c h pos
  | _ => True

section

variable {ring : RingBufferMeta} {initial : Nat → T} {σ σ' σ'' : Sys T N} {l : Label T N}
  {k r : Nat} {h h' : History T N} {m : Mem T N} {i : Fin N} {e : Event T N} {c f s : Int}

/-! ## The bit stays -/

theorem marked_cons {r : Int} (hm : Marked c h r) (he : ∀ k s, e = .publish k s → s % c ≠ r) :
    Marked c (e :: h) r := by
  cases e with
  | publish k s => exact ⟨he k s rfl, hm⟩
  | mark s => exact Or.inr hm
  | _ => exact hm

/-- The slot of the first unpublished sequence takes no other publish. -/
theorem eq_of_publish_cell (hc : 0 < c) {t : Int} (hl : Legal c (.publish k t :: h))
    (hf : Frontier (Published h) f) (hcell : t % c = f % c) : t = f := by
  obtain ⟨hl, ho, hp⟩ := hl
  have ht := owner_eq_some hl ho
  rcases lt_trichotomy t f with hlt | heq | hgt
  · exact absurd (hf.below t ht.1 hlt) hp
  · exact heq
  · -- a later lap was only claimed once `f` was published
    have hlap := lap_le hcell.symm hgt
    exact absurd (published_of_lap hc hl hf.nonneg (by omega)) hf.outside

theorem frontier_cons (hf : Frontier (Published h) f) (he : ∀ k, e ≠ .publish k f) :
    Frontier (Published (e :: h)) f :=
  hf.stable (fun _ hs => hs.cons) fun hp => hf.outside ((published_cons_of_ne he).mp hp)

/-- **The boundary stays until its own sequence is published.** -/
theorem Boundary.cons (hc : 0 < c) (hb : Boundary c h f) (hl : Legal c (e :: h))
    (he : ∀ k, e ≠ .publish k f) : Boundary c (e :: h) f := by
  refine ⟨frontier_cons hb.frontier he, marked_cons hb.marked ?_⟩
  rintro k s rfl hcell
  exact he k (by rw [eq_of_publish_cell hc hl hb.frontier hcell])

/-! ## The scan of a `close()` -/

/-- The value of a loaded cursor. -/
theorem ClaimedIs.lastClaimedOf_cases {raw : Int} (hc : ClaimedIs h raw)
    (hb : highest h + 1 < 2 ^ 62) :
    lastClaimedOf raw = highest h ∨ 0 ≤ lastClaimedOf raw ∧ lastClaimedOf raw ≤ highest h := by
  have hneg := neg_one_le_highest h
  unfold lastClaimedOf
  rcases hc with rfl | ⟨R, h₀, h₁, rfl⟩
  · rw [if_neg (by rw [hasShutdown_eq_true]; omega)]
    exact Or.inl rfl
  · have hlt : R + i64Min < -1 := by
      unfold i64Min
      omega
    rw [if_pos (hasShutdown_eq_true.mpr hlt), and_valueMask_of_neg (by omega) (by omega)]
    exact Or.inr ⟨by omega, by omega⟩

theorem ClaimedIs.lastClaimedOf_le {raw : Int} (hc : ClaimedIs h raw)
    (hb : highest h + 1 < 2 ^ 62) : lastClaimedOf raw ≤ highest h :=
  (hc.lastClaimedOf_cases hb).elim le_of_eq And.right

/-- Once something was claimed, the cursor says so. -/
theorem ClaimedIs.lastClaimedOf_nonneg {raw : Int} (hc : ClaimedIs h raw)
    (hb : highest h + 1 < 2 ^ 62) (h₀ : 0 ≤ highest h) : 0 ≤ lastClaimedOf raw :=
  (hc.lastClaimedOf_cases hb).elim (fun heq => heq ▸ h₀) And.left

theorem ScanInv.cons {pos : ClosePc} (hs : ScanInv c h pos) : ScanInv c (e :: h) pos := by
  cases pos with
  | scan raw lastClaimed seq =>
    obtain ⟨h₀, h₁, h₂, h₃, hp⟩ := hs
    exact ⟨h₀.trans highest_le_cons, h₁, h₂, h₃, fun s hs₀ hs₁ => (hp s hs₀ hs₁).cons⟩
  | _ => trivial

theorem SenderScan.record {pc : SenderPc T} {e : Option (Event T N)} (hs : SenderScan c h pc) :
    SenderScan c (record e h) pc := by
  cases e with
  | none => exact hs
  | some e =>
    cases pc with
    | closing pos caller => exact ScanInv.cons hs
    | _ => trivial

/-- A step of a `close()` keeps what its scan has passed published. -/
theorem SenderMoves.senderScan {pc pc' : SenderPc T} {act : SenderAct T} {e : Option (Event T N)}
    (hm : SenderMoves ring k m pc act e pc') (hs : Sound ring initial h m)
    (hscan : SenderScan ring.bufferSize h pc) : SenderScan ring.bufferSize (record e h) pc' := by
  cases hm with
  | load | retry => exact claimLoop_cases trivial fun _ => trivial
  | gateEnd => exact claimBody_cases (fun _ => trivial) fun _ => trivial
  | claim => exact granted_cases (fun _ => trivial) trivial trivial
  | closeLoad hneg =>
    have hle := hs.claimed.lastClaimedOf_le hs.bound
    have hc := ring.bufferSize_pos
    have hscan₀ : ScanInv ring.bufferSize h (.scan m.claimed (lastClaimedOf m.claimed)
        (max (lastClaimedOf m.claimed - (ring.bufferSize - 1)) 0)) := by
      refine ⟨hle, le_max_left _ _, le_max_right _ _, by omega, fun s h₀ h₁ => ?_⟩
      exact published_of_lap hc hs.legal h₀ (by omega)
    exact hscan₀.cons
  | @closeScan raw lastClaimed seq caller hseq hflag =>
    obtain ⟨h₀, h₁, h₂, h₃, hp⟩ := hscan
    have hc := ring.bufferSize_pos
    refine ⟨h₀, by omega, by omega, by omega, fun s hs₀ hs₁ => ?_⟩
    rcases Int.lt_add_one_iff.mp hs₁ |>.lt_or_eq with hlt | rfl
    · exact hp s hs₀ hlt
    · exact hs.published hs₀ (by omega) hflag
  | closeEnd => cases ‹CloseCaller› <;> trivial
  | _ => trivial

theorem senderScan_step (hi : Inv ring initial σ)
    (hs : ∀ k, SenderScan ring.bufferSize σ.trace (σ.sends k)) (hm : Moves ring σ l σ') :
    ∀ k, SenderScan ring.bufferSize σ'.trace (σ'.sends k) := by
  obtain ⟨e, htrace⟩ := hm.trace_cases
  rw [htrace]
  refine hm.forall_sends (J := fun _ pc => SenderScan ring.bufferSize σ.trace pc)
    (K := fun _ pc => SenderScan ring.bufferSize (record e σ.trace) pc) hs ?_
    (fun _ _ _ _ _ _ => trivial) ?_ fun k _ hk => hk.record
  · exact fun h c _ => start_cases trivial trivial
  · intro k act e' pc _ _ hsm hk htrace' _
    rw [← htrace, htrace']
    exact hsm.senderScan hi.sound hk

/-- **Where the scan of a `close()` ends**: at the first unpublished sequence, unless something
published is hidden behind the value it has loaded. -/
theorem scan_end {raw lastClaimed seq raw' lastPublished : Int} {caller : CloseCaller}
    {act : SenderAct T} {e : Option (Event T N)} (hs : Sound ring initial h m)
    (hscan : ScanInv ring.bufferSize h (.scan raw lastClaimed seq))
    (hseen : Seen ring.bufferSize h lastClaimed f)
    (hm : SenderMoves ring k m (.closing (.scan raw lastClaimed seq) caller) act e
      (.closing (.mark raw' lastPublished) caller)) : lastPublished + 1 = f := by
  obtain ⟨h₀, h₁, h₂, h₃, hp⟩ := hscan
  obtain ⟨hf, hle, habove⟩ := hseen
  have hbelow : seq ≤ f := hf.le_of_below hp
  have hc := ring.bufferSize_pos
  cases hm with
  | closeFound hseq hflag =>
    by_contra hne
    have hpub : Published h seq := hf.below seq h₂ (by omega)
    refine hflag ?_
    rw [hs.mem]
    refine (flag_iff_published hs.legal h₂ (by omega) fun t ht hcell => ?_).mpr hpub
    -- a later lap of the slot would be published above the loaded value
    by_contra hlt
    have hlap := lap_le hcell.symm (not_le.mp hlt)
    have hhidden := habove t ht (by omega)
    omega
  | closeScanEnd hseq => omega

/-! ## The receive calls -/

/-- The label is a step of receive call `r`. -/
def Label.byReceiver (r : Nat) : Label T N → Bool
  | .receiver r' _ => r' == r
  | _ => false

/-- The call is about to load the cursor or a slot state. -/
def RecvPc.asking : RecvPc → Bool
  | .load _ | .scan _ _ _ _ _ => true
  | _ => false

/-- **What a receive call on `i` that starts now returns**, in runs of the discipline `ok`: the
next items below `f`, or `Disconnected` when there are none, after at most `c + 1` of its own
steps; until then it can take the next one. -/
def Sys.Drains (ring : RingBufferMeta) (ok : Sys T N → Label T N → Prop) (σ : Sys T N) (i : Fin N)
    (f : Int) : Prop :=
  ∀ (limit : Nat) async σ' ls σ'', 1 ≤ limit → (limit : Int) ≤ i64Max → ok σ (.recv i limit async) →
    step ring σ (.recv i limit async) = some σ' → Run (step ring) ok σ' ls σ'' →
      (∃ b, σ.mem.consumed i + 1 ≤ b ∧ b < f ∧
        Event.ret σ.nextRecv i (.items (σ.mem.consumed i + 1) b) ∈ σ''.trace) ∨
      (σ.mem.consumed i + 1 = f ∧ σ''.recvs σ.nextRecv = .disconnected) ∨
      ((σ''.recvs σ.nextRecv).asking = true ∧
        (ls.countP (Label.byReceiver σ.nextRecv) : Int) ≤ ring.bufferSize ∧
          ∃ σ₃, step ring σ'' (.receiver σ.nextRecv .run) = some σ₃)

/-- Receive call `r` on `i`, of which `n` steps were taken, started with the next sequence `s`. -/
def LateRecv (h : History T N) (r : Nat) (i : Fin N) (f s : Int) (n : Nat) : RecvPc → Prop
  | .load q => n = 0 ∧ 1 ≤ q.limit ∧ position h i + 1 = s
  | .scan _ lastClaimed _ seq shutdown =>
    n = seq - lastClaimed ∧ lastClaimed + 1 = s ∧ (seq = s → shutdown = false)
  | .guard _ _ | .released | .leaked =>
    ∃ b, s ≤ b ∧ b < f ∧ Event.ret r i (.items s b) ∈ h
  | .disconnected => s = f
  | _ => False

/-- A receiver is never beyond the boundary. -/
theorem Inv.position_lt_frontier (hi : Inv ring initial σ) (hf : Frontier (Published σ.trace) f)
    (i : Fin N) : position σ.trace i < f := by
  have hle : position σ.trace i + 1 ≤ f := by
    refine hf.le_of_below fun s h₀ h₁ => ?_
    exact published_of_position (i := i) hi.sound.legal h₀ (by omega)
  omega

/-- At a boundary, a receiver faces an item below it, or the boundary itself. -/
theorem Boundary.facing (hb : Boundary c h f) (h₀ : 0 ≤ s) (hp : Behind h s) :
    Facing c h f s where
  below t ht := by
    by_contra hge
    exact hb.frontier.outside (ht f hb.frontier.nonneg (not_lt.mp hge))
  next := by
    rcases (hb.frontier.le_of_below hp).lt_or_eq with hlt | rfl
    · exact Or.inl (hb.frontier.below s h₀ hlt)
    · exact Or.inr ⟨rfl, hb.marked⟩

/-- Returning with what is below the boundary. -/
theorem Returns.lateRecv {q : RecvCall} {lastClaimed available : Int} {shutdown : Bool}
    {pc : RecvPc} {e : Option (Event T N)} {n : Nat}
    (hret : Returns r i q lastClaimed available shutdown e pc) (hs : lastClaimed + 1 = s)
    (hitems : available < f) (hnone : available ≤ lastClaimed → s = f ∧ shutdown = true) :
    LateRecv (record e h) r i f s n pc := by
  cases hret with
  | items ha => exact ⟨available, by omega, hitems, by rw [← hs]; exact List.mem_cons_self⟩
  | disconnected ha => exact (hnone ha).1
  | empty ha | again ha | pending ha => exact absurd (hnone ha).2 (by simp)

/-- **One step of a receive call that faces something** brings it nearer to its return, and it
returns what is below `f`. -/
theorem RecvMoves.lateRecv {pc pc' : RecvPc} {act : RecvAct} {e : Option (Event T N)} {n : Nat}
    (hi : Inv ring initial σ) (hlag : LagInv ring.bufferSize σ)
    (hb : Facing ring.bufferSize σ.trace f s) (hlive : ¬ Dropped σ.trace i)
    (hinv : RecvInv ring.bufferSize σ.trace pc) (hcur : ReadsAt σ.trace i pc)
    (hl : LateRecv σ.trace r i f s n pc) (hm : RecvMoves ring r i σ.mem pc act e pc') :
    LateRecv (record e σ.trace) r i f s (n + 1) pc' := by
  have hc := ring.bufferSize_pos
  cases hm with
  | load hn =>
    obtain ⟨hn₀, -, hs⟩ := hl
    rw [hi.sound.consumed_eq hlive]
    exact ⟨by omega, hs, fun _ => rfl⟩
  | loadEmpty hn =>
    obtain ⟨-, hlimit, -⟩ := hl
    omega
  | scanNext hflag hseq =>
    obtain ⟨hn, hs, -⟩ := hl
    have hlt := hinv.2.2.1
    exact ⟨by omega, hs, fun heq => by omega⟩
  | @scanEnd q lastClaimed last seq shutdown e pc hflag hseq hret =>
    obtain ⟨-, hs, -⟩ := hl
    obtain ⟨h₀, h₁, h₂, h₃, h₄, hp⟩ := hinv
    have hpub : Published σ.trace seq := hi.sound.published (by omega) (by omega) hflag
    refine hret.lateRecv hs (hb.below seq fun u hu₀ hu₁ => ?_) fun ha => by omega
    rcases hu₁.lt_or_eq with hlt | rfl
    · exact hp u hu₀ hlt
    · exact hpub
  | @scanStop q lastClaimed last seq shutdown e pc hflag hret =>
    obtain ⟨-, hs, hfresh⟩ := hl
    obtain ⟨h₀, h₁, h₂, h₃, h₄, hp⟩ := hinv
    have hbelow : seq - 1 < f := hb.below (seq - 1) fun u hu₀ hu₁ => hp u hu₀ (by omega)
    refine hret.lateRecv hs hbelow fun ha => ?_
    -- the first slot of the scan did not match, so the boundary is here
    have hlc : lastClaimed = position σ.trace i := hcur
    have hseq : seq = s := by omega
    have hunp : ¬ Published σ.trace seq := fun hpub =>
      hflag ((hlag.flag_iff hi hlive (by omega) (by omega)).mpr hpub)
    obtain ⟨hf, hmark⟩ := hb.next.resolve_left (hseq ▸ hunp)
    have hbit : shutdownOf (σ.mem.states (ring.indexOfSeq seq)) = true := by
      rw [hi.sound.mem, hseq]
      exact shutdownOf_replay.mpr hmark
    exact ⟨hf, by rw [hbit, Bool.or_true]⟩
  | register => exact hl.elim
  | releaseEmpty => exact hl
  | release =>
    obtain ⟨b, h₀, h₁, hmem⟩ := hl
    exact ⟨b, h₀, h₁, List.mem_cons_of_mem _ hmem⟩
  | leak => exact hl

/-- While a call of a receiver is not over, nobody else moves the receiver's position. -/
theorem Solo.position_other (hs : Solo σ) (hr : r < σ.nextRecv)
    (hfin : (σ.recvs r).finished = false) (hm : Moves ring σ l σ')
    (hl : ∀ act, l ≠ .receiver r act) :
    position σ'.trace (σ.recvReceiver r) = position σ.trace (σ.recvReceiver r) := by
  cases hm with
  | clone | dropSender | dropLast | send | recv | dropReceiver => rfl
  | @sender k act e pc hk hst =>
    show position (σ.perform ring e).trace _ = _
    rw [perform_trace, (senderMoves_of_step hst).position_record]
  | @receiver r₀ act e pc hr₀ hst =>
    show position (σ.perform ring e).trace _ = _
    rw [perform_trace]
    refine (recvMoves_of_step hst).position_record (Or.inr (Or.inr fun heq => ?_))
    have hne : r₀ ≠ r := by
      rintro rfl
      exact hl act rfl
    have hover := hs.finished_of_ne hr hr₀ hne heq.symm hfin
    rw [recvStep_finished hst] at hover
    exact absurd hover (by simp)

/-- Another party's step leaves a receive call where it is. -/
theorem LateRecv.other {n : Nat} {pc : RecvPc} (hl : LateRecv h r i f s n pc)
    (hmem : ∀ e ∈ h, e ∈ h') (hpos : pc.finished = false → position h' i = position h i) :
    LateRecv h' r i f s n pc := by
  cases pc with
  | load q =>
    obtain ⟨hn, hlimit, hs⟩ := hl
    exact ⟨hn, hlimit, by rw [hpos rfl, hs]⟩
  | guard | released | leaked =>
    obtain ⟨b, h₀, h₁, hret⟩ := hl
    exact ⟨b, h₀, h₁, hmem _ hret⟩
  | scan => exact hl
  | disconnected => exact hl
  | _ => exact hl

/-- **A receive call that faces something all along returns it.** -/
theorem late_recv {ok : Sys T N → Label T N → Prop} {K : Sys T N → Prop} {limit : Nat}
    {async : Bool} {ls : List (Label T N)} (hs : position σ.trace i + 1 = s)
    (hK : ∀ {σ}, K σ → Served ring initial σ ∧ Facing ring.bufferSize σ.trace f s)
    (hkeep : ∀ {σ l σ'}, K σ → ok σ l → step ring σ l = some σ' → K σ') (h₀ : K σ)
    (hok : ok σ (.recv i limit async)) (hst : step ring σ (.recv i limit async) = some σ')
    (hlimit : 1 ≤ limit) (hmax : (limit : Int) ≤ i64Max) (hrun : Run (step ring) ok σ' ls σ'') :
    σ.nextRecv < σ''.nextRecv ∧ σ''.recvReceiver σ.nextRecv = i ∧
      LateRecv σ''.trace σ.nextRecv i f s
        (ls.countP (Label.byReceiver σ.nextRecv)) (σ''.recvs σ.nextRecv) := by
  have hfirst : σ.nextRecv < σ'.nextRecv ∧ σ'.recvReceiver σ.nextRecv = i ∧
      LateRecv σ'.trace σ.nextRecv i f s 0 (σ'.recvs σ.nextRecv) := by
    cases moves_of_step hst with
    | recv hlive =>
      refine ⟨Nat.lt_succ_self _, Function.update_self _ _ _, ?_⟩
      show LateRecv σ.trace _ i f _ 0 (Function.update σ.recvs σ.nextRecv _ σ.nextRecv)
      rw [Function.update_self, recvStart, if_neg (by omega)]
      refine ⟨rfl, ?_, hs⟩
      show 1 ≤ usizeAsI64 limit
      rw [usizeAsI64_eq hmax]
      omega
  refine hrun.invariant_log (I := K)
    (J := fun ls σ₁ => σ.nextRecv < σ₁.nextRecv ∧ σ₁.recvReceiver σ.nextRecv = i ∧
      LateRecv σ₁.trace σ.nextRecv i f s
        (ls.countP (Label.byReceiver σ.nextRecv)) (σ₁.recvs σ.nextRecv))
    hkeep ?_ (hkeep h₀ hok hst) hfirst
  intro ls l σ₁ σ₂ _ hk hJ _ hst₁
  obtain ⟨hlt, hi₁, hlate⟩ := hJ
  have hm := moves_of_step hst₁
  obtain ⟨hserved, hb⟩ := hK hk
  have hg := hserved.guarded
  rw [List.countP_append, List.countP_singleton]
  by_cases hself : ∃ act, l = .receiver σ.nextRecv act
  · obtain ⟨act, rfl⟩ := hself
    obtain ⟨e, hrm, htrace, -, -, hrecv, hnext⟩ := hm.recvs_self
    have hlive := hg.inv.borrow.live_of_recv hlt hrm.unfinished
    have hcur := hg.current _ hlt
    rw [hi₁] at hrm hlive hcur
    rw [if_pos (by simp [Label.byReceiver]), htrace, hrecv, hnext]
    exact ⟨hlt, hi₁, hrm.lateRecv hg.inv hg.lag hb hlive (hg.inv.recv _) hcur hlate⟩
  · have hother : ∀ act, l ≠ .receiver σ.nextRecv act := fun act heq => hself ⟨act, heq⟩
    obtain ⟨hpc, hrecv⟩ := hm.recvs_other hlt hother
    have hzero : ¬ Label.byReceiver σ.nextRecv l = true := by
      cases l with
      | receiver r' act =>
        intro hr
        have hr : r' = σ.nextRecv := by simpa [Label.byReceiver] using hr
        exact hself ⟨act, by rw [hr]⟩
      | _ => simp [Label.byReceiver]
    obtain ⟨e, htrace⟩ := hm.trace_cases
    refine ⟨hlt.trans_le hm.nextRecv_le, hrecv.trans hi₁, ?_⟩
    rw [if_neg hzero, hpc]
    refine hlate.other ?_ fun hfin => ?_
    · intro e' he'
      rw [htrace]
      cases e with
      | none => exact he'
      | some e => exact List.mem_cons_of_mem e he'
    · have hpos := hserved.solo.position_other hlt hfin hm hother
      rwa [hi₁] at hpos

/-- A call that is asking can take a step. -/
theorem recvStep_asking {pc : RecvPc} (hask : pc.asking = true) :
    ∃ out, recvStep ring r i m pc .run = some out := by
  cases pc with
  | load q =>
    simp only [recvStep]
    split <;> exact ⟨_, rfl⟩
  | scan q lastClaimed last seq shutdown =>
    simp only [recvStep]
    split
    · exact ⟨_, rfl⟩
    · split <;> exact ⟨_, rfl⟩
  | _ => exact absurd hask (by simp [RecvPc.asking])

/-- A receive call that has not returned can take a step, and has taken at most `c`. -/
theorem LateRecv.pending {n : Nat} (hr : r < σ.nextRecv)
    (hl : LateRecv σ.trace r i f s n (σ.recvs r))
    (hinv : RecvInv ring.bufferSize σ.trace (σ.recvs r))
    (hask : (σ.recvs r).asking = true) :
    (n : Int) ≤ ring.bufferSize ∧ ∃ σ', step ring σ (.receiver r .run) = some σ' := by
  have hc := ring.bufferSize_pos
  generalize hpc : σ.recvs r = pc at hl hinv hask
  cases pc with
  | load q =>
    obtain ⟨rfl, -, -⟩ := hl
    refine ⟨by simpa using hc.le, ?_⟩
    obtain ⟨out, hout⟩ : ∃ out, recvStep ring r (σ.recvReceiver r) σ.mem _ .run = some out :=
      recvStep_asking hask
    exact exists_step_of_recvStep hr (by rw [hpc, hout])
  | scan q lastClaimed last seq shutdown =>
    obtain ⟨hn, -, -⟩ := hl
    obtain ⟨-, -, -, h₃, h₄, -⟩ := hinv
    refine ⟨by omega, ?_⟩
    obtain ⟨out, hout⟩ : ∃ out, recvStep ring r (σ.recvReceiver r) σ.mem _ .run = some out :=
      recvStep_asking hask
    exact exists_step_of_recvStep hr (by rw [hpc, hout])
  | _ => exact absurd hask (by simp [RecvPc.asking])

/-- **A receiver that faces something all along drains it.** -/
theorem drains_of_facing {ok : Sys T N → Label T N → Prop} {K : Sys T N → Prop}
    (hs : position σ.trace i + 1 = s)
    (hK : ∀ {σ}, K σ → Served ring initial σ ∧ Facing ring.bufferSize σ.trace f s)
    (hkeep : ∀ {σ l σ'}, K σ → ok σ l → step ring σ l = some σ' → K σ') (h₀ : K σ)
    (hlive : ¬ Dropped σ.trace i) : σ.Drains ring ok i f := by
  intro limit async σ' ls σ'' hlimit hmax hok hst hrun
  obtain ⟨hlt, -, hlate⟩ := late_recv hs hK hkeep h₀ hok hst hlimit hmax hrun
  have hinv := ((hK (hrun.invariant hkeep (hkeep h₀ hok hst))).1.guarded.inv).recv σ.nextRecv
  rw [(hK h₀).1.guarded.inv.sound.consumed_eq hlive, hs]
  by_cases hask : (σ''.recvs σ.nextRecv).asking = true
  · exact Or.inr (Or.inr ⟨hask, hlate.pending hlt hinv hask⟩)
  · generalize hpc : σ''.recvs σ.nextRecv = pc at hlate hask
    cases pc with
    | guard | released | leaked => exact Or.inl hlate
    | disconnected => exact Or.inr (Or.inl ⟨hlate, rfl⟩)
    | load | scan => exact absurd rfl hask
    | _ => exact hlate.elim

/-- What is published stays published. -/
theorem Moves.published (hm : Moves ring σ l σ') (hp : Published σ.trace s) :
    Published σ'.trace s := by
  obtain ⟨e, htrace⟩ := hm.trace_cases
  rw [htrace]
  cases e with
  | none => exact hp
  | some e => exact hp.cons

theorem Moves.behind (hm : Moves ring σ l σ') (hb : Behind σ.trace s) : Behind σ'.trace s :=
  fun u h₀ h₁ => hm.published (hb u h₀ h₁)

/-- What a receiver has released was published. -/
theorem Inv.behind (hi : Inv ring initial σ) (i : Fin N) :
    Behind σ.trace (position σ.trace i + 1) :=
  fun _ h₀ h₁ => published_of_position (i := i) hi.sound.legal h₀ (by omega)

/-- **Where the boundary is set and stays, every receiver drains.** -/
theorem drains_of_boundary {ok : Sys T N → Label T N → Prop} {K : Sys T N → Prop}
    (hK : ∀ {σ}, K σ → Served ring initial σ ∧ Boundary ring.bufferSize σ.trace f)
    (hkeep : ∀ {σ l σ'}, K σ → ok σ l → step ring σ l = some σ' → K σ') (h₀ : K σ)
    (hlive : ¬ Dropped σ.trace i) : σ.Drains ring ok i f := by
  have hi := (hK h₀).1.guarded.inv
  have hneg := neg_one_le_position (i := i) hi.sound.legal
  have hfacing : ∀ {σ₁}, K σ₁ ∧ Behind σ₁.trace (position σ.trace i + 1) →
      Served ring initial σ₁ ∧ Facing ring.bufferSize σ₁.trace f (position σ.trace i + 1) :=
    fun hk => ⟨(hK hk.1).1, (hK hk.1).2.facing (by omega) hk.2⟩
  refine drains_of_facing rfl hfacing (fun hk hok hst => ?_) ⟨h₀, hi.behind i⟩ hlive
  exact ⟨hkeep hk.1 hok hst, (moves_of_step hst).behind hk.2⟩

/-- Cursors never go back. -/
theorem Guarded.consumed_le (hg : Guarded ring initial σ) (hg' : Guarded ring initial σ')
    (hsuf : σ.trace <:+ σ'.trace) (hlive : σ'.receivers i = true) :
    σ.mem.consumed i ≤ σ'.mem.consumed i ∧ ¬ Dropped σ.trace i ∧ ¬ Dropped σ'.trace i := by
  have hd' := hg'.inv.not_dropped hlive
  have hd : ¬ Dropped σ.trace i := fun hd => hd' (hsuf.subset hd)
  refine ⟨?_, hd, hd'⟩
  rw [hg.inv.sound.consumed_eq hd, hg'.inv.sound.consumed_eq hd']
  rcases position_cases σ.trace i with heq | ⟨a, hmem⟩
  · rw [heq]
    exact neg_one_le_position hg'.inv.sound.legal
  · exact hg'.ascending i a _ (hsuf.subset hmem)

end

end EnsoChannel
