import EnsoChannel.Lag

/-!
# Several guards of one receiver

`try_recv` and `try_recv_at_most` take `&self`, so one receiver may hold several guards and release
them in any order, while the claim of a guard is recorded nowhere but in the guard. Two promises
depend on it.

* **Slot exclusion**, the hypothesis of the `unsafe` ring accesses: no claimed and uncommitted
  sequence shares a slot with a live guard, and uncommitted sequences lie in distinct slots.
  `slot_exclusion`: it holds in every run in which guards are released alone, and then no step
  writes to a guarded slot. `slot_exclusion_fails`: two guards over the same item, one of them
  released, and a producer claims the slot under the other one.
* **At most once**: the cursor never decreases, and what was released is not covered again.
  `consumed_monotone`: it holds in every run in which guards are released in order, and not behind
  the back of a scan that has read the cursor (`ScansSeen`). `consumed_decreases`: two guards
  released in the wrong order.
-/

namespace EnsoChannel

open Lib

variable {T : Type} {N : Nat}

/-! ## Slot exclusion -/

/-- A live guard of call `r` covers `t`. -/
def Sys.Covers (σ : Sys T N) (r : Nat) (t : Int) : Prop :=
  ∃ first last, σ.recvs r = .guard first last ∧ first ≤ t ∧ t ≤ last

/-- No uncommitted sequence has the slot of a guarded one, nor that of another uncommitted one. -/
structure SlotExclusion (ring : RingBufferMeta) (σ : Sys T N) : Prop where
  guarded : ∀ s r t, Uncommitted σ.trace s → σ.Covers r t → ring.indexOfSeq s ≠ ring.indexOfSeq t
  claims : ∀ s t, Uncommitted σ.trace s → Uncommitted σ.trace t →
    ring.indexOfSeq s = ring.indexOfSeq t → s = t

instance (σ : Sys T N) (l : Label T N) : Decidable (LoneRelease σ l) :=
  match l with
  | .receiver r .release =>
    decidable_of_iff ((σ.recvs r).reading = true → ∀ r' < σ.nextRecv, r' ≠ r →
        σ.recvReceiver r' = σ.recvReceiver r → (σ.recvs r').reading = false)
      ⟨fun h _ heq => by cases heq; exact h, fun h => h r rfl⟩
  | .receiver _ .run | .receiver _ .leak | .clone _ | .dropSender _ | .send _ _ | .sender _ _
  | .recv _ _ _ | .dropReceiver _ => isTrue fun _ heq => by cases heq

section

variable {ring : RingBufferMeta} {initial : Nat → T} {σ σ' : Sys T N} {l : Label T N} {k r : Nat}
  {h : History T N} {m : Mem T N} {i j : Fin N}

/-- **Claims do not collide**, in any run in range. -/
theorem Inv.uncommitted_slot (hi : Inv ring initial σ) {s t : Int} (hs : Uncommitted σ.trace s)
    (ht : Uncommitted σ.trace t) (hidx : ring.indexOfSeq s = ring.indexOfSeq t) : s = t :=
  uncommitted_cell ring.bufferSize_pos hi.sound.legal hs ht
    ((RingBufferMeta.indexOfSeq_eq_iff ring).mp hidx)

/-- A guarded sequence is published, and at most a lap behind the highest claim. -/
theorem Guarded.covers (hg : Guarded ring initial σ) {t : Int} (hc : σ.Covers r t) :
    (∀ s, 0 ≤ s → s ≤ t → Published σ.trace s) ∧ highest σ.trace < t + ring.bufferSize := by
  obtain ⟨first, last, hpc, h₀, h₁⟩ := hc
  have hr : r < σ.nextRecv := hg.inv.fresh.lt_of_recv (by rw [hpc]; simp)
  have hlive := hg.inv.borrow.live_of_recv hr (by rw [hpc]; rfl)
  have hinv := hg.inv.recv r
  have hcur := hg.current r hr
  rw [hpc] at hinv hcur
  have hlag := hg.lag.lag _ hlive
  have hpos := neg_one_le_position (i := σ.recvReceiver r) hg.inv.sound.legal
  by_cases hlast : last = Sequence.init
  · -- the guard of a limit of 0 covers nothing
    have hfirst := hinv.1 hlast
    have hlast : last = -1 := hlast
    omega
  · obtain ⟨hf, hfl, hw, hp⟩ := hinv.2 hlast
    have heq := hcur hlast
    exact ⟨fun s hs₀ hs₁ => hp s hs₀ (by omega), by omega⟩

/-- A guard covers sequences only. -/
theorem Guarded.covers_nonneg (hg : Guarded ring initial σ) {t : Int} (hc : σ.Covers r t) :
    0 ≤ t := by
  obtain ⟨first, last, hpc, h₀, h₁⟩ := hc
  have hinv := hg.inv.recv r
  rw [hpc] at hinv
  by_cases hlast : last = Sequence.init
  · have := hinv.1 hlast
    omega
  · have := (hinv.2 hlast).1
    omega

/-- **No claimed and uncommitted sequence has the slot of a guarded one.** -/
theorem Guarded.covered_slot (hg : Guarded ring initial σ) {s t : Int}
    (hs : Uncommitted σ.trace s) (hc : σ.Covers r t) :
    ring.indexOfSeq s ≠ ring.indexOfSeq t := by
  obtain ⟨hp, hlag⟩ := hg.covers hc
  have hts : t < s := by
    by_contra hle
    exact hs.2.2 (hp s hs.1 (not_lt.mp hle))
  have hhigh := hs.2.1
  intro hidx
  have hcell := (RingBufferMeta.indexOfSeq_eq_iff ring).mp hidx
  have heq : s = t := eq_of_emod_eq hcell (by omega) (by omega)
  omega

theorem Guarded.slotExclusion (hg : Guarded ring initial σ) : SlotExclusion ring σ :=
  ⟨fun _ _ _ hs hc => hg.covered_slot hs hc,
    fun _ _ hs ht hidx => hg.inv.uncommitted_slot hs ht hidx⟩

/-- A step changes only the slot of an uncommitted sequence. -/
theorem Inv.slots_step (hi : Inv ring initial σ) (hm : Moves ring σ l σ') {n : Nat}
    (hn : ∀ s, Uncommitted σ.trace s → ring.indexOfSeq s ≠ n) : σ'.mem.slots n = σ.mem.slots n := by
  rcases hm.event_cases with ⟨-, hmem⟩ | ⟨e, htrace, hmem, -⟩
  · rw [hmem]
  · have hl := hi.legal_step hm
    rw [htrace] at hl
    rw [hmem]
    -- only a store changes a slot
    cases e with
    | store k s v =>
      have hs := uncommitted_of_owner hl.1 hl.2.1 hl.2.2
      exact Function.update_of_ne (hn s hs).symm _ _
    | _ => rfl

/-- **Slot exclusion**, in every state of every run in which guards are released alone; and no step
from there writes to a slot under a live guard. -/
theorem slot_exclusion {i₀ : Fin N} {ls : List (Label T N)}
    (hrun : Run (step ring) (fun σ l => InRange ring σ l ∧ LoneRelease σ l)
      (Sys.init initial i₀) ls σ) :
    SlotExclusion ring σ ∧
      ∀ l σ' r t, step ring σ l = some σ' → σ.Covers r t →
        σ'.mem.slots (ring.indexOfSeq t) = σ.mem.slots (ring.indexOfSeq t) := by
  have hg := (guarded_init ring initial i₀).of_run id hrun
  refine ⟨hg.slotExclusion, fun l σ' r t hst hc => ?_⟩
  exact hg.inv.slots_step (moves_of_step hst) fun s hs => hg.covered_slot hs hc

/-- A ring of two slots: two items received one by one, each guard released before the next call,
while a third item is sent. -/
theorem slot_exclusion_two_slots :
    ∃ (ls : List (Label Nat 1)) (σ : Sys Nat 1),
      Run (step ⟨1, by decide⟩) (fun σ l => InRange ⟨1, by decide⟩ σ l ∧ LoneRelease σ l)
          (Sys.init (fun _ => 0) 0) ls σ ∧
        σ.recvs 1 = .guard 1 1 ∧ Uncommitted σ.trace 2 ∧ SlotExclusion ⟨1, by decide⟩ σ := by
  have hex : (exec (step ⟨1, by decide⟩)
      (fun σ l => InRange ⟨1, by decide⟩ σ l ∧ LoneRelease σ l) (Sys.init (fun _ => 0) 0)
      (List.flatten [[.send 0 (.trySend 7)], List.replicate 9 (.sender 0 .run),
        [.send 0 (.trySend 8)],
        List.replicate 9 (.sender 1 .run),
        [.recv 0 1 false, .receiver 0 .run, .receiver 0 .run, .receiver 0 .release,
          .recv 0 1 false, .receiver 1 .run, .receiver 1 .run, .send 0 .tryReserve],
        List.replicate 4 (.sender 2 .run)])).any
      (fun σ : Sys Nat 1 =>
        decide (σ.recvs 1 = .guard 1 1 ∧ Uncommitted σ.trace 2)) = true := by
    decide +kernel
  obtain ⟨σ, hrun, hσ⟩ := Run.of_exec_any hex
  obtain ⟨hguard, hunc⟩ := of_decide_eq_true hσ
  exact ⟨_, σ, hrun, hguard, hunc, (slot_exclusion hrun).1⟩

/-- **Slot exclusion fails with two guards over one item**: the release of the first one lets a
producer claim the slot under the second one, and its write changes what that guard reads. -/
theorem slot_exclusion_fails :
    ∃ (ls : List (Label Nat 1)) (σ : Sys Nat 1),
      Run (step ⟨0, by decide⟩) (InRange ⟨0, by decide⟩) (Sys.init (fun _ => 0) 0) ls σ ∧
        ¬ SlotExclusion ⟨0, by decide⟩ σ ∧
        ((step ⟨0, by decide⟩ σ (.sender 1 (.write 9))).any fun σ' =>
          decide (σ'.recvs 1 = .guard 0 0 ∧ σ'.mem.slots 0 ≠ σ.mem.slots 0)) = true := by
  have hex : (exec (step ⟨0, by decide⟩) (InRange ⟨0, by decide⟩) (Sys.init (fun _ => 0) 0)
      (List.flatten [[.send 0 (.trySend 7)], List.replicate 9 (.sender 0 .run),
        [.recv 0 1 false, .receiver 0 .run, .receiver 0 .run, .recv 0 1 false, .receiver 1 .run,
          .receiver 1 .run, .receiver 0 .release, .send 0 .tryReserve],
        List.replicate 4 (.sender 1 .run)])).any
      (fun σ : Sys Nat 1 => decide (σ.recvs 1 = .guard 0 0 ∧ Uncommitted σ.trace 1 ∧
        ((step ⟨0, by decide⟩ σ (.sender 1 (.write 9))).any fun σ' =>
          decide (σ'.recvs 1 = .guard 0 0 ∧ σ'.mem.slots 0 ≠ σ.mem.slots 0)) = true)) = true := by
    decide +kernel
  obtain ⟨σ, hrun, hσ⟩ := Run.of_exec_any hex
  obtain ⟨hguard, hunc, hwrite⟩ := of_decide_eq_true hσ
  refine ⟨_, σ, hrun, fun hex => ?_, hwrite⟩
  exact hex.guarded 1 1 0 hunc ⟨0, 0, hguard, le_refl _, le_refl _⟩ (by decide)

end

/-! ## At most once -/

/-- No scan of the receiver has read a cursor below the end of a guard that is released. -/
def ScansSeen (σ : Sys T N) (l : Label T N) : Prop :=
  ∀ r first last, l = .receiver r .release → σ.recvs r = .guard first last →
    last ≠ Sequence.init →
      ∀ r' < σ.nextRecv, σ.recvReceiver r' = σ.recvReceiver r →
        ∀ q lastClaimed end_ seq shutdown,
          σ.recvs r' = .scan q lastClaimed end_ seq shutdown → last ≤ lastClaimed

/-- The end of a release by receiver `i`. -/
def Event.releaseEnd (i : Fin N) : Event T N → Option Int
  | .release j _ b => if j = i then some b else none
  | _ => none

/-- The scan of the call, if it is scanning, has read a cursor of at least `b`. -/
def RecvPc.hasSeen (b : Int) : RecvPc → Bool
  | .scan _ lastClaimed _ _ _ => decide (b ≤ lastClaimed)
  | _ => true

/-- `InOrder` and `ScansSeen` as a check of one release. -/
def releaseCheck (σ : Sys T N) : Label T N → Bool
  | .receiver r .release =>
    match σ.recvs r with
    | .guard _ last => last == Sequence.init ||
        (σ.trace.all (fun e => (e.releaseEnd (σ.recvReceiver r)).all (decide <| · ≤ last)) &&
          (List.range σ.nextRecv).all fun r' =>
            σ.recvReceiver r' != σ.recvReceiver r || (σ.recvs r').hasSeen last)
    | _ => true
  | _ => true

theorem inOrder_of_check {σ : Sys T N} {l : Label T N} (h : releaseCheck σ l = true) :
    InOrder σ l ∧ ScansSeen σ l := by
  constructor
  · rintro r first last rfl hpc hlast a b hmem
    simp only [releaseCheck, hpc, Bool.or_eq_true, beq_iff_eq, hlast, false_or,
      Bool.and_eq_true, List.all_eq_true] at h
    have hb := h.1 _ hmem
    simpa [Event.releaseEnd] using hb
  · rintro r first last rfl hpc hlast r' hr' hsame q lastClaimed end_ seq shutdown hscan
    simp only [releaseCheck, hpc, Bool.or_eq_true, beq_iff_eq, hlast, false_or,
      Bool.and_eq_true, List.all_eq_true] at h
    have hs := h.2 r' (List.mem_range.mpr hr')
    simpa [hsame, hscan, RecvPc.hasSeen] using hs

/-- What receiver `i` has released, it is not given again. -/
def NoRepeat (h : History T N) : Prop :=
  ∀ later earlier r i first last, h = later ++ .ret r i (.items first last) :: earlier →
    ∀ a b s, Event.release i a b ∈ earlier → a ≤ s → s ≤ b → ¬ (first ≤ s ∧ s ≤ last)

/-- The invariant of every run, in range or not: what calls borrow, and what the memory is. -/
structure Basic (ring : RingBufferMeta) (initial : Nat → T) (σ : Sys T N) : Prop where
  fresh : Fresh σ
  borrow : Borrow σ
  mem : σ.mem = replay ring initial σ.trace

/-- Every guard started after everything its receiver had released. -/
def StartsAfter : History T N → Prop
  | [] => True
  | .ret _ i (.items first _) :: h => StartsAfter h ∧ ∀ a b, Event.release i a b ∈ h → b < first
  | _ :: h => StartsAfter h

/-- A scan starts after everything its receiver has released. -/
def RecvAfter (h : History T N) (i : Fin N) : RecvPc → Prop
  | .scan _ lastClaimed _ seq _ =>
    -1 ≤ lastClaimed ∧ lastClaimed < seq ∧ ∀ a b, Event.release i a b ∈ h → b ≤ lastClaimed
  | .guard first last => last ≠ Sequence.init → 0 ≤ first ∧ first ≤ last
  | _ => True

/-- The invariant of the runs in which guards are released in order. -/
structure Once (ring : RingBufferMeta) (initial : Nat → T) (σ : Sys T N) : Prop where
  basic : Basic ring initial σ
  position : ∀ i, -1 ≤ position σ.trace i
  ascending : Ascending σ.trace
  after : ∀ r, RecvAfter σ.trace (σ.recvReceiver r) (σ.recvs r)
  starts : StartsAfter σ.trace

section

variable {ring : RingBufferMeta} {initial : Nat → T} {σ σ' : Sys T N} {l : Label T N} {k r : Nat}
  {h : History T N} {m : Mem T N} {i j : Fin N} {e : Event T N} {pc pc' : RecvPc}

theorem basic_init (ring : RingBufferMeta) (initial : Nat → T) (i₀ : Fin N) :
    Basic ring initial (Sys.init initial i₀) :=
  ⟨fresh_init initial i₀, borrow_init initial i₀, rfl⟩

theorem basic_step (hb : Basic ring initial σ) (hm : Moves ring σ l σ') :
    Basic ring initial σ' := by
  refine ⟨fresh_step hb.fresh hm, borrow_step hb.fresh hb.borrow hm, ?_⟩
  rcases hm.event_cases with ⟨htrace, hmem⟩ | ⟨e, htrace, hmem, -⟩
  · rw [htrace, hmem]
    exact hb.mem
  · rw [htrace, hmem, hb.mem]
    rfl

theorem StartsAfter.noRepeat (hs : StartsAfter h) : NoRepeat h := by
  intro later earlier r i first last heq a b s hmem _ hb hcover
  subst heq
  have hlt : b < first := by
    induction later with
    | nil => exact hs.2 a b hmem
    | cons e later ih =>
      refine ih ?_
      cases e with
      | ret r' j res =>
        cases res with
        | items => exact hs.1
        | _ => exact hs
      | _ => exact hs
  omega

theorem startsAfter_cons (hs : StartsAfter h)
    (he : ∀ r i first last, e = .ret r i (.items first last) →
      ∀ a b, Event.release i a b ∈ h → b < first) : StartsAfter (e :: h) := by
  cases e with
  | ret r i res =>
    cases res with
    | items first last => exact ⟨hs, he r i first last rfl⟩
    | _ => exact hs
  | _ => exact hs

/-- Only a release of the receiver itself touches its scans. -/
theorem RecvAfter.cons (ha : RecvAfter h i pc) (he : ∀ a b, e ≠ .release i a b) :
    RecvAfter (e :: h) i pc := by
  cases pc with
  | scan q lastClaimed last seq shutdown =>
    refine ⟨ha.1, ha.2.1, fun a b hmem => ?_⟩
    rcases List.mem_cons.mp hmem with heq | hmem
    · exact absurd heq.symm (he a b)
    · exact ha.2.2 a b hmem
  | _ => exact ha

/-- A release of the receiver that its scans have seen. -/
theorem RecvAfter.release {a b : Int} (ha : RecvAfter h i pc)
    (hseen : ∀ q lastClaimed last seq shutdown,
      pc = .scan q lastClaimed last seq shutdown → b ≤ lastClaimed) :
    RecvAfter (.release i a b :: h) i pc := by
  cases pc with
  | scan q lastClaimed last seq shutdown =>
    refine ⟨ha.1, ha.2.1, fun a' b' hmem => ?_⟩
    rcases List.mem_cons.mp hmem with heq | hmem
    · cases heq
      exact hseen q lastClaimed last seq shutdown rfl
    · exact ha.2.2 a' b' hmem
  | _ => exact ha

theorem Returns.not_release {q : RecvCall} {lc available a b : Int} {shutdown : Bool}
    (hret : Returns r i q lc available shutdown (some e) pc) : e ≠ .release j a b := by
  cases hret <;> simp

/-- A release ends the guard it is of. -/
theorem RecvMoves.of_release {act : RecvAct} {p p' : RecvPc} {a b : Int}
    (hm : RecvMoves ring r i m p act (some (.release j a b)) p') :
    act = .release ∧ j = i ∧ p = .guard a b ∧ b ≠ Sequence.init := by
  cases hm with
  | release hlast => exact ⟨rfl, rfl, rfl, hlast⟩
  | loadEmpty _ hret | scanEnd _ _ hret | scanStop _ hret => exact absurd rfl hret.not_release

theorem Returns.recvAfter {q : RecvCall} {lc available : Int} {shutdown : Bool}
    {e : Option (Event T N)} (hret : Returns r j q lc available shutdown e pc)
    (hlc : -1 ≤ lc) : RecvAfter (record e h) i pc := by
  cases hret with
  | items ha => exact fun _ => ⟨by omega, by omega⟩
  | _ => trivial

theorem Returns.starts {q : RecvCall} {lc available : Int} {shutdown : Bool}
    {e : Option (Event T N)} (hret : Returns r i q lc available shutdown e pc)
    (hs : StartsAfter h) (hlc : ∀ a b, Event.release i a b ∈ h → b ≤ lc) :
    StartsAfter (record e h) := by
  cases hret with
  | items => exact ⟨hs, fun a b hmem => by have := hlc a b hmem; omega⟩
  | _ => exact hs

/-- A step of a receive call: what it leaves the call at, and what it returns. -/
theorem RecvMoves.once {act : RecvAct} {e : Option (Event T N)}
    (hm : RecvMoves ring r i m pc act e pc') (hpos : -1 ≤ m.consumed i)
    (hrel : ∀ a b, Event.release i a b ∈ h → b ≤ m.consumed i)
    (ha : RecvAfter h i pc) (hs : StartsAfter h) :
    RecvAfter (record e h) i pc' ∧ StartsAfter (record e h) := by
  cases hm with
  | load => exact ⟨⟨hpos, by omega, hrel⟩, hs⟩
  | loadEmpty _ hret => exact ⟨hret.recvAfter hpos, hret.starts hs hrel⟩
  | scanNext => exact ⟨⟨ha.1, by have := ha.2.1; omega, ha.2.2⟩, hs⟩
  | scanEnd _ _ hret | scanStop _ hret => exact ⟨hret.recvAfter ha.1, hret.starts hs ha.2.2⟩
  | register | releaseEmpty | release | leak => exact ⟨trivial, hs⟩

theorem once_init (ring : RingBufferMeta) (initial : Nat → T) (i₀ : Fin N) :
    Once ring initial (Sys.init initial i₀) :=
  ⟨basic_init ring initial i₀, fun _ => le_refl _, ascending_init, fun _ => trivial, trivial⟩

theorem Once.guardsNonneg (ho : Once ring initial σ) : GuardsNonneg σ := by
  intro r first last hpc hlast
  have ha := ho.after r
  rw [hpc] at ha
  have hrange := ha hlast
  omega

/-- A step of a receive call, and what it returns. -/
theorem Once.recv_own (ho : Once ring initial σ) (hr : r < σ.nextRecv) {act : RecvAct}
    {e : Option (Event T N)}
    (hrm : RecvMoves ring r (σ.recvReceiver r) σ.mem (σ.recvs r) act e pc) :
    RecvAfter (record e σ.trace) (σ.recvReceiver r) pc ∧ StartsAfter (record e σ.trace) := by
  have hlive := ho.basic.borrow.live_of_recv hr hrm.unfinished
  have hcons : σ.mem.consumed (σ.recvReceiver r) =
      EnsoChannel.position σ.trace (σ.recvReceiver r) := by
    rw [ho.basic.mem, replay_consumed hlive]
  refine hrm.once ?_ ?_ (ho.after r) ho.starts
  · rw [hcons]
    exact ho.position _
  · rw [hcons]
    exact ho.ascending _

/-- Another party moves a receiver's scans only by a release, and they have seen it. -/
theorem Once.recv_other (ho : Once ring initial σ) (hseen : ScansSeen σ l)
    (hm : Moves ring σ l σ') (r : Nat) :
    RecvAfter σ'.trace (σ.recvReceiver r) (σ.recvs r) := by
  rcases hm.event_cases with ⟨htrace, -⟩ | ⟨e, htrace, -, hfrom⟩
  · rw [htrace]
    exact ho.after r
  · rw [htrace]
    by_cases he : ∃ a b, e = .release (σ.recvReceiver r) a b
    · obtain ⟨a, b, rfl⟩ := he
      refine (ho.after r).release fun q lastClaimed last seq shutdown heq => ?_
      rcases hfrom with ⟨k, act, pc, -, -, hsm⟩ | ⟨r₀, act, pc, rfl, hr₀, hrm⟩ | ⟨i, -, hdrop⟩
      · exact absurd hsm.sendSide (by simp [Event.sendSide])
      · obtain ⟨rfl, hsame, hpc, hlast⟩ := hrm.of_release
        have hr : r < σ.nextRecv := ho.basic.fresh.lt_of_recv (by rw [heq]; simp)
        exact hseen r₀ a b rfl hpc hlast r hr hsame q lastClaimed last seq shutdown heq
      · exact absurd hdrop (by simp)
    · exact (ho.after r).cons fun a b heq => he ⟨a, b, heq⟩

theorem Once.starts_step (ho : Once ring initial σ) (hm : Moves ring σ l σ') :
    StartsAfter σ'.trace := by
  rcases hm.event_cases with ⟨htrace, -⟩ | ⟨e, htrace, -, hfrom⟩
  · rw [htrace]
    exact ho.starts
  · rw [htrace]
    rcases hfrom with ⟨k, act, pc, -, -, hsm⟩ | ⟨r, act, pc, -, hr, hrm⟩ | ⟨i, -, rfl⟩
    · refine startsAfter_cons ho.starts ?_
      rintro r i first last rfl
      exact absurd hsm.sendSide (by simp [Event.sendSide])
    · exact (ho.recv_own hr hrm).2
    · exact ho.starts

/-- **Released in order, and seen by the scans under way**, nothing is given twice. -/
theorem once_step (ho : Once ring initial σ) (hok : InOrder σ l) (hseen : ScansSeen σ l)
    (hm : Moves ring σ l σ') : Once ring initial σ' := by
  refine ⟨basic_step ho.basic hm,
    fun i => (ho.position i).trans (position_mono ho.guardsNonneg hok hm i),
    ascending_step ho.guardsNonneg ho.ascending hok hm, ?_, ho.starts_step hm⟩
  refine hm.forall_recvs (J := fun r i pc => RecvAfter σ'.trace i pc)
    (K := fun _ i pc => RecvAfter σ'.trace i pc) (ho.recv_other hseen hm) ?_ ?_ fun _ _ h => h
  · intro i limit async _
    unfold recvStart
    split
    · exact fun hlast => absurd rfl hlast
    · trivial
  · intro r act e pc _ hr hrm _ htrace _
    rw [htrace]
    exact (ho.recv_own hr hrm).1

/-- **At-most-once delivery and monotone consumption**, in every run in which guards are released
in order and their ends are seen by the scans under way: the cursor of a live receiver never
decreases, and what it has released it is not given again. -/
theorem consumed_monotone {i₀ : Fin N} {ls ls' : List (Label T N)}
    (hrun : Run (step ring) (fun σ l => InOrder σ l ∧ ScansSeen σ l) (Sys.init initial i₀) ls σ)
    (hrun' : Run (step ring) (fun σ l => InOrder σ l ∧ ScansSeen σ l) σ ls' σ') :
    (∀ i, σ'.receivers i = true → σ.mem.consumed i ≤ σ'.mem.consumed i) ∧ NoRepeat σ'.trace := by
  have hstep : ∀ {σ σ' : Sys T N} {l}, Once ring initial σ → InOrder σ l ∧ ScansSeen σ l →
      step ring σ l = some σ' → Once ring initial σ' :=
    fun ho hok hst => once_step ho hok.1 hok.2 (moves_of_step hst)
  have ho := hrun.invariant hstep (once_init ring initial i₀)
  have ho' := hrun'.invariant hstep ho
  refine ⟨fun i hlive => ?_, ho'.starts.noRepeat⟩
  have hmono : ∀ i, (Dropped σ.trace i → Dropped σ'.trace i) ∧
      position σ.trace i ≤ position σ'.trace i := by
    refine Run.relate (R := fun σ σ' : Sys T N => ∀ i, (Dropped σ.trace i → Dropped σ'.trace i) ∧
      position σ.trace i ≤ position σ'.trace i) ?_ ?_ hstep ?_ hrun' ho
    · exact fun σ i => ⟨id, le_refl _⟩
    · exact fun h₁ h₂ i => ⟨(h₂ i).1 ∘ (h₁ i).1, (h₁ i).2.trans (h₂ i).2⟩
    · intro σ l σ' ho hok hst i
      have hm := moves_of_step hst
      exact ⟨hm.dropped, position_mono ho.guardsNonneg hok.1 hm i⟩
  have hd' : ¬ Dropped σ'.trace i := by
    rw [ho'.basic.borrow.dropped, hlive]
    simp
  have hd : ¬ Dropped σ.trace i := fun h => hd' ((hmono i).1 h)
  rw [ho.basic.mem, replay_consumed hd, ho'.basic.mem, replay_consumed hd']
  exact (hmono i).2

/-- A ring of two slots: a guard over one item and then one over two items of the same receiver,
both live at once, released in that order. -/
theorem consumed_monotone_two_guards :
    ∃ (ls ls' : List (Label Nat 1)) (σ σ' : Sys Nat 1),
      Run (step ⟨1, by decide⟩) (fun σ l => InOrder σ l ∧ ScansSeen σ l)
          (Sys.init (fun _ => 0) 0) ls σ ∧
        Run (step ⟨1, by decide⟩) (fun σ l => InOrder σ l ∧ ScansSeen σ l) σ ls' σ' ∧
          σ.recvs 0 = .guard 0 0 ∧ σ.recvs 1 = .guard 0 1 ∧ σ.mem.consumed 0 = -1 ∧
            σ'.mem.consumed 0 = 1 ∧ NoRepeat σ'.trace := by
  have hex : (exec (step ⟨1, by decide⟩) (fun σ l => releaseCheck σ l = true)
      (Sys.init (fun _ => 0) 0)
      (List.flatten [[.send 0 (.trySend 7)], List.replicate 9 (.sender 0 .run),
        [.send 0 (.trySend 8)],
        List.replicate 9 (.sender 1 .run),
        [.recv 0 1 false, .receiver 0 .run, .receiver 0 .run, .recv 0 2 false, .receiver 1 .run,
          .receiver 1 .run, .receiver 1 .run]])).any
      (fun σ : Sys Nat 1 => decide (σ.recvs 0 = .guard 0 0 ∧ σ.recvs 1 = .guard 0 1 ∧
        σ.mem.consumed 0 = -1 ∧
          (exec (step ⟨1, by decide⟩) (fun σ l => releaseCheck σ l = true) σ
            [.receiver 0 .release, .receiver 1 .release]).any
            (fun σ' => decide (σ'.mem.consumed 0 = 1)) = true)) = true := by
    decide +kernel
  obtain ⟨σ, hrun, hσ⟩ := Run.of_exec_any hex
  obtain ⟨h₀, h₁, h₂, hex'⟩ := of_decide_eq_true hσ
  obtain ⟨σ', hrun', hσ'⟩ := Run.of_exec_any hex'
  have hrun : Run _ (fun σ l => InOrder σ l ∧ ScansSeen σ l) _ _ _ := hrun.mono inOrder_of_check
  have hrun' : Run _ (fun σ l => InOrder σ l ∧ ScansSeen σ l) _ _ _ := hrun'.mono inOrder_of_check
  exact ⟨_, _, σ, σ', hrun, hrun', h₀, h₁, h₂, of_decide_eq_true hσ',
    (consumed_monotone hrun hrun').2⟩

/-- **Released in the wrong order, a cursor goes back** and the receiver is given an item again
that it has released: the guard over both items first, then the guard over the first one. -/
theorem consumed_decreases :
    ∃ (ls ls' : List (Label Nat 1)) (σ σ' : Sys Nat 1),
      Run (step ⟨1, by decide⟩) (InRange ⟨1, by decide⟩) (Sys.init (fun _ => 0) 0) ls σ ∧
        Run (step ⟨1, by decide⟩) (InRange ⟨1, by decide⟩) σ ls' σ' ∧
          σ'.receivers 0 = true ∧ σ'.mem.consumed 0 < σ.mem.consumed 0 ∧ ¬ NoRepeat σ'.trace := by
  have hex : (exec (step ⟨1, by decide⟩) (InRange ⟨1, by decide⟩) (Sys.init (fun _ => 0) 0)
      (List.flatten [[.send 0 (.trySend 7)], List.replicate 9 (.sender 0 .run),
        [.send 0 (.trySend 8)],
        List.replicate 9 (.sender 1 .run),
        [.recv 0 1 false, .receiver 0 .run, .receiver 0 .run, .recv 0 2 false, .receiver 1 .run,
          .receiver 1 .run, .receiver 1 .run, .receiver 1 .release]])).any
      (fun σ : Sys Nat 1 => decide (σ.mem.consumed 0 = 1 ∧
        (exec (step ⟨1, by decide⟩) (InRange ⟨1, by decide⟩) σ
          [.receiver 0 .release, .recv 0 1 false, .receiver 2 .run, .receiver 2 .run]).any
          (fun σ' => decide (σ'.receivers 0 = true ∧ σ'.mem.consumed 0 = 0 ∧
            σ'.trace.head? = some (.ret 2 0 (.items 1 1)) ∧
              .release 0 0 1 ∈ σ'.trace.tail)) = true)) = true := by
    decide +kernel
  obtain ⟨σ, hrun, hσ⟩ := Run.of_exec_any hex
  obtain ⟨h₀, hex'⟩ := of_decide_eq_true hσ
  obtain ⟨σ', hrun', hσ'⟩ := Run.of_exec_any hex'
  obtain ⟨hlive, h₁, hhead, hrel⟩ := of_decide_eq_true hσ'
  refine ⟨_, _, σ, σ', hrun, hrun', hlive, by rw [h₀, h₁]; decide, fun hno => ?_⟩
  have htrace : σ'.trace = [] ++ .ret 2 0 (.items 1 1) :: σ'.trace.tail :=
    (List.cons_head?_tail hhead).symm
  exact hno [] σ'.trace.tail 2 0 1 1 htrace 0 1 1 hrel (by decide) (by decide) (by decide)

end

end EnsoChannel
