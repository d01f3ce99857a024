import EnsoChannel.Drain

/-!
# A recycler panics

A permit whose recycler panics calls `terminate()`, the same `close()` while other senders live and
other permits are out. It marks the boundary it finds and closes the `claimed` cursor; but the bit
shares its word with the lap flag, so the permit that owns the boundary slot erases it when it is
committed.

* `terminate_sticky`: when the scan hides nothing (`Seen`), or the slot of the first unpublished
  sequence carries the bit already, and that sequence is never committed afterwards (`Spares`), the
  shutdown is sticky for the receivers.
* `terminate_erased`: a permit over an earlier sequence is committed after the `terminate()` has
  returned; the receiver is given its item and then `Empty`.
-/

namespace EnsoChannel

open Lib

variable {T : Type} {N : Nat}

/-- The next step of the call publishes `f`. -/
def SenderPc.commits (f : Int) : SenderPc T → Bool
  | .publishing _ seq last => seq == f && decide (seq ≤ last)
  | _ => false

/-- The step does not publish `f`. -/
def Spares (f : Int) (σ : Sys T N) (l : Label T N) : Prop :=
  ∀ k, l = .sender k .run → (σ.sends k).commits f = false

instance (f : Int) (σ : Sys T N) (l : Label T N) : Decidable (Spares f σ l) :=
  match l with
  | .sender k .run =>
    decidable_of_iff ((σ.sends k).commits f = false)
      ⟨fun h _ heq => by cases heq; exact h, fun h => h k rfl⟩
  | .sender _ (.panics _) | .sender _ (.panicsTwice _) | .sender _ (.write _)
  | .sender _ (.recycled _) | .sender _ .next | .sender _ .drop | .sender _ .leak | .clone _
  | .dropSender _ | .send _ _ | .recv _ _ _ | .receiver _ _ | .dropReceiver _ =>
    isTrue fun _ h => by cases h

/-- The discipline of the runs in which `f` is never committed. -/
def SparesOk (ring : RingBufferMeta) (f : Int) (σ : Sys T N) (l : Label T N) : Prop :=
  InRange ring σ l ∧ OneGuard σ l ∧ Spares f σ l

instance (ring : RingBufferMeta) (f : Int) (σ : Sys T N) (l : Label T N) :
    Decidable (SparesOk ring f σ l) :=
  inferInstanceAs (Decidable (_ ∧ _ ∧ _))

/-- The call is about to mark the slot of `f`. -/
def SenderPc.marking (f : Int) : SenderPc T → Prop
  | .closing (.mark _ lastPublished) _ => lastPublished + 1 = f
  | _ => False

/-- `f` is the first unpublished sequence, and its slot is marked or call `k` is about to do so. -/
structure Marking (ring : RingBufferMeta) (initial : Nat → T) (k : Nat) (f : Int) (σ : Sys T N) :
    Prop where
  served : Served ring initial σ
  frontier : Frontier (Published σ.trace) f
  marked : Marked ring.bufferSize σ.trace (f % ring.bufferSize) ∨ (σ.sends k).marking f

/-- Everything that receive calls have returned is published. -/
def GivenPublished (h : History T N) : Prop :=
  ∀ r i a b, Event.ret r i (.items a b) ∈ h → ∀ s, 0 ≤ s → s ≤ b → Published h s

/-- What every run in range keeps of what receivers were given. -/
structure Giving (ring : RingBufferMeta) (initial : Nat → T) (σ : Sys T N) : Prop where
  inv : Inv ring initial σ
  given : GivenPublished σ.trace

/-- What holds of `Served` runs and of what the receivers were given. -/
structure Poisoned (ring : RingBufferMeta) (initial : Nat → T) (σ : Sys T N) : Prop where
  served : Served ring initial σ
  scan : ∀ k, SenderScan ring.bufferSize σ.trace (σ.sends k)
  given : GivenPublished σ.trace

/-- What is kept from the end of the scan on, where `f` is never committed. -/
structure Sticky (ring : RingBufferMeta) (initial : Nat → T) (k : Nat) (f : Int) (σ : Sys T N) :
    Prop where
  marking : Marking ring initial k f σ
  given : GivenPublished σ.trace

/-- What is kept once the `close()` has returned. -/
structure Stuck (ring : RingBufferMeta) (initial : Nat → T) (k : Nat) (f : Int) (σ : Sys T N) :
    Prop where
  sticky : Sticky ring initial k f σ
  boundary : Boundary ring.bufferSize σ.trace f

section

variable {ring : RingBufferMeta} {initial : Nat → T} {σ σ' σ₁ σ₂ : Sys T N} {l : Label T N}
  {k r : Nat} {h : History T N} {m : Mem T N} {i : Fin N} {e : Event T N} {c f s : Int}
  {pc pc' : SenderPc T} {act : SenderAct T}

theorem SenderMoves.commits_of_publish {k' : Nat}
    (hm : SenderMoves ring k m pc act (some (.publish k' s)) pc') :
    act = .run ∧ pc.commits s = true := by
  cases hm with
  | publish hseq => exact ⟨rfl, by simp [SenderPc.commits, hseq]⟩

/-- A step that spares `f` does not publish it. -/
theorem Moves.ne_publish (hm : Moves ring σ l σ') (hok : Spares f σ l)
    (htrace : σ'.trace = e :: σ.trace) (k : Nat) : e ≠ .publish k f := by
  rintro rfl
  obtain ⟨k', act, pc, rfl, -, -, hsm⟩ := hm.of_sendSide htrace rfl
  obtain ⟨rfl, hcommits⟩ := hsm.commits_of_publish
  rw [hok k' rfl] at hcommits
  exact absurd hcommits (by simp)

/-- **The mark is set and stays**, as long as its sequence is not committed. -/
theorem marking_step (hmk : Marking ring initial k f σ) (hok : SparesOk ring f σ l)
    (hst : step ring σ l = some σ') : Marking ring initial k f σ' := by
  have hm := moves_of_step hst
  have hserved := served_step hmk.served hok.1 hok.2.1 hst
  have hlegal := hserved.guarded.inv.sound.legal
  have hfrontier : Frontier (Published σ'.trace) f := by
    obtain ⟨e, htrace⟩ := hm.trace_cases
    cases e with
    | none =>
      rw [htrace]
      exact hmk.frontier
    | some e =>
      rw [htrace]
      exact frontier_cons hmk.frontier (hm.ne_publish hok.2.2 htrace)
  refine ⟨hserved, hfrontier, ?_⟩
  rcases hmk.marked with hmark | hmark
  · refine Or.inl ?_
    obtain ⟨e, htrace⟩ := hm.trace_cases
    cases e with
    | none =>
      rw [htrace]
      exact hmark
    | some e =>
      have hne := hm.ne_publish hok.2.2 htrace
      rw [htrace] at hlegal ⊢
      exact (Boundary.cons ring.bufferSize_pos ⟨hmk.frontier, hmark⟩ hlegal hne).marked
  · rcases hm.sender_cases k with ⟨act, e, rfl, hsm, htrace, -⟩ | hl
    · generalize σ.sends k = pc₀ at hsm hmark
      generalize σ'.sends k = pc₁ at hsm
      cases hsm with
      | @closeMark raw lastPublished caller =>
        have hmark : lastPublished + 1 = f := hmark
        rw [htrace]
        exact Or.inl (Or.inl (by rw [hmark]))
      | _ => exact absurd hmark (by simp [SenderPc.marking])
    · refine Or.inr ?_
      have hk : k < σ.nextSend :=
        hmk.served.guarded.inv.fresh.lt_of_send fun hidle => by
          rw [hidle] at hmark
          exact hmark
      rwa [hm.sends_other hk hl]

/-! ## What was given was committed -/

theorem Returns.items_guard {q : RecvCall} {lastClaimed available a b : Int} {shutdown : Bool}
    {pc : RecvPc}
    (hret : Returns r i q lastClaimed available shutdown (some e) pc) {r' : Nat} {j : Fin N}
    (he : e = .ret r' j (.items a b)) : pc = .guard a b ∧ a ≤ b := by
  subst he
  cases hret with
  | items ha => exact ⟨rfl, by omega⟩

/-- A call that returns items holds the guard over them. -/
theorem RecvMoves.items_guard {a b : Int} {r' : Nat} {j : Fin N} {pc pc' : RecvPc} {act : RecvAct}
    (hm : RecvMoves ring r i m pc act (some (.ret r' j (.items a b))) pc') :
    pc' = .guard a b ∧ a ≤ b := by
  cases hm with
  | loadEmpty _ hret | scanEnd _ _ hret | scanStop _ hret => exact hret.items_guard rfl

theorem givenPublished_step (hi : Inv ring initial σ) (hg : GivenPublished σ.trace)
    (hm : Moves ring σ l σ') : GivenPublished σ'.trace := by
  rcases hm.event_cases with ⟨htrace, -⟩ | ⟨e, htrace, -, hfrom⟩
  · rwa [htrace]
  · rw [htrace]
    intro r i a b hmem s h₀ h₁
    rcases List.mem_cons.mp hmem with rfl | hmem
    · rcases hfrom with ⟨k, act, pc, -, -, hsm⟩ | ⟨r₀, act, pc, -, hr₀, hrm⟩ | ⟨j, -, heq⟩
      · exact absurd hsm.sendSide (by simp [Event.sendSide])
      · obtain ⟨rfl, hab⟩ := hrm.items_guard
        have hlive := hi.borrow.live_of_recv hr₀ hrm.unfinished
        obtain ⟨-, hinv⟩ := (hi.recv r₀).step hi.sound hlive hrm
        have hb : b ≠ Sequence.init := by
          intro hb
          have hfirst := hinv.1 hb
          have hb : b = -1 := hb
          omega
        exact (hinv.2 hb).2.2.2 s h₀ h₁
      · exact absurd heq (by simp)
    · exact (hg r i a b hmem s h₀ h₁).cons

theorem giving_init (ring : RingBufferMeta) (initial : Nat → T) (i₀ : Fin N) :
    Giving ring initial (Sys.init initial i₀) :=
  ⟨inv_init ring initial i₀, fun _ _ _ _ hmem => absurd hmem List.not_mem_nil⟩

theorem giving_step (hg : Giving ring initial σ) (hok : InRange ring σ l)
    (hst : step ring σ l = some σ') : Giving ring initial σ' :=
  ⟨inv_step hg.inv hok hst, givenPublished_step hg.inv hg.given (moves_of_step hst)⟩

/-- Nothing is given from an unpublished sequence on. -/
theorem GivenPublished.lt_frontier (hg : GivenPublished h) (hf : Frontier (Published h) f)
    {a b : Int} (hmem : Event.ret r i (.items a b) ∈ h) : b < f := by
  by_contra hge
  exact hf.outside (hg r i a b hmem f hf.nonneg (not_lt.mp hge))

/-! ## The shutdown sticks -/

/-- The discipline of the runs with one guard at a time. -/
def RangeOneGuard (ring : RingBufferMeta) (σ : Sys T N) (l : Label T N) : Prop :=
  InRange ring σ l ∧ OneGuard σ l

instance (ring : RingBufferMeta) (σ : Sys T N) (l : Label T N) :
    Decidable (RangeOneGuard ring σ l) :=
  inferInstanceAs (Decidable (_ ∧ _))

theorem poisoned_of_run {i₀ : Fin N} {ls : List (Label T N)}
    (hrun : Run (step ring) (RangeOneGuard ring) (Sys.init initial i₀) ls σ) :
    Poisoned ring initial σ := by
  refine hrun.invariant (I := Poisoned ring initial) ?_
    ⟨served_init ring initial i₀, fun _ => trivial,
      fun _ _ _ _ hmem => absurd hmem List.not_mem_nil⟩
  intro σ l σ' hp hok hst
  have hi := hp.served.guarded.inv
  have hm := moves_of_step hst
  exact ⟨served_step hp.served hok.1 hok.2 hst, senderScan_step hi hp.scan hm,
    givenPublished_step hi hp.given hm⟩

/-- The scan of a `close()` only reads. -/
theorem SenderMoves.scan_silent {raw lastClaimed seq raw' lastPublished : Int}
    {caller : CloseCaller} {e : Option (Event T N)}
    (hm : SenderMoves ring k m (.closing (.scan raw lastClaimed seq) caller) act e
      (.closing (.mark raw' lastPublished) caller)) : e = none := by
  cases hm <;> rfl

/-- The last step of the scan of a `close()` only reads. -/
theorem Poisoned.scan_step (hp : Poisoned ring initial σ₁) {raw lastClaimed seq lastPublished : Int}
    {caller : CloseCaller} (hscan : σ₁.sends k = .closing (.scan raw lastClaimed seq) caller)
    (hst : step ring σ₁ (.sender k .run) = some σ₂)
    (hend : σ₂.sends k = .closing (.mark raw lastPublished) caller) :
    σ₂.trace = σ₁.trace ∧ Poisoned ring initial σ₂ := by
  have hi := hp.served.guarded.inv
  have hm := moves_of_step hst
  obtain ⟨e, hsm, htrace, -⟩ := hm.sends_self
  rw [hscan, hend] at hsm
  obtain rfl := hsm.scan_silent
  have htrace : σ₂.trace = σ₁.trace := htrace
  have hrange : InRange ring σ₁ (.sender k .run) := by
    refine ⟨by simp, fun σ' hst' => ?_⟩
    obtain rfl := Option.some.inj (hst.symm.trans hst')
    rw [htrace]
    exact hi.sound.bound
  exact ⟨htrace, served_step hp.served hrange (by simp [OneGuard]) hst,
    senderScan_step hi hp.scan hm, givenPublished_step hi hp.given hm⟩

/-- Where the scan ends, the slot of `f` is marked already, or the call is about to do so. -/
theorem Poisoned.sticky (hp : Poisoned ring initial σ₁) {raw lastClaimed seq lastPublished : Int}
    {caller : CloseCaller} (hscan : σ₁.sends k = .closing (.scan raw lastClaimed seq) caller)
    (hst : step ring σ₁ (.sender k .run) = some σ₂)
    (hend : σ₂.sends k = .closing (.mark raw lastPublished) caller)
    (hsees : Boundary ring.bufferSize σ₁.trace f ∨ Seen ring.bufferSize σ₁.trace lastClaimed f) :
    Sticky ring initial k f σ₂ := by
  obtain ⟨htrace, hp₂⟩ := hp.scan_step hscan hst hend
  obtain ⟨e, hsm, -⟩ := (moves_of_step hst).sends_self
  rw [hscan, hend] at hsm
  refine ⟨⟨hp₂.served, ?_, ?_⟩, hp₂.given⟩
  · rw [htrace]
    exact hsees.elim Boundary.frontier fun hseen => hseen.1
  · refine hsees.imp (fun hb => ?_) fun hseen => ?_
    · rw [htrace]
      exact hb.marked
    · have hscan₁ := hp.scan k
      rw [hscan] at hscan₁
      rw [hend]
      exact scan_end hp.served.guarded.inv.sound hscan₁ hseen hsm

theorem sticky_step (hs : Sticky ring initial k f σ) (hok : SparesOk ring f σ l)
    (hst : step ring σ l = some σ') : Sticky ring initial k f σ' :=
  ⟨marking_step hs.marking hok hst,
    givenPublished_step hs.marking.served.guarded.inv hs.given (moves_of_step hst)⟩

/-- A `close()` that has returned has set the mark. -/
theorem Sticky.stuck (hs : Sticky ring initial k f σ) {caller : CloseCaller}
    (hreturned : σ.sends k = caller.resume) : Stuck ring initial k f σ := by
  refine ⟨hs, hs.marking.frontier, hs.marking.marked.resolve_right ?_⟩
  rw [hreturned]
  cases caller <;> exact id

theorem stuck_step (hs : Stuck ring initial k f σ) (hok : SparesOk ring f σ l)
    (hst : step ring σ l = some σ') : Stuck ring initial k f σ' := by
  have hs' := sticky_step hs.sticky hok hst
  refine ⟨hs', ?_⟩
  obtain ⟨e, he⟩ := (moves_of_step hst).trace_cases
  cases e with
  | none =>
    rw [he]
    exact hs.boundary
  | some e =>
    have hne := (moves_of_step hst).ne_publish hok.2.2 he
    have hl := hs'.marking.served.guarded.inv.sound.legal
    rw [he] at hl ⊢
    exact hs.boundary.cons ring.bufferSize_pos hl hne

/-- **Poison shutdown is sticky** in runs with one guard at a time, for a `close()` of call `k`
whose scan ends (from `σ₁` to `σ₂`) with nothing published hidden behind the value it loaded, or
with the bit set at the first unpublished sequence `f` already, when `f` is never committed from
then on. What was the contiguous committed prefix at any time before is below `f`, and what is below
`f` was committed by the end of the scan. Once the `close()` has returned (`σ₃`), nothing from `f`
on is ever given, and every receive call returns the next items below `f`, or `Disconnected` at
`f`. -/
theorem terminate_sticky {i₀ : Fin N} {ls₁ ls₂ : List (Label T N)} {σ₁ σ₂ σ₃ : Sys T N}
    {raw lastClaimed seq lastPublished : Int} {caller : CloseCaller}
    (hrun₁ : Run (step ring) (RangeOneGuard ring) (Sys.init initial i₀) ls₁ σ₁)
    (hscan : σ₁.sends k = .closing (.scan raw lastClaimed seq) caller)
    (hst : step ring σ₁ (.sender k .run) = some σ₂)
    (hend : σ₂.sends k = .closing (.mark raw lastPublished) caller)
    (hsees : Boundary ring.bufferSize σ₁.trace f ∨ Seen ring.bufferSize σ₁.trace lastClaimed f)
    (hrun₂ : Run (step ring) (SparesOk ring f) σ₂ ls₂ σ₃)
    (hreturned : σ₃.sends k = caller.resume) :
    (∀ l₀ l₁ σ₀ f₀, Run (step ring) (RangeOneGuard ring) (Sys.init initial i₀) l₀ σ₀ →
        Run (step ring) (RangeOneGuard ring) σ₀ l₁ σ₁ → Frontier (Published σ₀.trace) f₀ →
          f₀ ≤ f) ∧
      Frontier (Published σ₂.trace) f ∧
      ∀ ls' σ', Run (step ring) (SparesOk ring f) σ₃ ls' σ' →
        (∀ r i a b, Event.ret r i (.items a b) ∈ σ'.trace → b < f) ∧
          ∀ i, σ'.receivers i = true → σ₃.mem.consumed i ≤ σ'.mem.consumed i ∧
            σ'.mem.consumed i < f ∧ σ'.Drains ring (SparesOk ring f) i f := by
  have hp₁ := poisoned_of_run hrun₁
  have htrace := (hp₁.scan_step hscan hst hend).1
  have hs₂ := hp₁.sticky hscan hst hend hsees
  have hs₃ : Stuck ring initial k f σ₃ := (hrun₂.invariant sticky_step hs₂).stuck hreturned
  refine ⟨fun l₀ l₁ σ₀ f₀ _ hrun hf₀ => ?_, hs₂.marking.frontier, fun ls' σ' hrun => ?_⟩
  · have hf := hs₂.marking.frontier
    rw [htrace] at hf
    have hsuf := trace_suffix hrun
    exact hf₀.mono hf fun s ⟨k', hk'⟩ => ⟨k', hsuf.subset hk'⟩
  · have hs' : Stuck ring initial k f σ' := hrun.invariant stuck_step hs₃
    refine ⟨fun r i a b hmem => hs'.sticky.given.lt_frontier hs'.boundary.frontier hmem,
      fun i hlive => ?_⟩
    have hg' := hs'.sticky.marking.served.guarded
    obtain ⟨hle, -, hd⟩ :=
      hs₃.sticky.marking.served.guarded.consumed_le hg' (trace_suffix hrun) hlive
    refine ⟨hle, ?_, drains_of_boundary (fun hs => ⟨hs.sticky.marking.served, hs.boundary⟩)
      stuck_step hs' hd⟩
    rw [hg'.inv.sound.consumed_eq hd]
    exact hg'.inv.position_lt_frontier hs'.boundary.frontier i

/-- Item 0 is sent, permits 1 and 2 are out, and the recycler of permit 1 panics: sequence 1 is the
boundary, never committed. Permit 2 is committed after the `terminate()` has returned. -/
theorem terminate_sticky_later :
    ∃ (ls ls' ls'' : List (Label Nat 1)) (σ₁ σ₂ σ₃ σ' : Sys Nat 1),
      Run (step ⟨2, by decide⟩) (RangeOneGuard ⟨2, by decide⟩) (Sys.init (fun _ => 0) 0) ls σ₁ ∧
        step ⟨2, by decide⟩ σ₁ (.sender 1 .run) = some σ₂ ∧
        Run (step ⟨2, by decide⟩) (SparesOk ⟨2, by decide⟩ 1) σ₂ ls' σ₃ ∧
        σ₃.sends 1 = .poisoned ∧ σ₃.sends 2 = .permit 2 ∧
        Run (step ⟨2, by decide⟩) (SparesOk ⟨2, by decide⟩ 1) σ₃ ls'' σ' ∧
          σ'.sends 2 = .committed ∧ σ'.Drains ⟨2, by decide⟩ (SparesOk ⟨2, by decide⟩ 1) 0 1 := by
  have hex : (exec (step ⟨2, by decide⟩) (RangeOneGuard ⟨2, by decide⟩) (Sys.init (fun _ => 0) 0)
      (List.flatten [[.send 0 (.trySend 7)], List.replicate 9 (.sender 0 .run),
        [.send 0 .tryReserve],
        List.replicate 4 (.sender 1 .run), [.send 0 .tryReserve],
        List.replicate 4 (.sender 2 .run),
        [.sender 1 .drop, .sender 1 (.panics 5), .sender 1 .run, .sender 1 .run]])).any
      (fun σ₁ : Sys Nat 1 => decide (σ₁.sends 1 = .closing (.scan 2 2 1) .permit ∧
        seenCheck 4 σ₁.trace 2 1 = true ∧
        (step ⟨2, by decide⟩ σ₁ (.sender 1 .run)).any
          (fun σ₂ : Sys Nat 1 => decide (σ₂.sends 1 = .closing (.mark 2 0) .permit ∧
            (exec (step ⟨2, by decide⟩) (SparesOk ⟨2, by decide⟩ 1) σ₂
              (List.replicate 4 (.sender 1 .run))).any
              (fun σ₃ : Sys Nat 1 => decide (σ₃.sends 1 = .poisoned ∧ σ₃.sends 2 = .permit 2 ∧
                (exec (step ⟨2, by decide⟩) (SparesOk ⟨2, by decide⟩ 1) σ₃
                  (List.flatten [[.sender 2 (.write 9)], List.replicate 4 (.sender 2 .run)])).any
                  (fun σ' : Sys Nat 1 => decide (σ'.sends 2 = .committed ∧
                    σ'.receivers 0 = true)) = true)) = true)) = true)) = true := by
    decide +kernel
  obtain ⟨σ₁, hrun₁, hσ₁⟩ := Run.of_exec_any hex
  obtain ⟨hscan, hseen, hex₂⟩ := of_decide_eq_true hσ₁
  obtain ⟨σ₂, hst, hσ₂⟩ := (Option.any_eq_true _ _).mp hex₂
  obtain ⟨hend, hex₃⟩ := of_decide_eq_true hσ₂
  obtain ⟨σ₃, hrun₃, hσ₃⟩ := Run.of_exec_any hex₃
  obtain ⟨hpoisoned, hpermit, hex'⟩ := of_decide_eq_true hσ₃
  obtain ⟨σ', hrun', hσ'⟩ := Run.of_exec_any hex'
  obtain ⟨hcommitted, hlive⟩ := of_decide_eq_true hσ'
  have hsticky := terminate_sticky hrun₁ hscan hst hend (Or.inr (seen_of_check hseen)) hrun₃
    hpoisoned
  exact ⟨_, _, _, σ₁, σ₂, σ₃, σ', hrun₁, hst, hrun₃, hpoisoned, hpermit, hrun', hcommitted,
    ((hsticky.2.2 _ σ' hrun').2 0 hlive).2.2⟩

/-- **A commit erases the mark.** Permit 1's recycler panics while permit 0 is out; the
`terminate()` marks the slot of sequence 0 and returns, and then permit 0 is committed. The receiver
is given item 0, and then `Empty`. -/
theorem terminate_erased :
    ∃ (ls ls' : List (Label Nat 1)) (σ σ' : Sys Nat 1),
      Run (step ⟨1, by decide⟩) (RangeOneGuard ⟨1, by decide⟩) (Sys.init (fun _ => 0) 0) ls σ ∧
        σ.sends 1 = .poisoned ∧ .closeEnd 1 ∈ σ.trace ∧ σ.sends 0 = .permit 0 ∧
        σ.nextRecv = 0 ∧
        Run (step ⟨1, by decide⟩) (RangeOneGuard ⟨1, by decide⟩) σ ls' σ' ∧
          σ'.senders 0 = true ∧ .ret 0 0 (.items 0 0) ∈ σ'.trace ∧ σ'.recvs 1 = .empty := by
  have hex : (exec (step ⟨1, by decide⟩) (RangeOneGuard ⟨1, by decide⟩) (Sys.init (fun _ => 0) 0)
      (List.flatten [[.send 0 .tryReserve], List.replicate 4 (.sender 0 .run),
        [.send 0 .tryReserve],
        List.replicate 4 (.sender 1 .run), [.sender 1 .drop, .sender 1 (.panics 5)],
        List.replicate 6 (.sender 1 .run)])).any
      (fun σ : Sys Nat 1 => decide (σ.sends 1 = .poisoned ∧ .closeEnd 1 ∈ σ.trace ∧
        σ.sends 0 = .permit 0 ∧ σ.nextRecv = 0 ∧
        (exec (step ⟨1, by decide⟩) (RangeOneGuard ⟨1, by decide⟩) σ
          (List.flatten [[.sender 0 (.write 7)], List.replicate 4 (.sender 0 .run),
            [.recv 0 1 false, .receiver 0 .run, .receiver 0 .run, .receiver 0 .release,
              .recv 0 1 false, .receiver 1 .run, .receiver 1 .run]])).any
          (fun σ' : Sys Nat 1 => decide (σ'.senders 0 = true ∧
            .ret 0 0 (.items 0 0) ∈ σ'.trace ∧ σ'.recvs 1 = .empty)) = true)) = true := by
    decide +kernel
  obtain ⟨σ, hrun, hσ⟩ := Run.of_exec_any hex
  obtain ⟨hpoisoned, hclosed, hpermit, hnext, hex'⟩ := of_decide_eq_true hσ
  obtain ⟨σ', hrun', hσ'⟩ := Run.of_exec_any hex'
  exact ⟨_, _, σ, σ', hrun, hpoisoned, hclosed, hpermit, hnext, hrun', of_decide_eq_true hσ'⟩

end

end EnsoChannel
