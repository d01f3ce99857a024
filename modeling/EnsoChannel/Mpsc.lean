import EnsoChannel.Refinement

/-!
# The single-consumer channel

`mpsc.rs` builds the same sender and receiver over another gate, `ExclusiveConSeqGate`
(`con_ex.rs`): `max_consumed()` is one load of the one cursor, and `notify()` one `wake()`. `fanout`
with one receiver goes through a loop for both, which starts from `SHUTDOWN_OPEN` and has one
iteration.

`mpscStep` is the channel over the exclusive gate. The two channels reach the same states:

* `mpsc_simulates`: a step of the `mpsc` channel is one step of the `fanout` channel with one
  receiver, or two of the same call (the loop and its end), to the very same state. So everything
  proved of `fanout` is true of `mpsc`.
* `fanout_simulates`: the other way round. Between the two steps of a gate `fanout` is in a state
  that `mpsc` does not have; `Sys.collapse` is the state that `mpsc` is in then.
* `mpsc_same_histories`: both, for runs.
* `mpsc_refines_broadcast`: the two simulations of `mpsc` by `fanout` and of `fanout` by the
  broadcast log, composed.
-/

namespace EnsoChannel

open Lib

variable {T : Type}

/-- One step of sender call `k` over the exclusive gate: `max_consumed()` and `notify()` are single
steps. All else is the code of `senderStep` (also `close()`, where the end of the loop over the
wakers is where it returns). -/
def mpscSenderStep (ring : RingBufferMeta) (k : Nat) (m : Mem T 1) :
    SenderPc T → SenderAct T → Option (Option (Event T 1) × SenderPc T)
  | .maxConsumed c last _ _, .run => some (none, claimBody ring c last (m.consumed 0))
  | .notifying _, .run => some (some (.wake 0 (m.wakers 0)), .committed)
  | pc, act => senderStep ring k m pc act

/-- **One step of the `mpsc` channel.** -/
def mpscStep (ring : RingBufferMeta) (σ : Sys T 1) : Label T 1 → Option (Sys T 1)
  | .sender k act =>
    if k < σ.nextSend then
      match mpscSenderStep ring k σ.mem (σ.sends k) act with
      | none => none
      | some (e, pc) => some { σ.perform ring e with sends := Function.update σ.sends k pc }
    else none
  | l => step ring σ l

/-- `InRange` for the `mpsc` channel. -/
def MpscInRange (ring : RingBufferMeta) : Sys T 1 → Label T 1 → Prop := InRangeOf (mpscStep ring)

/-- `Tidy` for the `mpsc` channel. -/
def MpscTidy (ring : RingBufferMeta) : Sys T 1 → Label T 1 → Prop := TidyOf (mpscStep ring)

instance (ring : RingBufferMeta) (σ : Sys T 1) (l : Label T 1) : Decidable (MpscTidy ring σ l) :=
  inferInstanceAs (Decidable (TidyOf (mpscStep ring) σ l))

/-- The call is in its gate, or in a `notify()`. -/
def SenderPc.gating : SenderPc T → Bool
  | .maxConsumed _ _ _ _ | .notifying _ => true
  | _ => false

/-- The steps of the `fanout` channel that one step of the `mpsc` channel stands for. -/
def Sys.fanoutActs (σ : Sys T 1) : Label T 1 → List (Label T 1)
  | .sender k .run =>
    if (σ.sends k).gating then [.sender k .run, .sender k .run] else [.sender k .run]
  | l => [l]

/-- Where the call of the `mpsc` channel stands. -/
def SenderPc.collapse (ring : RingBufferMeta) : SenderPc T → SenderPc T
  | .maxConsumed c last i minConsumed =>
    if i = 0 then .maxConsumed c last i minConsumed else claimBody ring c last minConsumed
  | .notifying i => if i = 0 then .notifying i else .committed
  | pc => pc

/-- The state of the `mpsc` channel. -/
def Sys.collapse (ring : RingBufferMeta) (σ : Sys T 1) : Sys T 1 :=
  { σ with sends := fun k => (σ.sends k).collapse ring }

/-- The call is between the loop of a gate and what follows it. -/
def SenderPc.midGate : SenderPc T → Bool
  | .maxConsumed _ _ i _ => i != 0
  | .notifying i => i != 0
  | _ => false

/-- The step of the `mpsc` channel that a step of the `fanout` channel stands for: what a gate has
read is used at once. -/
def Sys.mpscActs (σ : Sys T 1) : Label T 1 → List (Label T 1)
  | .sender k act => if (σ.sends k).midGate then [] else [.sender k act]
  | l => [l]

/-- A gate that has not read its cursor has nothing. -/
def SenderPc.fresh : SenderPc T → Prop
  | .maxConsumed _ _ i minConsumed => i = 0 → minConsumed = Sequence.shutdownOpen
  | _ => True

/-- The discipline does not look at the sender calls, and lets them run. -/
structure SenderBlind (ok : Sys T 1 → Label T 1 → Prop) : Prop where
  run : ∀ σ k, ok σ (.sender k .run)
  sends : ∀ {σ l} sends, ok σ l → ok { σ with sends := sends } l

section

variable {ring : RingBufferMeta} {initial : Nat → T} {σ σ' : Sys T 1} {l : Label T 1} {k : Nat}
  {m : Mem T 1} {pc pc' : SenderPc T} {act : SenderAct T} {e : Option (Event T 1)}
  {ok : Sys T 1 → Label T 1 → Prop}

/-! ## The steps of a call -/

/-- Outside its gate and its `notify()`, a call of the `mpsc` channel does what it does in
`fanout`. -/
theorem mpscSenderStep_eq (hpc : pc.gating = false) :
    mpscSenderStep ring k m pc act = senderStep ring k m pc act := by
  cases pc <;> first | rfl | exact absurd hpc (by simp [SenderPc.gating])

/-- In the gate and in `notify()` nothing but the library code moves. -/
theorem mpscSenderStep_gating (hpc : pc.gating = true)
    (hst : mpscSenderStep ring k m pc act = some (e, pc')) : act = .run := by
  cases pc with
  | maxConsumed | notifying =>
    cases act <;> first | rfl | exact absurd hst (by simp [mpscSenderStep, senderStep])
  | _ => exact absurd hpc (by simp [SenderPc.gating])

theorem mpscStep_sender (hk : k < σ.nextSend)
    (hst : mpscSenderStep ring k σ.mem (σ.sends k) act = some (e, pc)) :
    mpscStep ring σ (.sender k act) =
      some { σ.perform ring e with sends := Function.update σ.sends k pc } := by
  simp only [mpscStep, if_pos hk, hst]

theorem step_sender (hk : k < σ.nextSend)
    (hst : senderStep ring k σ.mem (σ.sends k) act = some (e, pc)) :
    step ring σ (.sender k act) =
      some { σ.perform ring e with sends := Function.update σ.sends k pc } := by
  simp only [step, if_pos hk, hst]

/-- A step of a sender call of the `mpsc` channel. -/
theorem exists_mpscSenderStep (hst : mpscStep ring σ (.sender k act) = some σ') :
    k < σ.nextSend ∧ ∃ e pc, mpscSenderStep ring k σ.mem (σ.sends k) act = some (e, pc) ∧
      σ' = { σ.perform ring e with sends := Function.update σ.sends k pc } := by
  simp only [mpscStep] at hst
  split at hst
  · rename_i hk
    split at hst
    · cases hst
    · rename_i e pc heq
      exact ⟨hk, e, pc, heq, (Option.some.inj hst).symm⟩
  · cases hst

/-! ## A cursor is at most the sentinel -/

/-- The loop of the `fanout` gate over one cursor finds that cursor. -/
theorem Inv.min_consumed (hi : Inv ring initial σ) (j : Fin 1) :
    min Sequence.shutdownOpen (σ.mem.consumed j) = σ.mem.consumed j := by
  refine min_eq_right ?_
  by_cases hd : Dropped σ.trace j
  · exact (hi.sound.consumed_of_dropped hd).le
  · rw [hi.sound.consumed_eq hd]
    exact (hi.sound.position_lt j).le

/-! ## From `mpsc` to `fanout` -/

/-- What the states of the `mpsc` channel are like: a gate or a `notify()` is at its start. -/
structure AtGate (ring : RingBufferMeta) (initial : Nat → T) (σ : Sys T 1) : Prop where
  inv : Inv ring initial σ
  fresh : ∀ k, (σ.sends k).fresh
  whole : ∀ k, (σ.sends k).midGate = false

theorem claimLoop_fresh (c : SendCall T) (raw : Int) :
    (claimLoop c raw).fresh ∧ (claimLoop c raw).midGate = false :=
  claimLoop_cases (P := fun pc => pc.fresh ∧ pc.midGate = false) ⟨trivial, rfl⟩
    fun _ => ⟨fun _ => rfl, rfl⟩

theorem claimBody_fresh (c : SendCall T) (last x : Int) :
    (claimBody ring c last x).fresh ∧ (claimBody ring c last x).midGate = false :=
  claimBody_cases (P := fun pc => pc.fresh ∧ pc.midGate = false) (fun _ => ⟨trivial, rfl⟩)
    fun _ => ⟨trivial, rfl⟩

theorem start_fresh (c : SendCall T) : c.start.fresh ∧ c.start.midGate = false :=
  start_cases (P := fun pc => pc.fresh ∧ pc.midGate = false) ⟨trivial, rfl⟩ ⟨trivial, rfl⟩

/-- A call enters its gate, and a `notify()`, at the start. -/
theorem SenderMoves.fresh (hm : SenderMoves ring k m pc act e pc') (hpc : pc.gating = false) :
    pc'.fresh ∧ pc'.midGate = false := by
  cases hm with
  | load | retry => exact claimLoop_fresh _ _
  | gate | gateEnd | wake | wakeEnd => exact absurd hpc (by simp [SenderPc.gating])
  | claim =>
    exact granted_cases (P := fun pc => pc.fresh ∧ pc.midGate = false) (fun _ => ⟨trivial, rfl⟩)
      ⟨trivial, rfl⟩ ⟨trivial, rfl⟩
  | closeEnd => cases ‹CloseCaller› <;> exact ⟨trivial, rfl⟩
  | _ => exact ⟨trivial, rfl⟩

/-- A property of the positions that only a step of a sender call can change. -/
theorem Moves.forall_sender {P : SenderPc T → Prop} (hm : Moves ring σ l σ')
    (hP : ∀ k, P (σ.sends k)) (hstart : ∀ c : SendCall T, P c.start)
    (hclose : P (.closing .load .lastSender))
    (hown : ∀ k act, l = .sender k act → P (σ'.sends k)) : ∀ k, P (σ'.sends k) := by
  intro k
  rcases hm.sender_cases k with ⟨act, e, rfl, -⟩ | hother
  · exact hown k act rfl
  · rcases hm.sends_cases hother with heq | ⟨h, c, -, -, heq⟩ | heq
    · rw [heq]
      exact hP k
    · rw [heq]
      exact hstart c
    · rw [heq]
      exact hclose

/-- Two steps of a gate, or of a `notify()`, in the `fanout` channel. -/
theorem fanout_gate {c : SendCall T} {last : Int} (hi : Inv ring initial σ) (hk : k < σ.nextSend)
    (hpc : σ.sends k = .maxConsumed c last 0 Sequence.shutdownOpen) :
    ∃ σ₁, step ring σ (.sender k .run) = some σ₁ ∧ highest σ₁.trace = highest σ.trace ∧
      step ring σ₁ (.sender k .run) = some { σ with
        sends := Function.update σ.sends k (claimBody ring c last (σ.mem.consumed 0)) } := by
  have hload : senderStep ring k σ.mem (σ.sends k) .run = some (none,
      .maxConsumed c last 1 (min Sequence.shutdownOpen (σ.mem.consumed 0))) := by
    rw [hpc]
    rfl
  rw [hi.min_consumed] at hload
  refine ⟨_, step_sender hk hload, rfl, ?_⟩
  generalize hpc₁ : (.maxConsumed c last 1 (σ.mem.consumed 0) : SenderPc T) = pc₁
  generalize hσ₁ : { σ.perform ring none with sends := Function.update σ.sends k pc₁ } = σ₁
  have hsends : σ₁.sends = Function.update σ.sends k pc₁ := by rw [← hσ₁]
  have hend : senderStep ring k σ₁.mem (σ₁.sends k) .run =
      some (none, claimBody ring c last (σ.mem.consumed 0)) := by
    rw [hsends, Function.update_self, ← hpc₁, ← hσ₁]
    rfl
  refine (step_sender (by rw [← hσ₁]; exact hk) hend).trans ?_
  show some { σ₁ with sends := Function.update σ₁.sends k _ } = _
  rw [hsends, Function.update_idem, ← hσ₁]
  rfl

variable (ring) in
theorem fanout_notify (hk : k < σ.nextSend) (hpc : σ.sends k = .notifying 0) :
    ∃ σ₁, step ring σ (.sender k .run) = some σ₁ ∧ highest σ₁.trace = highest σ.trace ∧
      step ring σ₁ (.sender k .run) =
        some { σ.perform ring (some (.wake 0 (σ.mem.wakers 0))) with
          sends := Function.update σ.sends k .committed } := by
  have hwake : senderStep ring k σ.mem (σ.sends k) .run =
      some (some (.wake 0 (σ.mem.wakers 0)), .notifying 1) := by
    rw [hpc]
    rfl
  refine ⟨_, step_sender hk hwake, rfl, ?_⟩
  generalize hσ₁ : { σ.perform ring (some (.wake 0 (σ.mem.wakers 0))) with
    sends := Function.update σ.sends k (.notifying 1) } = σ₁
  have hsends : σ₁.sends = Function.update σ.sends k (.notifying 1) := by rw [← hσ₁]
  have hend : senderStep ring k σ₁.mem (σ₁.sends k) .run = some (none, .committed) := by
    rw [hsends, Function.update_self]
    rfl
  refine (step_sender (by rw [← hσ₁]; exact hk) hend).trans ?_
  show some { σ₁ with sends := Function.update σ₁.sends k _ } = _
  rw [hsends, Function.update_idem, ← hσ₁]

/-- Own steps of a call that claim nothing are in range. -/
theorem inRange_run (hb : highest σ.trace + 1 < 2 ^ 62)
    (hst : step ring σ (.sender k .run) = some σ') (hhigh : highest σ'.trace = highest σ.trace) :
    InRange ring σ (.sender k .run) := by
  refine ⟨fun h n heq => absurd heq (by simp), fun σ'' hst' => ?_⟩
  obtain rfl := Option.some.inj (hst.symm.trans hst')
  rwa [hhigh]

/-- Two steps of the same call. -/
theorem run_twice {σ₁ : Sys T 1} (hok : SenderBlind ok) (hi : Inv ring initial σ)
    (hst₁ : step ring σ (.sender k .run) = some σ₁) (hhigh₁ : highest σ₁.trace = highest σ.trace)
    (hst₂ : step ring σ₁ (.sender k .run) = some σ')
    (hhigh₂ : highest σ'.trace = highest σ₁.trace) :
    Run (step ring) (fun σ l => InRange ring σ l ∧ ok σ l) σ
      [.sender k .run, .sender k .run] σ' := by
  have hb := hi.sound.bound
  have hone : Run (step ring) (fun σ l => InRange ring σ l ∧ ok σ l) σ [.sender k .run] σ₁ :=
    Run.single ⟨inRange_run hb hst₁ hhigh₁, hok.run σ k⟩ hst₁
  exact hone.snoc ⟨inRange_run (by rwa [hhigh₁]) hst₂ hhigh₂, hok.run σ₁ k⟩ hst₂

/-- **A step of the `mpsc` channel** is one or two steps of the `fanout` channel with one
receiver. -/
theorem mpsc_matches (hok : SenderBlind ok) (ha : AtGate ring initial σ)
    (hl : MpscInRange ring σ l ∧ ok σ l) (hst : mpscStep ring σ l = some σ') :
    Run (step ring) (fun σ l => InRange ring σ l ∧ ok σ l) σ (σ.fanoutActs l) σ' := by
  have hsame : step ring σ l = some σ' →
      Run (step ring) (fun σ l => InRange ring σ l ∧ ok σ l) σ [l] σ' := by
    intro hst'
    refine Run.single ⟨⟨hl.1.1, fun σ'' hst'' => ?_⟩, hl.2⟩ hst'
    obtain rfl := Option.some.inj (hst'.symm.trans hst'')
    exact hl.1.2 _ hst
  cases l with
  | sender k act =>
    obtain ⟨hk, e, pc, hsend, rfl⟩ := exists_mpscSenderStep hst
    by_cases hgating : (σ.sends k).gating = true
    · obtain rfl := mpscSenderStep_gating hgating hsend
      rw [Sys.fanoutActs, if_pos hgating]
      have hfresh := ha.fresh k
      have hwhole := ha.whole k
      generalize hpc : σ.sends k = pc₀ at hgating hsend hfresh hwhole
      cases pc₀ with
      | maxConsumed c last i x =>
        obtain rfl : i = 0 := by simpa [SenderPc.midGate] using hwhole
        obtain rfl := hfresh rfl
        cases hsend
        obtain ⟨σ₁, hst₁, hhigh, hst₂⟩ := fanout_gate ha.inv hk hpc
        exact run_twice hok ha.inv hst₁ hhigh hst₂ hhigh.symm
      | notifying i =>
        obtain rfl : i = 0 := by simpa [SenderPc.midGate] using hwhole
        cases hsend
        obtain ⟨σ₁, hst₁, hhigh, hst₂⟩ := fanout_notify ring hk hpc
        exact run_twice hok ha.inv hst₁ hhigh hst₂ hhigh.symm
      | _ => exact absurd hgating (by simp [SenderPc.gating])
    · have hgating := Bool.eq_false_iff.mpr hgating
      have hacts : σ.fanoutActs (.sender k act) = [.sender k act] := by
        cases act <;> first | rfl | exact if_neg (by rw [hgating]; simp)
      rw [hacts]
      rw [mpscSenderStep_eq hgating] at hsend
      exact hsame (step_sender hk hsend)
  | _ => exact hsame hst

/-- The gates of the `mpsc` channel are never half-way. -/
theorem atGate_step (hok : SenderBlind ok) (ha : AtGate ring initial σ)
    (hl : MpscInRange ring σ l ∧ ok σ l) (hst : mpscStep ring σ l = some σ') :
    AtGate ring initial σ' := by
  have hinv := Inv.of_run (fun hok => hok.1) ha.inv (mpsc_matches hok ha hl hst)
  suffices hpcs : ∀ k, (σ'.sends k).fresh ∧ (σ'.sends k).midGate = false from
    ⟨hinv, fun k => (hpcs k).1, fun k => (hpcs k).2⟩
  have hall : ∀ k, (σ.sends k).fresh ∧ (σ.sends k).midGate = false :=
    fun k => ⟨ha.fresh k, ha.whole k⟩
  have hother : (∀ k act, l ≠ .sender k act) → step ring σ l = some σ' →
      ∀ k, (σ'.sends k).fresh ∧ (σ'.sends k).midGate = false := by
    intro hne hst'
    exact (moves_of_step hst').forall_sender
      (P := fun pc => pc.fresh ∧ pc.midGate = false) hall start_fresh ⟨trivial, rfl⟩
      fun k act heq => absurd heq (hne k act)
  cases l with
  | sender k act =>
    obtain ⟨hk, e, pc, hsend, rfl⟩ := exists_mpscSenderStep hst
    refine (Function.forall_update_iff σ.sends
      (p := fun _ pc => pc.fresh ∧ pc.midGate = false)).mpr ⟨?_, fun k' _ => hall k'⟩
    by_cases hgating : (σ.sends k).gating = true
    · generalize σ.sends k = pc₀ at hgating hsend
      obtain rfl := mpscSenderStep_gating hgating hsend
      cases pc₀ with
      | maxConsumed c last i x =>
        cases hsend
        exact claimBody_fresh _ _ _
      | notifying i =>
        cases hsend
        exact ⟨trivial, rfl⟩
      | _ => exact absurd hgating (by simp [SenderPc.gating])
    · have hgating := Bool.eq_false_iff.mpr hgating
      rw [mpscSenderStep_eq hgating] at hsend
      exact (senderMoves_of_step hsend).fresh hgating
  | _ => exact hother (by simp) hst

variable (ring initial) in
/-- **The `mpsc` channel does what `fanout` with one receiver does**, to the very same states. -/
theorem mpsc_simulates (hok : SenderBlind ok) :
    Simulation (mpscStep ring) (fun σ l => MpscInRange ring σ l ∧ ok σ l) (step ring)
      (fun σ l => InRange ring σ l ∧ ok σ l) (AtGate ring initial) id Sys.fanoutActs where
  keeps ha hl hst := atGate_step hok ha hl hst
  matches_step ha hl hst := mpsc_matches hok ha hl hst

/-! ## From `fanout` to `mpsc` -/

/-- What the states of the `fanout` channel are like. -/
structure AtLoop (ring : RingBufferMeta) (initial : Nat → T) (σ : Sys T 1) : Prop where
  inv : Inv ring initial σ
  fresh : ∀ k, (σ.sends k).fresh

theorem SenderMoves.fresh_loop {N : Nat} {m : Mem T N} {e : Option (Event T N)}
    (hm : SenderMoves ring k m pc act e pc') : pc'.fresh := by
  cases hm with
  | load | retry => exact (claimLoop_fresh _ _).1
  | gate => exact fun h => absurd h (by simp)
  | gateEnd => exact (claimBody_fresh _ _ _).1
  | claim => exact granted_cases (P := SenderPc.fresh) (fun _ => trivial) trivial trivial
  | closeEnd => cases ‹CloseCaller› <;> trivial
  | _ => trivial

theorem atLoop_step (ha : AtLoop ring initial σ) (hok : InRange ring σ l)
    (hst : step ring σ l = some σ') : AtLoop ring initial σ' := by
  have hm := moves_of_step hst
  refine ⟨inv_step ha.inv hok hst, hm.forall_sender (P := SenderPc.fresh) ha.fresh
    (fun c => (start_fresh c).1) trivial ?_⟩
  rintro k act rfl
  obtain ⟨e, hsm, -⟩ := hm.sends_self
  exact hsm.fresh_loop

theorem collapse_eq (hpc : pc.midGate = false) : pc.collapse ring = pc := by
  cases pc with
  | maxConsumed c last i x => exact if_pos (by simpa [SenderPc.midGate] using hpc)
  | notifying i => exact if_pos (by simpa [SenderPc.midGate] using hpc)
  | _ => rfl

theorem midGate_of_finished (hpc : pc.finished = true) : pc.midGate = false := by
  cases pc <;> first | rfl | exact absurd hpc (by simp [SenderPc.finished])

variable (ring) in
theorem collapse_update (f : Nat → SenderPc T) (k : Nat) (pc : SenderPc T) :
    (fun k' => (Function.update f k pc k').collapse ring) =
      Function.update (fun k' => (f k').collapse ring) k (pc.collapse ring) := by
  funext k'
  by_cases hk : k' = k
  · rw [hk, Function.update_self, Function.update_self]
  · rw [Function.update_of_ne hk, Function.update_of_ne hk]

/-- A step of a sender call, seen from the `mpsc` channel. -/
theorem collapse_sender : Sys.collapse ring
    { σ.perform ring e with sends := Function.update σ.sends k pc } =
      { (σ.collapse ring).perform ring e with
        sends := Function.update (σ.collapse ring).sends k (pc.collapse ring) } := by
  show { σ.perform ring e with
    sends := fun k' => (Function.update σ.sends k pc k').collapse ring } = _
  rw [collapse_update]
  cases e <;> rfl

theorem senderIdle_collapse {h : Nat} (hidle : σ.SenderIdle h) :
    (σ.collapse ring).SenderIdle h := by
  intro k hk hh
  have hfin := hidle k hk hh
  show ((σ.sends k).collapse ring).finished = true
  rwa [collapse_eq (midGate_of_finished hfin)]

/-- The label is a step of a sender call. -/
def Label.ofSender {N : Nat} : Label T N → Bool
  | .sender _ _ => true
  | _ => false

/-- A step that is not a sender call's is the same step of the `mpsc` channel. -/
theorem step_collapse (hm : Moves ring σ l σ') (hl : l.ofSender = false) :
    mpscStep ring (σ.collapse ring) l = some (σ'.collapse ring) := by
  cases hm with
  | sender => exact absurd hl (by simp [Label.ofSender])
  | clone hlive =>
    show step ring (σ.collapse ring) (.clone _) = _
    rw [step, if_pos (show (σ.collapse ring).senders _ = true from hlive)]
    rfl
  | @dropSender h hlive hidle hother =>
    show step ring (σ.collapse ring) (.dropSender _) = _
    rw [step, if_pos ⟨hlive, senderIdle_collapse hidle⟩,
      if_neg (show ¬ (σ.collapse ring).LastSender h from hother)]
    rfl
  | @dropLast h hlive hidle hlast =>
    show step ring (σ.collapse ring) (.dropSender _) = _
    rw [step, if_pos ⟨hlive, senderIdle_collapse hidle⟩,
      if_pos (show (σ.collapse ring).LastSender h from hlast)]
    unfold Sys.collapse
    dsimp only
    rw [collapse_update]
    rfl
  | @send h c hlive =>
    show step ring (σ.collapse ring) (.send _ _) = _
    rw [step, if_pos (show (σ.collapse ring).senders _ = true from hlive)]
    unfold Sys.collapse
    dsimp only
    rw [collapse_update, collapse_eq (start_fresh c).2]
  | recv hlive =>
    show step ring (σ.collapse ring) (.recv _ _ _) = _
    rw [step, if_pos (show (σ.collapse ring).receivers _ = true from hlive)]
    rfl
  | @receiver r act e pc hr hst =>
    show step ring (σ.collapse ring) (.receiver _ _) = _
    have hst : recvStep ring r ((σ.collapse ring).recvReceiver r) (σ.collapse ring).mem
        ((σ.collapse ring).recvs r) act = some (e, pc) := hst
    simp only [step, if_pos (show r < (σ.collapse ring).nextRecv from hr), hst]
    cases e <;> rfl
  | dropReceiver hlive hidle =>
    show step ring (σ.collapse ring) (.dropReceiver _) = _
    have hguard : (σ.collapse ring).receivers _ = true ∧ (σ.collapse ring).ReceiverIdle _ :=
      ⟨hlive, hidle⟩
    rw [step, if_pos hguard]
    rfl

/-- **A step of the `fanout` channel with one receiver** is one step of the `mpsc` channel, or,
in the second half of a gate, none. -/
theorem fanout_matches (hok : SenderBlind ok) (ha : AtLoop ring initial σ)
    (hl : InRange ring σ l ∧ ok σ l) (hst : step ring σ l = some σ') :
    Run (mpscStep ring) (fun σ l => MpscInRange ring σ l ∧ ok σ l) (σ.collapse ring) (σ.mpscActs l)
      (σ'.collapse ring) := by
  have hm := moves_of_step hst
  have hone : mpscStep ring (σ.collapse ring) l = some (σ'.collapse ring) →
      Run (mpscStep ring) (fun σ l => MpscInRange ring σ l ∧ ok σ l) (σ.collapse ring) [l]
        (σ'.collapse ring) := by
    intro hst'
    refine Run.single ⟨⟨hl.1.1, fun σ'' hst'' => ?_⟩, hok.sends _ hl.2⟩ hst'
    rw [← Option.some.inj (hst'.symm.trans hst'')]
    exact hl.1.2 σ' hst
  cases l with
  | sender k act =>
    cases hm with
    | @sender _ _ e pc hk hsend =>
      have hsm := senderMoves_of_step hsend
      have hfresh := ha.fresh k
      have hsends : (σ.collapse ring).sends k = (σ.sends k).collapse ring := rfl
      rw [Sys.mpscActs, collapse_sender]
      by_cases hmid : (σ.sends k).midGate = true
      · -- the loop of a gate ends, and nothing happens
        rw [if_pos hmid]
        suffices hpc : e = none ∧ pc.collapse ring = (σ.collapse ring).sends k by
          rw [hpc.1, hpc.2, Function.update_eq_self]
          exact Run.nil
        rw [hsends]
        generalize σ.sends k = pc₀ at hsm hmid
        cases hsm with
        | @gate c last x i hi =>
          obtain rfl : i = 0 := by omega
          exact absurd hmid (by simp [SenderPc.midGate])
        | @gateEnd c last x i hi =>
          rw [collapse_eq (claimBody_fresh c last x).2]
          exact ⟨rfl, (if_neg (by omega)).symm⟩
        | @wake i hi =>
          obtain rfl : i = 0 := by omega
          exact absurd hmid (by simp [SenderPc.midGate])
        | @wakeEnd i hi => exact ⟨rfl, (if_neg (by omega)).symm⟩
        | _ => exact absurd hmid (by simp [SenderPc.midGate])
      · have hmid := Bool.eq_false_iff.mpr hmid
        rw [if_neg (by rw [hmid]; simp), ← collapse_sender]
        refine hone ?_
        rw [collapse_sender]
        refine mpscStep_sender hk ?_
        rw [hsends, collapse_eq hmid]
        by_cases hgating : (σ.sends k).gating = true
        · generalize σ.sends k = pc₀ at hsm hmid hgating hfresh
          cases hsm with
          | @gate c last x i hi =>
            obtain rfl : i = 0 := by omega
            obtain rfl := hfresh rfl
            show some (none, claimBody ring c last (σ.mem.consumed 0)) = some (none, _)
            rw [SenderPc.collapse, if_neg (by omega), ha.inv.min_consumed]
            rfl
          | @gateEnd c last x i hi =>
            have hzero : i = 0 := by simpa [SenderPc.midGate] using hmid
            omega
          | @wake i hi =>
            obtain rfl : i = 0 := by omega
            rfl
          | @wakeEnd i hi =>
            have hzero : i = 0 := by simpa [SenderPc.midGate] using hmid
            omega
          | _ => exact absurd hgating (by simp [SenderPc.gating])
        · have hgating := Bool.eq_false_iff.mpr hgating
          rw [mpscSenderStep_eq hgating, collapse_eq (hsm.fresh hgating).2]
          exact hsend
  | _ => exact hone (step_collapse hm rfl)

variable (ring initial) in
theorem fanout_simulates (hok : SenderBlind ok) :
    Simulation (step ring) (fun σ l => InRange ring σ l ∧ ok σ l) (mpscStep ring)
      (fun σ l => MpscInRange ring σ l ∧ ok σ l) (AtLoop ring initial) (Sys.collapse ring)
      Sys.mpscActs where
  keeps ha hl hst := atLoop_step ha hl.1 hst
  matches_step ha hl hst := fanout_matches hok ha hl hst

/-! ## The two channels -/

theorem senderBlind_tidy : SenderBlind fun (σ : Sys T 1) l => OneGuard σ l ∧ NoLeak l where
  run σ k := ⟨fun i limit async h => absurd h (by simp),
    fun k h => absurd h (by simp), fun r h => absurd h (by simp)⟩
  sends sends hok := hok

theorem atGate_init (initial : Nat → T) (i₀ : Fin 1) :
    AtGate ring initial (Sys.init initial i₀) :=
  ⟨inv_init ring initial i₀, fun _ => trivial, fun _ => rfl⟩

/-- **`mpsc` and `fanout` with one receiver are the same channel.** Under every discipline that does
not look at the sender calls, each state `mpsc` reaches is one that `fanout` reaches; and for each
state that `fanout` reaches, `mpsc` reaches one with the same shared memory, the same history, the
same handles and the same receive calls, in which every sender call that is over stands where it
did. -/
theorem mpsc_same_histories {i₀ : Fin 1} (hok : SenderBlind ok) :
    (∀ ls σ, Run (mpscStep ring) (fun σ l => MpscInRange ring σ l ∧ ok σ l)
        (Sys.init initial i₀) ls σ →
      ∃ ls', Run (step ring) (fun σ l => InRange ring σ l ∧ ok σ l) (Sys.init initial i₀) ls' σ) ∧
      ∀ ls σ, Run (step ring) (fun σ l => InRange ring σ l ∧ ok σ l) (Sys.init initial i₀) ls σ →
        ∃ ls' σ', Run (mpscStep ring) (fun σ l => MpscInRange ring σ l ∧ ok σ l)
            (Sys.init initial i₀) ls' σ' ∧
          σ'.mem = σ.mem ∧ σ'.trace = σ.trace ∧ σ'.senders = σ.senders ∧
          σ'.receivers = σ.receivers ∧ σ'.recvs = σ.recvs ∧
          ∀ k, (σ.sends k).finished = true → σ'.sends k = σ.sends k := by
  refine ⟨fun ls σ hrun => ?_, fun ls σ hrun => ?_⟩
  · exact ⟨_, (mpsc_simulates ring initial hok).run hrun (atGate_init initial i₀)⟩
  · have ha : AtLoop ring initial (Sys.init initial i₀) :=
      ⟨inv_init ring initial i₀, fun _ => trivial⟩
    have hrun' := (fanout_simulates ring initial hok).run hrun ha
    refine ⟨_, _, hrun', rfl, rfl, rfl, rfl, rfl, fun k hfin => ?_⟩
    exact collapse_eq (midGate_of_finished hfin)

/-- An item is sent through an `mpsc` channel and received, and `fanout` can do the same. -/
theorem mpsc_same_histories_one :
    ∃ (ls ls' : List (Label Nat 1)) (σ : Sys Nat 1), received σ.trace 0 = [7] ∧
      Run (mpscStep ⟨1, by decide⟩) (MpscTidy ⟨1, by decide⟩) (Sys.init (fun _ => 0) 0) ls σ ∧
        Run (step ⟨1, by decide⟩) (Tidy ⟨1, by decide⟩) (Sys.init (fun _ => 0) 0) ls' σ := by
  have hex : (exec (mpscStep ⟨1, by decide⟩) (MpscTidy ⟨1, by decide⟩) (Sys.init (fun _ => 0) 0)
      (List.flatten [[.send 0 (.trySend 7)], List.replicate 7 (.sender 0 .run),
        [.recv 0 1 false, .receiver 0 .run, .receiver 0 .run]])).any
      (fun σ : Sys Nat 1 => decide (received σ.trace 0 = [7])) = true := by
    decide +kernel
  obtain ⟨σ, hrun, hσ⟩ := Run.of_exec_any hex
  obtain ⟨ls', hrun'⟩ := (mpsc_same_histories senderBlind_tidy).1 _ _ hrun
  exact ⟨_, ls', σ, of_decide_eq_true hσ, hrun, hrun'⟩

/-- **The `mpsc` channel refines the broadcast log with one reader.** -/
theorem mpsc_refines_broadcast {i₀ : Fin 1} {ls : List (Label T 1)}
    (hrun : Run (mpscStep ring) (MpscTidy ring) (Sys.init initial i₀) ls σ) :
    Run Broadcast.step (Broadcast.Allowed ring.bufferSize.toNat) Broadcast.init
        (matched (mpscStep ring)
          (fun σ l => matched (step ring) (Sys.acts ring) σ (σ.fanoutActs l))
          (Sys.init initial i₀) ls) σ.broadcast ∧
      (received σ.trace 0).map some <+: entries σ.trace := by
  have hsim := (mpsc_simulates ring initial senderBlind_tidy).trans
    (simulates_broadcast ring initial)
  have habs := hsim.run hrun ⟨atGate_init initial i₀, delivering_init ring initial i₀⟩
  exact ⟨habs, (Broadcast.valid_init.of_run habs).given 0⟩

/-- An item is sent through an `mpsc` channel and received. -/
theorem mpsc_refines_broadcast_one :
    ∃ (ls : List (Label Nat 1)) (σ : Sys Nat 1), received σ.trace 0 = [7] ∧
      Run (mpscStep ⟨1, by decide⟩) (MpscTidy ⟨1, by decide⟩) (Sys.init (fun _ => 0) 0) ls σ ∧
        (received σ.trace 0).map some <+: entries σ.trace := by
  have hex : (exec (mpscStep ⟨1, by decide⟩) (MpscTidy ⟨1, by decide⟩) (Sys.init (fun _ => 0) 0)
      (List.flatten [[.send 0 (.trySend 7)], List.replicate 7 (.sender 0 .run),
        [.recv 0 1 false, .receiver 0 .run, .receiver 0 .run]])).any
      (fun σ : Sys Nat 1 => decide (received σ.trace 0 = [7])) = true := by
    decide +kernel
  obtain ⟨σ, hrun, hσ⟩ := Run.of_exec_any hex
  exact ⟨_, σ, of_decide_eq_true hσ, hrun, (mpsc_refines_broadcast hrun).2⟩

end

end EnsoChannel
