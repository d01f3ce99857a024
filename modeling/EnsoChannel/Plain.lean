import EnsoChannel.Alone
import EnsoChannel.Mpsc
import EnsoChannel.Wake

/-!
# The default build

`async-receiver` is off by default. Without the feature the gates have no wakers, the blocks with
`notify()` in `commit`, `commit_range` and `close` (`pub_mul.rs`) are gone, and `recv_async` and
`recv_at_most_async` do not exist. The runs of `System.lean` are those of the build with the
feature; here is the build without it, of `fanout` (`plainStep`) and of `mpsc` (`mpscPlainStep`).

A history of the default build has no wakes, so a state of one build cannot be computed from a state
of the other: where the wakes were is forgotten. The two are related by what is left when they are
taken out (`unwoken`).

* `plain_same_histories`: under every discipline that does not look at the wakes, each state the
  default build reaches is one that the build with the feature reaches, by a run without polls, up
  to the wakes in the history; and each run without polls of the build with the feature is a run of
  the default build, where a `notify()` takes no time. So what is proved of histories, memory and
  calls holds of the default build, and so do the runs that go wrong.
* `plain_refines_broadcast`: the default build of either channel refines the broadcast log.
-/

namespace EnsoChannel

open Lib

variable {T : Type} {N : Nat}

/-! ## The code without `notify` -/

/-- The code of a sender call: its steps. -/
abbrev SenderSteps (T : Type) (N : Nat) :=
  Nat → Mem T N → SenderPc T → SenderAct T → Option (Option (Event T N) × SenderPc T)

/-- What an operation does after its `notify()`: it returns. -/
def notifyEnd (k : Nat) : SenderPc T → Option (Option (Event T N) × SenderPc T)
  | .notifying _ => some (none, .committed)
  | .closing (.notify _) caller => some (some (.closeEnd k), caller.resume)
  | _ => none

/-- The code in the default build: where `notify()` stood, the operation returns. -/
def unnotified (base : SenderSteps T N) : SenderSteps T N := fun k m pc act =>
  match act, notifyEnd k pc with
  | .run, some out => some out
  | act, _ => base k m pc act

/-- One step of a channel whose sender calls take the steps `base`. -/
def stepOver (ring : RingBufferMeta) (base : SenderSteps T N) (σ : Sys T N) :
    Label T N → Option (Sys T N)
  | .sender k act =>
    if k < σ.nextSend then
      match base k σ.mem (σ.sends k) act with
      | none => none
      | some (e, pc) => some { σ.perform ring e with sends := Function.update σ.sends k pc }
    else none
  | l => step ring σ l

/-- One step of its default build. -/
def plainOver (ring : RingBufferMeta) (base : SenderSteps T N) (σ : Sys T N) :
    Label T N → Option (Sys T N)
  | .recv _ _ true => none
  | l => stepOver ring (unnotified base) σ l

/-- **One step of the `fanout` channel in the default build.** -/
def plainStep (ring : RingBufferMeta) : Sys T N → Label T N → Option (Sys T N) :=
  plainOver ring (senderStep ring)

/-- **One step of the `mpsc` channel in the default build.** -/
def mpscPlainStep (ring : RingBufferMeta) : Sys T 1 → Label T 1 → Option (Sys T 1) :=
  plainOver ring (mpscSenderStep ring)

/-- The receivers are not polled. -/
def NoPoll (l : Label T N) : Prop := ∀ i limit, l ≠ .recv i limit true

/-! ## Taking the wakes out -/

def Event.isWake : Event T N → Bool
  | .wake _ _ => true
  | _ => false

/-- A history without its wakes. -/
def unwoken (h : History T N) : History T N := h.filter fun e => !e.isWake

/-- The call is in a `notify()`. -/
def SenderPc.inNotify : SenderPc T → Bool
  | .notifying _ | .closing (.notify _) _ => true
  | _ => false

/-- The wakes a `notify()` has before it. -/
def SenderPc.wakesLeft (N : Nat) : SenderPc T → Nat
  | .notifying i | .closing (.notify i) _ => N - i
  | _ => 0

/-- A `notify()` that has woken nobody. -/
def SenderPc.hush : SenderPc T → SenderPc T
  | .notifying _ => .notifying 0
  | .closing (.notify _) caller => .closing (.notify 0) caller
  | pc => pc

/-- The state with its sender calls seen through `f` and the history `t`. -/
def Sys.masked (f : SenderPc T → SenderPc T) (t : History T N) (σ : Sys T N) : Sys T N :=
  { σ with sends := f ∘ σ.sends, trace := t }

/-- The state of the default build. -/
def Sys.hushed (σ : Sys T N) : Sys T N := σ.masked SenderPc.hush (unwoken σ.trace)

/-- The discipline does not look at the wakes, and lets a `notify()` run. -/
structure WakeBlind (ok : Sys T N → Label T N → Prop) : Prop where
  notify : ∀ σ k, (σ.sends k).inNotify = true → ok σ (.sender k .run)
  woken : ∀ {σ l} t, unwoken t = σ.trace → ok σ l → ok { σ with trace := t } l
  hushed : ∀ {σ l}, ok σ l → ok σ.hushed l

/-- No poll has been made. -/
structure Unpolled (σ : Sys T N) : Prop where
  wakers : σ.mem.wakers = fun _ => none
  recvs : ∀ r, (σ.recvs r).sync

/-- A state of the default build, and the state of the build with the feature that has heard wakes
besides. -/
def Heard (σ τ : Sys T N) : Prop :=
  highest σ.trace + 1 < 2 ^ 62 ∧ Unpolled σ ∧ ∃ t, τ = σ.masked id t ∧ unwoken t = σ.trace

/-- A step in a `notify()` wakes somebody and goes on. -/
structure Passes (N : Nat) (e : Option (Event T N)) (pc pc' : SenderPc T) : Prop where
  wake : ∃ i o, e = some (.wake i o)
  inNotify : pc'.inNotify = true
  hush : pc'.hush = pc.hush
  fewer : pc'.wakesLeft N < pc.wakesLeft N

/-- A step in a `notify()` ends it, with its last wake at most. -/
def Finishes (k : Nat) (e : Option (Event T N)) (pc pc' : SenderPc T) : Prop :=
  ∃ x, notifyEnd k pc = some (x, pc') ∧ (e = x ∨ x = none ∧ ∃ i o, e = some (.wake i o))

/-- What the code of the two channels has in common: a `notify()` wakes and ends, whatever the user
wants, and elsewhere nobody is woken. -/
structure Notifies (base : SenderSteps T N) : Prop where
  elsewhere : ∀ {k m pc act e pc'}, pc.inNotify = false → base k m pc act = some (e, pc') →
    (∀ x ∈ e, x.sendSide = true ∧ x.isWake = false) ∧ pc'.hush = pc'
  only_run : ∀ {k m pc act out}, pc.inNotify = true → base k m pc act = some out → act = .run
  run : ∀ {k m pc}, pc.inNotify = true → ∃ e pc', base k m pc .run = some (e, pc') ∧
    (Passes N e pc pc' ∨ Finishes k e pc pc')

section

variable {ring : RingBufferMeta} {initial : Nat → T} {σ σ' : Sys T N} {l : Label T N} {k : Nat}
  {m : Mem T N} {pc pc' : SenderPc T} {act : SenderAct T} {e : Option (Event T N)}
  {h t : History T N} {base : SenderSteps T N} {ok : Sys T N → Label T N → Prop}

/-! ## Histories without wakes -/

theorem unwoken_record (he : ∀ x ∈ e, x.isWake = false) :
    unwoken (record e h) = record e (unwoken h) := by
  cases e with
  | none => rfl
  | some x => exact List.filter_cons_of_pos (by rw [he x rfl]; rfl)

theorem unwoken_wake (he : ∃ i o, e = some (.wake i o)) : unwoken (record e h) = unwoken h := by
  obtain ⟨i, o, rfl⟩ := he
  rfl

theorem highest_unwoken (h : History T N) : highest (unwoken h) = highest h := by
  induction h with
  | nil => rfl
  | cons e h ih =>
    cases e with
    | claim k a b => exact congrArg (max b) ih
    | _ => exact ih

theorem isWake_eq_false {x : Event T N} (hx : x.sendSide = false) : x.isWake = false := by
  cases x with
  | wake => exact absurd hx (by simp [Event.sendSide])
  | _ => rfl

/-! ## Calls in a `notify()` -/

theorem hush_eq (hpc : pc.inNotify = false) : pc.hush = pc := by
  cases pc with
  | notifying => exact absurd hpc (by simp [SenderPc.inNotify])
  | closing pos caller =>
    cases pos with
    | notify => exact absurd hpc (by simp [SenderPc.inNotify])
    | _ => rfl
  | _ => rfl

theorem hush_finished (hpc : pc.finished = true) : pc.hush.finished = true := by
  cases pc <;> first | exact hpc | exact absurd hpc (by simp [SenderPc.finished])

theorem notifyEnd_hush : (notifyEnd k pc.hush : Option (Option (Event T N) × SenderPc T)) =
    notifyEnd k pc := by
  cases pc with
  | closing pos caller => cases pos <;> rfl
  | _ => rfl

theorem notifyEnd_eq_none (hpc : pc.inNotify = false) :
    (notifyEnd k pc : Option (Option (Event T N) × SenderPc T)) = none := by
  cases pc with
  | notifying => exact absurd hpc (by simp [SenderPc.inNotify])
  | closing pos caller =>
    cases pos with
    | notify => exact absurd hpc (by simp [SenderPc.inNotify])
    | _ => rfl
  | _ => rfl

theorem exists_notifyEnd (k : Nat) (hpc : pc.inNotify = true) :
    ∃ out : Option (Event T N) × SenderPc T, notifyEnd k pc = some out := by
  cases pc with
  | notifying => exact ⟨_, rfl⟩
  | closing pos caller =>
    cases pos with
    | notify => exact ⟨_, rfl⟩
    | _ => exact absurd hpc (by simp [SenderPc.inNotify])
  | _ => exact absurd hpc (by simp [SenderPc.inNotify])

/-- What the end of a `notify()` records, and where it leads. -/
theorem notifyEnd_out (hend : notifyEnd k pc = some (e, pc')) :
    (∀ x ∈ e, x.sendSide = true ∧ x.isWake = false) ∧ pc'.hush = pc' := by
  cases pc with
  | notifying =>
    cases hend
    exact ⟨by simp, rfl⟩
  | closing pos caller =>
    cases pos with
    | notify =>
      cases hend
      refine ⟨?_, by cases caller <;> rfl⟩
      rintro x hx
      cases hx
      exact ⟨rfl, rfl⟩
    | _ => cases hend
  | _ => cases hend

theorem unnotified_run {out : Option (Event T N) × SenderPc T} (hend : notifyEnd k pc = some out) :
    unnotified base k m pc .run = some out := by
  unfold unnotified
  rw [hend]

theorem unnotified_eq (hpc : pc.inNotify = false) :
    unnotified base k m pc act = base k m pc act := by
  unfold unnotified
  rw [notifyEnd_eq_none hpc]
  cases act <;> rfl

/-! ## The two channels -/

theorem stepOver_fanout : stepOver ring (senderStep ring) = step (T := T) (N := N) ring := by
  funext σ l
  cases l <;> rfl

theorem stepOver_mpsc : stepOver ring (mpscSenderStep ring) = mpscStep (T := T) ring := by
  funext σ l
  cases l with
  | sender k act =>
    simp only [stepOver, mpscStep]
    rcases mpscSenderStep ring k σ.mem (σ.sends k) act with _ | ⟨e, pc⟩ <;> rfl
  | _ => rfl

/-- Outside of its `notify()`, a call wakes nobody. -/
theorem SenderMoves.elsewhere (hm : SenderMoves ring k m pc act e pc') (hpc : pc.inNotify = false) :
    (∀ x ∈ e, x.sendSide = true ∧ x.isWake = false) ∧ pc'.hush = pc' := by
  refine ⟨?_, ?_⟩
  · rintro x hx
    cases hx
    refine ⟨hm.sendSide, ?_⟩
    cases hm <;> first | rfl | exact absurd hpc (by simp [SenderPc.inNotify])
  · cases hm with
    | load | retry => exact claimLoop_cases (P := fun pc => pc.hush = pc) rfl fun _ => rfl
    | gateEnd => exact claimBody_cases (P := fun pc => pc.hush = pc) (fun _ => rfl) fun _ => rfl
    | claim => exact granted_cases (P := fun pc => pc.hush = pc) (fun _ => rfl) rfl rfl
    | wake | closeWake => exact absurd hpc (by simp [SenderPc.inNotify])
    | closeEnd => exact absurd hpc (by simp [SenderPc.inNotify])
    | _ => rfl

variable (ring) in
theorem notifies_fanout : Notifies (senderStep (T := T) (N := N) ring) where
  elsewhere hpc hst := (senderMoves_of_step hst).elsewhere hpc
  only_run := by
    intro k m pc act out hpc hst
    cases act with
    | run => rfl
    | _ =>
      cases pc with
      | notifying | closing => exact absurd hst (by simp [senderStep])
      | _ => exact absurd hpc (by simp [SenderPc.inNotify])
  run := by
    intro k m pc hpc
    cases pc with
    | notifying i =>
      by_cases hi : i < N
      · refine ⟨some (.wake ⟨i, hi⟩ (m.wakers ⟨i, hi⟩)), .notifying (i + 1),
          by rw [senderStep, dif_pos hi], Or.inl ⟨⟨_, _, rfl⟩, rfl, rfl, ?_⟩⟩
        show N - (i + 1) < N - i
        omega
      · exact ⟨_, _, by rw [senderStep, dif_neg hi], Or.inr ⟨none, rfl, Or.inl rfl⟩⟩
    | closing pos caller =>
      cases pos with
      | notify i =>
        by_cases hi : i < N
        · refine ⟨some (.wake ⟨i, hi⟩ (m.wakers ⟨i, hi⟩)), .closing (.notify (i + 1)) caller,
            by rw [senderStep, closeStep, dif_pos hi], Or.inl ⟨⟨_, _, rfl⟩, rfl, rfl, ?_⟩⟩
          show N - (i + 1) < N - i
          omega
        · exact ⟨_, _, by rw [senderStep, closeStep, dif_neg hi], Or.inr ⟨_, rfl, Or.inl rfl⟩⟩
      | _ => exact absurd hpc (by simp [SenderPc.inNotify])
    | _ => exact absurd hpc (by simp [SenderPc.inNotify])

variable (ring) in
theorem notifies_mpsc : Notifies (mpscSenderStep (T := T) ring) where
  elsewhere := by
    intro k m pc act e pc' hpc hst
    by_cases hgating : pc.gating = true
    · obtain rfl := mpscSenderStep_gating hgating hst
      cases pc with
      | maxConsumed c last i x =>
        cases hst
        exact ⟨by simp, claimBody_cases (P := fun pc => pc.hush = pc) (fun _ => rfl) fun _ => rfl⟩
      | notifying => exact absurd hpc (by simp [SenderPc.inNotify])
      | _ => exact absurd hgating (by simp [SenderPc.gating])
    · rw [mpscSenderStep_eq (Bool.eq_false_iff.mpr hgating)] at hst
      exact (notifies_fanout ring).elsewhere hpc hst
  only_run := by
    intro k m pc act out hpc hst
    by_cases hgating : pc.gating = true
    · obtain ⟨e, pc'⟩ := out
      exact mpscSenderStep_gating hgating hst
    · rw [mpscSenderStep_eq (Bool.eq_false_iff.mpr hgating)] at hst
      exact (notifies_fanout ring).only_run hpc hst
  run := by
    intro k m pc hpc
    by_cases hgating : pc.gating = true
    · cases pc with
      | notifying i => exact ⟨_, _, rfl, Or.inr ⟨none, rfl, Or.inr ⟨rfl, _, _, rfl⟩⟩⟩
      | maxConsumed => exact absurd hpc (by simp [SenderPc.inNotify])
      | _ => exact absurd hgating (by simp [SenderPc.gating])
    · rw [mpscSenderStep_eq (Bool.eq_false_iff.mpr hgating)]
      exact (notifies_fanout ring).run hpc

/-! ## The steps of a sender call -/

variable (ring) in
theorem stepOver_sender (hk : k < σ.nextSend) (hst : base k σ.mem (σ.sends k) act = some (e, pc)) :
    stepOver ring base σ (.sender k act) =
      some (σ.withSend k (σ.mem.effect ring e) (record e σ.trace) pc) := by
  simp only [stepOver, if_pos hk, hst]
  cases e <;> rfl

theorem exists_stepOver_sender (hst : stepOver ring base σ (.sender k act) = some σ') :
    k < σ.nextSend ∧ ∃ e pc, base k σ.mem (σ.sends k) act = some (e, pc) ∧
      σ' = σ.withSend k (σ.mem.effect ring e) (record e σ.trace) pc := by
  by_cases hk : k < σ.nextSend
  · cases hb : base k σ.mem (σ.sends k) act with
    | none => simp [stepOver, hb] at hst
    | some out =>
      have hto := stepOver_sender ring hk hb
      exact ⟨hk, out.1, out.2, rfl, Option.some.inj (hst.symm.trans hto)⟩
  · simp [stepOver, if_neg hk] at hst

/-- A step with a label that is not a sender call's. -/
theorem stepOver_other (hl : l.ofSender = false) : stepOver ring base σ l = step ring σ l := by
  cases l with
  | sender => exact absurd hl (by simp [Label.ofSender])
  | _ => rfl

theorem plainOver_other (hl : l.ofSender = false) (hp : NoPoll l) :
    plainOver ring base σ l = step ring σ l := by
  cases l with
  | sender => exact absurd hl (by simp [Label.ofSender])
  | recv i limit async =>
    cases async with
    | true => exact absurd rfl (hp i limit)
    | false => rfl
  | _ => rfl

theorem noPoll_of_plainOver (hst : plainOver ring base σ l = some σ') : NoPoll l := by
  rintro i limit rfl
  cases hst

/-! ## Without polls there are no wakers -/

theorem wakers_effect (he : ∀ x ∈ e, x.sendSide = true) (hw : m.wakers = fun _ => none) :
    (m.effect ring e).wakers = fun _ => none := by
  cases e with
  | none => exact hw
  | some x =>
    have hx := he x rfl
    cases x with
    | wake i o =>
      show Function.update m.wakers i none = _
      rw [hw]
      exact Function.update_eq_self i _
    | release | dropReceiver | register | ret => exact absurd hx (by simp [Event.sendSide])
    | _ => exact hw

/-- A wake finds nobody. -/
theorem effect_wake (he : ∃ i o, e = some (.wake i o)) (hw : m.wakers = fun _ => none) :
    m.effect ring e = m := by
  obtain ⟨i, o, rfl⟩ := he
  show { m with wakers := Function.update m.wakers i none } = m
  rw [hw, Function.update_eq_self]
  cases m
  cases hw
  rfl

theorem unpolled_sender (hu : Unpolled σ) (he : ∀ x ∈ e, x.sendSide = true) :
    Unpolled (σ.withSend k (σ.mem.effect ring e) t pc) :=
  ⟨wakers_effect he hu.wakers, hu.recvs⟩

theorem unpolled_other (hu : Unpolled σ) (hm : Moves ring σ l σ') (hl : l.ofSender = false)
    (hp : NoPoll l) : Unpolled σ' := by
  cases hm with
  | sender => exact absurd hl (by simp [Label.ofSender])
  | @recv i limit async =>
    refine ⟨hu.wakers, fun r => ?_⟩
    show (Function.update σ.recvs σ.nextRecv (recvStart limit async) r).sync
    by_cases hr : r = σ.nextRecv
    · rw [hr, Function.update_self, recvStart]
      cases async with
      | true => exact absurd rfl (hp i limit)
      | false =>
        split
        · trivial
        · exact rfl
    · rw [Function.update_of_ne hr]
      exact hu.recvs r
  | @receiver r act e pc hr hst =>
    have hrm := recvMoves_of_step hst
    refine ⟨?_, fun r' => ?_⟩
    · cases e with
      | none => exact hu.wakers
      | some x => exact (hrm.apply_sync (hu.recvs r)).1.trans hu.wakers
    · show (Function.update σ.recvs r pc r').sync
      by_cases hr' : r' = r
      · rw [hr', Function.update_self]
        exact hrm.sync (hu.recvs r)
      · rw [Function.update_of_ne hr']
        exact hu.recvs r'
  | _ => exact ⟨hu.wakers, hu.recvs⟩

/-! ## The other steps -/

/-- **No step reads the history, or where the sender calls of others stand**, but for their end. -/
theorem step_masked {f : SenderPc T → SenderPc T}
    (hfin : ∀ pc, pc.finished = true → (f pc).finished = true)
    (hstart : ∀ c : SendCall T, f c.start = c.start)
    (hclose : f (.closing .load .lastSender) = .closing .load .lastSender)
    (hm : Moves ring σ l σ') (hl : l.ofSender = false) :
    ∃ e, (∀ x ∈ e, x.isWake = false) ∧ σ'.trace = record e σ.trace ∧
      ∀ t, step ring (σ.masked f t) l = some (σ'.masked f (record e t)) := by
  have hidle : ∀ {h t}, σ.SenderIdle h → (σ.masked f t).SenderIdle h :=
    fun hi k hk hh => hfin _ (hi k hk hh)
  cases hm with
  | sender => exact absurd hl (by simp [Label.ofSender])
  | clone hlive =>
    refine ⟨none, by simp, rfl, fun t => ?_⟩
    rw [step, if_pos (show (σ.masked f t).senders _ = true from hlive)]
    rfl
  | @dropSender h hlive hi hother =>
    refine ⟨none, by simp, rfl, fun t => ?_⟩
    rw [step, if_pos ⟨hlive, hidle hi⟩, if_neg (show ¬ (σ.masked f t).LastSender h from hother)]
    rfl
  | @dropLast h hlive hi hlast =>
    refine ⟨none, by simp, rfl, fun t => ?_⟩
    rw [step, if_pos ⟨hlive, hidle hi⟩, if_pos (show (σ.masked f t).LastSender h from hlast)]
    unfold Sys.masked
    dsimp only
    rw [Function.comp_update, hclose]
    rfl
  | @send h c hlive =>
    refine ⟨none, by simp, rfl, fun t => ?_⟩
    rw [step, if_pos (show (σ.masked f t).senders _ = true from hlive)]
    unfold Sys.masked
    dsimp only
    rw [Function.comp_update, hstart]
    rfl
  | recv hlive =>
    refine ⟨none, by simp, rfl, fun t => ?_⟩
    rw [step, if_pos (show (σ.masked f t).receivers _ = true from hlive)]
    rfl
  | @receiver r act e pc hr hst =>
    refine ⟨e, ?_, perform_trace ring σ e, fun t => ?_⟩
    · rintro x hx
      cases hx
      exact isWake_eq_false (recvMoves_of_step hst).sendSide
    · have hst' : recvStep ring r ((σ.masked f t).recvReceiver r) (σ.masked f t).mem
          ((σ.masked f t).recvs r) act = some (e, pc) := hst
      simp only [step, if_pos (show r < (σ.masked f t).nextRecv from hr), hst']
      cases e <;> rfl
  | @dropReceiver i hlive hi =>
    refine ⟨some (.dropReceiver i), ?_, rfl, fun t => ?_⟩
    · rintro x hx
      cases hx
      rfl
    · rw [step, if_pos (show (σ.masked f t).receivers i = true ∧ (σ.masked f t).ReceiverIdle i from
        ⟨hlive, hi⟩)]
      rfl

/-! ## From the default build to the build with the feature -/

/-- A step is in range that leads to a history of the range. -/
theorem inRangeOf_step {full : Sys T N → Label T N → Option (Sys T N)}
    (hlimit : ∀ h n, l = .send h (.trySendAtMost n) → (n : Int) ≤ i64Max)
    (hst : full σ l = some σ') (hb : highest σ'.trace + 1 < 2 ^ 62) : InRangeOf full σ l := by
  refine ⟨hlimit, fun σ'' hst' => ?_⟩
  rw [← Option.some.inj (hst.symm.trans hst')]
  exact hb

theorem highest_record (he : ∀ k a b, e ≠ some (.claim k a b)) :
    highest (record e h) = highest h := by
  cases e with
  | none => rfl
  | some x => exact highest_cons_of_ne fun k a b hx => he k a b (by rw [hx])

/-- The end of a `notify()` claims nothing. -/
theorem notifyEnd_ne_claim (hend : notifyEnd k pc = some (e, pc')) (k' : Nat) (a b : Int) :
    e ≠ some (.claim k' a b) := by
  rintro rfl
  cases pc with
  | closing pos caller => cases pos <;> cases hend
  | _ => cases hend

variable (ring) in
/-- A step of a `notify()`. -/
theorem run_notify (hok : WakeBlind ok) (hk : k < σ.nextSend) (hpc : (σ.sends k).inNotify = true)
    (hst : base k σ.mem (σ.sends k) .run = some (e, pc)) (he : ∀ k a b, e ≠ some (.claim k a b))
    (hb : highest σ.trace + 1 < 2 ^ 62) :
    Run (stepOver ring base) (fun σ l => InRangeOf (stepOver ring base) σ l ∧ NoPoll l ∧ ok σ l) σ
      [.sender k .run] (σ.withSend k (σ.mem.effect ring e) (record e σ.trace) pc) := by
  have hfull := stepOver_sender ring hk hst
  refine Run.single ⟨inRangeOf_step (fun h n heq => by cases heq) hfull ?_, ?_,
    hok.notify σ k hpc⟩ hfull
  · show highest (record e σ.trace) + 1 < 2 ^ 62
    rw [highest_record he]
    exact hb
  · rintro i limit heq
    cases heq

variable (ring) in
/-- **A `notify()` comes to its end**, having changed nothing but the history. -/
theorem finish_notify (hn : Notifies base) (hok : WakeBlind ok) (hk : k < σ.nextSend)
    (hpc : (σ.sends k).inNotify = true) (hend : notifyEnd k (σ.sends k) = some (e, pc))
    (hw : σ.mem.wakers = fun _ => none) (hb : highest σ.trace + 1 < 2 ^ 62) :
    ∃ ls t, Run (stepOver ring base)
        (fun σ l => InRangeOf (stepOver ring base) σ l ∧ NoPoll l ∧ ok σ l) σ ls
        (σ.withSend k (σ.mem.effect ring e) t pc) ∧ unwoken t = record e (unwoken σ.trace) := by
  induction hleft : (σ.sends k).wakesLeft N using Nat.strong_induction_on generalizing σ with
  | _ n ih =>
    have hwake : ∀ {x : Option (Event T N)}, (∃ i o, x = some (.wake i o)) →
        ∀ k a b, x ≠ some (.claim k a b) := by
      rintro x ⟨i, o, rfl⟩
      simp
    obtain ⟨x, q, hst, hpass | ⟨e', hend', hx⟩⟩ := hn.run (m := σ.mem) hpc
    · -- somebody is woken, and there is more to do
      have hfirst := run_notify ring hok hk hpc hst (hwake hpass.wake) hb
      rw [effect_wake hpass.wake hw] at hfirst
      generalize hτ : σ.withSend k σ.mem (record x σ.trace) q = τ at hfirst
      have hq : τ.sends k = q := by rw [← hτ, withSend_sends]
      have htrace : τ.trace = record x σ.trace := by rw [← hτ]; rfl
      have hmem : τ.mem = σ.mem := by rw [← hτ]; rfl
      obtain ⟨ls, t, hrun, ht⟩ := ih _ (by rw [hq, ← hleft]; exact hpass.fewer)
        (by rw [← hτ]; exact hk) (by rw [hq]; exact hpass.inNotify)
        (by rw [hq, ← notifyEnd_hush, hpass.hush, notifyEnd_hush, hend]) (by rw [hmem, hw])
        (by rw [htrace, highest_record (hwake hpass.wake)]; exact hb) rfl
      have hsame : τ.withSend k (τ.mem.effect ring e) t pc =
          σ.withSend k (σ.mem.effect ring e) t pc := by
        rw [hmem, ← hτ]
        unfold Sys.withSend
        dsimp only
        rw [Function.update_idem]
      rw [hsame] at hrun
      refine ⟨_, t, hfirst.trans hrun, ?_⟩
      rw [ht, htrace, unwoken_wake hpass.wake]
    · -- the last step
      rw [hend] at hend'
      cases hend'
      rcases hx with rfl | ⟨rfl, hx⟩
      · exact ⟨_, _, run_notify ring hok hk hpc hst (notifyEnd_ne_claim hend) hb,
          unwoken_record fun y hy => ((notifyEnd_out hend).1 y hy).2⟩
      · have hlast := run_notify ring hok hk hpc hst (hwake hx) hb
        rw [effect_wake hx hw] at hlast
        exact ⟨_, _, hlast, unwoken_wake hx⟩

/-- **A step of the default build** is some steps of the build with the feature. -/
theorem plain_matches (hn : Notifies base) (hok : WakeBlind ok) (hu : Unpolled σ)
    (ht : unwoken t = σ.trace) (hb : highest σ.trace + 1 < 2 ^ 62)
    (hl : InRangeOf (plainOver ring base) σ l ∧ ok σ l)
    (hst : plainOver ring base σ l = some σ') :
    ∃ ls t', Run (stepOver ring base)
        (fun σ l => InRangeOf (stepOver ring base) σ l ∧ NoPoll l ∧ ok σ l) (σ.masked id t) ls
        (σ'.masked id t') ∧ unwoken t' = σ'.trace ∧ Unpolled σ' := by
  have hpoll := noPoll_of_plainOver hst
  have hbound := hl.1.2 σ' hst
  have hone : ∀ {t'}, stepOver ring base (σ.masked id t) l = some (σ'.masked id t') →
      unwoken t' = σ'.trace → Run (stepOver ring base)
        (fun σ l => InRangeOf (stepOver ring base) σ l ∧ NoPoll l ∧ ok σ l) (σ.masked id t) [l]
        (σ'.masked id t') := by
    intro t' hfull ht'
    refine Run.single ⟨inRangeOf_step hl.1.1 hfull ?_, hpoll, hok.woken t ht hl.2⟩ hfull
    rw [← ht', highest_unwoken] at hbound
    exact hbound
  by_cases hsender : l.ofSender = true
  · cases l with
    | sender k act =>
      obtain ⟨hk, e, pc, hcode, rfl⟩ := exists_stepOver_sender hst
      by_cases hpc : (σ.sends k).inNotify = true
      · by_cases hrun : act = .run
        · subst hrun
          obtain ⟨out, hend⟩ := exists_notifyEnd (T := T) (N := N) k hpc
          obtain rfl := Option.some.inj ((unnotified_run hend).symm.trans hcode)
          have hquiet := (notifyEnd_out hend).1
          obtain ⟨ls, t', hrun, ht'⟩ := finish_notify (σ := σ.masked id t) ring hn hok hk
            hpc hend hu.wakers (by
              show highest t + 1 < 2 ^ 62
              rw [← highest_unwoken, ht]
              exact hb)
          refine ⟨ls, t', hrun, ?_, unpolled_sender hu fun x hx => (hquiet x hx).1⟩
          rw [ht']
          show record e (unwoken t) = record e σ.trace
          rw [ht]
        · have hbase : unnotified base k σ.mem (σ.sends k) act = base k σ.mem (σ.sends k) act := by
            unfold unnotified
            cases act <;> first | rfl | exact absurd rfl hrun
          exact absurd (hn.only_run hpc (hbase ▸ hcode)) hrun
      · have hpc := Bool.eq_false_iff.mpr hpc
        rw [unnotified_eq hpc] at hcode
        have hquiet := (hn.elsewhere hpc hcode).1
        have ht' : unwoken (record e t) = record e σ.trace := by
          rw [unwoken_record fun x hx => (hquiet x hx).2, ht]
        exact ⟨_, record e t, hone (stepOver_sender (σ := σ.masked id t) ring hk hcode) ht', ht',
          unpolled_sender hu fun x hx => (hquiet x hx).1⟩
    | _ => exact absurd hsender (by simp [Label.ofSender])
  · have hother := Bool.eq_false_iff.mpr hsender
    rw [plainOver_other hother hpoll] at hst
    have hm := moves_of_step hst
    obtain ⟨e, he, htrace, hmasked⟩ := step_masked (f := id) (fun _ h => h) (fun _ => rfl) rfl hm
      hother
    have ht' : unwoken (record e t) = σ'.trace := by rw [unwoken_record he, ht, htrace]
    refine ⟨_, record e t, hone ?_ ht', ht', unpolled_other hu hm hother hpoll⟩
    rw [stepOver_other hother]
    exact hmasked t

/-! ## From the build with the feature to the default build -/

/-- The default build sees a sender call and its history through `hush`. -/
theorem hushed_withSend : (σ.withSend k m h pc).hushed =
    σ.hushed.withSend k m (unwoken h) pc.hush := by
  unfold Sys.hushed Sys.masked Sys.withSend
  dsimp only
  rw [Function.comp_update]

/-- **A step of the build with the feature**, if it is no poll, is a step of the default build, or a
wake. -/
theorem full_matches (hn : Notifies base) (hok : WakeBlind ok) (hu : Unpolled σ)
    (hl : InRangeOf (stepOver ring base) σ l ∧ NoPoll l ∧ ok σ l)
    (hst : stepOver ring base σ l = some σ') :
    (∃ ls, Run (plainOver ring base) (fun σ l => InRangeOf (plainOver ring base) σ l ∧ ok σ l)
      σ.hushed ls σ'.hushed) ∧ Unpolled σ' := by
  have hbound := hl.1.2 σ' hst
  have hone : plainOver ring base σ.hushed l = some σ'.hushed →
      ∃ ls, Run (plainOver ring base) (fun σ l => InRangeOf (plainOver ring base) σ l ∧ ok σ l)
        σ.hushed ls σ'.hushed := by
    intro hplain
    refine ⟨_, Run.single ⟨inRangeOf_step hl.1.1 hplain ?_, hok.hushed hl.2.2⟩ hplain⟩
    show highest (unwoken σ'.trace) + 1 < 2 ^ 62
    rw [highest_unwoken]
    exact hbound
  by_cases hsender : l.ofSender = true
  · cases l with
    | sender k act =>
      obtain ⟨hk, e, pc, hcode, rfl⟩ := exists_stepOver_sender hst
      have hself : σ.hushed.sends k = (σ.sends k).hush := rfl
      by_cases hpc : (σ.sends k).inNotify = true
      · obtain rfl := hn.only_run hpc hcode
        obtain ⟨x, q, hcode', hcase⟩ := hn.run (k := k) (m := σ.mem) hpc
        rw [hcode] at hcode'
        cases hcode'
        rcases hcase with hpass | ⟨e', hend, hx⟩
        · -- a wake that is not the last step: nothing happens
          refine ⟨⟨[], ?_⟩, unpolled_sender hu ?_⟩
          · rw [hushed_withSend, effect_wake hpass.wake hu.wakers, unwoken_wake hpass.wake,
              hpass.hush, ← hself]
            exact (withSend_self (σ := σ.hushed) rfl).symm ▸ Run.nil
          · obtain ⟨i, o, rfl⟩ := hpass.wake
            rintro x hx
            cases hx
            rfl
        · have hquiet := notifyEnd_out hend
          have hplain : unnotified base k σ.hushed.mem (σ.hushed.sends k) .run = some (e', pc) :=
            unnotified_run (by rw [hself, notifyEnd_hush, hend])
          have hsame : σ.mem.effect ring e = σ.mem.effect ring e' ∧
              unwoken (record e σ.trace) = record e' (unwoken σ.trace) := by
            rcases hx with rfl | ⟨rfl, hx⟩
            · exact ⟨rfl, unwoken_record fun y hy => (hquiet.1 y hy).2⟩
            · exact ⟨effect_wake hx hu.wakers, unwoken_wake hx⟩
          refine ⟨hone ?_, ?_⟩
          · rw [hushed_withSend, hsame.1, hsame.2, hquiet.2]
            exact stepOver_sender ring hk hplain
          · rw [hsame.1]
            exact unpolled_sender hu fun y hy => (hquiet.1 y hy).1
      · have hpc := Bool.eq_false_iff.mpr hpc
        have hquiet := hn.elsewhere hpc hcode
        have hplain : unnotified base k σ.hushed.mem (σ.hushed.sends k) act = some (e, pc) := by
          rw [hself, hush_eq hpc, unnotified_eq hpc]
          exact hcode
        refine ⟨hone ?_, unpolled_sender hu fun y hy => (hquiet.1 y hy).1⟩
        rw [hushed_withSend, hquiet.2, unwoken_record fun y hy => (hquiet.1 y hy).2]
        exact stepOver_sender ring hk hplain
    | _ => exact absurd hsender (by simp [Label.ofSender])
  · have hother := Bool.eq_false_iff.mpr hsender
    rw [stepOver_other hother] at hst
    have hm := moves_of_step hst
    obtain ⟨e, he, htrace, hmasked⟩ := step_masked (f := SenderPc.hush) (fun _ => hush_finished)
      (fun c => start_cases (P := fun pc => pc.hush = pc) rfl rfl) rfl hm hother
    refine ⟨hone ?_, unpolled_other hu hm hother hl.2.1⟩
    rw [plainOver_other hother hl.2.1]
    have hto := hmasked (unwoken σ.trace)
    rw [← unwoken_record he, ← htrace] at hto
    exact hto

/-! ## The same histories -/

theorem unpolled_init (initial : Nat → T) (i₀ : Fin N) : Unpolled (Sys.init initial i₀) :=
  ⟨rfl, fun _ => trivial⟩

/-- The channel with the steps `plain` is the channel with the steps `full`, but for the wakes. -/
def SameHistories (plain full : Sys T N → Label T N → Option (Sys T N))
    (ok : Sys T N → Label T N → Prop) (σ₀ : Sys T N) : Prop :=
  (∀ ls σ, Run plain (fun σ l => InRangeOf plain σ l ∧ ok σ l) σ₀ ls σ →
    ∃ ls' t, Run full (fun σ l => InRangeOf full σ l ∧ NoPoll l ∧ ok σ l) σ₀ ls'
      { σ with trace := t } ∧ unwoken t = σ.trace) ∧
  ∀ ls τ, Run full (fun σ l => InRangeOf full σ l ∧ NoPoll l ∧ ok σ l) σ₀ ls τ →
    ∃ ls', Run plain (fun σ l => InRangeOf plain σ l ∧ ok σ l) σ₀ ls' τ.hushed

variable (ring initial) in
theorem sameHistories (hn : Notifies base) (hok : WakeBlind ok) (i₀ : Fin N) :
    SameHistories (plainOver ring base) (stepOver ring base) ok (Sys.init initial i₀) := by
  refine ⟨fun ls σ hrun => ?_, fun ls τ hrun => ?_⟩
  · have hstart : Heard (Sys.init initial i₀) (Sys.init initial i₀) :=
      ⟨(inv_init ring initial i₀).sound.bound, unpolled_init initial i₀, [], rfl, rfl⟩
    have hsim : ∃ ls' τ, Run (stepOver ring base)
        (fun σ l => InRangeOf (stepOver ring base) σ l ∧ NoPoll l ∧ ok σ l)
        (Sys.init initial i₀) ls' τ ∧ Heard σ τ := by
      refine hrun.simulate ?_ hstart
      rintro σ l σ' τ ⟨hb, hu, t, rfl, ht⟩ hl hst
      obtain ⟨ls, t', hrun', ht', hu'⟩ := plain_matches hn hok hu ht hb hl hst
      exact ⟨ls, _, hrun', hl.1.2 σ' hst, hu', t', rfl, ht'⟩
    obtain ⟨ls', τ, hrun', -, -, t, rfl, ht⟩ := hsim
    exact ⟨ls', t, hrun', ht⟩
  · have hsim : ∃ ls' σ, Run (plainOver ring base)
        (fun σ l => InRangeOf (plainOver ring base) σ l ∧ ok σ l) (Sys.init initial i₀) ls' σ ∧
        (Unpolled τ ∧ σ = τ.hushed) := by
      refine hrun.simulate (R := fun τ σ => Unpolled τ ∧ σ = τ.hushed) ?_
        ⟨unpolled_init initial i₀, rfl⟩
      rintro τ l τ' σ ⟨hu, rfl⟩ hl hst
      obtain ⟨⟨ls, hrun'⟩, hu'⟩ := full_matches hn hok hu hl hst
      exact ⟨ls, _, hrun', hu', rfl⟩
    obtain ⟨ls', σ, hrun', -, rfl⟩ := hsim
    exact ⟨ls', hrun'⟩

variable (ring initial) in
/-- **The default build has the histories of the build with the feature**, in both channels. -/
theorem plain_same_histories (i₀ : Fin N) {ok₁ : Sys T 1 → Label T 1 → Prop}
    (hok : WakeBlind ok) (hok₁ : WakeBlind ok₁) :
    SameHistories (plainStep ring) (step ring) ok (Sys.init initial i₀) ∧
      SameHistories (mpscPlainStep ring) (mpscStep ring) ok₁ (Sys.init initial 0) := by
  have hfanout := sameHistories ring initial (notifies_fanout ring) hok i₀
  have hmpsc := sameHistories ring initial (notifies_mpsc ring) hok₁ 0
  rw [stepOver_fanout] at hfanout
  rw [stepOver_mpsc] at hmpsc
  exact ⟨hfanout, hmpsc⟩

theorem wakeBlind_tidy : WakeBlind fun (σ : Sys T N) l => OneGuard σ l ∧ NoLeak l where
  notify σ k _ := ⟨fun i limit async h => absurd h (by simp), fun k h => absurd h (by simp),
    fun r h => absurd h (by simp)⟩
  woken t _ hok := hok
  hushed hok := hok

/-- An item is sent and received in the default build of `mpsc`; with the feature, the receiver's
waker is notified besides. -/
theorem plain_same_histories_one :
    ∃ (ls ls' : List (Label Nat 1)) (σ : Sys Nat 1) (t : History Nat 1),
      received σ.trace 0 = [7] ∧
        Run (mpscPlainStep ⟨1, by decide⟩) (TidyOf (mpscPlainStep ⟨1, by decide⟩))
          (Sys.init (fun _ => 0) 0) ls σ ∧
        Run (mpscStep ⟨1, by decide⟩) (TidyOf (mpscStep ⟨1, by decide⟩)) (Sys.init (fun _ => 0) 0)
          ls' { σ with trace := t } ∧ unwoken t = σ.trace := by
  have hex : (exec (mpscPlainStep ⟨1, by decide⟩) (TidyOf (mpscPlainStep ⟨1, by decide⟩))
      (Sys.init (fun _ => 0) 0) (List.flatten [[.send 0 (.trySend 7)],
        List.replicate 7 (.sender 0 .run), [.recv 0 1 false, .receiver 0 .run,
          .receiver 0 .run]])).any
      (fun σ : Sys Nat 1 => decide (received σ.trace 0 = [7])) = true := by
    decide +kernel
  obtain ⟨σ, hrun, hσ⟩ := Run.of_exec_any hex
  have hsame := plain_same_histories ⟨1, by decide⟩ (fun _ => 0) (0 : Fin 1) wakeBlind_tidy
    wakeBlind_tidy
  obtain ⟨ls', t, hfull, ht⟩ := hsame.2.1 _ σ hrun
  exact ⟨_, ls', σ, t, of_decide_eq_true hσ, hrun, hfull.mono fun hok => ⟨hok.1, hok.2.2⟩, ht⟩

/-! ## The default build and the broadcast log -/

theorem stored_unwoken (h : History T N) (s : Int) : stored (unwoken h) s = stored h s := by
  induction h with
  | nil => rfl
  | cons e h ih =>
    cases e with
    | store k t v =>
      show (if t = s then some v else stored (unwoken h) s) = if t = s then some v else stored h s
      rw [ih]
    | _ => exact ih

theorem published_unwoken (h : History T N) (s : Int) :
    Published (unwoken h) s ↔ Published h s := by
  refine exists_congr fun k => ?_
  unfold unwoken
  rw [List.mem_filter]
  exact and_iff_left rfl

theorem delivered_unwoken (h : History T N) (i : Fin N) :
    delivered (unwoken h) i = delivered h i := by
  induction h with
  | nil => rfl
  | cons e h ih =>
    cases e with
    | ret r j res =>
      cases res with
      | items a b =>
        show (if j = i then delivered (unwoken h) i ++ seqs a b else delivered (unwoken h) i) =
          if j = i then delivered h i ++ seqs a b else delivered h i
        rw [ih]
      | _ => exact ih
    | _ => exact ih

theorem received_unwoken (h : History T N) (i : Fin N) : received (unwoken h) i = received h i := by
  unfold received
  rw [delivered_unwoken, funext (stored_unwoken h)]

theorem entries_unwoken (h : History T N) : entries (unwoken h) = entries h := by
  have hentry : entry (unwoken h) = entry h := by
    funext s
    unfold entry
    rw [stored_unwoken, if_congr (published_unwoken h s) rfl rfl]
  unfold entries
  rw [highest_unwoken, hentry]

/-- The log does not see the wakes. -/
theorem broadcast_unwoken (ht : unwoken t = σ.trace) :
    ({ σ with trace := t } : Sys T N).broadcast = σ.broadcast := by
  ext1
  · show entries t = entries σ.trace
    rw [← ht, entries_unwoken]
  · rfl
  · show received t = received σ.trace
    funext i
    rw [← ht, received_unwoken]
  · rfl

/-- The state stands for a state of the broadcast log, and each receiver was given the beginning of
its entries. -/
def Logged (ring : RingBufferMeta) (σ : Sys T N) : Prop :=
  (∃ acts, Run Broadcast.step (Broadcast.Allowed ring.bufferSize.toNat) Broadcast.init acts
    σ.broadcast) ∧ ∀ i, (received σ.trace i).map some <+: entries σ.trace

theorem logged_unwoken (ht : unwoken t = σ.trace) (hlog : Logged ring { σ with trace := t }) :
    Logged ring σ := by
  obtain ⟨⟨acts, habs⟩, -⟩ := hlog
  rw [broadcast_unwoken ht] at habs
  exact ⟨⟨acts, habs⟩, (Broadcast.valid_init.of_run habs).given⟩

/-- **The default build of either channel refines the broadcast log**: in every run in range with
one guard at a time and no leaks. -/
theorem plain_refines_broadcast {i₀ : Fin N} :
    (∀ ls σ, Run (plainStep ring) (TidyOf (plainStep ring)) (Sys.init initial i₀) ls σ →
      Logged ring σ) ∧
      ∀ ls σ, Run (mpscPlainStep ring) (TidyOf (mpscPlainStep ring)) (Sys.init initial 0) ls σ →
        Logged ring σ := by
  refine ⟨fun ls σ hrun => ?_, fun ls σ hrun => ?_⟩
  · have hsame := sameHistories ring initial (notifies_fanout ring) wakeBlind_tidy i₀
    rw [stepOver_fanout] at hsame
    obtain ⟨ls', t, hfull, ht⟩ := hsame.1 ls σ hrun
    have htidy : Run (step ring) (Tidy ring) (Sys.init initial i₀) ls' { σ with trace := t } :=
      hfull.mono fun hok => ⟨hok.1, hok.2.2⟩
    have habs := (simulates_broadcast ring initial).run htidy (delivering_init ring initial i₀)
    exact logged_unwoken ht ⟨⟨_, habs⟩, (Broadcast.valid_init.of_run habs).given⟩
  · have hsame := sameHistories ring initial (notifies_mpsc ring) wakeBlind_tidy 0
    rw [stepOver_mpsc] at hsame
    obtain ⟨ls', t, hfull, ht⟩ := hsame.1 ls σ hrun
    have htidy : Run (mpscStep ring) (MpscTidy ring) (Sys.init initial 0) ls'
        { σ with trace := t } := hfull.mono fun hok => ⟨hok.1, hok.2.2⟩
    have hsim := (mpsc_simulates ring initial senderBlind_tidy).trans
      (simulates_broadcast ring initial)
    have habs := hsim.run htidy ⟨atGate_init initial 0, delivering_init ring initial 0⟩
    exact logged_unwoken ht ⟨⟨_, habs⟩, (Broadcast.valid_init.of_run habs).given⟩

/-- An item is sent to two receivers of a `fanout` channel in the default build; one takes it. -/
theorem plain_refines_broadcast_two :
    ∃ (ls : List (Label Nat 2)) (σ : Sys Nat 2), received σ.trace 0 = [7] ∧
      received σ.trace 1 = [] ∧ Run (plainStep ⟨1, by decide⟩) (TidyOf (plainStep ⟨1, by decide⟩))
        (Sys.init (fun _ => 0) 0) ls σ ∧ Logged ⟨1, by decide⟩ σ := by
  have hex : (exec (plainStep ⟨1, by decide⟩) (TidyOf (plainStep ⟨1, by decide⟩))
      (Sys.init (fun _ => 0) 0) (List.flatten [[.send 0 (.trySend 7)],
        List.replicate 9 (.sender 0 .run), [.recv 0 1 false, .receiver 0 .run,
          .receiver 0 .run]])).any
      (fun σ : Sys Nat 2 => decide (received σ.trace 0 = [7] ∧ received σ.trace 1 = [])) =
        true := by
    decide +kernel
  obtain ⟨σ, hrun, hσ⟩ := Run.of_exec_any hex
  obtain ⟨h₀, h₁⟩ := of_decide_eq_true hσ
  exact ⟨_, σ, h₀, h₁, hrun, plain_refines_broadcast.1 _ σ hrun⟩

end

end EnsoChannel
