import EnsoChannel.Refinement
import EnsoChannel.Unwinding
import EnsoChannel.Wake

/-!
# A channel at rest is a bounded queue

Between operations nothing of the ring shows. When no sender call is under way and no permit is
live (`Sys.AtRest`), the channel is the list of all items ever sent (`Sys.items`) with a place in it
for every receiver, and each operation does what it does on such a list.

* `Whole`: the invariant of the orderly runs, those with one guard at a time, without leaks, and in
  which user code panics only in closures of `update_in_place`. In them no call gives up what it
  claimed, so at rest everything claimed is published (`Whole.published`).
* `at_rest_queue`: a receive call gives the first items that its receiver has not read; `try_send`
  appends its item, or says that the slowest receiver has the whole capacity still to read, or that
  no receiver is left. Nothing is ever full and empty at once.
* `disconnected_complete`: a receiver that was told `Disconnected` was given every item ever sent.
* `at_rest_awake`: no task sleeps while there is something for it to read, or when the senders are
  gone.
-/

namespace EnsoChannel

open Lib

variable {T : Type} {N : Nat}

/-! ## Orderly runs -/

/-- The call stands where a closure of `update_in_place` runs. -/
def SenderPc.inClosure : SenderPc T → Bool
  | .permit _ | .batchPermit _ _ => true
  | _ => false

/-- User code panics only in closures of `update_in_place`. -/
def ClosurePanics (σ : Sys T N) (l : Label T N) : Prop :=
  ∀ k act, l = .sender k act → act.isPanic = true → (σ.sends k).inClosure = true

instance (σ : Sys T N) (l : Label T N) : Decidable (ClosurePanics σ l) :=
  match l with
  | .sender k act =>
    decidable_of_iff (act.isPanic = true → (σ.sends k).inClosure = true)
      ⟨fun h _ _ heq => by cases heq; exact h, fun h => h k act rfl⟩
  | .clone _ | .dropSender _ | .send _ _ | .recv _ _ _ | .receiver _ _ | .dropReceiver _ =>
    isTrue fun _ _ h => by cases h

/-- The discipline of the orderly runs. -/
def Orderly (ring : RingBufferMeta) (σ : Sys T N) (l : Label T N) : Prop :=
  Tidy ring σ l ∧ ClosurePanics σ l

instance (ring : RingBufferMeta) (σ : Sys T N) (l : Label T N) : Decidable (Orderly ring σ l) :=
  inferInstanceAs (Decidable (_ ∧ _))

/-- No sender call is under way and no permit is live. -/
def Sys.AtRest (σ : Sys T N) : Prop := ∀ k < σ.nextSend, (σ.sends k).finished = true

instance (σ : Sys T N) : Decidable σ.AtRest :=
  inferInstanceAs (Decidable (∀ k < σ.nextSend, _))

/-- The values of the claimed sequences: at rest, all items that were ever sent. -/
def Sys.items (σ : Sys T N) : List T := (seqs 0 (highest σ.trace)).filterMap (stored σ.trace)

/-- The items receiver `i` has not released. -/
def Sys.unread (σ : Sys T N) (i : Fin N) : List T := σ.items.drop (σ.mem.consumed i + 1).toNat

/-- The invariant of the orderly runs. -/
structure Whole (ring : RingBufferMeta) (initial : Nat → T) (σ : Sys T N) : Prop where
  delivering : Delivering ring initial σ
  draining : Draining ring initial σ
  calm : Calm σ
  accounted : ∀ k, Accounted σ.trace k (σ.sends k)
  /-- No call has given up its sequences. -/
  kept : ∀ k, (σ.sends k).lost = false
  /-- The last sender handle does not go without a tear-down. -/
  handled : (∃ h, σ.senders h = true) ∨ ∃ k, (σ.sends k).teardown = true

section

variable {ring : RingBufferMeta} {initial : Nat → T} {recycle : T → T} {σ σ' : Sys T N}
  {l : Label T N} {k r : Nat} {h : History T N} {m : Mem T N} {i : Fin N} {s : Int}
  {pc pc' : SenderPc T} {act : SenderAct T} {e : Option (Event T N)} {limit : Nat} {async : Bool}

/-- A call gives its sequences up when it is leaked, or a recycler or a write of it panics. -/
theorem SenderMoves.kept (hm : SenderMoves ring k m pc act e pc') (hleak : act ≠ .leak)
    (hpanic : act.isPanic = true → pc.inClosure = true) (hpc : pc.lost = false) :
    pc'.lost = false := by
  cases hm with
  | load | retry => exact claimLoop_cases (P := fun pc => pc.lost = false) rfl fun _ => rfl
  | gateEnd => exact claimBody_cases (P := fun pc => pc.lost = false) (fun _ => rfl) fun _ => rfl
  | claim => exact granted_cases (P := fun pc => pc.lost = false) (fun _ => rfl) rfl rfl
  | writePanics | recyclePanics | recyclePanicsTwice | drainPanics =>
    exact absurd (hpanic rfl) (by simp [SenderPc.inClosure])
  | permitLeak | permitsLeak => exact absurd rfl hleak
  | closeUnclaimed | closeLoad | closeScan | closeFound | closeScanEnd | closeMark | closeStore
  | closeWake => cases ‹CloseCaller› <;> exact hpc
  | closeEnd => cases ‹CloseCaller› <;> first | rfl | exact absurd hpc (by simp [SenderPc.lost])
  | _ => rfl

theorem noRecyclerPanic_of_closurePanics (hok : ClosurePanics σ l) : NoRecyclerPanic σ l := by
  intro k act hl hpanic
  have hin := hok k act hl hpanic
  cases hpc : σ.sends k with
  | permit | batchPermit => rfl
  | _ =>
    rw [hpc] at hin
    exact absurd hin (by simp [SenderPc.inClosure])

/-- The last sender handle does not go without a tear-down. -/
theorem handled_step (hi : Inv ring initial σ)
    (hh : (∃ h, σ.senders h = true) ∨ ∃ k, (σ.sends k).teardown = true)
    (hm : Moves ring σ l σ') :
    (∃ h, σ'.senders h = true) ∨ ∃ k, (σ'.sends k).teardown = true := by
  rcases hh with ⟨h, hlive⟩ | ⟨k, ht⟩
  · cases hm with
    | clone =>
      refine Or.inl ⟨h, ?_⟩
      show Function.update σ.senders σ.nextSender true h = true
      by_cases heq : h = σ.nextSender
      · rw [heq, Function.update_self]
      · rwa [Function.update_of_ne heq]
    | dropSender _ _ hother =>
      -- another handle is live
      unfold Sys.LastSender at hother
      push Not at hother
      obtain ⟨h', -, hne, hlive'⟩ := hother
      refine Or.inl ⟨h', ?_⟩
      show Function.update σ.senders _ false h' = true
      rw [Function.update_of_ne hne]
      exact Bool.eq_true_of_not_eq_false hlive'
    | dropLast =>
      refine Or.inr ⟨σ.nextSend, ?_⟩
      show (Function.update σ.sends σ.nextSend _ σ.nextSend).teardown = true
      rw [Function.update_self]
      rfl
    | sender | receiver =>
      refine Or.inl ⟨h, ?_⟩
      show (σ.perform ring _).senders h = true
      rwa [perform_senders]
    | _ => exact Or.inl ⟨h, hlive⟩
  · exact Or.inr ⟨k, hm.teardown (hi.fresh.lt_of_teardown ht) ht⟩

theorem whole_init (ring : RingBufferMeta) (initial : Nat → T) (i₀ : Fin N) :
    Whole ring initial (Sys.init initial i₀) where
  delivering := delivering_init ring initial i₀
  draining := draining_init ring initial i₀
  calm := calm_init initial i₀
  accounted _ _ ho := absurd ho (by simp [Sys.init, owner])
  kept _ := rfl
  handled := Or.inl ⟨0, rfl⟩

theorem whole_step (hw : Whole ring initial σ) (hok : Orderly ring σ l)
    (hst : step ring σ l = some σ') : Whole ring initial σ' := by
  have hm := moves_of_step hst
  have hi := hw.delivering.served.guarded.inv
  refine ⟨delivering_step hw.delivering hok.1 hst,
    draining_step hw.draining hok.1.1 hok.1.2.1 (hw.calm.closeSees hi hm) hst,
    calm_step hi hw.calm (noRecyclerPanic_of_closurePanics hok.2) hm,
    accounted_step hi hw.accounted hm, ?_, handled_step hi hw.handled hm⟩
  refine hm.forall_sends (J := fun k pc => σ.sends k = pc ∧ pc.lost = false)
    (K := fun _ pc => pc.lost = false) (fun k => ⟨rfl, hw.kept k⟩) ?_ (fun _ _ _ _ _ _ => rfl) ?_
    fun _ _ hk => hk.2
  · exact fun h c _ => start_cases (P := fun pc => pc.lost = false) rfl rfl
  · rintro k act e pc rfl _ hsm ⟨-, hk⟩ _ _
    refine hsm.kept ?_ (hok.2 k act rfl) hk
    rintro rfl
    exact hok.1.2.2.1 k rfl

theorem Whole.of_run {ok : Sys T N → Label T N → Prop} {ls : List (Label T N)}
    (hok : ∀ {σ l}, ok σ l → Orderly ring σ l) (hw : Whole ring initial σ)
    (hrun : Run (step ring) ok σ ls σ') : Whole ring initial σ' :=
  hrun.invariant (fun hw h hst => whole_step hw (hok h) hst) hw

/-! ## Everything is published -/

/-- A finished call holds no sequence back. -/
theorem Whole.published_of_finished (hw : Whole ring initial σ) (ho : owner σ.trace s = some k)
    (hfin : k < σ.nextSend → (σ.sends k).finished = true) : Published σ.trace s := by
  have hkept := hw.kept k
  by_cases hk : k < σ.nextSend
  · refine ((hw.accounted k).of_finished (hfin hk) ho).resolve_right ?_
    rintro (hpc | hpc) <;> rw [hpc] at hkept <;> exact absurd hkept (by simp [SenderPc.lost])
  · have hidle := hw.accounted k s ho
    rw [hw.delivering.served.guarded.inv.fresh.send k (not_lt.mp hk)] at hidle
    exact hidle.resolve_right (by simp [SenderPc.holds, SenderPc.lost])

/-- **At rest everything claimed is published.** -/
theorem Whole.published (hw : Whole ring initial σ) (hrest : σ.AtRest) (h₀ : 0 ≤ s)
    (h₁ : s ≤ highest σ.trace) : Published σ.trace s := by
  obtain ⟨k, ho⟩ := exists_owner hw.delivering.served.guarded.inv.sound.legal h₀ h₁
  exact hw.published_of_finished ho fun hk => hrest k hk

/-- So it is from the drop of the last sender on. -/
theorem Whole.published_of_teardown (hw : Whole ring initial σ)
    (ht : (σ.sends k).teardown = true) (h₀ : 0 ≤ s) (h₁ : s ≤ highest σ.trace) :
    Published σ.trace s := by
  have hi := hw.delivering.served.guarded.inv
  have hlt := hi.fresh.lt_of_teardown ht
  obtain ⟨k', ho⟩ := exists_owner hi.sound.legal h₀ h₁
  by_cases hkk : k' = k
  · -- the tear-down claims nothing
    subst hkk
    have hp := hw.accounted k' s ho
    rcases SenderPc.teardown_cases ht with ⟨pos, hpc⟩ | hpc <;> rw [hpc] at hp <;>
      exact hp.resolve_right (by simp [SenderPc.holds, SenderPc.lost])
  · exact hw.published_of_finished ho fun hk' => hi.borrow.finished_of_teardown hlt ht hk' hkk

/-- At rest `n` sequences are readable from a receiver's place on, to the highest claim. -/
theorem Whole.readable (hw : Whole ring initial σ) (hrest : σ.AtRest) {n : Nat}
    (hlive : σ.receivers i = true) (hn : (n : Int) = highest σ.trace - σ.mem.consumed i) :
    σ.Readable i n := by
  have hi := hw.delivering.served.guarded.inv
  have hneg := neg_one_le_position (i := i) hi.sound.legal
  have hcons := hi.sound.consumed_eq (hi.not_dropped hlive)
  refine ⟨fun s h₀ h₁ => hw.published hrest (by omega) (by omega), fun hp => ?_⟩
  have hrange := (hp.range hi.sound.legal).2
  omega

/-! ## The list of items -/

/-- At rest the items are the values of the claimed sequences, one for each. -/
theorem Whole.items_map (hw : Whole ring initial σ) (hrest : σ.AtRest) :
    σ.items.map some = (seqs 0 (highest σ.trace)).map (stored σ.trace) :=
  filterMap_stored fun _ hs => hw.delivering.filled.published _
    (hw.published hrest (mem_seqs.mp hs).1 (mem_seqs.mp hs).2)

theorem Whole.length_items (hw : Whole ring initial σ) (hrest : σ.AtRest) :
    (σ.items.length : Int) = highest σ.trace + 1 := by
  have hlen := congrArg List.length (hw.items_map hrest)
  rw [List.length_map, List.length_map, length_seqs] at hlen
  have hneg := neg_one_le_highest σ.trace
  omega

/-- The unread items of a live receiver are those beyond its cursor. -/
theorem Whole.length_unread (hw : Whole ring initial σ) (hrest : σ.AtRest)
    (hlive : σ.receivers i = true) :
    ((σ.unread i).length : Int) = highest σ.trace - σ.mem.consumed i := by
  have hi := hw.delivering.served.guarded.inv
  have hneg := neg_one_le_position (i := i) hi.sound.legal
  have hhigh := position_le_highest (i := i) hi.sound.legal
  have hcons := hi.sound.consumed_eq (hi.not_dropped hlive)
  have hlen := hw.length_items hrest
  unfold Sys.unread
  rw [List.length_drop]
  omega

/-- The first of the unread items are the values of the next sequences. -/
theorem Whole.unread_take (hw : Whole ring initial σ) (hrest : σ.AtRest)
    (hlive : σ.receivers i = true) {n : Nat} (hn : n ≤ (σ.unread i).length) :
    ((σ.unread i).take n).map some =
      (seqs (σ.mem.consumed i + 1) (σ.mem.consumed i + n)).map (stored σ.trace) := by
  have hi := hw.delivering.served.guarded.inv
  have hneg := neg_one_le_position (i := i) hi.sound.legal
  have hcons := hi.sound.consumed_eq (hi.not_dropped hlive)
  have hlen := hw.length_unread hrest hlive
  have hsplit := seqs_append (a := 0) (b := σ.mem.consumed i) (d := highest σ.trace) (by omega)
    (by omega)
  have hsplit' := seqs_append (a := σ.mem.consumed i + 1) (b := σ.mem.consumed i + n)
    (d := highest σ.trace) (by omega) (by omega)
  unfold Sys.unread
  rw [List.map_take, List.map_drop, hw.items_map hrest, ← hsplit, List.map_append,
    List.drop_left' (by rw [List.length_map, length_seqs]; omega), ← hsplit', List.map_append,
    List.take_left' (by rw [List.length_map, length_seqs]; omega)]

/-- A slot of a receiver's window contains the value of its sequence. -/
theorem Delivering.slots_window (hd : Delivering ring initial σ) (hlive : σ.receivers i = true)
    (hp : Published σ.trace s) (h₀ : σ.mem.consumed i < s) :
    stored σ.trace s = some (σ.mem.slots (ring.indexOfSeq s)) := by
  have hg := hd.served.guarded
  have hdrop := hg.inv.not_dropped hlive
  have hcons := hg.inv.sound.consumed_eq hdrop
  have hlag := hg.lag.lag i hdrop
  obtain ⟨v, hv⟩ := hd.filled.published s hp
  rw [hv, hg.inv.sound.mem, slots_replay hg.inv.sound.legal (by omega) hv]

/-- **What a guard iterates at rest**: the first unread items. -/
theorem Whole.readBatch_unread (hw : Whole ring initial σ) (hrest : σ.AtRest)
    (hlive : σ.receivers i = true) {n : Nat} (hn : n ≤ (σ.unread i).length) :
    readBatch ring σ.mem.slots (σ.mem.consumed i + 1) (σ.mem.consumed i + n) =
      (σ.unread i).take n := by
  have hi := hw.delivering.served.guarded.inv
  have hneg := neg_one_le_position (i := i) hi.sound.legal
  have hcons := hi.sound.consumed_eq (hi.not_dropped hlive)
  have hlen := hw.length_unread hrest hlive
  have hinj : Function.Injective (List.map (some : T → Option T)) :=
    List.map_injective_iff.mpr fun _ _ => Option.some.inj
  apply hinj
  have hread := readBatch_eq ring σ.mem.slots (σ.mem.consumed i + 1) n
  rw [add_sub_cancel_right] at hread
  rw [hw.unread_take hrest hlive hn, hread, List.map_map]
  unfold seqs
  rw [show (σ.mem.consumed i + n + 1 - (σ.mem.consumed i + 1)).toNat = n by omega, List.map_map]
  refine List.map_congr_left fun j hj => ?_
  have hj := List.mem_range.mp hj
  refine (hw.delivering.slots_window hlive (hw.published hrest ?_ ?_) ?_).symm
  all_goals omega

/-! ## The receivers -/

/-- While a sender handle is live nothing is closed. -/
theorem Whole.ongoing (hw : Whole ring initial σ) {h : Nat} (hlive : σ.senders h = true) :
    Ongoing σ := by
  have hi := hw.delivering.served.guarded.inv
  refine hw.calm.ongoing fun k => ?_
  rw [Bool.eq_false_iff]
  intro ht
  have hnot := hi.borrow.not_teardown hlive (hi.fresh.lt_of_teardown ht)
  rw [ht] at hnot
  exact absurd hnot (by simp)

/-- **At rest the next slot of a receiver that has read everything carries the shutdown bit iff no
sender is left.** -/
theorem Whole.shutdown_iff (hw : Whole ring initial σ) (hrest : σ.AtRest)
    (hall : σ.mem.consumed i = highest σ.trace) :
    shutdownOf (σ.mem.states (ring.indexOfSeq (σ.mem.consumed i + 1))) = true ↔
      ∀ h, σ.senders h = false := by
  have hi := hw.delivering.served.guarded.inv
  have hneg := neg_one_le_highest σ.trace
  rw [hi.sound.mem, shutdownOf_replay, ← hi.sound.mem, hall]
  constructor
  · intro hmark h
    rw [Bool.eq_false_iff]
    exact fun hlive => not_marked (hw.ongoing hlive).events hmark
  · intro hnone
    obtain ⟨k, ht⟩ := hw.handled.resolve_left fun ⟨h, hlive⟩ => by
      rw [hnone h] at hlive
      exact absurd hlive (by simp)
    have htorn := hw.draining.torn k
    have hfin := hrest k (hi.fresh.lt_of_teardown ht)
    rcases SenderPc.teardown_cases ht with ⟨pos, hpc⟩ | hpc
    · rw [hpc] at hfin
      exact absurd hfin (by simp [SenderPc.finished])
    · rw [hpc] at htorn
      obtain ⟨f, hb⟩ := htorn
      have hf := frontier_le_highest hi.sound.legal hb.frontier
      have hge : highest σ.trace + 1 ≤ f :=
        hb.frontier.le_of_below fun s h₀ h₁ => hw.published hrest h₀ (by omega)
      rw [show highest σ.trace + 1 = f by omega]
      exact hb.marked

/-- **A receive call at rest.** -/
theorem Whole.receives (hw : Whole ring initial σ) (hrest : σ.AtRest)
    (hlive : σ.receivers i = true) (h₀ : 1 ≤ limit) (h₁ : (limit : Int) ≤ i64Max) :
    ∃ σ', Sys.Receives ring i limit async σ σ' ∧
      (σ.unread i ≠ [] → ∃ b, σ'.recvs σ.nextRecv = .guard (σ.mem.consumed i + 1) b ∧
        readBatch ring σ.mem.slots (σ.mem.consumed i + 1) b =
          (σ.unread i).take (min limit ring.bufferSize.toNat)) ∧
      (σ.unread i = [] → (∃ h, σ.senders h = true) →
        σ'.recvs σ.nextRecv = if async then .pending else .empty) ∧
      (σ.unread i = [] → (∀ h, σ.senders h = false) → σ'.recvs σ.nextRecv = .disconnected) := by
  have hc := ring.bufferSize_pos
  have hlen := hw.length_unread hrest hlive
  have hread := hw.readable hrest hlive hlen
  obtain ⟨σ', hrecv, hpc⟩ :=
    receives_answer async hw.delivering.served hlive hread h₀ h₁
  unfold recvAnswer at hpc
  refine ⟨σ', hrecv, fun hsome => ?_, fun hnone ⟨h, hsender⟩ => ?_, fun hnone hsenders => ?_⟩
  · have hpos : 1 ≤ (σ.unread i).length := List.length_pos_iff.mpr hsome
    rw [if_pos hpos] at hpc
    refine ⟨_, hpc, ?_⟩
    have hmin : min (min (limit : Int) ring.bufferSize) (σ.unread i).length =
        ((min (min limit ring.bufferSize.toNat) (σ.unread i).length : Nat) : Int) := by
      omega
    rw [hmin, hw.readBatch_unread hrest hlive (by omega), List.take_eq_take_iff]
    omega
  · have hzero : (σ.unread i).length = 0 := by rw [hnone]; rfl
    have hbit : shutdownOf (σ.mem.states (ring.indexOfSeq (σ.mem.consumed i + 1))) ≠ true := by
      rw [Ne, hw.shutdown_iff hrest (by omega)]
      intro hall
      rw [hall h] at hsender
      exact absurd hsender (by simp)
    rw [if_neg (by omega), if_neg hbit] at hpc
    rw [hpc]
    cases async <;> rfl
  · have hzero : (σ.unread i).length = 0 := by rw [hnone]; rfl
    rw [if_neg (by omega), if_pos ((hw.shutdown_iff hrest (by omega)).mpr hsenders)] at hpc
    exact hpc

/-! ## The senders -/

/-- Wake-ups change neither the claims nor the values. -/
theorem wakes_append {ws : History T N} (hws : ∀ e ∈ ws, ∃ j w, e = .wake j w) :
    highest (ws ++ h) = highest h ∧ stored (ws ++ h) = stored h := by
  induction ws with
  | nil => exact ⟨rfl, rfl⟩
  | cons e ws ih =>
    obtain ⟨hhigh, hstored⟩ := ih fun e' he' => hws e' (List.mem_cons_of_mem e he')
    obtain ⟨j, w, rfl⟩ := hws e List.mem_cons_self
    exact ⟨hhigh, hstored⟩

variable (ring recycle) in
/-- `notify` adds wake-ups to the trace. -/
theorem notify_wakes {t : History T N} (hk : k < σ.nextSend) {i : Nat} (hi : i ≤ N) :
    ∃ w ws, (∀ e ∈ ws, ∃ j w, e = .wake j w) ∧
      Sys.SenderSettles ring recycle k (σ.withSend k m t (.notifying i))
        (σ.withSend k { m with wakers := w } (ws ++ t) .committed) := by
  induction hi using Nat.decreasingInduction generalizing m t with
  | self =>
    refine ⟨m.wakers, [], by simp,
      settles_move hk (e := none) (q := .committed) ?_ (settles_rest rfl)⟩
    simp only [nextAct, senderStep, lt_irrefl, dite_false]
  | of_succ i hlt ih =>
    obtain ⟨w, ws, hws, hs⟩ := ih (m := m.apply ring (.wake ⟨i, hlt⟩ (m.wakers ⟨i, hlt⟩)))
      (t := .wake ⟨i, hlt⟩ (m.wakers ⟨i, hlt⟩) :: t)
    refine ⟨w, ws ++ [.wake ⟨i, hlt⟩ (m.wakers ⟨i, hlt⟩)], fun e he => ?_,
      settles_move hk (e := some (.wake ⟨i, hlt⟩ (m.wakers ⟨i, hlt⟩)))
        (q := .notifying (i + 1)) ?_ ?_⟩
    · rcases List.mem_append.mp he with he | he
      · exact hws e he
      · exact ⟨_, _, List.mem_singleton.mp he⟩
    · simp only [nextAct, senderStep, dif_pos hlt]
    · rw [List.append_assoc]
      exact hs

variable (recycle) in
/-- **`try_send` on a free sequence**, alone: it claims, stores, publishes and wakes. -/
theorem trySend_alone {hd : Nat} {v : T} (hlive : σ.senders hd = true)
    (hout : tryClaimAtMost ring σ.mem 1 = .ok (s, s)) :
    ∃ σ' ws, Sys.Sends ring recycle hd (.trySend v) σ σ' ∧ (∀ e ∈ ws, ∃ j w, e = .wake j w) ∧
      σ'.trace = ws ++ .publish σ.nextSend s :: .store σ.nextSend s v ::
        .claim σ.nextSend s s :: σ.trace ∧
      σ'.sends = Function.update σ.sends σ.nextSend .committed ∧
      σ'.nextSend = σ.nextSend + 1 ∧ σ'.mem.consumed = σ.mem.consumed := by
  have hk : σ.nextSend < (σ.called hd).nextSend := Nat.lt_succ_self _
  have hclaim : tryClaimAtMost ring σ.mem (SendCall.trySend v).limit = .ok (s, s) := hout
  -- up to the notification
  have hsends : ∀ {σ'}, Sys.SenderSettles ring recycle σ.nextSend
      ((σ.called hd).withSend σ.nextSend
        (({ σ.mem with claimed := s }.apply ring (.store σ.nextSend s v)).apply ring
          (.publish σ.nextSend s))
        (.publish σ.nextSend s :: .store σ.nextSend s v :: .claim σ.nextSend s s :: σ.trace)
        (.notifying 0)) σ' → Sys.Sends ring recycle hd (.trySend v) σ σ' := by
    intro σ' hs
    refine sends_claim hlive rfl ?_
    rw [hclaim]
    refine settles_move hk (e := some (.store σ.nextSend s v)) (q := .publishing s s s) rfl ?_
    refine settles_move hk (e := some (.publish σ.nextSend s)) (q := .publishing s (s + 1) s) ?_ ?_
    · simp only [nextAct, senderStep, if_pos (le_refl s)]
    refine settles_move hk (e := none) (q := .notifying 0) ?_ hs
    simp only [nextAct, senderStep, if_neg (not_le.mpr (lt_add_one s))]
  obtain ⟨w, ws, hws, hnotify⟩ := notify_wakes ring recycle hk (Nat.zero_le N)
  exact ⟨_, ws, hsends hnotify, hws, rfl, rfl, rfl, rfl⟩

variable (recycle) in
/-- A `try_send` that is refused leaves everything as it was. -/
theorem trySend_refused {hd : Nat} {v : T} {e : TryClaimError} (hlive : σ.senders hd = true)
    (hout : tryClaimAtMost ring σ.mem 1 = .error e) :
    ∃ σ', Sys.Sends ring recycle hd (.trySend v) σ σ' ∧ σ'.sends σ.nextSend = .refused e ∧
      σ'.mem = σ.mem ∧ σ'.trace = σ.trace := by
  have hclaim : tryClaimAtMost ring σ.mem (SendCall.trySend v).limit = .error e := hout
  refine ⟨(σ.called hd).withSend σ.nextSend σ.mem σ.trace (.refused e),
    sends_claim hlive rfl ?_, withSend_sends, rfl, rfl⟩
  rw [hclaim]
  exact settles_rest rfl

/-- An item that is sent is the last one. -/
theorem items_send {ws : History T N} {v : T} (hws : ∀ e ∈ ws, ∃ j w, e = .wake j w)
    (htrace : σ'.trace = ws ++ .publish k s :: .store k s v :: .claim k s s :: σ.trace)
    (hs : s = highest σ.trace + 1) : σ'.items = σ.items ++ [v] := by
  have hneg := neg_one_le_highest σ.trace
  obtain ⟨hhigh, hstored⟩ := wakes_append hws
    (h := .publish k s :: .store k s v :: .claim k s s :: σ.trace)
  have hmax : highest (Event.publish k s :: .store k s v :: .claim k s s :: σ.trace) = s :=
    max_eq_left (by omega)
  have hvalue : ∀ t, stored (Event.publish k s :: .store k s v :: .claim k s s :: σ.trace) t =
      if s = t then some v else stored σ.trace t := fun t => rfl
  unfold Sys.items
  rw [htrace, hhigh, hstored, hmax, ← seqs_append (a := 0) (b := highest σ.trace) (d := s)
    (by omega) (by omega), List.filterMap_append]
  congr 1
  · refine List.filterMap_congr fun t ht => ?_
    rw [hvalue, if_neg]
    have := (mem_seqs.mp ht).2
    omega
  · have hone : seqs (highest σ.trace + 1) s = [s] := by
      rw [← hs]
      simp [seqs]
    rw [hone, List.filterMap_cons, hvalue, if_pos rfl, List.filterMap_nil]

/-- While a sender handle is live `claimed` is the highest claim. -/
theorem Whole.claimed (hw : Whole ring initial σ) {hd : Nat} (hlive : σ.senders hd = true) :
    σ.mem.claimed = highest σ.trace ∧ hasShutdown σ.mem.claimed = false := by
  have hi := hw.delivering.served.guarded.inv
  have hclaimed : (replay ring initial σ.trace).claimed = highest σ.trace :=
    claimed_of_ongoing hi.sound.legal (hw.ongoing hlive).events
  rw [← hi.sound.mem] at hclaimed
  have hneg := neg_one_le_highest σ.trace
  refine ⟨hclaimed, ?_⟩
  rw [hclaimed, hasShutdown_eq_false]
  exact hneg

/-- **`try_send` at rest.** -/
theorem Whole.sends (hw : Whole ring initial σ) (hrest : σ.AtRest) {hd : Nat}
    (hlive : σ.senders hd = true) (v : T) :
    ∃ σ', Sys.Sends ring recycle hd (.trySend v) σ σ' ∧
      ((∀ i, σ.receivers i = false) →
        σ'.sends σ.nextSend = .refused .shutdown ∧ σ'.mem = σ.mem ∧ σ'.items = σ.items) ∧
      (∀ i, σ.receivers i = true → ((σ.unread i).length : Int) = ring.bufferSize →
        σ'.sends σ.nextSend = .refused .empty ∧ σ'.mem = σ.mem ∧ σ'.items = σ.items) ∧
      ((∃ i, σ.receivers i = true) →
        (∀ i, σ.receivers i = true → ((σ.unread i).length : Int) < ring.bufferSize) →
          σ'.sends σ.nextSend = .committed ∧ σ'.AtRest ∧ σ'.items = σ.items ++ [v] ∧
            σ'.mem.consumed = σ.mem.consumed) := by
  have hi := hw.delivering.served.guarded.inv
  have hc := ring.bufferSize_pos
  obtain ⟨hclaimed, hopen⟩ := hw.claimed hlive
  by_cases hnone : ∀ i, σ.receivers i = false
  · obtain ⟨σ', hsends, hpc, hmem, htrace⟩ := trySend_refused recycle (v := v) hlive
      (tryClaimAtMost_of_over hi.parked (Or.inr hnone) 1)
    refine ⟨σ', hsends, fun _ => ⟨hpc, hmem, by unfold Sys.items; rw [htrace]⟩,
      fun i hlivei => ?_, fun ⟨i, hlivei⟩ => ?_⟩
    all_goals
      rw [hnone i] at hlivei
      exact absurd hlivei (by simp)
  obtain ⟨j, hj⟩ := not_forall.mp hnone
  obtain ⟨x, hx⟩ := exists_slowest (Bool.not_eq_false _ ▸ hj)
  have hover : ¬ σ.Over := not_or.mpr ⟨by rw [hopen]; simp, hnone⟩
  obtain ⟨⟨i, hlivei, rfl⟩, hmin⟩ := id hx
  have hbound := hi.sound.bound
  have hxhigh := hi.slowest_le hx
  have hleni := hw.length_unread hrest hlivei
  have hout := tryClaimAtMost_of_open ring hi.parked hover hx
    (by unfold Sequence.shutdownOpen i64Max; omega) 1
  by_cases hfull : ring.bufferSize - (σ.mem.claimed - σ.mem.consumed i) ≤ 0
  · rw [if_pos hfull] at hout
    obtain ⟨σ', hsends, hpc, hmem, htrace⟩ :=
      trySend_refused recycle (v := v) hlive hout
    refine ⟨σ', hsends, fun hall => absurd hall hnone,
      fun _ _ _ => ⟨hpc, hmem, by unfold Sys.items; rw [htrace]⟩, fun _ hroom => ?_⟩
    have := hroom i hlivei
    omega
  · rw [if_neg hfull, show min (ring.bufferSize - (σ.mem.claimed - σ.mem.consumed i))
      (min 1 ring.bufferSize) = 1 by omega] at hout
    obtain ⟨σ', ws, hsends, hws, htrace, hpc, hnext, hcons⟩ :=
      trySend_alone recycle (v := v) hlive hout
    refine ⟨σ', hsends, fun hall => absurd hall hnone, fun i' hlivei' hlen => ?_, fun _ _ => ?_⟩
    · have hleni' := hw.length_unread hrest hlivei'
      have := hmin i' hlivei'
      omega
    · refine ⟨by rw [hpc, Function.update_self], fun k hk => ?_,
        items_send hws htrace (by rw [hclaimed]), hcons⟩
      rw [hpc]
      by_cases hkk : k = σ.nextSend
      · rw [hkk, Function.update_self]
        rfl
      · rw [Function.update_of_ne hkk]
        exact hrest k (by omega)

/-! ## The results -/

variable (recycle) in
/-- **At rest the channel is a bounded queue with a place for every receiver**, after every orderly
run. A receive call on a live receiver gives the first of its unread items, at most the limit and
the capacity; with none left it says `Empty` (a poll `Pending`) while a sender handle is live, and
`Disconnected` when none is. `try_send` is refused as `Disconnected` iff no receiver is live and as
`Full` iff a live receiver has the whole capacity unread, and then changes nothing; otherwise it
appends its item, and the channel is at rest again. -/
theorem at_rest_queue {i₀ : Fin N} {ls : List (Label T N)}
    (hrun : Run (step ring) (Orderly ring) (Sys.init initial i₀) ls σ) (hrest : σ.AtRest) :
    (∀ i (limit : Nat) async, σ.receivers i = true → 1 ≤ limit → (limit : Int) ≤ i64Max →
      ∃ σ', Sys.Receives ring i limit async σ σ' ∧
        (σ.unread i ≠ [] → ∃ b, σ'.recvs σ.nextRecv = .guard (σ.mem.consumed i + 1) b ∧
          readBatch ring σ.mem.slots (σ.mem.consumed i + 1) b =
            (σ.unread i).take (min limit ring.bufferSize.toNat)) ∧
        (σ.unread i = [] → (∃ h, σ.senders h = true) →
          σ'.recvs σ.nextRecv = if async then .pending else .empty) ∧
        (σ.unread i = [] → (∀ h, σ.senders h = false) → σ'.recvs σ.nextRecv = .disconnected)) ∧
      ∀ h v, σ.senders h = true → ∃ σ', Sys.Sends ring recycle h (.trySend v) σ σ' ∧
        ((∀ i, σ.receivers i = false) →
          σ'.sends σ.nextSend = .refused .shutdown ∧ σ'.mem = σ.mem ∧ σ'.items = σ.items) ∧
        (∀ i, σ.receivers i = true → ((σ.unread i).length : Int) = ring.bufferSize →
          σ'.sends σ.nextSend = .refused .empty ∧ σ'.mem = σ.mem ∧ σ'.items = σ.items) ∧
        ((∃ i, σ.receivers i = true) →
          (∀ i, σ.receivers i = true → ((σ.unread i).length : Int) < ring.bufferSize) →
            σ'.sends σ.nextSend = .committed ∧ σ'.AtRest ∧ σ'.items = σ.items ++ [v] ∧
              σ'.mem.consumed = σ.mem.consumed) := by
  have hw := (whole_init ring initial i₀).of_run id hrun
  exact ⟨fun i limit async hlive h₀ h₁ => hw.receives hrest hlive h₀ h₁,
    fun h v hlive => hw.sends hrest hlive v⟩

/-- On a ring of two slots an item is waiting: a call for three gets it, and there is room for one
more. -/
theorem at_rest_queue_one :
    ∃ (ls : List (Label Nat 1)) (σ : Sys Nat 1),
      Run (step ⟨1, by decide⟩) (Orderly ⟨1, by decide⟩) (Sys.init (fun _ => 0) 0) ls σ ∧
        σ.items = [7, 8] ∧ σ.unread 0 = [8] ∧
        (∃ σ' b, Sys.Receives ⟨1, by decide⟩ 0 3 false σ σ' ∧ σ'.recvs σ.nextRecv = .guard 1 b ∧
          readBatch ⟨1, by decide⟩ σ.mem.slots 1 b = [8]) ∧
        ∃ σ', Sys.Sends ⟨1, by decide⟩ id 0 (.trySend 9) σ σ' ∧ σ'.items = [7, 8, 9] := by
  have hex : (exec (step ⟨1, by decide⟩) (Orderly ⟨1, by decide⟩) (Sys.init (fun _ => 0) 0)
      (List.flatten [[.send 0 (.trySend 7)], List.replicate 9 (.sender 0 .run),
        [.send 0 .tryReserve], List.replicate 4 (.sender 1 .run), [.sender 1 (.panics 5),
          .sender 1 (.recycled 8)], List.replicate 4 (.sender 1 .run), [.recv 0 1 false],
        List.replicate 2 (.receiver 0 .run), [.receiver 0 .release]])).any
      (fun σ : Sys Nat 1 => decide (σ.AtRest ∧ σ.items = [7, 8] ∧ σ.unread 0 = [8] ∧
        σ.receivers 0 = true ∧ σ.senders 0 = true ∧ σ.mem.consumed 0 = 0)) = true := by
    decide +kernel
  obtain ⟨σ, hrun, hσ⟩ := Run.of_exec_any hex
  obtain ⟨hrest, hitems, hunread, hlive, hsender, hcons⟩ := of_decide_eq_true hσ
  obtain ⟨hrecvs, hsends⟩ := at_rest_queue id hrun hrest
  obtain ⟨σ', hrecv, hsome, -⟩ := hrecvs 0 3 false hlive (by norm_num) (by unfold i64Max; norm_num)
  obtain ⟨b, hpc, hread⟩ := hsome (by rw [hunread]; simp)
  rw [hcons, hunread] at hread
  rw [hcons] at hpc
  obtain ⟨σ'', hsend, -, -, hroom⟩ := hsends 0 9 hsender
  have hlast := (hroom ⟨0, hlive⟩ fun i _ => by
    rw [Fin.fin_one_eq_zero i, hunread]
    decide).2.2.1
  rw [hitems] at hlast
  exact ⟨_, σ, hrun, hitems, hunread, ⟨σ', b, hrecv, hpc, hread⟩, σ'', hsend, hlast⟩

/-- A receiver that was told `Disconnected` has been given everything that was claimed. -/
def ToldAll (σ : Sys T N) : Prop :=
  ∀ r i, Event.ret r i .disconnected ∈ σ.trace → taken σ.trace i = highest σ.trace

/-- Nobody is told `Disconnected` before the tear-down. -/
theorem Whole.teardown_of_told (hw : Whole ring initial σ)
    (htold : Event.ret r i .disconnected ∈ σ.trace) : ∃ k, (σ.sends k).teardown = true := by
  by_contra hnone
  push Not at hnone
  have hon := hw.calm.ongoing fun k => Bool.eq_false_iff.mpr (hnone k)
  exact absurd (hon.events _ htold) (by simp [Event.ends])

/-- A call returns under its own name. -/
theorem Returns.ret_self {q : RecvCall} {lastClaimed available : Int} {shutdown : Bool} {r' : Nat}
    {j : Fin N} {res : RecvResult} {pc : RecvPc}
    (hret : Returns r i q lastClaimed available shutdown (some (.ret r' j res : Event T N)) pc) :
    r' = r ∧ j = i := by
  cases hret <;> exact ⟨rfl, rfl⟩

theorem RecvMoves.ret_self {r' : Nat} {j : Fin N} {res : RecvResult} {act : RecvAct}
    {pc pc' : RecvPc} (hrm : RecvMoves ring r i m pc act (some (.ret r' j res)) pc') :
    r' = r ∧ j = i := by
  cases hrm with
  | loadEmpty _ hret | scanEnd _ _ hret | scanStop _ hret => exact hret.ret_self

/-- A call that returns `Disconnected` leaves nothing behind. -/
theorem Whole.taken_of_disconnected (hw : Whole ring initial σ) (hw' : Whole ring initial σ')
    (hm : Moves ring σ l σ') (htrace : σ'.trace = .ret r i .disconnected :: σ.trace) :
    taken σ.trace i = highest σ.trace := by
  have hs := hw.delivering.served
  have hi := hs.guarded.inv
  obtain ⟨k, ht⟩ := hw'.teardown_of_told (htrace ▸ List.mem_cons_self)
  have hpub : ∀ s, 0 ≤ s → s ≤ highest σ.trace → Published σ.trace s := by
    intro s h₀ h₁
    have hp : Published σ'.trace s := hw'.published_of_teardown ht h₀ (by rw [htrace]; exact h₁)
    rw [htrace] at hp
    exact (published_cons_of_ne (by simp)).mp hp
  have hcall : ∃ act pc, r < σ.nextRecv ∧ σ.recvReceiver r = i ∧
      RecvMoves ring r i σ.mem (σ.recvs r) act (some (.ret r i .disconnected)) pc := by
    rcases hm.event_cases with ⟨hsame, -⟩ | ⟨e, he, -, hfrom⟩
    · exact absurd (htrace.symm.trans hsame) (by simp)
    · obtain rfl := (List.cons.inj (he.symm.trans htrace)).1
      rcases hfrom with ⟨k', act, pc, -, -, hsm⟩ | ⟨r', act, pc, -, hr, hrm⟩ | ⟨j, -, hj⟩
      · exact absurd hsm.sendSide (by simp [Event.sendSide])
      · obtain ⟨rfl, rfl⟩ := hrm.ret_self
        exact ⟨act, pc, hr, rfl, hrm⟩
      · exact absurd hj (by simp)
  obtain ⟨act, pc, hr, rfl, hrm⟩ := hcall
  have hfin := hrm.unfinished
  have hd := hi.borrow.live_of_recv hr hfin
  have hinv := hi.recv r
  have hcur := hs.guarded.current r hr
  have htaken := hw.delivering.taken_eq hr hfin
  have hhigh := position_le_highest (i := σ.recvReceiver r) hi.sound.legal
  generalize σ.recvs r = pc₀ at hrm hinv hcur htaken
  cases pc₀ with
  | load q =>
    cases hrm with
    | loadEmpty hn hret => cases hret
  | scan q lastClaimed last seq shutdown =>
    have hlc : lastClaimed = position σ.trace (σ.recvReceiver r) := hcur
    have htaken := htaken rfl
    rcases hrm.scan_cases hi hs.guarded.lag hd hinv hlc with ⟨he, -⟩ | hends
    · exact absurd he (by simp)
    obtain ⟨available, shutdown', hret, hext, -⟩ := hends
    obtain ⟨hneg, -, hseq, hle, -⟩ := hinv
    have hlow := hext.lower
    cases hret with
    | disconnected ha =>
      obtain rfl : available = lastClaimed := by omega
      by_contra hne
      exact hext.stop (by omega) (hpub _ (by omega) (by omega))
  | _ => cases hrm

theorem toldAll_step (hw : Whole ring initial σ) (hw' : Whole ring initial σ') (ha : ToldAll σ)
    (hm : Moves ring σ l σ') : ToldAll σ' := by
  have hi := hw.delivering.served.guarded.inv
  have hi' := hw'.delivering.served.guarded.inv
  intro r i htold
  obtain ⟨e, htrace⟩ := hm.trace_cases
  -- a claim is over once somebody was told
  have hhigh : Event.ret r i .disconnected ∈ σ.trace → highest σ'.trace = highest σ.trace := by
    intro hold
    obtain ⟨k, ht⟩ := hw.teardown_of_told hold
    rcases hm.event_cases with ⟨hsame, -⟩ | ⟨e, he, -, -⟩
    · rw [hsame]
    · rw [he]
      refine highest_cons_of_ne ?_
      rintro k' a b rfl
      obtain ⟨k'', act, pc, rfl, hk'', -, hsm⟩ := hm.of_sendSide he rfl
      by_cases hkk : k'' = k
      · rw [hkk] at hsm
        rcases SenderPc.teardown_cases ht with ⟨pos, hpc⟩ | hpc <;> rw [hpc] at hsm <;> cases hsm
      · have hfin := hi.borrow.finished_of_teardown (hi.fresh.lt_of_teardown ht) ht hk'' hkk
        rw [hsm.unfinished] at hfin
        exact absurd hfin (by simp)
  have hmono : taken σ.trace i ≤ taken σ'.trace i := by
    have hsuffix : σ.trace <:+ σ'.trace := by
      rw [htrace]
      cases e with
      | none => exact List.suffix_refl _
      | some e => exact List.suffix_cons e _
    have hlen := (delivered_suffix hsuffix (i := i)).length_le
    have hbefore := (hw.delivering.given i).length hi
    have hafter := (hw'.delivering.given i).length hi'
    omega
  have hle := (hw'.delivering.given i).le_highest hi'
  by_cases hold : Event.ret r i .disconnected ∈ σ.trace
  · have hall := ha r i hold
    have := hhigh hold
    omega
  · have hnew : e = some (.ret r i .disconnected) := by
      cases e with
      | none =>
        rw [htrace] at htold
        exact absurd htold hold
      | some e =>
        rw [htrace] at htold
        exact congrArg some ((List.mem_cons.mp htold).resolve_right hold).symm
    rw [hnew] at htrace
    have hall := hw.taken_of_disconnected hw' hm htrace
    rw [htrace]
    exact hall

/-- **Who is told `Disconnected` has got everything.** In every orderly run, once a receive call on
receiver `i` has returned `Disconnected`, no sender handle is left, everything that was ever claimed
is published, and `i` was given all of it: every item that was ever sent on any handle, in order. So
any two receivers that were told were given the same. -/
theorem disconnected_complete {i₀ : Fin N} {ls : List (Label T N)}
    (hrun : Run (step ring) (Orderly ring) (Sys.init initial i₀) ls σ)
    (htold : Event.ret r i .disconnected ∈ σ.trace) :
    (∀ h, σ.senders h = false) ∧
      (∀ s, 0 ≤ s → s ≤ highest σ.trace → Published σ.trace s) ∧
      received σ.trace i = σ.items := by
  have hw := (whole_init ring initial i₀).of_run id hrun
  have ha : ToldAll σ := hrun.invariant_with
    (fun hw hok hst => whole_step hw hok hst)
    (fun hw ha hok hst => toldAll_step hw (whole_step hw hok hst) ha (moves_of_step hst))
    (whole_init ring initial i₀) fun _ _ hmem => absurd hmem List.not_mem_nil
  have hi := hw.delivering.served.guarded.inv
  obtain ⟨k, ht⟩ := hw.teardown_of_told htold
  refine ⟨hi.borrow.torn k (hi.fresh.lt_of_teardown ht) ht,
    fun s h₀ h₁ => hw.published_of_teardown ht h₀ h₁, ?_⟩
  unfold received Sys.items
  rw [(hw.delivering.given i).count, ha r i htold]

/-- Two items are sent on two handles and both handles are dropped; the receiver reads both and is
told. -/
theorem disconnected_complete_two :
    ∃ (ls : List (Label Nat 1)) (σ : Sys Nat 1),
      Run (step ⟨1, by decide⟩) (Orderly ⟨1, by decide⟩) (Sys.init (fun _ => 0) 0) ls σ ∧
        σ.items = [7, 8] ∧ received σ.trace 0 = σ.items := by
  have hex : (exec (step ⟨1, by decide⟩) (Orderly ⟨1, by decide⟩) (Sys.init (fun _ => 0) 0)
      (List.flatten [[.clone 0, .send 0 (.trySend 7), .send 1 (.trySend 8)],
        List.replicate 9 (.sender 0 .run), List.replicate 9 (.sender 1 .run),
        [.dropSender 0, .dropSender 1], List.replicate 7 (.sender 2 .run),
        [.recv 0 5 false], List.replicate 3 (.receiver 0 .run), [.receiver 0 .release,
          .recv 0 5 false], List.replicate 2 (.receiver 1 .run)])).any
      (fun σ : Sys Nat 1 => decide (σ.items = [7, 8] ∧ .ret 1 0 .disconnected ∈ σ.trace)) =
        true := by
    decide +kernel
  obtain ⟨σ, hrun, hσ⟩ := Run.of_exec_any hex
  obtain ⟨hitems, htold⟩ := of_decide_eq_true hσ
  exact ⟨_, σ, hrun, hitems, (disconnected_complete hrun htold).2.2⟩

/-- A call that is over is not on its way to a notification. -/
theorem between_of_finished {j : Nat} (hfin : pc.finished = true) : ¬ pc.between j := by
  cases pc with
  | publishing | notifying | closing => exact absurd hfin (by simp [SenderPc.finished])
  | _ => exact id

/-- **At rest no task sleeps without reason.** In every orderly run around the poll `r` of receiver
`i`, when no sender call is under way: if the latest poll returned `Pending`, its waker was woken,
or the receiver has read everything and a sender handle is live. -/
theorem at_rest_awake {i₀ : Fin N} {ls : List (Label T N)}
    (hrun : Run (step ring) (fun σ l => Orderly ring σ l ∧ PollAlone i r σ l)
      (Sys.init initial i₀) ls σ)
    (hrest : σ.AtRest) (hr : r < σ.nextRecv) (hri : σ.recvReceiver r = i)
    (hlive : σ.receivers i = true) (hpend : σ.recvs r = .pending) :
    Delivered σ.trace i r ∨ (σ.unread i = [] ∧ ∃ h, σ.senders h = true) := by
  have hw := (whole_init ring initial i₀).of_run (fun hok => hok.1) hrun
  have hg := hw.delivering.served.guarded
  have hpoll := hrun.invariant (I := PollInv ring initial i r)
    (fun hp hok hst => pollInv_step hp hok.2 hst) (pollInv_init ring initial i₀ i r)
  have hstate := hpoll.poll hr hri hlive
  rw [hpend] at hstate
  refine hstate.imp_right fun ⟨_, hwhy⟩ => ?_
  have hunready : ¬ σ.Ready ring i := by
    rcases hwhy with ⟨k, hb⟩ | ⟨hn, -⟩
    · have hk : k < σ.nextSend := hg.inv.fresh.lt_of_send fun hidle => by
        rw [hidle] at hb
        exact hb
      exact absurd hb (between_of_finished (hrest k hk))
    · exact hn
  rw [hg.ready_iff hlive, not_or] at hunready
  obtain ⟨hunpub, hunmarked⟩ := hunready
  have hlen := hw.length_unread hrest hlive
  have hneg := neg_one_le_position (i := i) hg.inv.sound.legal
  have hcons := hg.inv.sound.consumed_eq (hg.inv.not_dropped hlive)
  have hall : σ.mem.consumed i = highest σ.trace := by
    by_contra hne
    exact hunpub (hw.published hrest (by omega) (by omega))
  refine ⟨List.length_eq_zero_iff.mp (by omega), ?_⟩
  by_contra hnone
  push Not at hnone
  have hbit := (hw.shutdown_iff hrest hall).mpr fun h => Bool.eq_false_iff.mpr (hnone h)
  have hstates : σ.mem.states = (replay ring initial σ.trace).states :=
    congrArg Mem.states hg.inv.sound.mem
  rw [hstates] at hbit
  exact hunmarked (shutdownOf_replay.mp hbit)

/-- A poll on an empty channel returns `Pending`; an item is sent, and the waker is woken. -/
theorem at_rest_awake_woken :
    ∃ (ls : List (Label Nat 1)) (σ : Sys Nat 1),
      Run (step ⟨0, by decide⟩) (fun σ l => Orderly ⟨0, by decide⟩ σ l ∧ PollAlone 0 0 σ l)
          (Sys.init (fun _ => 0) 0) ls σ ∧
        σ.recvs 0 = .pending ∧ σ.unread 0 = [7] ∧ Delivered σ.trace 0 0 := by
  have hex : (exec (step ⟨0, by decide⟩)
      (fun σ l => Orderly ⟨0, by decide⟩ σ l ∧ PollAlone 0 0 σ l) (Sys.init (fun _ => 0) 0)
      (List.flatten [[.recv 0 1 true], List.replicate 5 (.receiver 0 .run), [.send 0 (.trySend 7)],
        List.replicate 9 (.sender 0 .run)])).any
      (fun σ : Sys Nat 1 => decide (σ.AtRest ∧ 0 < σ.nextRecv ∧ σ.recvReceiver 0 = 0 ∧
        σ.receivers 0 = true ∧ σ.recvs 0 = .pending ∧ σ.unread 0 = [7])) = true := by
    decide +kernel
  obtain ⟨σ, hrun, hσ⟩ := Run.of_exec_any hex
  obtain ⟨hrest, hr, hri, hlive, hpend, hunread⟩ := of_decide_eq_true hσ
  refine ⟨_, σ, hrun, hpend, hunread,
    (at_rest_awake hrun hrest hr hri hlive hpend).resolve_right ?_⟩
  rintro ⟨hnone, -⟩
  rw [hunread] at hnone
  exact absurd hnone (by simp)

end

end EnsoChannel
