import EnsoChannel.RecvAtMost
import EnsoChannel.Batch
import EnsoChannel.Guards

/-!
# Batch and single paths agree

Three ways to send the items of a list (`try_send` for each, `try_reserve` and `write` for each, or
batches of `try_send_at_most` that are fully written and committed) and two ways to receive
(`try_recv` for each item, or batches of `try_recv_at_most`, each one iterated and released).

Each way is a `Chain` of operations without interference. An operation that sends the items `vs`
is specified once, by `Sys.Sent`; what was sent composes (`Sys.Sent.append`), so a chain sends the
items of all its parts (`sent_chain`), and it does not matter how they are divided. A receive
operation takes what the scan reaches, and two scans in a row reach as far as one
(`Extent.append`).

`paths_agree` holds in every reachable state, also after limits above `i64::MAX` (but for the sums
of a limit of `2 ^ 63` from a cursor of `-1`, see `System.lean`).
-/

namespace EnsoChannel

open Lib

variable {T : Type} {N : Nat}

/-! ## Cursors in every run -/

/-- A scan started, and a guard ends, at `-1` or above. -/
def RecvPc.Above : RecvPc → Prop
  | .scan _ lastClaimed _ _ _ => -1 ≤ lastClaimed
  | .guard _ last => -1 ≤ last
  | _ => True

/-- What the cursors keep in every run, in range or not. -/
structure Cursors (σ : Sys T N) : Prop where
  fresh : Fresh σ
  borrow : Borrow σ
  parked : σ.Parked
  consumed : ∀ i, -1 ≤ σ.mem.consumed i
  above : ∀ r, (σ.recvs r).Above

section

variable {ring : RingBufferMeta} {σ σ' : Sys T N} {l : Label T N} {r : Nat} {i : Fin N}
  {m : Mem T N} {k : Nat}

theorem cursors_init (initial : Nat → T) (i₀ : Fin N) : Cursors (Sys.init initial i₀) where
  fresh := fresh_init initial i₀
  borrow := borrow_init initial i₀
  parked _ h := absurd h (by simp [Sys.init])
  consumed _ := le_refl _
  above _ := trivial

theorem SenderMoves.consumed {pc pc' : SenderPc T} {act : SenderAct T} {e : Event T N}
    (hm : SenderMoves ring k m pc act (some e) pc') : (m.apply ring e).consumed = m.consumed := by
  cases hm <;> rfl

theorem Returns.above {q : RecvCall} {lc available : Int} {shutdown : Bool}
    {e : Option (Event T N)} {pc : RecvPc} (hret : Returns r i q lc available shutdown e pc)
    (hlc : -1 ≤ lc) : pc.Above := by
  cases hret with
  | items ha => exact hlc.trans ha.le
  | disconnected | empty | again | pending => trivial

theorem RecvMoves.above {pc pc' : RecvPc} {act : RecvAct} {e : Option (Event T N)}
    (hm : RecvMoves ring r i m pc act e pc') (hc : -1 ≤ m.consumed i) (hpc : pc.Above) :
    pc'.Above := by
  cases hm with
  | load => exact hc
  | loadEmpty _ hret => exact hret.above hc
  | scanNext => exact hpc
  | scanEnd _ _ hret | scanStop _ hret => exact hret.above hpc
  | register | releaseEmpty | release | leak => trivial

theorem Returns.consumed {q : RecvCall} {lc available : Int} {shutdown : Bool} {e : Event T N}
    {pc : RecvPc} (hret : Returns r i q lc available shutdown (some e) pc) :
    (m.apply ring e).consumed = m.consumed := by
  cases hret <;> rfl

/-- A receive call changes no cursor but that of its receiver, which its guard takes up. -/
theorem RecvMoves.consumed {pc pc' : RecvPc} {act : RecvAct} {e : Event T N}
    (hm : RecvMoves ring r i m pc act (some e) pc') (hpc : pc.Above) :
    (m.apply ring e).consumed = m.consumed ∨
      ∃ last, -1 ≤ last ∧ (m.apply ring e).consumed = Function.update m.consumed i last := by
  cases hm with
  | loadEmpty _ hret | scanEnd _ _ hret | scanStop _ hret => exact Or.inl hret.consumed
  | register => exact Or.inl rfl
  | release => exact Or.inr ⟨_, hpc, rfl⟩

/-- **How the cursors change**: not at all, or that of one live receiver, which may be dropped. -/
theorem Cursors.cases (hc : Cursors σ) (hm : Moves ring σ l σ') :
    (σ'.mem.consumed = σ.mem.consumed ∧ σ'.receivers = σ.receivers) ∨
      ∃ i x, σ.receivers i = true ∧ -1 ≤ x ∧
        σ'.mem.consumed = Function.update σ.mem.consumed i x ∧
          (σ'.receivers = σ.receivers ∨
            x = Sequence.shutdownOpen ∧ σ'.receivers = Function.update σ.receivers i false) := by
  cases hm with
  | clone | dropSender | dropLast | send | recv => exact Or.inl ⟨rfl, rfl⟩
  | @sender k act e pc hk hst =>
    cases e with
    | none => exact Or.inl ⟨rfl, rfl⟩
    | some e => exact Or.inl ⟨(senderMoves_of_step hst).consumed, rfl⟩
  | @receiver r act e pc hr hst =>
    cases e with
    | none => exact Or.inl ⟨rfl, rfl⟩
    | some e =>
      have hmove := recvMoves_of_step hst
      rcases hmove.consumed (hc.above r) with hsame | ⟨last, hlast, hset⟩
      · exact Or.inl ⟨hsame, rfl⟩
      · exact Or.inr ⟨_, last, hc.borrow.receiver r hr hmove.unfinished, hlast, hset, Or.inl rfl⟩
  | @dropReceiver i hlive hidle =>
    exact Or.inr ⟨i, Sequence.shutdownOpen, hlive, by decide, rfl, Or.inr ⟨rfl, rfl⟩⟩

theorem cursors_step (hc : Cursors σ) (hm : Moves ring σ l σ') : Cursors σ' := by
  have habove : ∀ r, (σ'.recvs r).Above := by
    refine hm.forall_recvs (J := fun _ _ pc => pc.Above) (K := fun _ _ pc => pc.Above) hc.above
      (fun _ limit async _ => ?_) (fun r _ _ _ _ _ hmove hpc _ _ => hmove.above (hc.consumed _) hpc)
      fun _ _ hpc => hpc
    unfold recvStart
    split
    · exact le_refl _
    · trivial
  have hfresh := fresh_step hc.fresh hm
  have hborrow := borrow_step hc.fresh hc.borrow hm
  rcases hc.cases hm with ⟨hcons, hrecv⟩ | ⟨i, x, hlive, hx, hcons, hrecv⟩
  · exact ⟨hfresh, hborrow, by unfold Sys.Parked; rw [hcons, hrecv]; exact hc.parked,
      by rw [hcons]; exact hc.consumed, habove⟩
  · refine ⟨hfresh, hborrow, fun j hj => ?_, fun j => ?_, habove⟩
    · rw [hcons]
      by_cases hji : j = i
      · subst hji
        rcases hrecv with hrecv | ⟨rfl, -⟩
        · rw [hrecv, hlive] at hj
          exact absurd hj (by simp)
        · exact Function.update_self _ _ _
      · rw [Function.update_of_ne hji]
        refine hc.parked j ?_
        rcases hrecv with hrecv | ⟨-, hrecv⟩
        · rwa [hrecv] at hj
        · rwa [hrecv, Function.update_of_ne hji] at hj
    · rw [hcons]
      by_cases hji : j = i
      · rwa [hji, Function.update_self]
      · rw [Function.update_of_ne hji]
        exact hc.consumed j

theorem cursors_of_run {initial : Nat → T} {i₀ : Fin N} {ok : Sys T N → Label T N → Prop}
    {ls : List (Label T N)} (hrun : Run (step ring) ok (Sys.init initial i₀) ls σ) : Cursors σ :=
  hrun.invariant (fun hc _ hst => cursors_step hc (moves_of_step hst)) (cursors_init initial i₀)

end

/-! ## Sending -/

/-- `try_send` of `v`, which succeeds. -/
def Sys.TrySends (ring : RingBufferMeta) (recycle : T → T) (h : Nat) (v : T) (σ σ' : Sys T N) :
    Prop :=
  Sys.Sends ring recycle h (.trySend v) σ σ' ∧ σ'.sends σ.nextSend = .committed

/-- `try_reserve`, and `write(v)` on the permit. -/
def Sys.ReserveWrites (ring : RingBufferMeta) (recycle : T → T) (h : Nat) (v : T)
    (σ σ' : Sys T N) : Prop :=
  ∃ σ₁ seq, Sys.Sends ring recycle h .tryReserve σ σ₁ ∧ σ₁.sends σ.nextSend = .permit seq ∧
    Sys.Acts ring recycle σ.nextSend (.write v) σ₁ σ' ∧ σ'.sends σ.nextSend = .committed

/-- `try_send_at_most` for as many as the `vs`, which returns as many; each of them is written, and
the batch is committed. -/
def Sys.SendsBatch (ring : RingBufferMeta) (recycle : T → T) (h : Nat) (vs : List T)
    (σ σ' : Sys T N) : Prop :=
  ∃ σ₁ σ₂ p, Sys.Sends ring recycle h (.trySendAtMost vs.length) σ σ₁ ∧
    σ₁.sends σ.nextSend = .permits p ∧ p.totalReserved = vs.length ∧
      Sys.UsesAll ring recycle σ.nextSend (vs.map .write) σ₁ σ₂ ∧
        Sys.Acts ring recycle σ.nextSend .drop σ₂ σ' ∧ σ'.sends σ.nextSend = .committed

/-- **The items `vs` are sent**: claimed, published and in their slots, and no cursor and no handle
has changed. -/
structure Sys.Sent (ring : RingBufferMeta) (vs : List T) (σ σ' : Sys T N) : Prop where
  claimed : σ'.mem.claimed = σ.mem.claimed + vs.length
  states : σ'.mem.states = ring.publishFrom σ.mem.states (σ.mem.claimed + 1) vs.length
  slots : σ'.mem.slots =
    Lib.modifyFrom ring.indexOfSeq σ.mem.slots (σ.mem.claimed + 1) (vs.map fun v _ => v)
  consumed : σ'.mem.consumed = σ.mem.consumed
  senders : σ'.senders = σ.senders
  receivers : σ'.receivers = σ.receivers

/-- On handle `h` of an open channel there is room for `n` items. -/
structure Sys.Room (ring : RingBufferMeta) (h n : Nat) (σ : Sys T N) : Prop where
  live : σ.senders h = true
  parked : σ.Parked
  opened : hasShutdown σ.mem.claimed = false
  free : ∃ x, σ.Slowest x ∧ x < Sequence.shutdownOpen ∧
    (n : Int) ≤ ring.bufferSize - (σ.mem.claimed - x)

section

variable {ring : RingBufferMeta} {recycle : T → T} {σ σ₁ σ' : Sys T N} {h n : Nat}
  {us vs : List T} {v : T}

theorem publishFrom_append {states : Nat → RawState} {seq : Int} {m : Nat} :
    ring.publishFrom states seq (m + n) =
      ring.publishFrom (ring.publishFrom states seq m) (seq + m) n := by
  induction m generalizing states seq with
  | zero => simp [RingBufferMeta.publishFrom]
  | succ m ih =>
    rw [Nat.succ_add, RingBufferMeta.publishFrom, ih, RingBufferMeta.publishFrom, Nat.cast_add,
      Nat.cast_one, add_assoc, add_comm (1 : Int)]

theorem Sys.Sent.nil : Sys.Sent ring [] σ σ :=
  ⟨by simp, rfl, rfl, rfl, rfl, rfl⟩

/-- **What was sent composes.** -/
theorem Sys.Sent.append (h₁ : Sys.Sent ring us σ σ₁) (h₂ : Sys.Sent ring vs σ₁ σ') :
    Sys.Sent ring (us ++ vs) σ σ' where
  claimed := by
    rw [h₂.claimed, h₁.claimed, List.length_append, Nat.cast_add, add_assoc]
  states := by
    rw [h₂.states, h₁.states, h₁.claimed, List.length_append, publishFrom_append,
      add_right_comm]
  slots := by
    rw [h₂.slots, h₁.slots, h₁.claimed, List.map_append, Lib.modifyFrom_append, List.length_map,
      add_right_comm]
  consumed := h₂.consumed.trans h₁.consumed
  senders := h₂.senders.trans h₁.senders
  receivers := h₂.receivers.trans h₁.receivers

theorem Sys.Room.mono {m : Nat} (hroom : σ.Room ring h m) (hn : n ≤ m) : σ.Room ring h n := by
  obtain ⟨x, hx, hlt, hfree⟩ := hroom.free
  exact ⟨hroom.live, hroom.parked, hroom.opened, x, hx, hlt, by omega⟩

/-- What was sent takes up the room. -/
theorem Sys.Room.of_sent (hroom : σ.Room ring h (vs.length + n)) (hs : Sys.Sent ring vs σ σ') :
    σ'.Room ring h n := by
  obtain ⟨x, hx, hlt, hfree⟩ := hroom.free
  refine ⟨by rw [hs.senders]; exact hroom.live,
    by unfold Sys.Parked; rw [hs.consumed, hs.receivers]; exact hroom.parked, ?_,
    x, by unfold Sys.Slowest; rw [hs.consumed, hs.receivers]; exact hx, hlt, ?_⟩
  · have hopen := hasShutdown_eq_false.mp hroom.opened
    rw [hs.claimed, hasShutdown_eq_false]
    omega
  · rw [hs.claimed]
    push_cast at hfree
    omega

/-- **A chain of operations sends what its parts send.** -/
theorem sent_chain {A : Type} {R : A → Sys T N → Sys T N → Prop} {items : A → List T}
    {as : List A}
    (hR : ∀ a ∈ as, ∀ σ, σ.Room ring h (items a).length →
      ∃ σ', R a σ σ' ∧ Sys.Sent ring (items a) σ σ')
    (hroom : σ.Room ring h (as.flatMap items).length) :
    ∃ σ', Chain R as σ σ' ∧ Sys.Sent ring (as.flatMap items) σ σ' := by
  induction as generalizing σ with
  | nil => exact ⟨σ, rfl, Sys.Sent.nil⟩
  | cons a as ih =>
    rw [List.flatMap_cons, List.length_append] at hroom
    obtain ⟨σ₁, ha, hs₁⟩ := hR a List.mem_cons_self σ (hroom.mono (Nat.le_add_right _ _))
    obtain ⟨σ', hchain, hs'⟩ :=
      ih (fun a ha => hR a (List.mem_cons_of_mem _ ha)) (hroom.of_sent hs₁)
    rw [List.flatMap_cons]
    exact ⟨σ', ⟨σ₁, ha, hchain⟩, hs₁.append hs'⟩

/-! ### The operations -/

theorem tryClaim_room (hroom : σ.Room ring h n) (h₁ : 1 ≤ n) (hcap : (n : Int) ≤ ring.bufferSize) :
    tryClaimAtMost ring σ.mem n = .ok (σ.mem.claimed + 1, σ.mem.claimed + n) := by
  obtain ⟨x, hx, hlt, hfree⟩ := hroom.free
  have hopen : ¬ σ.Over := by
    rintro (hshut | hall)
    · rw [hroom.opened] at hshut
      exact absurd hshut (by simp)
    · obtain ⟨⟨i, hi, -⟩, -⟩ := hx
      rw [hall i] at hi
      exact absurd hi (by simp)
  rw [tryClaimAtMost_of_open ring hroom.parked hopen hx hlt, if_neg (by omega)]
  congr 2
  omega

/-- **A claim of `n` where there is room** is granted in full. -/
theorem sends_room (hroom : σ.Room ring h n) (h₁ : 1 ≤ n) (hcap : (n : Int) ≤ ring.bufferSize)
    {c : SendCall T} (hstart : c.start = .loadClaimed c) (hlimit : c.limit = n)
    (hs : Sys.SenderSettles ring recycle σ.nextSend ((σ.called h).withSend σ.nextSend
      { σ.mem with claimed := σ.mem.claimed + n }
      (.claim σ.nextSend (σ.mem.claimed + 1) (σ.mem.claimed + n) :: σ.trace)
      (granted c (σ.mem.claimed + 1) (σ.mem.claimed + n))) σ') :
    Sys.Sends ring recycle h c σ σ' := by
  refine sends_claim hroom.live hstart ?_
  rw [hlimit, tryClaim_room hroom h₁ hcap]
  exact hs

variable (ring recycle σ h v) in
/-- The item is in the slot that was claimed for it, and is committed. -/
theorem item_committed (t : History T N) :
    ∃ σ', Sys.SenderSettles ring recycle σ.nextSend ((σ.called h).withSend σ.nextSend
        ({ σ.mem with claimed := σ.mem.claimed + 1 }.modifyFrom ring (σ.mem.claimed + 1)
          [fun _ => v]) t
        (.publishing (σ.mem.claimed + 1) (σ.mem.claimed + 1) (σ.mem.claimed + 1))) σ' ∧
      σ'.sends σ.nextSend = .committed ∧ Sys.Sent ring [v] σ σ' := by
  obtain ⟨w, t', hcommit, -⟩ := commitRange_alone ring recycle (σ := σ.called h)
    (m := { σ.mem with claimed := σ.mem.claimed + 1 }.modifyFrom ring (σ.mem.claimed + 1)
      [fun _ => v]) (t := t) (Nat.lt_succ_self σ.nextSend) (σ.mem.claimed + 1) (σ.mem.claimed + 1)
  refine ⟨_, hcommit, withSend_sends, rfl, ?_, rfl, rfl, rfl, rfl⟩
  show ring.publishRange σ.mem.states (σ.mem.claimed + 1) (σ.mem.claimed + 1) = _
  unfold RingBufferMeta.publishRange
  rw [add_sub_cancel_left]
  rfl

/-- **`try_send` sends its item.** -/
theorem trySend_sent (hroom : σ.Room ring h 1) :
    ∃ σ', Sys.TrySends ring recycle h v σ σ' ∧ Sys.Sent ring [v] σ σ' := by
  have hsize := ring.bufferSize_pos
  obtain ⟨σ', hcommit, hdone, hsent⟩ := item_committed ring recycle σ h v _
  refine ⟨σ', ⟨sends_room hroom (le_refl 1) (by push_cast; omega) rfl rfl ?_, hdone⟩, hsent⟩
  exact settles_move (Nat.lt_succ_self _) rfl hcommit

/-- **`try_reserve` and `write` send their item.** -/
theorem reserveWrite_sent (hroom : σ.Room ring h 1) :
    ∃ σ', Sys.ReserveWrites ring recycle h v σ σ' ∧ Sys.Sent ring [v] σ σ' := by
  have hsize := ring.bufferSize_pos
  obtain ⟨σ', hcommit, hdone, hsent⟩ := item_committed ring recycle σ h v _
  refine ⟨σ', ⟨_, _, sends_room hroom (le_refl 1) (by push_cast; omega) rfl rfl (settles_rest rfl),
    withSend_sends, ⟨_, step_withSend (Nat.lt_succ_self _) rfl, hcommit⟩, hdone⟩, hsent⟩

/-- **A batch sends its items.** -/
theorem batch_sent (hroom : σ.Room ring h vs.length) (hne : vs ≠ [])
    (hcap : (vs.length : Int) ≤ ring.bufferSize) :
    ∃ σ', Sys.SendsBatch ring recycle h vs σ σ' ∧ Sys.Sent ring vs σ σ' := by
  have hk : σ.nextSend < (σ.called h).nextSend := Nat.lt_succ_self _
  have hlen : 1 ≤ vs.length := List.length_pos_iff.mpr hne
  have hopen := hasShutdown_eq_false.mp hroom.opened
  have hlimit := ring.bufferSize_le
  have hcast : usizeAsI64 vs.length = vs.length := usizeAsI64_eq (by unfold i64Max; omega)
  have hstart : (SendCall.trySendAtMost vs.length : SendCall T).start =
      .loadClaimed (.trySendAtMost vs.length) := start_of_limit (by
    show 1 ≤ usizeAsI64 vs.length
    omega)
  obtain ⟨t₁, huses, -⟩ := uses_alone ring recycle (σ := σ.called h)
    (m := { σ.mem with claimed := σ.mem.claimed + vs.length })
    (t := .claim σ.nextSend (σ.mem.claimed + 1) (σ.mem.claimed + vs.length) :: σ.trace) hk
    (vs.map .write) (p := ⟨σ.mem.claimed + 1, σ.mem.claimed + vs.length, σ.mem.claimed + 1⟩)
    (n := vs.length) (by dsimp only; omega)
  rw [List.length_map, min_self, List.take_of_length_le (by simp), List.map_map] at huses
  obtain ⟨w, t₂, hdrain, -⟩ := drain_alone ring recycle (σ := σ.called h)
    (m := { σ.mem with claimed := σ.mem.claimed + vs.length }.modifyFrom ring (σ.mem.claimed + 1)
      (vs.map fun v _ => v)) (t := t₁) hk
    (p := ⟨σ.mem.claimed + 1, σ.mem.claimed + vs.length, σ.mem.claimed + 1 + vs.length⟩)
    (n := 0) (by dsimp only; omega) (by dsimp only; omega) (by dsimp only; omega)
  refine ⟨_, ⟨_, _, _, sends_room hroom hlen hcap hstart hcast (settles_rest rfl), withSend_sends,
    ?_, huses, ⟨_, step_withSend hk rfl, hdrain⟩, withSend_sends⟩, rfl, ?_, rfl, rfl, rfl, rfl⟩
  · have htotal : ((⟨σ.mem.claimed + 1, σ.mem.claimed + vs.length, σ.mem.claimed + 1⟩ :
        Permits).totalReserved : Int) = vs.length :=
      totalReserved_eq (by omega) (by unfold i64Max; omega) (by dsimp only; omega)
    exact_mod_cast htotal
  · show ring.publishRange σ.mem.states (σ.mem.claimed + 1) (σ.mem.claimed + vs.length) = _
    unfold RingBufferMeta.publishRange
    congr 1
    omega

end

/-! ## Receiving -/

/-- `try_recv_at_most(limit)`, its guard iterated and released: the items are added to the list of
what was received. `try_recv` is the limit 1. -/
inductive Sys.Takes (ring : RingBufferMeta) (i : Fin N) (limit : Nat) :
    Sys T N × List T → Sys T N × List T → Prop
  | items {σ σ₁ σ₂ : Sys T N} {vs : List T} {first last : Int}
      (hrecv : Sys.Receives ring i limit false σ σ₁)
      (hpc : σ₁.recvs σ.nextRecv = .guard first last)
      (hrelease : step ring σ₁ (.receiver σ.nextRecv .release) = some σ₂) :
      Sys.Takes ring i limit (σ, vs) (σ₂, vs ++ readBatch ring σ₁.mem.slots first last)
  | nothing {σ σ₁ : Sys T N} {vs : List T} (hrecv : Sys.Receives ring i limit false σ σ₁)
      (hpc : σ₁.recvs σ.nextRecv = .empty ∨ σ₁.recvs σ.nextRecv = .disconnected) :
      Sys.Takes ring i limit (σ, vs) (σ₁, vs)

section

variable {ring : RingBufferMeta} {σ σ' : Sys T N} {i : Fin N} {limit : Nat} {vs : List T}

theorem Sys.Takes.unique {s s' s'' : Sys T N × List T} (h₁ : Sys.Takes ring i limit s s')
    (h₂ : Sys.Takes ring i limit s s'') : s' = s'' := by
  cases h₁ with
  | items hrecv₁ hpc₁ hrelease₁ =>
    cases h₂ with
    | items hrecv₂ hpc₂ hrelease₂ =>
      obtain rfl := hrecv₁.unique hrecv₂
      cases hpc₁.symm.trans hpc₂
      obtain rfl := Option.some.inj (hrelease₁.symm.trans hrelease₂)
      rfl
    | nothing hrecv₂ hpc₂ =>
      obtain rfl := hrecv₁.unique hrecv₂
      rw [hpc₁] at hpc₂
      exact absurd hpc₂ (by simp)
  | nothing hrecv₁ hpc₁ =>
    cases h₂ with
    | items hrecv₂ hpc₂ hrelease₂ =>
      obtain rfl := hrecv₁.unique hrecv₂
      rw [hpc₂] at hpc₁
      exact absurd hpc₁ (by simp)
    | nothing hrecv₂ _ =>
      obtain rfl := hrecv₁.unique hrecv₂
      rfl

theorem readFrom_append (slots : Nat → T) (seq : Int) (m n : Nat) :
    readFrom ring slots seq (m + n) =
      readFrom ring slots seq m ++ readFrom ring slots (seq + m) n := by
  induction m generalizing seq with
  | zero => simp [readFrom]
  | succ m ih =>
    rw [Nat.succ_add, readFrom, ih, readFrom, List.cons_append, Nat.cast_add, Nat.cast_one,
      add_assoc, add_comm (1 : Int)]

/-- Two batches in a row are one. -/
theorem readBatch_append (slots : Nat → T) {a b c : Int} (hab : a - 1 ≤ b) (hbc : b ≤ c) :
    readBatch ring slots a b ++ readBatch ring slots (b + 1) c = readBatch ring slots a c := by
  obtain ⟨m, hm⟩ : ∃ m : Nat, b = a + m - 1 := ⟨(b + 1 - a).toNat, by omega⟩
  obtain ⟨n, hn⟩ : ∃ n : Nat, c = b + n := ⟨(c - b).toNat, by omega⟩
  unfold readBatch
  rw [show (b + 1 - a).toNat = m by omega, show (c + 1 - (b + 1)).toNat = n by omega,
    show (c + 1 - a).toNat = m + n by omega, readFrom_append, show b + 1 = a + m by omega]

/-- **One receive operation** takes what its scan reaches. -/
theorem take_alone (hlive : σ.receivers i = true) (hc : -1 ≤ σ.mem.consumed i) (h₁ : 1 ≤ limit)
    (hcap : (limit : Int) ≤ ring.bufferSize) (vs : List T) :
    ∃ r σ', Extent (ring.Available σ.mem.states) (σ.mem.consumed i + 1)
        (σ.mem.consumed i + limit) r ∧
      Sys.Takes ring i limit (σ, vs)
        (σ', vs ++ readBatch ring σ.mem.slots (σ.mem.consumed i + 1) r) ∧
      σ'.mem = { σ.mem with consumed := Function.update σ.mem.consumed i r } ∧
      σ'.receivers = σ.receivers := by
  have hlimit := ring.bufferSize_le
  have hcast : usizeAsI64 limit = limit := usizeAsI64_eq (by unfold i64Max; omega)
  have hscan := scanAvailableUntil_extent ring σ.mem.states
    (show σ.mem.consumed i + 1 - 1 ≤ σ.mem.consumed i + limit by omega)
  generalize hout : recvClaim ring σ.mem.states (σ.mem.consumed i) (usizeAsI64 limit) = out
  obtain ⟨r, shutdown⟩ := out
  have hr : ring.scanAvailableUntil σ.mem.states (σ.mem.consumed i + 1)
      (σ.mem.consumed i + limit) = (r, shutdown) := by
    rw [← hout, recvClaim, hcast, min_eq_left hcap]
  rw [hr] at hscan
  have hlow := hscan.lower
  obtain ⟨σ₁, hrecv, -, hreceivers, hitems, hdisc, hempty⟩ :=
    receives_atMost ring false hlive (by omega) hout
  rcases eq_or_lt_of_le hlow with heq | hlt
  · -- nothing is readable
    obtain rfl : r = σ.mem.consumed i := by omega
    have hnone : (σ₁.recvs σ.nextRecv = .empty ∨ σ₁.recvs σ.nextRecv = .disconnected) ∧
        σ₁.mem = σ.mem := by
      cases shutdown with
      | true => exact ⟨Or.inr (hdisc (le_refl _) rfl).1, (hdisc (le_refl _) rfl).2⟩
      | false =>
        have hnone := hempty (le_refl _) rfl
        rw [if_neg (by simp)] at hnone
        exact ⟨Or.inl hnone.1, hnone.2⟩
    refine ⟨_, σ₁, hscan, ?_, ?_, hreceivers⟩
    · have hbatch : readBatch ring σ.mem.slots (σ.mem.consumed i + 1) (σ.mem.consumed i) = [] := by
        unfold readBatch
        rw [sub_self]
        rfl
      rw [hbatch, List.append_nil]
      exact .nothing hrecv hnone.1
    · rw [hnone.2, Function.update_eq_self]
  · obtain ⟨hpc, hmem, hrelease⟩ := hitems (by omega)
    obtain ⟨σ₂, hstep, hmem₂, hreceivers₂⟩ := hrelease (by unfold Sequence.init; omega)
    refine ⟨r, σ₂, hscan, ?_, hmem₂, hreceivers₂⟩
    have htakes : Sys.Takes ring i limit (σ, vs) (σ₂, _) := .items hrecv hpc hstep
    rwa [hmem] at htakes

variable (ring) in
/-- **Receive operations in a row** take what one scan reaches. -/
theorem takes_alone {limits : List Nat} (hlive : σ.receivers i = true)
    (hc : -1 ≤ σ.mem.consumed i) (h₁ : ∀ n ∈ limits, 1 ≤ n)
    (hcap : (limits.sum : Int) ≤ ring.bufferSize) (vs : List T) :
    ∃ r σ', Extent (ring.Available σ.mem.states) (σ.mem.consumed i + 1)
        (σ.mem.consumed i + limits.sum) r ∧
      Chain (Sys.Takes ring i) limits (σ, vs)
        (σ', vs ++ readBatch ring σ.mem.slots (σ.mem.consumed i + 1) r) ∧
      σ'.mem = { σ.mem with consumed := Function.update σ.mem.consumed i r } := by
  induction limits generalizing σ vs with
  | nil =>
    have hext := Extent.empty (ring.Available σ.mem.states) (σ.mem.consumed i + 1)
    rw [add_sub_cancel_right] at hext
    refine ⟨σ.mem.consumed i, σ, ?_, ?_, ?_⟩
    · simpa using hext
    · simp [Chain, readBatch, readFrom]
    · rw [Function.update_eq_self]
  | cons n limits ih =>
    rw [List.sum_cons, Nat.cast_add] at hcap ⊢
    obtain ⟨r₁, σ₁, hext₁, htake, hmem₁, hreceivers₁⟩ :=
      take_alone hlive hc (h₁ n List.mem_cons_self)
        (show (n : Int) ≤ ring.bufferSize by omega) vs
    have hcons₁ : σ₁.mem.consumed i = r₁ := by
      rw [hmem₁]
      exact Function.update_self _ _ _
    have hlow₁ := hext₁.lower
    obtain ⟨r, σ', hext, hchain, hmem⟩ := ih (by rw [hreceivers₁]; exact hlive) (by omega)
      (fun n hn => h₁ n (List.mem_cons_of_mem _ hn)) (by omega)
      (vs ++ readBatch ring σ.mem.slots (σ.mem.consumed i + 1) r₁)
    rw [hcons₁, hmem₁] at hext hchain
    have hlow := hext.lower
    refine ⟨r, σ', ?_, ⟨_, htake, ?_⟩, ?_⟩
    · have happend := hext₁.append hext
      rwa [add_assoc] at happend
    · rwa [List.append_assoc, readBatch_append _ (by omega) (by omega)] at hchain
    · simp [hmem, hmem₁]

end

/-! ## The paths -/

/-- What senders change. -/
def Mem.sendSide (m : Mem T N) : Int × (Nat → RawState) × (Nat → T) :=
  (m.claimed, m.states, m.slots)

/-- **The send paths agree** from `σ`: while the channel is open and has room for the items `vs`,
one `try_send` for each, one `try_reserve` and `write` for each, and one batch for each part `vs` is
divided into all succeed, and lead to the same `claimed`, slot states and slots. -/
def SendPathsAgree (ring : RingBufferMeta) (σ : Sys T N) : Prop :=
  ∀ h x (recycle : T → T) (parts : List (List T)), σ.senders h = true →
    hasShutdown σ.mem.claimed = false → σ.Slowest x → x < Sequence.shutdownOpen →
    (∀ vs ∈ parts, vs ≠ []) → (parts.flatten.length : Int) ≤ ring.bufferSize →
    (parts.flatten.length : Int) ≤ ring.bufferSize - (σ.mem.claimed - x) →
      (∃ σ', Chain (Sys.TrySends ring recycle h) parts.flatten σ σ') ∧
      (∃ σ', Chain (Sys.ReserveWrites ring recycle h) parts.flatten σ σ') ∧
      (∃ σ', Chain (Sys.SendsBatch ring recycle h) parts σ σ') ∧
      ∀ σ₁ σ₂ σ₃, Chain (Sys.TrySends ring recycle h) parts.flatten σ σ₁ →
        Chain (Sys.ReserveWrites ring recycle h) parts.flatten σ σ₂ →
        Chain (Sys.SendsBatch ring recycle h) parts σ σ₃ →
          σ₁.mem.sendSide = σ₂.mem.sendSide ∧ σ₁.mem.sendSide = σ₃.mem.sendSide

/-- **The receive paths agree** from `σ`: `try_recv` for each of `k` items, and one batch for each
part `k` is divided into, yield the same list of items and the same cursor. These are the next `k`
items, if they are all there. -/
def RecvPathsAgree (ring : RingBufferMeta) (σ : Sys T N) : Prop :=
  ∀ i (limits : List Nat), σ.receivers i = true → (∀ n ∈ limits, 1 ≤ n) →
    (limits.sum : Int) ≤ ring.bufferSize →
      (∃ s, Chain (Sys.Takes ring i) (List.replicate limits.sum 1) (σ, []) s) ∧
      (∃ s, Chain (Sys.Takes ring i) limits (σ, []) s) ∧
      ∀ s₁ s₂, Chain (Sys.Takes ring i) (List.replicate limits.sum 1) (σ, []) s₁ →
        Chain (Sys.Takes ring i) limits (σ, []) s₂ →
          s₁.2 = s₂.2 ∧ s₁.1.mem.consumed = s₂.1.mem.consumed ∧
          ((∀ t, σ.mem.consumed i < t → t ≤ σ.mem.consumed i + limits.sum →
              ring.Available σ.mem.states t) →
            s₁.2 = (List.range limits.sum).map (fun j =>
                σ.mem.slots (ring.indexOfSeq (σ.mem.consumed i + 1 + (j : Nat)))) ∧
              s₁.1.mem.consumed =
                Function.update σ.mem.consumed i (σ.mem.consumed i + limits.sum))

section

variable {ring : RingBufferMeta} {recycle : T → T} {σ σ' σ'' : Sys T N} {h : Nat} {v : T}
  {us vs : List T}

theorem Sys.TrySends.unique (h₁ : Sys.TrySends ring recycle h v σ σ')
    (h₂ : Sys.TrySends ring recycle h v σ σ'') : σ' = σ'' :=
  h₁.1.unique h₂.1

theorem Sys.ReserveWrites.unique (h₁ : Sys.ReserveWrites ring recycle h v σ σ')
    (h₂ : Sys.ReserveWrites ring recycle h v σ σ'') : σ' = σ'' := by
  obtain ⟨σ₁, -, hsends₁, -, hacts₁, -⟩ := h₁
  obtain ⟨σ₂, -, hsends₂, -, hacts₂, -⟩ := h₂
  obtain rfl := hsends₁.unique hsends₂
  exact hacts₁.unique hacts₂

theorem Sys.SendsBatch.unique (h₁ : Sys.SendsBatch ring recycle h vs σ σ')
    (h₂ : Sys.SendsBatch ring recycle h vs σ σ'') : σ' = σ'' := by
  obtain ⟨σ₁, τ₁, -, hsends₁, -, -, huses₁, hdrop₁, -⟩ := h₁
  obtain ⟨σ₂, τ₂, -, hsends₂, -, -, huses₂, hdrop₂, -⟩ := h₂
  obtain rfl := hsends₁.unique hsends₂
  obtain rfl := huses₁.unique huses₂
  exact hdrop₁.unique hdrop₂

theorem Sys.Sent.sendSide_eq (h₁ : Sys.Sent ring vs σ σ') (h₂ : Sys.Sent ring vs σ σ'') :
    σ'.mem.sendSide = σ''.mem.sendSide := by
  unfold Mem.sendSide
  rw [h₁.claimed, h₁.states, h₁.slots, h₂.claimed, h₂.states, h₂.slots]

theorem sendPathsAgree (hp : σ.Parked) : SendPathsAgree ring σ := by
  intro h x recycle parts hlive hopen hx hlt hne hcap hfree
  have hroom : σ.Room ring h parts.flatten.length := ⟨hlive, hp, hopen, x, hx, hlt, hfree⟩
  have hroom' : σ.Room ring h (parts.flatten.flatMap fun v => [v]).length := by
    rwa [List.flatMap_singleton']
  obtain ⟨σ₁, hchain₁, hsent₁⟩ := sent_chain (R := Sys.TrySends ring recycle h)
    (fun v _ _ hroom => trySend_sent hroom) hroom'
  obtain ⟨σ₂, hchain₂, hsent₂⟩ := sent_chain (R := Sys.ReserveWrites ring recycle h)
    (fun v _ _ hroom => reserveWrite_sent hroom) hroom'
  rw [List.flatMap_singleton'] at hsent₁ hsent₂
  have hpart : ∀ vs ∈ parts, (vs.length : Int) ≤ ring.bufferSize := by
    intro vs hvs
    have hle := (List.sublist_flatten_of_mem hvs).length_le
    omega
  have hroom'' : σ.Room ring h (parts.flatMap fun vs => vs).length := by
    rwa [List.flatMap_id']
  obtain ⟨σ₃, hchain₃, hsent₃⟩ := sent_chain (R := Sys.SendsBatch ring recycle h)
    (fun vs hvs _ hroom => batch_sent hroom (hne vs hvs) (hpart vs hvs)) hroom''
  rw [List.flatMap_id'] at hsent₃
  refine ⟨⟨σ₁, hchain₁⟩, ⟨σ₂, hchain₂⟩, ⟨σ₃, hchain₃⟩, fun τ₁ τ₂ τ₃ h₁ h₂ h₃ => ?_⟩
  obtain rfl := Chain.unique hchain₁ h₁ fun h h' => h.unique h'
  obtain rfl := Chain.unique hchain₂ h₂ fun h h' => h.unique h'
  obtain rfl := Chain.unique hchain₃ h₃ fun h h' => h.unique h'
  exact ⟨hsent₁.sendSide_eq hsent₂, hsent₁.sendSide_eq hsent₃⟩

theorem recvPathsAgree (hc : ∀ i, -1 ≤ σ.mem.consumed i) : RecvPathsAgree ring σ := by
  intro i limits hlive hpos hcap
  have hsum : (List.replicate limits.sum 1).sum = limits.sum := by simp
  have hones : ∀ n ∈ List.replicate limits.sum 1, 1 ≤ n :=
    fun n hn => (List.eq_of_mem_replicate hn).ge
  obtain ⟨r₁, σ₁, hext₁, hchain₁, hmem₁⟩ := takes_alone ring hlive (hc i) hones
    (by rwa [hsum]) []
  obtain ⟨r₂, σ₂, hext₂, hchain₂, hmem₂⟩ := takes_alone ring hlive (hc i) hpos hcap []
  rw [hsum] at hext₁
  obtain rfl := hext₁.unique hext₂
  refine ⟨⟨_, hchain₁⟩, ⟨_, hchain₂⟩, fun s₁ s₂ h₁ h₂ => ?_⟩
  obtain rfl := Chain.unique hchain₁ h₁ fun h h' => h.unique h'
  obtain rfl := Chain.unique hchain₂ h₂ fun h h' => h.unique h'
  refine ⟨rfl, by rw [hmem₁, hmem₂], fun hall => ?_⟩
  have hfull : Extent (ring.Available σ.mem.states) (σ.mem.consumed i + 1)
      (σ.mem.consumed i + limits.sum) (σ.mem.consumed i + limits.sum) :=
    ⟨by omega, le_refl _, fun t h₀ h₁ => hall t (by omega) h₁, fun hlt => absurd hlt (lt_irrefl _)⟩
  obtain rfl := hext₁.unique hfull
  have hread := readBatch_eq ring σ.mem.slots (σ.mem.consumed i + 1) limits.sum
  rw [add_sub_cancel_right] at hread
  exact ⟨by simpa using hread, by rw [hmem₁]⟩

/-- **Batch and single paths are equivalent** in every reachable state. -/
theorem paths_agree {initial : Nat → T} {i₀ : Fin N} {ok : Sys T N → Label T N → Prop}
    {ls : List (Label T N)} (hrun : Run (step ring) ok (Sys.init initial i₀) ls σ) :
    SendPathsAgree ring σ ∧ RecvPathsAgree ring σ :=
  ⟨sendPathsAgree (cursors_of_run hrun).parked, recvPathsAgree (cursors_of_run hrun).consumed⟩

/-- On a new ring of four slots: three items one by one, or as a batch of one and a batch of two. On
a ring of two slots that has wrapped around: two items one by one, or as one batch. -/
theorem paths_agree_three :
    (∃ σ₁ σ₂ : Sys Nat 1, Chain (Sys.TrySends ⟨2, by decide⟩ id 0) [5, 6, 7]
        (Sys.init (fun _ => 0) 0) σ₁ ∧
      Chain (Sys.SendsBatch ⟨2, by decide⟩ id 0) [[5], [6, 7]] (Sys.init (fun _ => 0) 0) σ₂ ∧
        σ₁.mem.sendSide = σ₂.mem.sendSide) ∧
      ∃ (ls : List (Label Nat 1)) (σ : Sys Nat 1) (s₁ s₂ : Sys Nat 1 × List Nat),
        Run (step ⟨1, by decide⟩) (fun _ _ => True) (Sys.init (fun _ => 0) 0) ls σ ∧
          σ.mem.consumed 0 = 0 ∧ σ.mem.claimed = 2 ∧
          Chain (Sys.Takes ⟨1, by decide⟩ 0) [1, 1] (σ, []) s₁ ∧
          Chain (Sys.Takes ⟨1, by decide⟩ 0) [2] (σ, []) s₂ ∧
            s₁.2 = [6, 7] ∧ s₂.2 = [6, 7] ∧ s₁.1.mem.consumed = s₂.1.mem.consumed := by
  refine ⟨?_, ?_⟩
  · have hrun : Run (step ⟨2, by decide⟩) (fun _ _ => True) (Sys.init (fun _ => 0) (0 : Fin 1)) []
        (Sys.init (fun _ => 0) (0 : Fin 1)) := Run.nil
    obtain ⟨⟨σ₁, h₁⟩, ⟨σ₂, h₂⟩, ⟨σ₃, h₃⟩, hagree⟩ := (paths_agree hrun).1 0 (-1) (id : Nat → Nat)
      [[5], [6, 7]] rfl rfl ⟨⟨0, rfl, rfl⟩, fun _ _ => le_refl _⟩ (by decide) (by decide)
      (by decide) (by decide)
    exact ⟨σ₁, σ₃, h₁, h₃, (hagree σ₁ σ₂ σ₃ h₁ h₂ h₃).2⟩
  · have hex : (exec (step ⟨1, by decide⟩) (fun _ _ => True) (Sys.init (fun _ => 0) 0)
        (List.flatten [[.send 0 (.trySend 5)], List.replicate 9 (.sender 0 .run),
          [.recv 0 1 false, .receiver 0 .run, .receiver 0 .run, .receiver 0 .release],
          [.send 0 (.trySend 6)], List.replicate 9 (.sender 1 .run),
          [.send 0 (.trySend 7)], List.replicate 9 (.sender 2 .run)])).any
        (fun σ : Sys Nat 1 => decide (σ.receivers 0 = true ∧ σ.mem.consumed 0 = 0 ∧
          σ.mem.claimed = 2 ∧
          lapOf (σ.mem.states 1) = RingBufferMeta.availableFlag ⟨1, by decide⟩ 1 ∧
          lapOf (σ.mem.states 0) = RingBufferMeta.availableFlag ⟨1, by decide⟩ 2 ∧
          σ.mem.slots 1 = 6 ∧ σ.mem.slots 0 = 7)) = true := by
      decide +kernel
    obtain ⟨σ, hrun, hσ⟩ := Run.of_exec_any hex
    obtain ⟨hlive, hcons, hclaimed, hlap₁, hlap₀, hslot₁, hslot₀⟩ := of_decide_eq_true hσ
    obtain ⟨⟨s₁, h₁⟩, ⟨s₂, h₂⟩, hagree⟩ :=
      (paths_agree hrun).2 0 [2] hlive (by decide) (by decide)
    obtain ⟨hitems, hcursor, hall⟩ := hagree s₁ s₂ h₁ h₂
    have hread : s₁.2 = [6, 7] := by
      refine (hall fun t h₀ h₂ => ?_).1.trans ?_
      · rw [hcons] at h₀ h₂
        have hsum : ([2] : List Nat).sum = 2 := rfl
        obtain rfl | rfl : t = 1 ∨ t = 2 := by omega
        · exact hlap₁
        · exact hlap₀
      · rw [hcons]
        show [σ.mem.slots 1, σ.mem.slots 0] = [6, 7]
        rw [hslot₁, hslot₀]
    exact ⟨_, σ, s₁, s₂, hrun, hcons, hclaimed, h₁, h₂, hread, hitems ▸ hread, hcursor⟩

end

end EnsoChannel
