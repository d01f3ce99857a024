import EnsoChannel.Guards

/-!
# No lost wake-up

A poll scans, registers its waker and scans again; a sender writes a slot state and then wakes the
receivers one by one. `InBetween` is the sender's side of the race: a call that has written a slot
state (or a shutdown mark) and has not reached receiver `i` with its notification. `PollState` is
the invariant of the poll `r`:

* from its registration on, `r` is the registered waker of `i` or its wake-up was delivered;
* once it has returned `Pending`, the next slot was unready when it was last read, so whoever makes
  it ready is in between, and stays so until it wakes `i`.

`no_lost_wakeup`: a receiver whose latest poll is `Pending` and whose next slot is ready was woken
by that poll's waker, or some sender is in between. Nothing about the rest of the channel is used:
what happened before the poll is arbitrary. `PollAlone` is about the receiver's own calls only:
calls from before the poll take no step any more, and later ones (no polls) start after it has
returned.
-/

namespace EnsoChannel

open Lib

variable {T : Type} {N : Nat}

/-- The next sequence of receiver `i` reads as published, or its slot carries the shutdown bit. -/
def Sys.Ready (ring : RingBufferMeta) (σ : Sys T N) (i : Fin N) : Prop :=
  lapOf (σ.mem.states (ring.indexOfSeq (σ.mem.consumed i + 1))) =
      ring.availableFlag (σ.mem.consumed i + 1) ∨
    shutdownOf (σ.mem.states (ring.indexOfSeq (σ.mem.consumed i + 1))) = true

/-- The call has written a slot state and has not yet notified receiver `i`. -/
def SenderPc.between (i : Nat) : SenderPc T → Prop
  | .publishing first seq _ => first < seq
  | .notifying j => j ≤ i
  | .closing (.store _) _ => True
  | .closing (.notify j) _ => j ≤ i
  | _ => False

/-- Some sender is between its slot-state write and its notification of receiver `i`. -/
def Sys.InBetween (σ : Sys T N) (i : Fin N) : Prop := ∃ k, (σ.sends k).between i.val

/-- A publishing call stands after the first sequence of its range, or at it. -/
def SenderPc.ordered : SenderPc T → Prop
  | .publishing first seq _ => first ≤ seq
  | _ => True

/-- The receiver's own calls around the poll `r`: it is made with a limit of at least 1; once it
has started, earlier calls of the receiver take no step, later ones start only after it has
returned, and none of them is a poll. -/
def PollAlone (i : Fin N) (r : Nat) (σ : Sys T N) : Label T N → Prop
  | .recv j limit async =>
    (σ.nextRecv = r → 1 ≤ usizeAsI64 limit) ∧
      (r < σ.nextRecv → j = i → async = false ∧ (σ.recvs r).finished = true)
  | .receiver r' _ => r < σ.nextRecv → σ.recvReceiver r' = i → r ≤ r'
  | _ => True

instance (i : Fin N) (r : Nat) (σ : Sys T N) : ∀ l, Decidable (PollAlone i r σ l)
  | .recv _ _ _ => inferInstanceAs (Decidable (_ ∧ (_ → _ → _)))
  | .receiver _ _ => inferInstanceAs (Decidable (_ → _ → _))
  | .clone _ | .dropSender _ | .send _ _ | .sender _ _ | .dropReceiver _ => isTrue trivial

/-- The wake-up of `r` was delivered, or `r` is the registered waker. -/
def Waiting (σ : Sys T N) (i : Fin N) (r : Nat) : Prop :=
  Delivered σ.trace i r ∨ σ.mem.wakers i = some r

/-- A call that holds nothing and whose scan, if any, stands at the next sequence after `x`. -/
def RecvPc.stalled (x : Int) : RecvPc → Prop
  | .scan _ lastClaimed _ seq _ => lastClaimed = x ∧ seq = x + 1
  | .guard _ last => last = Sequence.init
  | _ => True

/-- The call is no poll. -/
def RecvPc.sync : RecvPc → Prop
  | .load q => q.stage = .sync
  | .scan q _ _ _ _ => q.stage = .sync
  | .register _ => False
  | _ => True

/-- Where the poll `r` of receiver `i` stands, and what it can count on there. -/
def PollState (ring : RingBufferMeta) (σ : Sys T N) (i : Fin N) (r : Nat) : RecvPc → Prop
  | .load q => 1 ≤ q.limit ∧ (q.stage = .second → Waiting σ i r)
  | .scan q lastClaimed _ seq shutdown =>
    1 ≤ q.limit ∧ (q.stage = .second → Waiting σ i r) ∧ lastClaimed = σ.mem.consumed i ∧
      lastClaimed < seq ∧ (seq = lastClaimed + 1 → shutdown = false)
  | .register q => 1 ≤ q.limit
  | .pending =>
    Delivered σ.trace i r ∨
      (σ.mem.wakers i = some r ∧
        (σ.InBetween i ∨
          ¬ σ.Ready ring i ∧ ∀ r', r < r' → σ.recvReceiver r' = i →
            (σ.recvs r').stalled (σ.mem.consumed i)))
  | _ => True

/-- The invariant of the runs around the poll `r` of receiver `i`. -/
structure PollInv (ring : RingBufferMeta) (initial : Nat → T) (i : Fin N) (r : Nat)
    (σ : Sys T N) : Prop where
  basic : Basic ring initial σ
  ordered : ∀ k, (σ.sends k).ordered
  sync : ∀ r' < σ.nextRecv, σ.recvAsync r' = false → (σ.recvs r').sync
  later : r < σ.nextRecv → σ.recvReceiver r = i → ∀ r', r < r' → r' < σ.nextRecv →
    σ.recvReceiver r' = i → σ.recvAsync r' = false ∧ (σ.recvs r).finished = true
  poll : r < σ.nextRecv → σ.recvReceiver r = i → σ.receivers i = true →
    PollState ring σ i r (σ.recvs r)

section

variable {ring : RingBufferMeta} {initial : Nat → T} {σ σ' : Sys T N} {l : Label T N} {k r : Nat}
  {i j : Fin N} {m : Mem T N} {e : Event T N}

/-! ## The senders -/

/-- A call in between stays so until it wakes the receiver. -/
theorem SenderMoves.between {pc pc' : SenderPc T} {act : SenderAct T} {e : Option (Event T N)}
    (hsm : SenderMoves ring k m pc act e pc') (hb : pc.between i.val)
    (hwake : ∀ w, e ≠ some (.wake i w)) : pc'.between i.val := by
  cases hsm with
  | publish => exact lt_trans hb (by omega)
  | publishEnd => exact Nat.zero_le _
  | @wake j hj =>
    have hle : j ≤ i.val := hb
    have hne : j ≠ i.val := by
      rintro rfl
      exact hwake _ rfl
    show j + 1 ≤ i.val
    omega
  | wakeEnd hj => exact absurd (lt_of_le_of_lt hb i.isLt) hj
  | closeStore => exact Nat.zero_le _
  | @closeWake j caller hj =>
    have hle : j ≤ i.val := hb
    have hne : j ≠ i.val := by
      rintro rfl
      exact hwake _ rfl
    show j + 1 ≤ i.val
    omega
  | closeEnd hj => exact absurd (lt_of_le_of_lt hb i.isLt) hj
  | _ => exact hb.elim

/-- Whoever writes a slot state is in between. -/
theorem SenderMoves.between_of_write {pc pc' : SenderPc T} {act : SenderAct T}
    (hsm : SenderMoves ring k m pc act (some e) pc')
    (hpc : pc.ordered)
    (hw : (∃ k s, e = .publish k s) ∨ ∃ s, e = .mark s) : pc'.between i.val := by
  cases hsm with
  | @publish first seq last hseq =>
    have hle : first ≤ seq := hpc
    show first < seq + 1
    omega
  | closeMark => trivial
  | _ => simp at hw

/-- The waker a notification takes is the registered one. -/
theorem SenderMoves.wake_taken {pc pc' : SenderPc T} {act : SenderAct T} {w : Option Nat}
    (hsm : SenderMoves ring k m pc act (some (.wake i w)) pc') : w = m.wakers i := by
  cases hsm <;> rfl

theorem SenderMoves.ordered {pc pc' : SenderPc T} {act : SenderAct T} {e : Option (Event T N)}
    (hsm : SenderMoves ring k m pc act e pc') (hpc : pc.ordered) : pc'.ordered := by
  cases hsm with
  | load | retry => exact claimLoop_cases trivial fun _ => trivial
  | gateEnd => exact claimBody_cases (fun _ => trivial) fun _ => trivial
  | claim => cases ‹SendCall T› <;> trivial
  | closeEnd => cases ‹CloseCaller› <;> trivial
  | write | permitWrite | recycled | drainDone => exact le_refl _
  | @publish first seq last =>
    have hle : first ≤ seq := hpc
    show first ≤ seq + 1
    omega
  | _ => trivial

/-! ## What an event leaves alone -/

theorem wakers_apply (hwake : ∀ w, e ≠ .wake i w) (hreg : ∀ r, e ≠ .register i r) :
    (m.apply ring e).wakers i = m.wakers i := by
  cases e with
  | wake j w => exact Function.update_of_ne (fun heq => hwake w (by rw [heq])) _ _
  | register j r => exact Function.update_of_ne (fun heq => hreg r (by rw [heq])) _ _
  | _ => rfl

theorem consumed_apply (hrel : ∀ a b, e ≠ .release i a b) (hdrop : e ≠ .dropReceiver i) :
    (m.apply ring e).consumed i = m.consumed i := by
  cases e with
  | release j a b => exact Function.update_of_ne (fun heq => hrel a b (by rw [heq])) _ _
  | dropReceiver j => exact Function.update_of_ne (fun heq => hdrop (by rw [heq])) _ _
  | _ => rfl

theorem states_apply (hpub : ∀ k s, e ≠ .publish k s) (hmark : ∀ s, e ≠ .mark s) :
    (m.apply ring e).states = m.states := by
  cases e with
  | publish k s => exact absurd rfl (hpub k s)
  | mark s => exact absurd rfl (hmark s)
  | _ => rfl

/-- **A notification reaches the registered waker.** -/
theorem delivered_of_wake {w : Option Nat} (hw : w = m.wakers i) (hr : m.wakers i = some r)
    (h : History T N) : Delivered (.wake i w :: h) i r := by
  rw [hw, hr]
  exact List.mem_cons_self

theorem Waiting.cons (hw : Waiting σ i r) (htrace : σ'.trace = e :: σ.trace)
    (hmem : σ'.mem = σ.mem.apply ring e) (htaken : ∀ w, e = .wake i w → w = σ.mem.wakers i)
    (hreg : ∀ r, e ≠ .register i r) : Waiting σ' i r := by
  rcases hw with hd | hr
  · exact Or.inl (by rw [htrace]; exact hd.cons)
  · by_cases hwake : ∃ w, e = .wake i w
    · obtain ⟨w, rfl⟩ := hwake
      exact Or.inl (by rw [htrace]; exact delivered_of_wake (htaken w rfl) hr σ.trace)
    · refine Or.inr ?_
      rw [hmem, wakers_apply (fun w heq => hwake ⟨w, heq⟩) hreg, hr]

/-! ## A step of a sender -/

theorem Ready.congr (hcons : σ'.mem.consumed i = σ.mem.consumed i)
    (hstates : σ'.mem.states = σ.mem.states) : σ'.Ready ring i ↔ σ.Ready ring i := by
  unfold Sys.Ready
  rw [hcons, hstates]

/-- Being in between survives a step of a sender that does not wake the receiver. -/
theorem InBetween.sender {act : SenderAct T} (hb : σ.InBetween i)
    (hm : Moves ring σ (.sender k act) σ') {e : Option (Event T N)}
    (hsm : SenderMoves ring k σ.mem (σ.sends k) act e (σ'.sends k))
    (hf : Fresh σ) (hwake : ∀ w, e ≠ some (.wake i w)) : σ'.InBetween i := by
  obtain ⟨k', hk'⟩ := hb
  by_cases hkk : k' = k
  · rw [hkk] at hk'
    exact ⟨k, hsm.between hk' hwake⟩
  · have hlt : k' < σ.nextSend := hf.lt_of_send fun hidle => by
      rw [hidle] at hk'
      exact hk'
    refine ⟨k', ?_⟩
    rw [hm.sends_other hlt fun act heq => hkk (by cases heq; rfl)]
    exact hk'

/-- A step of a sender leaves the receive calls alone. -/
theorem Moves.recvs_of_sender {act : SenderAct T} (hm : Moves ring σ (.sender k act) σ') :
    σ'.recvs = σ.recvs ∧ σ'.recvReceiver = σ.recvReceiver := by
  cases hm with
  | sender => exact ⟨perform_recvs ring σ _, perform_recvReceiver ring σ _⟩

/-- **A step of a sender keeps what the poll can count on**: it wakes the receiver, or it makes
the slot ready and is in between from then on, or it changes nothing the poll depends on. -/
theorem PollState.sender {pc : RecvPc} {act : SenderAct T} (hp : PollInv ring initial i r σ)
    (hm : Moves ring σ (.sender k act) σ') (hs : PollState ring σ i r pc) :
    PollState ring σ' i r pc := by
  obtain ⟨e, hsm, htrace, hmem⟩ := hm.sends_self
  obtain ⟨hrecvs, hrr⟩ := hm.recvs_of_sender
  have hb : σ.InBetween i → (∀ w, e ≠ some (.wake i w)) → σ'.InBetween i :=
    fun hb hwake => InBetween.sender hb hm hsm hp.basic.fresh hwake
  cases e with
  | none =>
    have htrace : σ'.trace = σ.trace := htrace
    have hmem : σ'.mem = σ.mem := hmem
    have hw : Waiting σ i r → Waiting σ' i r := by
      unfold Waiting
      rw [htrace, hmem]
      exact id
    cases pc with
    | load q => exact ⟨hs.1, fun hq => hw (hs.2 hq)⟩
    | scan q lastClaimed last seq shutdown =>
      obtain ⟨h₀, h₁, h₂, h₃, h₄⟩ := hs
      exact ⟨h₀, fun hq => hw (h₁ hq), by rw [hmem]; exact h₂, h₃, h₄⟩
    | register q => exact hs
    | pending =>
      rcases hs with hd | ⟨hr, hrest⟩
      · exact Or.inl (by rw [htrace]; exact hd)
      · refine Or.inr ⟨by rw [hmem]; exact hr, ?_⟩
        rcases hrest with hbet | ⟨hready, hstall⟩
        · exact Or.inl (hb hbet (by simp))
        · have hsame : σ'.Ready ring i ↔ σ.Ready ring i :=
            Ready.congr (by rw [hmem]) (by rw [hmem])
          refine Or.inr ⟨fun hr => hready (hsame.mp hr), ?_⟩
          rw [hrecvs, hrr, hmem]
          exact hstall
    | _ => trivial
  | some e =>
    have hside := hsm.sendSide
    have htrace : σ'.trace = e :: σ.trace := htrace
    have hmem : σ'.mem = σ.mem.apply ring e := hmem
    have hreg : ∀ r, e ≠ .register i r := by
      rintro r rfl
      exact absurd hside (by simp [Event.sendSide])
    have hcons : σ'.mem.consumed i = σ.mem.consumed i := by
      rw [hmem]
      refine consumed_apply ?_ ?_
      · rintro a b rfl
        exact absurd hside (by simp [Event.sendSide])
      · rintro rfl
        exact absurd hside (by simp [Event.sendSide])
    have htaken : ∀ w, e = .wake i w → w = σ.mem.wakers i := by
      rintro w rfl
      exact hsm.wake_taken
    have hw : Waiting σ i r → Waiting σ' i r := fun hw => hw.cons htrace hmem htaken hreg
    cases pc with
    | load q => exact ⟨hs.1, fun hq => hw (hs.2 hq)⟩
    | scan q lastClaimed last seq shutdown =>
      obtain ⟨h₀, h₁, h₂, h₃, h₄⟩ := hs
      exact ⟨h₀, fun hq => hw (h₁ hq), by rw [hcons]; exact h₂, h₃, h₄⟩
    | register q => exact hs
    | pending =>
      rcases hs with hd | ⟨hr, hrest⟩
      · exact Or.inl (by rw [htrace]; exact hd.cons)
      · by_cases hwake : ∃ w, e = .wake i w
        · obtain ⟨w, rfl⟩ := hwake
          exact Or.inl (by rw [htrace]; exact delivered_of_wake (htaken w rfl) hr σ.trace)
        · have hwakers : σ'.mem.wakers i = some r := by
            rw [hmem, wakers_apply (fun w heq => hwake ⟨w, heq⟩) hreg, hr]
          refine Or.inr ⟨hwakers, ?_⟩
          by_cases hwrite : (∃ k s, e = .publish k s) ∨ ∃ s, e = .mark s
          · exact Or.inl ⟨k, hsm.between_of_write (hp.ordered k) hwrite⟩
          · rcases hrest with hbet | ⟨hready, hstall⟩
            · exact Or.inl (hb hbet fun w heq => hwake ⟨w, Option.some.inj heq⟩)
            · have hstates : σ'.mem.states = σ.mem.states := by
                rw [hmem]
                exact states_apply (fun k s heq => hwrite (Or.inl ⟨k, s, heq⟩))
                  fun s heq => hwrite (Or.inr ⟨s, heq⟩)
              refine Or.inr ⟨fun hr => hready ((Ready.congr hcons hstates).mp hr), ?_⟩
              rw [hrecvs, hrr, hcons]
              exact hstall
    | _ => trivial

/-! ## The poll itself -/

/-- What a receive call performs does not change what the poll depends on, a release and the
registration apart. -/
theorem Returns.mem_apply {q : RecvCall} {lc available : Int} {shutdown : Bool} {pc : RecvPc}
    (hret : Returns r j q lc available shutdown (some e) pc) : m.apply ring e = m := by
  cases hret <;> rfl

theorem Waiting.record {e : Option (Event T N)} (hw : Waiting σ i r)
    (htrace : σ'.trace = record e σ.trace) (hmem : σ'.mem.wakers i = σ.mem.wakers i) :
    Waiting σ' i r := by
  rcases hw with hd | hr
  · refine Or.inl ?_
    rw [htrace]
    cases e with
    | none => exact hd
    | some e => exact hd.cons
  · exact Or.inr (by rw [hmem, hr])

/-- **The second scan reads the next slot as unready, or the poll does not return `Pending`.** -/
theorem Returns.pollState {q : RecvCall} {lc available : Int} {shutdown : Bool} {pc : RecvPc}
    {e : Option (Event T N)} (hret : Returns r i q lc available shutdown e pc)
    (hlimit : 1 ≤ q.limit) (hw : q.stage = .second → Waiting σ i r)
    (htrace : σ'.trace = EnsoChannel.record e σ.trace) (hmem : σ'.mem = (σ.perform ring e).mem)
    (hready : available ≤ lc → shutdown = false → ¬ σ.Ready ring i)
    (hnone : ∀ r', r < r' → σ'.recvReceiver r' = i → (σ'.recvs r').stalled (σ'.mem.consumed i)) :
    PollState ring σ' i r pc := by
  cases hret with
  | items | disconnected | empty => trivial
  | again => exact hlimit
  | pending ha hq =>
    have hmem : σ'.mem = σ.mem := hmem
    have hready' : ¬ σ'.Ready ring i := by
      have hsame : σ'.Ready ring i ↔ σ.Ready ring i :=
        Ready.congr (by rw [hmem]) (by rw [hmem])
      exact fun hr => hready ha rfl (hsame.mp hr)
    rcases (hw hq).record htrace (by rw [hmem]) with hd | hr
    · exact Or.inl hd
    · exact Or.inr ⟨hr, Or.inr ⟨hready', hnone⟩⟩

theorem PollState.own {act : RecvAct} {pc pc' : RecvPc} {e : Option (Event T N)}
    (hrm : RecvMoves ring r i σ.mem pc act e pc') (hs : PollState ring σ i r pc)
    (htrace : σ'.trace = record e σ.trace) (hmem : σ'.mem = (σ.perform ring e).mem)
    (hnone : ∀ r', r < r' → σ'.recvReceiver r' = i → (σ'.recvs r').stalled (σ'.mem.consumed i)) :
    PollState ring σ' i r pc' := by
  have hc := ring.bufferSize_pos
  cases hrm with
  | load hn =>
    have hmem : σ'.mem = σ.mem := hmem
    refine ⟨hs.1, fun hq => (hs.2 hq).record htrace (by rw [hmem]), by rw [hmem], by omega,
      fun _ => rfl⟩
  | loadEmpty hn =>
    have := hs.1
    omega
  | scanNext hflag hseq =>
    obtain ⟨h₀, h₁, h₂, h₃, h₄⟩ := hs
    have hmem : σ'.mem = σ.mem := hmem
    exact ⟨h₀, fun hq => (h₁ hq).record htrace (by rw [hmem]), by rw [hmem]; exact h₂, by omega,
      fun heq => by omega⟩
  | scanEnd hflag hseq hret =>
    obtain ⟨h₀, h₁, h₂, h₃, h₄⟩ := hs
    exact hret.pollState h₀ h₁ htrace hmem (fun ha _ => by omega) hnone
  | @scanStop q lastClaimed last seq shutdown e pc' hflag hret =>
    obtain ⟨h₀, h₁, h₂, h₃, h₄⟩ := hs
    refine hret.pollState h₀ h₁ htrace hmem (fun ha hsh => ?_) hnone
    have hseq : seq = σ.mem.consumed i + 1 := by omega
    rw [Bool.or_eq_false_iff] at hsh
    rintro (hf | hb)
    · exact hflag (by rw [hseq]; exact hf)
    · rw [← hseq, hsh.2] at hb
      exact absurd hb (by simp)
  | register =>
    refine ⟨hs, fun _ => Or.inr ?_⟩
    rw [hmem]
    exact Function.update_self _ _ _
  | _ => trivial

/-! ## The other calls of the receiver -/

theorem RecvMoves.sync {act : RecvAct} {pc pc' : RecvPc} {e : Option (Event T N)}
    (hrm : RecvMoves ring r i m pc act e pc') (hs : pc.sync) : pc'.sync := by
  have hret : ∀ {q : RecvCall} {lc available : Int} {shutdown : Bool} {e : Option (Event T N)}
      {pc : RecvPc}, Returns r i q lc available shutdown e pc → q.stage = .sync → pc.sync := by
    intro q lc available shutdown e pc hret hq
    cases hret with
    | again _ hf => exact absurd (hq.symm.trans hf) (by simp)
    | _ => trivial
  cases hrm with
  | load | scanNext => exact hs
  | loadEmpty _ h | scanEnd _ _ h | scanStop _ h => exact hret h hs
  | register => exact hs.elim
  | _ => trivial

/-- While the next slot is unready, no other call gets anywhere. -/
theorem RecvMoves.stalled {act : RecvAct} {pc pc' : RecvPc} {e : Option (Event T N)}
    (hrm : RecvMoves ring r i σ.mem pc act e pc') (hs : pc.stalled (σ.mem.consumed i))
    (hready : ¬ σ.Ready ring i) :
    pc'.stalled (σ.mem.consumed i) ∧ ∀ a b, e ≠ some (.release i a b) := by
  have hret : ∀ {q : RecvCall} {lc available : Int} {shutdown : Bool} {e : Option (Event T N)}
      {pc : RecvPc}, Returns r i q lc available shutdown e pc → available ≤ lc →
        pc.stalled (σ.mem.consumed i) ∧ ∀ a b, e ≠ some (.release i a b) := by
    intro q lc available shutdown e pc hret hle
    cases hret with
    | items ha => omega
    | _ => exact ⟨trivial, by simp⟩
  cases hrm with
  | load => exact ⟨⟨rfl, rfl⟩, by simp⟩
  | loadEmpty _ h => exact hret h (by omega)
  | scanNext hflag | scanEnd hflag =>
    obtain ⟨rfl, rfl⟩ := hs
    exact absurd (Or.inl hflag) hready
  | scanStop _ h =>
    obtain ⟨rfl, rfl⟩ := hs
    exact hret h (by omega)
  | release hlast => exact absurd hs hlast
  | _ => exact ⟨trivial, by simp⟩

/-- A receive call on another receiver touches nothing of this one. -/
theorem RecvMoves.apply_other {act : RecvAct} {pc pc' : RecvPc}
    (hrm : RecvMoves ring r j m pc act (some e) pc') (hij : i ≠ j) :
    (m.apply ring e).consumed i = m.consumed i ∧ (m.apply ring e).wakers i = m.wakers i ∧
      (m.apply ring e).states = m.states := by
  cases hrm with
  | loadEmpty _ h | scanEnd _ _ h | scanStop _ h => rw [h.mem_apply]; exact ⟨rfl, rfl, rfl⟩
  | register => exact ⟨rfl, Function.update_of_ne hij _ _, rfl⟩
  | release => exact ⟨Function.update_of_ne hij _ _, rfl, rfl⟩

/-- A synchronous call leaves the wakers alone, and, if it releases nothing, all of the memory. -/
theorem RecvMoves.apply_sync {act : RecvAct} {pc pc' : RecvPc}
    (hrm : RecvMoves ring r i m pc act (some e) pc') (hs : pc.sync) :
    (m.apply ring e).wakers = m.wakers ∧
      ((∀ a b, e ≠ .release i a b) → m.apply ring e = m) := by
  cases hrm with
  | loadEmpty _ h | scanEnd _ _ h | scanStop _ h => rw [h.mem_apply]; exact ⟨rfl, fun _ => rfl⟩
  | register => exact hs.elim
  | release => exact ⟨rfl, fun hno => absurd rfl (hno _ _)⟩

/-- A step that leaves the cursor, the waker and the slot states alone, and neither moves a sender
nor a call of this receiver. -/
theorem PollState.quiet {pc : RecvPc} {e : Option (Event T N)} (hs : PollState ring σ i r pc)
    (htrace : σ'.trace = record e σ.trace) (hcons : σ'.mem.consumed i = σ.mem.consumed i)
    (hwakers : σ'.mem.wakers i = σ.mem.wakers i) (hstates : σ'.mem.states = σ.mem.states)
    (hbet : σ.InBetween i → σ'.InBetween i)
    (hstall : (∀ r', r < r' → σ.recvReceiver r' = i → (σ.recvs r').stalled (σ.mem.consumed i)) →
      ¬ σ.Ready ring i →
        ∀ r', r < r' → σ'.recvReceiver r' = i → (σ'.recvs r').stalled (σ.mem.consumed i)) :
    PollState ring σ' i r pc := by
  cases pc with
  | load q => exact ⟨hs.1, fun hq => (hs.2 hq).record htrace hwakers⟩
  | scan q lastClaimed last seq shutdown =>
    obtain ⟨h₀, h₁, h₂, h₃, h₄⟩ := hs
    exact ⟨h₀, fun hq => (h₁ hq).record htrace hwakers, by rw [hcons]; exact h₂, h₃, h₄⟩
  | register q => exact hs
  | pending =>
    rcases hs with hd | ⟨hr, hrest⟩
    · refine Or.inl ?_
      rw [htrace]
      cases e with
      | none => exact hd
      | some e => exact hd.cons
    · refine Or.inr ⟨by rw [hwakers, hr], hrest.imp hbet fun ⟨hready, hst⟩ => ⟨?_, ?_⟩⟩
      · exact fun hr => hready ((Ready.congr hcons hstates).mp hr)
      · rw [hcons]
        exact hstall hst hready
  | _ => trivial

/-- **A step of another receive call** keeps what the poll can count on. -/
theorem PollState.other {r₀ : Nat} {act : RecvAct} (hp : PollInv ring initial i r σ)
    (hok : PollAlone i r σ (.receiver r₀ act)) (hm : Moves ring σ (.receiver r₀ act) σ')
    (hr : r < σ.nextRecv) (hri : σ.recvReceiver r = i) (hne : r₀ ≠ r)
    (hs : PollState ring σ i r (σ.recvs r)) : PollState ring σ' i r (σ.recvs r) := by
  have hr₀ : r₀ < σ.nextRecv := by
    cases hm with
    | receiver hr₀ => exact hr₀
  obtain ⟨e, hrm, htrace, hmem, hsends, hrr, -⟩ := hm.recvs_self
  have hbet : σ.InBetween i → σ'.InBetween i := by
    unfold Sys.InBetween
    rw [hsends]
    exact id
  have hsame : ∀ r', r' ≠ r₀ → σ'.recvs r' = σ.recvs r' := by
    intro r' hne'
    cases hm with
    | receiver => exact Function.update_of_ne hne' _ _
  by_cases hj : σ.recvReceiver r₀ = i
  · -- a later call of the same receiver, which is no poll: the poll has returned
    have hlt : r < r₀ := lt_of_le_of_ne (hok hr hj) (Ne.symm hne)
    obtain ⟨hasync, hfin⟩ := hp.later hr hri r₀ hlt hr₀ hj
    have hsync := hp.sync r₀ hr₀ hasync
    rw [hj] at hrm
    generalize hpc : σ.recvs r = pc at hs hfin
    cases pc with
    | pending =>
      rcases hs with hd | ⟨hw, hrest⟩
      · refine Or.inl ?_
        rw [htrace]
        cases e with
        | none => exact hd
        | some e => exact hd.cons
      · have hwakers : σ'.mem.wakers i = some r := by
          rw [hmem]
          cases e with
          | none => exact hw
          | some e =>
            show (σ.mem.apply ring e).wakers i = some r
            rw [(hrm.apply_sync hsync).1, hw]
        rcases hrest with hb | ⟨hready, hst⟩
        · exact Or.inr ⟨hwakers, Or.inl (hbet hb)⟩
        · obtain ⟨hstall, hrel⟩ := hrm.stalled (hst r₀ hlt hj) hready
          have hmem' : σ'.mem = σ.mem := by
            rw [hmem]
            cases e with
            | none => rfl
            | some e => exact (hrm.apply_sync hsync).2 fun a b heq => hrel a b (by rw [heq])
          have hsameR : σ'.Ready ring i ↔ σ.Ready ring i :=
            Ready.congr (by rw [hmem']) (by rw [hmem'])
          refine Or.inr ⟨hwakers, Or.inr ⟨fun h => hready (hsameR.mp h), fun r' hlt' hr' => ?_⟩⟩
          rw [hmem']
          by_cases hrr' : r' = r₀
          · rw [hrr']
            exact hstall
          · rw [hsame r' hrr']
            rw [hrr] at hr'
            exact hst r' hlt' hr'
    | load | scan | register | idle | guard => exact absurd hfin (by simp [RecvPc.finished])
    | empty | disconnected | released | leaked => trivial
  · have hparts : σ'.mem.consumed i = σ.mem.consumed i ∧ σ'.mem.wakers i = σ.mem.wakers i ∧
        σ'.mem.states = σ.mem.states := by
      rw [hmem]
      cases e with
      | none => exact ⟨rfl, rfl, rfl⟩
      | some e => exact hrm.apply_other (Ne.symm hj)
    refine hs.quiet htrace hparts.1 hparts.2.1 hparts.2.2 hbet fun hst _ r' hlt' hr' => ?_
    rw [hrr] at hr'
    rw [hsame r' fun heq => hj (heq ▸ hr')]
    exact hst r' hlt' hr'

/-! ## Runs -/

theorem pollInv_init (ring : RingBufferMeta) (initial : Nat → T) (i₀ i : Fin N) (r : Nat) :
    PollInv ring initial i r (Sys.init initial i₀) where
  basic := basic_init ring initial i₀
  ordered _ := trivial
  sync _ hr := absurd hr (Nat.not_lt_zero _)
  later hr := absurd hr (Nat.not_lt_zero _)
  poll hr := absurd hr (Nat.not_lt_zero _)

theorem recvStart_stalled {limit : Nat} {async : Bool} {x : Int} :
    (recvStart limit async).stalled x := by
  unfold recvStart
  split
  · exact rfl
  · trivial

theorem recvStart_sync (limit : Nat) : (recvStart limit false).sync := by
  unfold recvStart
  split
  · trivial
  · exact rfl

theorem pollState_start {limit : Nat} {async : Bool} (hlimit : 1 ≤ usizeAsI64 limit) :
    PollState ring σ i r (recvStart limit async) := by
  have hne : limit ≠ 0 := by
    rintro rfl
    exact absurd hlimit (by decide)
  unfold recvStart
  rw [if_neg hne]
  refine ⟨hlimit, fun hq => ?_⟩
  cases async <;> simp at hq

/-- A new call is not in between. -/
theorem InBetween.of_update {pc : SenderPc T} (hf : Fresh σ) (hb : σ.InBetween i) :
    ∃ k, (Function.update σ.sends σ.nextSend pc k).between i.val := by
  obtain ⟨k, hk⟩ := hb
  refine ⟨k, ?_⟩
  rw [Function.update_of_ne]
  · exact hk
  · rintro rfl
    rw [hf.send _ (le_refl _)] at hk
    exact hk

theorem pollSync_step (hp : PollInv ring initial i r σ) (hm : Moves ring σ l σ') :
    ∀ r' < σ'.nextRecv, σ'.recvAsync r' = false → (σ'.recvs r').sync := by
  cases hm with
  | clone | dropSender | dropLast | send | dropReceiver => exact hp.sync
  | sender => simpa using hp.sync
  | @recv j limit async =>
    intro r' hr'
    have hr' : r' < σ.nextRecv + 1 := hr'
    show Function.update σ.recvAsync σ.nextRecv async r' = false →
      (Function.update σ.recvs σ.nextRecv (recvStart limit async) r').sync
    by_cases heq : r' = σ.nextRecv
    · rw [heq, Function.update_self, Function.update_self]
      rintro rfl
      exact recvStart_sync limit
    · rw [Function.update_of_ne heq, Function.update_of_ne heq]
      exact hp.sync r' (by omega)
  | @receiver r₀ act e pc hr₀ hst =>
    intro r' hr' hasync
    have hr' : r' < σ.nextRecv := by simpa using hr'
    have hs := hp.sync r' hr' (by simpa using hasync)
    show (Function.update σ.recvs r₀ pc r').sync
    by_cases heq : r' = r₀
    · rw [heq, Function.update_self]
      rw [heq] at hs
      exact (recvMoves_of_step hst).sync hs
    · rwa [Function.update_of_ne heq]

theorem pollLater_step (hp : PollInv ring initial i r σ) (hok : PollAlone i r σ l)
    (hm : Moves ring σ l σ') : r < σ'.nextRecv → σ'.recvReceiver r = i → ∀ r', r < r' →
      r' < σ'.nextRecv → σ'.recvReceiver r' = i →
        σ'.recvAsync r' = false ∧ (σ'.recvs r).finished = true := by
  cases hm with
  | clone | dropSender | dropLast | send | dropReceiver => exact hp.later
  | sender => simpa using hp.later
  | @recv j limit async =>
    intro hr hri r' hlt hr' hr'i
    have hr' : r' < σ.nextRecv + 1 := hr'
    have hne : r ≠ σ.nextRecv := by omega
    have hri : σ.recvReceiver r = i := by
      rw [← hri]
      exact (Function.update_of_ne hne _ _).symm
    show Function.update σ.recvAsync σ.nextRecv async r' = false ∧
      (Function.update σ.recvs σ.nextRecv (recvStart limit async) r).finished = true
    rw [Function.update_of_ne hne]
    by_cases heq : r' = σ.nextRecv
    · rw [heq, Function.update_self]
      rw [heq] at hr'i
      have hji : Function.update σ.recvReceiver σ.nextRecv j σ.nextRecv = i := hr'i
      rw [Function.update_self] at hji
      exact hok.2 (by omega) hji
    · rw [Function.update_of_ne heq]
      have hr'i : Function.update σ.recvReceiver σ.nextRecv j r' = i := hr'i
      rw [Function.update_of_ne heq] at hr'i
      exact hp.later (by omega) hri r' hlt (by omega) hr'i
  | @receiver r₀ act e pc hr₀ hst =>
    intro hr hri r' hlt hr' hr'i
    obtain ⟨hasync, hfin⟩ := hp.later (by simpa using hr) (by simpa using hri) r' hlt
      (by simpa using hr') (by simpa using hr'i)
    refine ⟨by simpa using hasync, ?_⟩
    show (Function.update σ.recvs r₀ pc r).finished = true
    rw [Function.update_of_ne]
    · exact hfin
    · rintro rfl
      rw [recvStep_finished hst] at hfin
      exact absurd hfin (by simp)

theorem pollState_step (hp : PollInv ring initial i r σ) (hok : PollAlone i r σ l)
    (hst : step ring σ l = some σ') (hr : r < σ'.nextRecv) (hri : σ'.recvReceiver r = i)
    (hlive : σ'.receivers i = true) : PollState ring σ' i r (σ'.recvs r) := by
  have hm := moves_of_step hst
  have hm' := hm
  cases hm with
  | clone | dropSender =>
    exact (hp.poll hr hri hlive).quiet (e := none) rfl rfl rfl rfl id fun hstall _ => hstall
  | dropLast | send =>
    exact (hp.poll hr hri hlive).quiet (e := none) rfl rfl rfl rfl
      (InBetween.of_update hp.basic.fresh) fun hstall _ => hstall
  | @sender k act e pc hk hsend =>
    rw [(hm'.recvs_of_sender).1]
    refine PollState.sender hp hm' (hp.poll ?_ ?_ ?_)
    · simpa using hr
    · simpa using hri
    · simpa using hlive
  | @recv j limit async hj =>
    have hr : r < σ.nextRecv + 1 := hr
    have hri : Function.update σ.recvReceiver σ.nextRecv j r = i := hri
    show PollState ring _ i r (Function.update σ.recvs σ.nextRecv (recvStart limit async) r)
    by_cases heq : r = σ.nextRecv
    · rw [heq, Function.update_self]
      exact pollState_start (hok.1 heq.symm)
    · rw [Function.update_of_ne heq] at hri ⊢
      refine (hp.poll (by omega) hri hlive).quiet (e := none) rfl rfl rfl rfl id ?_
      intro hstall _ r' hlt hr'i
      show (Function.update σ.recvs σ.nextRecv (recvStart limit async) r').stalled _
      by_cases heq' : r' = σ.nextRecv
      · rw [heq', Function.update_self]
        exact recvStart_stalled
      · have hr'i : Function.update σ.recvReceiver σ.nextRecv j r' = i := hr'i
        rw [Function.update_of_ne heq'] at hr'i ⊢
        exact hstall r' hlt hr'i
  | @receiver r₀ act e pc hr₀ hrecv =>
    have hr : r < σ.nextRecv := by simpa using hr
    have hri : σ.recvReceiver r = i := by simpa using hri
    have hlive : σ.receivers i = true := by simpa using hlive
    by_cases heq : r₀ = r
    · subst heq
      obtain ⟨e', hrm, htrace, hmem, -, hrr, -⟩ := hm'.recvs_self
      rw [hri] at hrm
      refine PollState.own hrm (hp.poll hr hri hlive) htrace hmem fun r' hlt hr'i => ?_
      -- no other call of the receiver was made while the poll is under way
      have hge : σ.nextRecv ≤ r' := by
        by_contra hlt'
        rw [hrr] at hr'i
        have hfin := (hp.later hr hri r' hlt (not_le.mp hlt') hr'i).2
        rw [recvStep_finished hrecv] at hfin
        exact absurd hfin (by simp)
      show (Function.update σ.recvs r₀ pc r').stalled _
      rw [Function.update_of_ne (by omega), hp.basic.fresh.recv r' hge]
      trivial
    · show PollState ring _ i r (Function.update σ.recvs r₀ pc r)
      rw [Function.update_of_ne (Ne.symm heq)]
      exact PollState.other hp hok hm' hr hri heq (hp.poll hr hri hlive)
  | @dropReceiver j hj hidle =>
    have hlive : Function.update σ.receivers j false i = true := hlive
    have hne : i ≠ j := by
      rintro rfl
      rw [Function.update_self] at hlive
      exact absurd hlive (by simp)
    rw [Function.update_of_ne hne] at hlive
    refine (hp.poll hr hri hlive).quiet (e := some (.dropReceiver j)) rfl ?_ rfl rfl id ?_
    · exact Function.update_of_ne hne _ _
    · exact fun hstall _ => hstall

theorem pollInv_step (hp : PollInv ring initial i r σ) (hok : PollAlone i r σ l)
    (hst : step ring σ l = some σ') : PollInv ring initial i r σ' where
  basic := basic_step hp.basic (moves_of_step hst)
  ordered := by
    refine (moves_of_step hst).forall_sends (J := fun _ pc => pc.ordered)
      (K := fun _ pc => pc.ordered) hp.ordered ?_ (fun _ _ _ _ _ _ => trivial) ?_ fun _ _ h => h
    · exact fun h c _ => start_cases trivial trivial
    · exact fun k act e pc _ _ hsm ho _ _ => hsm.ordered ho
  sync := pollSync_step hp (moves_of_step hst)
  later := pollLater_step hp hok (moves_of_step hst)
  poll := pollState_step hp hok hst

/-- **No lost wake-up.** If the poll `r` of a live receiver has returned `Pending`, no later poll
of the receiver has started, and its next sequence reads as published or its slot carries the
shutdown bit, then the waker of `r` was invoked, or some sender is between its slot-state write and
its notification of the receiver. -/
theorem no_lost_wakeup {i₀ : Fin N} {ls : List (Label T N)}
    (hrun : Run (step ring) (PollAlone i r) (Sys.init initial i₀) ls σ) (hr : r < σ.nextRecv)
    (hri : σ.recvReceiver r = i) (hlive : σ.receivers i = true) (hpend : σ.recvs r = .pending)
    (hready : σ.Ready ring i) : Delivered σ.trace i r ∨ σ.InBetween i := by
  have hp := hrun.invariant (fun hp hok hst => pollInv_step hp hok hst)
    (pollInv_init ring initial i₀ i r)
  have hs := hp.poll hr hri hlive
  rw [hpend] at hs
  rcases hs with hd | ⟨-, hb | ⟨hunready, -⟩⟩
  · exact Or.inl hd
  · exact Or.inr hb
  · exact absurd hready hunready

/-- A poll of an empty channel returns `Pending`; a sender then publishes an item and is in between
until it has notified the receiver. -/
theorem no_lost_wakeup_pending :
    ∃ (ls : List (Label Nat 1)) (σ : Sys Nat 1),
      Run (step ⟨0, by decide⟩) (PollAlone 0 0) (Sys.init (fun _ => 0) 0) ls σ ∧
        σ.recvs 0 = .pending ∧ σ.Ready ⟨0, by decide⟩ 0 ∧
          (Delivered σ.trace 0 0 ∨ σ.InBetween 0) := by
  have hex : (exec (step ⟨0, by decide⟩) (PollAlone 0 0) (Sys.init (fun _ => 0) 0)
      (List.flatten [[.recv 0 1 true], List.replicate 5 (.receiver 0 .run), [.send 0 (.trySend 7)],
        List.replicate 6 (.sender 0 .run)])).any
      (fun σ : Sys Nat 1 => decide (0 < σ.nextRecv ∧ σ.recvReceiver 0 = 0 ∧
        σ.receivers 0 = true ∧ σ.recvs 0 = .pending ∧ σ.mem.consumed 0 = -1 ∧
          lapOf (σ.mem.states 0) = RingBufferMeta.availableFlag ⟨0, by decide⟩ 0)) = true := by
    decide +kernel
  obtain ⟨σ, hrun, hσ⟩ := Run.of_exec_any hex
  obtain ⟨hr, hri, hlive, hpend, hcons, hflag⟩ := of_decide_eq_true hσ
  have hready : σ.Ready ⟨0, by decide⟩ 0 := by
    refine Or.inl ?_
    rw [hcons]
    exact hflag
  exact ⟨_, σ, hrun, hpend, hready, no_lost_wakeup hrun hr hri hlive hpend hready⟩

end

/-! ## What readiness means -/

/-- Where guards are released alone, the next slot reads as published iff its sequence is, and
carries the bit iff its cell is marked. -/
theorem Guarded.ready_iff {ring : RingBufferMeta} {initial : Nat → T} {σ : Sys T N} {i : Fin N}
    (hg : Guarded ring initial σ) (hlive : σ.receivers i = true) :
    σ.Ready ring i ↔ Published σ.trace (σ.mem.consumed i + 1) ∨
      Marked ring.bufferSize σ.trace ((σ.mem.consumed i + 1) % ring.bufferSize) := by
  have hd : ¬ Dropped σ.trace i := by
    rw [hg.inv.borrow.dropped, hlive]
    simp
  have hc := ring.bufferSize_pos
  unfold Sys.Ready
  rw [hg.inv.sound.consumed_eq hd]
  refine or_congr (hg.lag.flag_iff hg.inv hd (by omega) (by omega)) ?_
  rw [hg.inv.sound.mem]
  exact shutdownOf_replay

end EnsoChannel
