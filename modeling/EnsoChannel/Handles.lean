import EnsoChannel.Reading

/-!
# Handles and calls

What the borrow checker gives the proofs, read off the guards of `step`:

* `Fresh`: ids that were not given out are unused.
* `Borrow`: a call under way keeps its handle alive. A sender call that is not over is the
  tear-down itself or has a live sender handle; a receive call that is not over, or whose guard is
  live, has a live receiver. While there is a tear-down there is no sender handle, so every other
  sender call is over (`Borrow.finished_of_teardown`), and there is only one tear-down.
* `Borrow.live_of_recv`: what a receiver is doing, it does before it is dropped.
-/

namespace EnsoChannel

open Lib

variable {T : Type} {N : Nat}

/-- Ids that were not given out are unused. -/
structure Fresh (σ : Sys T N) : Prop where
  send : ∀ k, σ.nextSend ≤ k → σ.sends k = .idle
  recv : ∀ r, σ.nextRecv ≤ r → σ.recvs r = .idle
  sender : ∀ h, σ.nextSender ≤ h → σ.senders h = false

/-- Calls keep their handles alive. -/
structure Borrow (σ : Sys T N) : Prop where
  sender : ∀ k < σ.nextSend, (σ.sends k).finished = false → (σ.sends k).teardown = false →
    σ.senders (σ.sendHandle k) = true
  /-- The tear-down starts when the last handle is gone. -/
  torn : ∀ k < σ.nextSend, (σ.sends k).teardown = true → ∀ h, σ.senders h = false
  one : ∀ k < σ.nextSend, ∀ k' < σ.nextSend, (σ.sends k).teardown = true →
    (σ.sends k').teardown = true → k = k'
  receiver : ∀ r < σ.nextRecv, (σ.recvs r).finished = false → σ.receivers (σ.recvReceiver r) = true
  dropped : ∀ i, Dropped σ.trace i ↔ σ.receivers i = false

section

variable {ring : RingBufferMeta} {σ σ' : Sys T N} {l : Label T N} {k r : Nat} {i j : Fin N}
  {m : Mem T N} {e : Event T N}

theorem fresh_init (initial : Nat → T) (i₀ : Fin N) : Fresh (Sys.init initial i₀) where
  send _ _ := rfl
  recv _ _ := rfl
  sender h hh := by
    show (h == 0) = false
    have : 1 ≤ h := hh
    rw [beq_eq_false_iff_ne]
    omega

theorem fresh_step (hf : Fresh σ) (hm : Moves ring σ l σ') : Fresh σ' := by
  cases hm with
  | clone =>
    refine ⟨hf.send, hf.recv, fun h hh => ?_⟩
    have hh : σ.nextSender + 1 ≤ h := hh
    show Function.update σ.senders σ.nextSender true h = false
    rw [Function.update_of_ne (by omega), hf.sender h (by omega)]
  | @dropSender h' =>
    refine ⟨hf.send, hf.recv, fun h hh => ?_⟩
    show Function.update σ.senders h' false h = false
    by_cases heq : h = h'
    · rw [heq, Function.update_self]
    · rw [Function.update_of_ne heq, hf.sender h hh]
  | @dropLast h' =>
    refine ⟨fun k hk => ?_, hf.recv, fun h hh => ?_⟩
    · have hk : σ.nextSend + 1 ≤ k := hk
      show Function.update σ.sends σ.nextSend _ k = .idle
      rw [Function.update_of_ne (by omega), hf.send k (by omega)]
    · show Function.update σ.senders h' false h = false
      by_cases heq : h = h'
      · rw [heq, Function.update_self]
      · rw [Function.update_of_ne heq, hf.sender h hh]
  | send =>
    refine ⟨fun k hk => ?_, hf.recv, hf.sender⟩
    have hk : σ.nextSend + 1 ≤ k := hk
    show Function.update σ.sends σ.nextSend _ k = .idle
    rw [Function.update_of_ne (by omega), hf.send k (by omega)]
  | @sender k' act e pc hk' =>
    refine ⟨fun k hk => ?_, ?_, ?_⟩
    · have hk : σ.nextSend ≤ k := by simpa using hk
      show Function.update σ.sends k' pc k = .idle
      rw [Function.update_of_ne (by omega), hf.send k hk]
    · simpa using hf.recv
    · simpa using hf.sender
  | recv =>
    refine ⟨hf.send, fun r hr => ?_, hf.sender⟩
    have hr : σ.nextRecv + 1 ≤ r := hr
    show Function.update σ.recvs σ.nextRecv _ r = .idle
    rw [Function.update_of_ne (by omega), hf.recv r (by omega)]
  | @receiver r' act e pc hr' =>
    refine ⟨?_, fun r hr => ?_, ?_⟩
    · simpa using hf.send
    · have hr : σ.nextRecv ≤ r := by simpa using hr
      show Function.update σ.recvs r' pc r = .idle
      rw [Function.update_of_ne (by omega), hf.recv r hr]
    · simpa using hf.sender
  | dropReceiver => exact ⟨hf.send, hf.recv, hf.sender⟩

theorem SenderMoves.not_drop {pc pc' : SenderPc T} {act : SenderAct T}
    (hm : SenderMoves ring k m pc act (some e) pc') : e ≠ .dropReceiver i := by
  cases hm <;> simp

theorem Returns.not_drop {q : RecvCall} {lc available : Int} {shutdown : Bool} {pc : RecvPc}
    (hret : Returns r j q lc available shutdown (some e) pc) : e ≠ .dropReceiver i := by
  cases hret <;> simp

theorem RecvMoves.not_drop {pc pc' : RecvPc} {act : RecvAct}
    (hm : RecvMoves ring r j m pc act (some e) pc') : e ≠ .dropReceiver i := by
  cases hm with
  | loadEmpty _ hret | scanEnd _ _ hret | scanStop _ hret => exact hret.not_drop
  | _ => simp

theorem dropped_record {e : Option (Event T N)} {h : History T N}
    (he : ∀ e', e = some e' → e' ≠ .dropReceiver i) : Dropped (record e h) i ↔ Dropped h i := by
  cases e with
  | none => exact Iff.rfl
  | some e =>
    show Dropped (e :: h) i ↔ Dropped h i
    rw [dropped_cons]
    exact or_iff_right (he e rfl)

theorem borrow_init (initial : Nat → T) (i₀ : Fin N) : Borrow (Sys.init initial i₀) where
  sender k hk := absurd hk (Nat.not_lt_zero k)
  torn k hk := absurd hk (Nat.not_lt_zero k)
  one k hk := absurd hk (Nat.not_lt_zero k)
  receiver r hr := absurd hr (Nat.not_lt_zero r)
  dropped i := by
    show Event.dropReceiver i ∈ [] ↔ true = false
    simp

/-- A call that stands somewhere was made. -/
theorem Fresh.lt_of_send (hf : Fresh σ) (hk : σ.sends k ≠ .idle) : k < σ.nextSend :=
  lt_of_not_ge fun hge => hk (hf.send k hge)

theorem Fresh.lt_of_recv (hf : Fresh σ) (hr : σ.recvs r ≠ .idle) : r < σ.nextRecv :=
  lt_of_not_ge fun hge => hr (hf.recv r hge)

theorem Fresh.lt_of_teardown (hf : Fresh σ) (ht : (σ.sends k).teardown = true) : k < σ.nextSend :=
  hf.lt_of_send fun hidle => by simp [hidle, SenderPc.teardown] at ht

/-- A live handle was made. -/
theorem Fresh.lt_of_live {h : Nat} (hf : Fresh σ) (hlive : σ.senders h = true) :
    h < σ.nextSender := by
  by_contra hlt
  rw [hf.sender h (not_lt.mp hlt)] at hlive
  exact absurd hlive (by simp)

/-- While a sender handle lives there is no tear-down. -/
theorem Borrow.not_teardown {h : Nat} (hb : Borrow σ) (hlive : σ.senders h = true)
    (hk : k < σ.nextSend) : (σ.sends k).teardown = false := by
  rw [Bool.eq_false_iff]
  intro ht
  rw [hb.torn k hk ht h] at hlive
  exact absurd hlive (by simp)

/-- A call that is under way still borrows its handle after the step. -/
theorem Borrow.sender_step (hf : Fresh σ) (hb : Borrow σ) (hm : Moves ring σ l σ') :
    ∀ k < σ'.nextSend, (σ'.sends k).finished = false → (σ'.sends k).teardown = false →
      σ'.senders (σ'.sendHandle k) = true := by
  cases hm with
  | recv | dropReceiver => exact hb.sender
  | receiver => simpa using hb.sender
  | clone =>
    intro k hk h₁ h₂
    have hne : σ.sendHandle k ≠ σ.nextSender := (hf.lt_of_live (hb.sender k hk h₁ h₂)).ne
    exact (Function.update_of_ne hne _ _).trans (hb.sender k hk h₁ h₂)
  | @dropSender h hlive hidle hother =>
    intro k hk h₁ h₂
    have hne : σ.sendHandle k ≠ h := by
      intro heq
      exact absurd ((hidle k hk heq).symm.trans h₁) (by simp)
    exact (Function.update_of_ne hne _ _).trans (hb.sender k hk h₁ h₂)
  | @dropLast h hlive hidle hlast =>
    intro k hk
    have hk : k < σ.nextSend + 1 := hk
    show (Function.update σ.sends σ.nextSend _ k).finished = false →
      (Function.update σ.sends σ.nextSend _ k).teardown = false →
      Function.update σ.senders h false (Function.update σ.sendHandle σ.nextSend h k) = true
    rcases Nat.lt_succ_iff_lt_or_eq.mp hk with hlt | rfl
    · have hne : k ≠ σ.nextSend := by omega
      rw [Function.update_of_ne hne, Function.update_of_ne hne]
      intro h₁ h₂
      -- no call was under way on the last handle, and the other handles are gone
      have hlive' := hb.sender k hlt h₁ h₂
      by_cases heq : σ.sendHandle k = h
      · rw [hidle k hlt heq] at h₁
        exact absurd h₁ (by simp)
      · rw [hlast _ (hf.lt_of_live hlive') heq] at hlive'
        exact absurd hlive' (by simp)
    · rw [Function.update_self]
      intro _ h₂
      exact absurd h₂ (by simp [SenderPc.teardown])
  | @send h c hlive =>
    intro k hk
    have hk : k < σ.nextSend + 1 := hk
    show (Function.update σ.sends σ.nextSend _ k).finished = false →
      (Function.update σ.sends σ.nextSend _ k).teardown = false →
      σ.senders (Function.update σ.sendHandle σ.nextSend h k) = true
    rcases Nat.lt_succ_iff_lt_or_eq.mp hk with hlt | rfl
    · rw [Function.update_of_ne (by omega), Function.update_of_ne (by omega)]
      exact hb.sender k hlt
    · intro _ _
      rw [Function.update_self, hlive]
  | @sender k₀ act e pc hk₀ hst =>
    intro k hk
    have hk : k < σ.nextSend := by simpa using hk
    show (Function.update σ.sends k₀ pc k).finished = false →
      (Function.update σ.sends k₀ pc k).teardown = false →
      (σ.perform ring e).senders ((σ.perform ring e).sendHandle k) = true
    rw [perform_senders, perform_sendHandle]
    intro h₁ h₂
    by_cases heq : k = k₀
    · rw [heq, Function.update_self, senderStep_teardown hst] at h₂
      rw [heq]
      exact hb.sender k₀ hk₀ (senderStep_finished hst) h₂
    · rw [Function.update_of_ne heq] at h₁ h₂
      exact hb.sender k hk h₁ h₂

/-- During the tear-down no handle is made, and none is left to drop. -/
theorem Borrow.senders_of_teardown (hb : Borrow σ) (hm : Moves ring σ l σ')
    (hk : k < σ.nextSend) (ht : (σ.sends k).teardown = true) : σ'.senders = σ.senders := by
  cases hm with
  | clone hlive | dropSender hlive | dropLast hlive =>
    rw [hb.not_teardown hlive hk] at ht
    exact absurd ht (by simp)
  | sender | receiver => exact perform_senders ring σ _
  | send | recv | dropReceiver => rfl

/-- A tear-down is under way already, or the step drops the last handle. -/
theorem Moves.of_teardown (hf : Fresh σ) (hm : Moves ring σ l σ')
    (ht : (σ'.sends k).teardown = true) : (σ.sends k).teardown = true ∨
      k = σ.nextSend ∧ (∃ h, l = .dropSender h) ∧ ∀ h', σ'.senders h' = false := by
  cases hm with
  | clone | dropSender | recv | dropReceiver => exact Or.inl ht
  | receiver => exact Or.inl (by simpa using ht)
  | @dropLast h hlive hidle hlast =>
    by_cases heq : k = σ.nextSend
    · refine Or.inr ⟨heq, ⟨h, rfl⟩, fun h' => ?_⟩
      show Function.update σ.senders h false h' = false
      by_cases hh : h' = h
      · rw [hh, Function.update_self]
      · rw [Function.update_of_ne hh]
        rcases lt_or_ge h' σ.nextSender with hlt | hge
        · exact hlast h' hlt hh
        · exact hf.sender h' hge
    · exact Or.inl ((congrArg SenderPc.teardown (Function.update_of_ne heq _ _)).symm.trans ht)
  | @send h c hlive =>
    by_cases heq : k = σ.nextSend
    · have ht : (Function.update σ.sends σ.nextSend c.start k).teardown = true := ht
      rw [heq, Function.update_self, start_teardown] at ht
      exact absurd ht (by simp)
    · exact Or.inl ((congrArg SenderPc.teardown (Function.update_of_ne heq _ _)).symm.trans ht)
  | @sender k₀ act e pc hk₀ hst =>
    have ht : (Function.update σ.sends k₀ pc k).teardown = true := ht
    by_cases heq : k = k₀
    · rw [heq, Function.update_self, senderStep_teardown hst] at ht
      exact Or.inl (heq ▸ ht)
    · exact Or.inl (by rwa [Function.update_of_ne heq] at ht)

theorem Borrow.torn_step (hf : Fresh σ) (hb : Borrow σ) (hm : Moves ring σ l σ')
    (ht : (σ'.sends k).teardown = true) (h : Nat) : σ'.senders h = false := by
  rcases hm.of_teardown hf ht with hold | ⟨-, -, hgone⟩
  · have hk := hf.lt_of_teardown hold
    rw [hb.senders_of_teardown hm hk hold]
    exact hb.torn k hk hold h
  · exact hgone h

/-- There is only one tear-down. -/
theorem Borrow.one_step {k' : Nat} (hf : Fresh σ) (hb : Borrow σ) (hm : Moves ring σ l σ')
    (ht : (σ'.sends k).teardown = true) (ht' : (σ'.sends k').teardown = true) : k = k' := by
  have hnone : ∀ j h, l = .dropSender h → (σ.sends j).teardown = false := by
    rintro j h rfl
    rw [Bool.eq_false_iff]
    intro hj
    rw [hb.not_teardown hm.live_of_dropSender (hf.lt_of_teardown hj)] at hj
    exact absurd hj (by simp)
  rcases hm.of_teardown hf ht with hold | ⟨hk, ⟨h, hl⟩, -⟩
  · rcases hm.of_teardown hf ht' with hold' | ⟨-, ⟨h, hl⟩, -⟩
    · exact hb.one k (hf.lt_of_teardown hold) k' (hf.lt_of_teardown hold') hold hold'
    · rw [hnone k h hl] at hold
      exact absurd hold (by simp)
  · rcases hm.of_teardown hf ht' with hold' | ⟨hk', -, -⟩
    · rw [hnone k' h hl] at hold'
      exact absurd hold' (by simp)
    · rw [hk, hk']

/-- A receive call that is under way still borrows its receiver after the step. -/
theorem Borrow.receiver_step (hb : Borrow σ) (hm : Moves ring σ l σ') :
    ∀ r < σ'.nextRecv, (σ'.recvs r).finished = false → σ'.receivers (σ'.recvReceiver r) = true := by
  cases hm with
  | clone | dropSender | dropLast | send => exact hb.receiver
  | sender => simpa using hb.receiver
  | @recv i limit async hlive =>
    intro r hr
    have hr : r < σ.nextRecv + 1 := hr
    show (Function.update σ.recvs σ.nextRecv _ r).finished = false →
      σ.receivers (Function.update σ.recvReceiver σ.nextRecv i r) = true
    rcases Nat.lt_succ_iff_lt_or_eq.mp hr with hlt | rfl
    · rw [Function.update_of_ne (by omega), Function.update_of_ne (by omega)]
      exact hb.receiver r hlt
    · intro _
      rw [Function.update_self, hlive]
  | @receiver r₀ act e pc hr₀ hst =>
    intro r hr
    have hr : r < σ.nextRecv := by simpa using hr
    show (Function.update σ.recvs r₀ pc r).finished = false →
      (σ.perform ring e).receivers ((σ.perform ring e).recvReceiver r) = true
    rw [perform_receivers, perform_recvReceiver]
    intro h₁
    by_cases heq : r = r₀
    · exact hb.receiver r hr (by rw [heq]; exact recvStep_finished hst)
    · rw [Function.update_of_ne heq] at h₁
      exact hb.receiver r hr h₁
  | @dropReceiver i₀ hlive hidle =>
    intro r hr h₁
    have hne : σ.recvReceiver r ≠ i₀ := by
      intro heq
      exact absurd ((hidle r hr heq).symm.trans h₁) (by simp)
    exact (Function.update_of_ne hne _ _).trans (hb.receiver r hr h₁)

/-- The trace knows which receivers were dropped. -/
theorem Borrow.dropped_step (hb : Borrow σ) (hm : Moves ring σ l σ') (i : Fin N) :
    Dropped σ'.trace i ↔ σ'.receivers i = false := by
  cases hm with
  | clone | dropSender | dropLast | send | recv => exact hb.dropped i
  | @sender k₀ act e pc hk₀ hst =>
    show Dropped (σ.perform ring e).trace i ↔ (σ.perform ring e).receivers i = false
    rw [perform_trace, perform_receivers, dropped_record, hb.dropped]
    rintro e' rfl
    exact (senderMoves_of_step hst).not_drop
  | @receiver r₀ act e pc hr₀ hst =>
    show Dropped (σ.perform ring e).trace i ↔ (σ.perform ring e).receivers i = false
    rw [perform_trace, perform_receivers, dropped_record, hb.dropped]
    rintro e' rfl
    exact (recvMoves_of_step hst).not_drop
  | @dropReceiver i₀ hlive hidle =>
    show Dropped (Event.dropReceiver i₀ :: σ.trace) i ↔
      Function.update σ.receivers i₀ false i = false
    rw [dropped_cons, hb.dropped]
    by_cases heq : i = i₀
    · rw [heq, Function.update_self]
      simp
    · rw [Function.update_of_ne heq, Event.dropReceiver.injEq]
      exact or_iff_right (Ne.symm heq)

theorem borrow_step (hf : Fresh σ) (hb : Borrow σ) (hm : Moves ring σ l σ') : Borrow σ' where
  sender := hb.sender_step hf hm
  torn _ _ ht := hb.torn_step hf hm ht
  one _ _ _ _ ht ht' := hb.one_step hf hm ht ht'
  receiver := hb.receiver_step hm
  dropped := hb.dropped_step hm

/-- **During the tear-down every other sender call is over.** -/
theorem Borrow.finished_of_teardown {k' : Nat} (hb : Borrow σ) (hk : k < σ.nextSend)
    (ht : (σ.sends k).teardown = true) (hk' : k' < σ.nextSend) (hne : k' ≠ k) :
    (σ.sends k').finished = true := by
  by_contra hfin
  have hfin : (σ.sends k').finished = false := Bool.eq_false_iff.mpr hfin
  have htear : (σ.sends k').teardown = false := by
    rw [Bool.eq_false_iff]
    exact fun ht' => hne (hb.one k' hk' k hk ht' ht)
  have hlive := hb.sender k' hk' hfin htear
  rw [hb.torn k hk ht] at hlive
  exact absurd hlive (by simp)

/-- What a receiver is doing, it does before it is dropped. -/
theorem Borrow.live_of_recv (hb : Borrow σ) (hr : r < σ.nextRecv)
    (hfin : (σ.recvs r).finished = false) : ¬ Dropped σ.trace (σ.recvReceiver r) := by
  rw [hb.dropped, hb.receiver r hr hfin]
  simp

end

end EnsoChannel
