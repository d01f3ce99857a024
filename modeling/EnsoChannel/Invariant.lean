import EnsoChannel.Handles

/-!
# The invariant of every run

`Inv` holds in every state that a run in range reaches, whatever the users do: several guards of
one receiver at once, released in any order, recyclers that panic, permits and guards that are
leaked, closes that race (`Inv.of_run`). It says that the shared memory is the replay of a legal
history (`Sound`), and that every call under way can rely on what it read (`SenderInv`,
`RecvInv`). What needs more from the receivers is in the modules above this one.

`Moves.of_sendSide` says which call performs an event of the sender side.
-/

namespace EnsoChannel

open Lib

variable {T : Type} {N : Nat}

/-- **The invariant of every run in range.** -/
structure Inv (ring : RingBufferMeta) (initial : Nat → T) (σ : Sys T N) : Prop where
  fresh : Fresh σ
  borrow : Borrow σ
  sound : Sound ring initial σ.trace σ.mem
  send : ∀ k, SenderInv ring.bufferSize σ.trace k (σ.sends k)
  recv : ∀ r, RecvInv ring.bufferSize σ.trace (σ.recvs r)

/-- The events of the sender side. -/
def Event.sendSide : Event T N → Bool
  | .release _ _ _ | .dropReceiver _ | .register _ _ | .ret _ _ _ => false
  | _ => true

section

variable {ring : RingBufferMeta} {initial : Nat → T} {σ σ' : Sys T N} {l : Label T N}
  {k k' r : Nat} {i : Fin N} {m : Mem T N} {e : Event T N}

/-! ## Who performs which event -/

/-- A call publishes under its own name. -/
theorem SenderMoves.publish_self {pc pc' : SenderPc T} {act : SenderAct T} {s : Int}
    (hm : SenderMoves ring k m pc act (some (.publish k' s)) pc') : k' = k := by
  cases hm
  rfl

/-- A `close()` stores over the value it loaded. -/
theorem SenderMoves.shut_read {c raw : Int} {h : History T N} {pc pc' : SenderPc T}
    {act : SenderAct T} (hm : SenderMoves ring k m pc act (some (.shut raw)) pc')
    (hi : SenderInv c h k pc) : ∃ caller, CloseRead h caller raw := by
  cases hm with
  | @closeStore raw caller => exact ⟨caller, hi.2⟩

theorem Returns.sendSide {q : RecvCall} {lc available : Int} {shutdown : Bool} {pc : RecvPc}
    (hret : Returns r i q lc available shutdown (some e) pc) : e.sendSide = false := by
  cases hret <;> rfl

/-- A receive call performs no event of the sender side. -/
theorem RecvMoves.sendSide {pc pc' : RecvPc} {act : RecvAct}
    (hm : RecvMoves ring r i m pc act (some e) pc') : e.sendSide = false := by
  cases hm with
  | loadEmpty _ hret | scanEnd _ _ hret | scanStop _ hret => exact hret.sendSide
  | _ => rfl

/-- A sender call performs events of the sender side only. -/
theorem SenderMoves.sendSide {pc pc' : SenderPc T} {act : SenderAct T}
    (hm : SenderMoves ring k m pc act (some e) pc') : e.sendSide = true := by
  cases hm <;> rfl

/-- **An event of the sender side is performed by a sender call.** -/
theorem Moves.of_sendSide (hm : Moves ring σ l σ') (htrace : σ'.trace = e :: σ.trace)
    (he : e.sendSide = true) :
    ∃ k act pc, l = .sender k act ∧ k < σ.nextSend ∧ σ'.mem = σ.mem.apply ring e ∧
      SenderMoves ring k σ.mem (σ.sends k) act (some e) pc := by
  rcases hm.event_cases with ⟨hsame, -⟩ | ⟨e', htrace', hmem, hfrom⟩
  · exact absurd (hsame ▸ htrace) (by simp)
  · obtain rfl : e' = e := by
      rw [htrace'] at htrace
      exact (List.cons.inj htrace).1
    rcases hfrom with ⟨k, act, pc, hl, hk, hsm⟩ | ⟨r, act, pc, -, -, hrm⟩ | ⟨i, -, rfl⟩
    · exact ⟨k, act, pc, hl, hk, hmem, hsm⟩
    · rw [hrm.sendSide] at he
      exact absurd he (by simp)
    · exact absurd he (by simp [Event.sendSide])

/-- Another party publishes nothing for a call. -/
theorem Moves.publish_other (hm : Moves ring σ l σ') (hl : ∀ act, l ≠ .sender k act)
    (htrace : σ'.trace = e :: σ.trace) (s : Int) : e ≠ .publish k s := by
  rintro rfl
  obtain ⟨k', act, pc, rfl, -, -, hsm⟩ := hm.of_sendSide htrace rfl
  exact hl act (by rw [hsm.publish_self])

/-- During the tear-down no other call is under way. -/
theorem Moves.silent_of_teardown (hm : Moves ring σ l σ') (hf : Fresh σ) (hb : Borrow σ)
    (ht : (σ.sends k).teardown = true) (hl : ∀ act, l ≠ .sender k act)
    (htrace : σ'.trace = e :: σ.trace) : e.sendSide = false := by
  rw [Bool.eq_false_iff]
  intro he
  obtain ⟨k', act, pc, rfl, hk', -, hsm⟩ := hm.of_sendSide htrace he
  have hne : k' ≠ k := by
    rintro rfl
    exact hl act rfl
  have hover := hb.finished_of_teardown (hf.lt_of_teardown ht) ht hk' hne
  rw [hsm.unfinished] at hover
  exact absurd hover (by simp)

/-! ## The invariant -/

theorem inv_init (ring : RingBufferMeta) (initial : Nat → T) (i₀ : Fin N) :
    Inv ring initial (Sys.init initial i₀) where
  fresh := fresh_init initial i₀
  borrow := borrow_init initial i₀
  sound :=
    { mem := rfl
      legal := trivial
      claimed := Or.inl rfl
      bound := by show (-1 : Int) + 1 < 2 ^ 62; norm_num }
  send _ := trivial
  recv _ := trivial

/-- The operations claim with a positive limit, or not at all. -/
theorem senderInv_start {c : Int} {h : History T N} {call : SendCall T}
    (hlimit : ∀ n, call = .trySendAtMost n → (n : Int) ≤ i64Max) :
    SenderInv c h k call.start := by
  have hempty : OwnBatch h k ⟨0, -1, 0⟩ := by
    refine ⟨le_refl _, le_refl _, by norm_num, fun s h₀ h₁ => ?_⟩
    have h₀ : (0 : Int) ≤ s := h₀
    have h₁ : s ≤ -1 := h₁
    omega
  cases call with
  | trySend v => exact le_refl (1 : Int)
  | tryReserve => exact le_refl (1 : Int)
  | trySendAtMost n =>
    cases n with
    | zero => exact hempty
    | succ n =>
      show 1 ≤ usizeAsI64 (n + 1)
      rw [usizeAsI64_eq (hlimit _ rfl)]
      omega

theorem recvInv_start {c : Int} {h : History T N} {limit : Nat} {async : Bool} :
    RecvInv c h (recvStart limit async) := by
  unfold recvStart
  split
  · exact ⟨fun _ => rfl, fun hne => absurd rfl hne⟩
  · trivial

/-- **Every event is legal** where it is performed. -/
theorem Inv.legal_step (hi : Inv ring initial σ) (hm : Moves ring σ l σ') :
    Legal ring.bufferSize σ'.trace := by
  cases hm with
  | clone | dropSender | dropLast | send | recv => exact hi.sound.legal
  | @sender k act e pc hk hst =>
    show Legal ring.bufferSize (σ.perform ring e).trace
    rw [perform_trace]
    exact ((hi.send k).step hi.sound (senderMoves_of_step hst)).1
  | @receiver r act e pc hr hst =>
    have hlive := hi.borrow.live_of_recv hr (recvStep_finished hst)
    show Legal ring.bufferSize (σ.perform ring e).trace
    rw [perform_trace]
    exact ((hi.recv r).step hi.sound hlive (recvMoves_of_step hst)).1
  | @dropReceiver i hlive hidle =>
    refine ⟨hi.sound.legal, ?_⟩
    show ¬ Dropped σ.trace i
    rw [hi.borrow.dropped, hlive]
    simp

/-- What a `close()` stores it has loaded. -/
theorem Inv.shut_read (hi : Inv ring initial σ) (hm : Moves ring σ l σ') {raw : Int}
    (htrace : σ'.trace = .shut raw :: σ.trace) : ∃ caller, CloseRead σ.trace caller raw := by
  obtain ⟨k, act, pc, -, -, -, hsm⟩ := hm.of_sendSide htrace rfl
  exact hsm.shut_read (hi.send k)

/-- The memory stays the replay of the trace. -/
theorem Inv.sound_step (hi : Inv ring initial σ) (hm : Moves ring σ l σ')
    (hbound : highest σ'.trace + 1 < 2 ^ 62) : Sound ring initial σ'.trace σ'.mem := by
  have hl := hi.legal_step hm
  rcases hm.event_cases with ⟨htrace, hmem⟩ | ⟨e, htrace, hmem, -⟩
  · rw [htrace, hmem]
    exact hi.sound
  · have hreplay : σ'.mem = replay ring initial (e :: σ.trace) := by
      rw [hmem, hi.sound.mem]
      rfl
    rw [htrace] at hl hbound ⊢
    refine ⟨hreplay, hl, ?_, hbound⟩
    rw [hreplay]
    refine claimedIs_cons hl hi.sound.bound (hi.sound.mem ▸ hi.sound.claimed) ?_
    rintro raw rfl
    exact hi.shut_read hm htrace

/-- A step of another party keeps what a sender call relies on. -/
theorem Inv.send_other (hi : Inv ring initial σ) (hm : Moves ring σ l σ')
    (hk : ∀ act, l ≠ .sender k act) :
    SenderInv ring.bufferSize σ'.trace k (σ.sends k) := by
  have hl := hi.legal_step hm
  rcases hm.event_cases with ⟨htrace, -⟩ | ⟨e, htrace, -, -⟩
  · rw [htrace]
    exact hi.send k
  · rw [htrace] at hl ⊢
    refine (hi.send k).cons hl (hm.publish_other hk htrace) ?_
    rintro ht k' a b rfl
    have hside := hm.silent_of_teardown hi.fresh hi.borrow ht hk htrace
    exact absurd hside (by simp [Event.sendSide])

/-- **Every step in range keeps the invariant.** -/
theorem inv_step (hi : Inv ring initial σ) (hok : InRange ring σ l)
    (hst : step ring σ l = some σ') : Inv ring initial σ' := by
  have hm := moves_of_step hst
  refine ⟨fresh_step hi.fresh hm, borrow_step hi.fresh hi.borrow hm,
    hi.sound_step hm (hok.2 σ' hst), ?_, ?_⟩
  · refine hm.forall_sends (J := fun k pc => σ.sends k = pc)
      (K := fun k pc => SenderInv ring.bufferSize σ'.trace k pc) (fun _ => rfl) ?_ ?_ ?_ ?_
    · exact fun h c heq => senderInv_start fun n hc => hok.1 h n (by rw [heq, hc])
    · exact fun _ _ _ _ _ _ => ⟨trivial, trivial⟩
    · intro k act e pc _ _ hsm _ htrace _
      rw [htrace]
      exact ((hi.send k).step hi.sound hsm).2
    · exact fun k hk _ => hi.send_other hm hk
  · obtain ⟨e, htrace⟩ := hm.trace_cases
    refine hm.forall_recvs (J := fun _ _ pc => RecvInv ring.bufferSize σ.trace pc)
      (K := fun _ _ pc => RecvInv ring.bufferSize σ'.trace pc) hi.recv ?_ ?_ ?_
    · exact fun i limit async _ => recvInv_start
    · intro r act e' pc _ hr hrm hr' htrace' _
      rw [htrace']
      exact (hr'.step hi.sound (hi.borrow.live_of_recv hr hrm.unfinished) hrm).2
    · intro r _ hr
      rw [htrace]
      exact hr.record

/-- **Every run in range keeps the invariant**, whatever else it is disciplined by. -/
theorem Inv.of_run {ok : Sys T N → Label T N → Prop} {ls : List (Label T N)}
    (hok : ∀ {σ l}, ok σ l → InRange ring σ l) (hi : Inv ring initial σ)
    (hrun : Run (EnsoChannel.step ring) ok σ ls σ') : Inv ring initial σ' :=
  hrun.invariant (fun hi h hst => inv_step hi (hok h) hst) hi

end

end EnsoChannel
