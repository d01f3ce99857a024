import EnsoChannel.Lag

/-!
# Disconnection of the senders

The shutdown signal of the sender side is the sign bit of `claimed`, whose initial value `-1` has
that bit set already. `Closed`: the signal is set, or every receiver is dropped. The invariant
`ClosedInv` says where a `Shutdown` comes from, and `closed_step` that nothing takes it back: a
compare-exchange succeeds on an open cursor only, and a `close()` stores a shutdown value over
whatever it loaded (it loads `-1` only in the tear-down of a channel that was never used).

* `disconnection_permanent`: a claim returns `Shutdown` only if all receivers are dropped or some
  `close()` has started; once a `terminate()` has returned, or all receivers are dropped, or a
  claim has returned `Shutdown`, every claim that starts later returns `Shutdown`, within
  `N + 2` of its own steps; an open cursor is never misread, nor is the cursor of a live receiver.
-/

namespace EnsoChannel

open Lib

variable {T : Type} {N : Nat}

/-- No claim can succeed any more. -/
def Closed (σ : Sys T N) : Prop :=
  hasShutdown σ.mem.claimed = true ∨ ∀ i, Dropped σ.trace i

/-- Some `close()` has started. -/
def CloseStarted (h : History T N) : Prop := ∃ k, Event.closeStart k ∈ h

/-- What a sender call knows about the shutdown. -/
def SenderClosed (σ : Sys T N) : SenderPc T → Prop
  | .refused .shutdown => Closed σ
  | .closing (.notify _) caller =>
    CloseStarted σ.trace ∧ (caller = .lastSender ∨ hasShutdown σ.mem.claimed = true)
  | .closing .load _ => True
  | .closing _ _ => CloseStarted σ.trace
  | _ => True

/-- Where a shutdown comes from. -/
structure ClosedInv (σ : Sys T N) : Prop where
  send : ∀ k, SenderClosed σ (σ.sends k)
  shut : ∀ raw, Event.shut raw ∈ σ.trace →
    CloseStarted σ.trace ∧ (raw ≠ -1 → hasShutdown σ.mem.claimed = true)
  ended : ∀ k, Event.closeEnd k ∈ σ.trace →
    hasShutdown σ.mem.claimed = true ∨ ∃ k' < σ.nextSend, (σ.sends k').teardown = true

section

variable {ring : RingBufferMeta} {initial : Nat → T} {σ σ' : Sys T N} {l : Label T N} {k : Nat}
  {h : History T N} {m : Mem T N} {pc pc' : SenderPc T} {act : SenderAct T}

/-! ## Nothing takes a shutdown back -/

/-- A shutdown value of the cursor stays one. -/
theorem hasShutdown_apply {c : Int} {e : Event T N} (hs : Sound ring initial h m)
    (hl : Legal c (e :: h)) (hshut : hasShutdown m.claimed = true)
    (hread : ∀ raw, e = .shut raw → ∃ caller, CloseRead h caller raw)
    (hcas : ∀ k a b, e = .claim k a b → -1 ≤ m.claimed) :
    hasShutdown (m.apply ring e).claimed = true := by
  rw [hasShutdown_eq_true] at hshut ⊢
  cases e with
  | claim k a b =>
    have := hcas k a b rfl
    omega
  | shut raw =>
    obtain ⟨caller, hr⟩ := hread raw rfl
    have hb := hs.bound
    show i64Or raw shutdownMask < -1
    rcases hr.or_shutdownMask hb with ⟨R, h₀, h₁, heq⟩ | ⟨heq, hh, -⟩
    · rw [heq]
      unfold i64Min
      omega
    · rcases hs.claimed with hcl | ⟨R, h₀, h₁, -⟩ <;> omega
  | _ => exact hshut

/-- A grant needs an open cursor. -/
theorem SenderMoves.claim_open {c : Int} {k' : Nat} {a b : Int} (hi : SenderInv c h k pc)
    (hm : SenderMoves ring k m pc act (some (.claim k' a b)) pc') : -1 ≤ m.claimed := by
  cases hm with
  | claim hcas => rw [hcas]; exact hi.2.1

/-- Storing over a claimed sequence sets the signal. -/
theorem SenderMoves.shut_sets (hs : Sound ring initial h m) {raw : Int}
    (hi : SenderInv ring.bufferSize h k pc)
    (hm : SenderMoves ring k m pc act (some (.shut raw)) pc') (hraw : raw ≠ -1) :
    hasShutdown (m.apply ring (.shut raw)).claimed = true := by
  obtain ⟨caller, hr⟩ := hm.shut_read hi
  have hb := hs.bound
  rw [hasShutdown_eq_true]
  show i64Or raw shutdownMask < -1
  rcases hr with ⟨R, h₀, h₁, rfl | rfl⟩ | ⟨rfl, -, -⟩
  · rw [or_shutdownMask_of_nonneg h₀ (by unfold i64Max; omega)]
    unfold i64Min
    omega
  · rw [or_shutdownMask_of_neg (by unfold i64Min; omega) (by unfold i64Min; omega)]
    unfold i64Min
    omega
  · exact absurd rfl hraw

theorem hasShutdown_step (hi : Inv ring initial σ) (hm : Moves ring σ l σ')
    (hshut : hasShutdown σ.mem.claimed = true) : hasShutdown σ'.mem.claimed = true := by
  rcases hm.event_cases with ⟨-, hmem⟩ | ⟨e, htrace, hmem, -⟩
  · rwa [hmem]
  · have hl := hi.legal_step hm
    rw [htrace] at hl
    rw [hmem]
    refine hasShutdown_apply hi.sound hl hshut ?_ ?_
    · rintro raw rfl
      exact hi.shut_read hm htrace
    · rintro k a b rfl
      obtain ⟨k', act, pc, -, -, -, hsm⟩ := hm.of_sendSide htrace rfl
      exact hsm.claim_open (hi.send k')

/-- **Nothing takes a shutdown back.** -/
theorem closed_step (hi : Inv ring initial σ) (hm : Moves ring σ l σ') (hc : Closed σ) :
    Closed σ' := by
  rcases hc with hshut | hall
  · exact Or.inl (hasShutdown_step hi hm hshut)
  · exact Or.inr fun i => hm.dropped (hall i)

/-! ## Where a shutdown comes from -/

theorem CloseStarted.record {e : Option (Event T N)} (hs : CloseStarted h) :
    CloseStarted (record e h) := by
  cases e with
  | none => exact hs
  | some e =>
    obtain ⟨k, hk⟩ := hs
    exact ⟨k, List.mem_cons_of_mem e hk⟩

theorem CloseStarted.step (hm : Moves ring σ l σ') (hs : CloseStarted σ.trace) :
    CloseStarted σ'.trace := by
  obtain ⟨e, he⟩ := hm.trace_cases
  rw [he]
  exact hs.record

theorem SenderClosed.step (hi : Inv ring initial σ) (hm : Moves ring σ l σ')
    (hs : SenderClosed σ pc) : SenderClosed σ' pc := by
  cases pc with
  | refused e =>
    cases e with
    | empty => trivial
    | shutdown => exact closed_step hi hm hs
  | closing pos caller =>
    cases pos with
    | load => trivial
    | notify i => exact ⟨hs.1.step hm, hs.2.imp_right (hasShutdown_step hi hm)⟩
    | _ => exact CloseStarted.step hm hs
  | _ => trivial

theorem senderClosed_claimLoop {c : SendCall T} : SenderClosed σ (claimLoop c σ.mem.claimed) := by
  unfold claimLoop
  split
  · rename_i hshut
    exact Or.inl hshut
  · trivial

theorem senderClosed_claimBody {c : SendCall T} {last x : Int} {i : Nat}
    (hi : Inv ring initial σ) (hN : ¬ i < N)
    (hs : SenderInv ring.bufferSize σ.trace k (.maxConsumed c last i x)) :
    SenderClosed σ (claimBody ring c last x) := by
  unfold claimBody
  split
  · rename_i hx
    obtain ⟨-, -, -, hg⟩ := hs
    rcases hg with ⟨-, hall⟩ | ⟨-, hle, -⟩
    · exact Or.inr fun j => hall j (by omega)
    · have := hi.sound.bound
      unfold Sequence.shutdownOpen i64Max at hx
      omega
  · dsimp only
    split <;> trivial

/-- A step of a sender call leaves it knowing what it needs to know. -/
theorem SenderMoves.senderClosed {e : Option (Event T N)} (hi : Inv ring initial σ)
    (hsm : SenderMoves ring k σ.mem pc act e pc') (hinv : SenderInv ring.bufferSize σ.trace k pc)
    (hs : SenderClosed σ pc) (hm : Moves ring σ l σ') (htrace : σ'.trace = record e σ.trace)
    (hmem : σ'.mem = (σ.perform ring e).mem) : SenderClosed σ' pc' := by
  cases hsm with
  | load | retry => exact senderClosed_claimLoop.step hi hm
  | gateEnd hN => exact (senderClosed_claimBody hi hN hinv).step hi hm
  | claim => cases ‹SendCall T› <;> trivial
  | closeUnclaimed | closeLoad =>
    show CloseStarted σ'.trace
    rw [htrace]
    exact ⟨k, List.mem_cons_self⟩
  | closeScan | closeFound | closeScanEnd | closeMark => exact CloseStarted.step hm hs
  | @closeStore raw caller =>
    refine ⟨CloseStarted.step hm hs, ?_⟩
    by_cases hraw : raw = -1
    · rcases hinv.2 with ⟨R, h₀, h₁, heq | heq⟩ | ⟨-, hcaller, -⟩
      · omega
      · unfold i64Min at heq
        have := hi.sound.bound
        omega
      · exact Or.inl hcaller
    · have hsm : SenderMoves ring k σ.mem (.closing (.store raw) caller) .run (some (.shut raw))
          (.closing (.notify 0) caller) := .closeStore
      refine Or.inr ?_
      rw [hmem]
      exact hsm.shut_sets hi.sound hinv hraw
  | closeWake => exact ⟨hs.1.step hm, hs.2.imp_right (hasShutdown_step hi hm)⟩
  | closeEnd => cases ‹CloseCaller› <;> trivial
  | _ => trivial

theorem closedInv_init (initial : Nat → T) (i₀ : Fin N) : ClosedInv (Sys.init initial i₀) where
  send _ := trivial
  shut _ hmem := absurd hmem List.not_mem_nil
  ended _ hmem := absurd hmem List.not_mem_nil

theorem closedInv_step (hi : Inv ring initial σ) (hc : ClosedInv σ) (hm : Moves ring σ l σ') :
    ClosedInv σ' where
  send := by
    refine hm.forall_sends (J := fun _ pc => SenderClosed σ pc)
      (K := fun _ pc => SenderClosed σ' pc) hc.send ?_ (fun _ _ _ _ _ _ => trivial) ?_ ?_
    · exact fun h c _ => start_cases trivial trivial
    · intro k act e pc _ _ hsm hs htrace hmem
      exact hsm.senderClosed hi (hi.send k) hs hm htrace hmem
    · exact fun k _ hs => hs.step hi hm
  shut := by
    intro raw hmem
    have hold : Event.shut raw ∈ σ.trace →
        CloseStarted σ'.trace ∧ (raw ≠ -1 → hasShutdown σ'.mem.claimed = true) :=
      fun hin => ⟨(hc.shut raw hin).1.step hm,
        fun hraw => hasShutdown_step hi hm ((hc.shut raw hin).2 hraw)⟩
    rcases hm.event_cases with ⟨htrace, -⟩ | ⟨e, htrace, -, -⟩
    · exact hold (htrace ▸ hmem)
    · rw [htrace] at hmem
      rcases List.mem_cons.mp hmem with rfl | hin
      · obtain ⟨k, act, pc, -, -, hmem', hsm⟩ := hm.of_sendSide htrace rfl
        refine ⟨?_, fun hraw => ?_⟩
        · have hs := hc.send k
          generalize σ.sends k = pc₀ at hsm hs
          cases hsm
          exact CloseStarted.step hm hs
        · rw [hmem']
          exact hsm.shut_sets hi.sound (hi.send k) hraw
      · exact hold hin
  ended := by
    intro k hmem
    have hold : Event.closeEnd k ∈ σ.trace → hasShutdown σ'.mem.claimed = true ∨
        ∃ k' < σ'.nextSend, (σ'.sends k').teardown = true := by
      intro hin
      rcases hc.ended k hin with hshut | ⟨k', hk', ht⟩
      · exact Or.inl (hasShutdown_step hi hm hshut)
      · exact Or.inr ⟨k', lt_of_lt_of_le hk' hm.nextSend_le, hm.teardown hk' ht⟩
    rcases hm.event_cases with ⟨htrace, -⟩ | ⟨e, htrace, -, -⟩
    · exact hold (htrace ▸ hmem)
    · rw [htrace] at hmem
      rcases List.mem_cons.mp hmem with rfl | hin
      · obtain ⟨k', act, pc, -, hk', -, hsm⟩ := hm.of_sendSide htrace rfl
        have hs := hc.send k'
        have ht : (σ.sends k').teardown = true → (σ'.sends k').teardown = true := hm.teardown hk'
        generalize σ.sends k' = pc₀ at hsm hs ht
        cases hsm with
        | @closeEnd i caller hi' =>
          rcases hs.2 with rfl | hshut
          · exact Or.inr ⟨_, lt_of_lt_of_le hk' hm.nextSend_le, ht rfl⟩
          · exact Or.inl (hasShutdown_step hi hm hshut)
      · exact hold hin

end

/-! ## Claims that start later -/

/-- The label is a step of sender call `k`. -/
def Label.bySender (k : Nat) : Label T N → Bool
  | .sender k' _ => k' == k
  | _ => false

theorem bySender_self (k : Nat) (act : SenderAct T) :
    (Label.sender k act : Label T N).bySender k = true := by
  simp [Label.bySender]

theorem not_bySender {k : Nat} {l : Label T N} (hl : ∀ act, l ≠ .sender k act) :
    ¬ l.bySender k = true := by
  cases l with
  | sender k' act =>
    intro hk
    have hk : k' = k := by simpa [Label.bySender] using hk
    exact hl act (by rw [hk])
  | _ => simp [Label.bySender]

/-- The call is in the claim loop, before any compare-exchange. -/
def SenderPc.asking : SenderPc T → Bool
  | .loadClaimed _ | .maxConsumed _ _ _ _ => true
  | _ => false

/-- A `terminate()` has returned, or all receivers are dropped, or a claim has returned
`Shutdown`. -/
def Stopped (σ : Sys T N) : Prop :=
  (∃ k, Event.closeEnd k ∈ σ.trace) ∨ (∀ i, σ.receivers i = false) ∨
    ∃ k, σ.sends k = .refused .shutdown

/-- The claim of call `k`, of which `n` steps were taken, is refused or on its way there. -/
def LateClaim (σ : Sys T N) (n : Nat) : SenderPc T → Prop
  | .refused .shutdown => True
  | .loadClaimed _ => n = 0
  | .maxConsumed _ _ i minConsumed =>
    n = i + 1 ∧ i ≤ N ∧ minConsumed = Sequence.shutdownOpen ∧ ∀ j, Dropped σ.trace j
  | _ => False

section

variable {ring : RingBufferMeta} {initial : Nat → T} {σ σ' σ'' : Sys T N} {l : Label T N}
  {k n : Nat}
  {h : History T N} {m : Mem T N} {pc pc' : SenderPc T} {act : SenderAct T}

/-- While there are senders, a stopped channel is closed. -/
theorem closed_of_stopped (hi : Inv ring initial σ) (hc : ClosedInv σ) {h : Nat}
    (hlive : σ.senders h = true) (hs : Stopped σ) : Closed σ := by
  rcases hs with ⟨k, hk⟩ | hall | ⟨k, hk⟩
  · rcases hc.ended k hk with hshut | ⟨k', hk', ht⟩
    · exact Or.inl hshut
    · rw [hi.borrow.not_teardown hlive hk'] at ht
      exact absurd ht (by simp)
  · exact Or.inr fun i => (hi.borrow.dropped i).mpr (hall i)
  · have hs := hc.send k
    rw [hk] at hs
    exact hs

/-- A step of a late claim brings it nearer to its refusal. -/
theorem SenderMoves.lateClaim {e : Option (Event T N)} (hi : Inv ring initial σ)
    (hclosed : Closed σ) (hsm : SenderMoves ring k σ.mem pc act e pc') (hl : LateClaim σ n pc)
    (hd : ∀ j, Dropped σ.trace j → Dropped σ'.trace j) : LateClaim σ' (n + 1) pc' := by
  cases hsm with
  | load =>
    have hn : n = 0 := hl
    unfold claimLoop
    split
    · trivial
    · rename_i hopen
      have hall := hclosed.resolve_left hopen
      exact ⟨by omega, Nat.zero_le N, rfl, fun j => hd j (hall j)⟩
  | @gate c last x i hlt =>
    obtain ⟨hn, -, hx, hall⟩ := hl
    refine ⟨by omega, hlt, ?_, fun j => hd j (hall j)⟩
    rw [hx, hi.sound.consumed_of_dropped (hall ⟨i, hlt⟩), min_self]
  | gateEnd =>
    obtain ⟨-, -, hx, -⟩ := hl
    unfold claimBody
    rw [if_pos hx]
    trivial
  | _ => exact hl.elim

theorem LateClaim.mono (hl : LateClaim σ n pc) (hd : ∀ j, Dropped σ.trace j → Dropped σ'.trace j) :
    LateClaim σ' n pc := by
  cases pc with
  | maxConsumed c last i x => exact ⟨hl.1, hl.2.1, hl.2.2.1, fun j => hd j (hl.2.2.2 j)⟩
  | refused e => cases e <;> exact hl
  | _ => exact hl

/-- **A claim that starts on a closed channel is refused**: until then it is in its loop, and it
has taken as many steps of its own as `LateClaim` says. -/
theorem late_claim {h : Nat} {c : SendCall T} {ls : List (Label T N)} (hi : Inv ring initial σ)
    (hclosed : Closed σ) (hrange : InRange ring σ (.send h c))
    (hstart : step ring σ (.send h c) = some σ') (hlimit : 1 ≤ c.limit)
    (hrun : Run (step ring) (InRange ring) σ' ls σ'') :
    σ.nextSend < σ''.nextSend ∧
      LateClaim σ'' (ls.countP (Label.bySender σ.nextSend)) (σ''.sends σ.nextSend) := by
  have hi' := inv_step hi hrange hstart
  have hclosed' := closed_step hi (moves_of_step hstart) hclosed
  have hfirst : σ.nextSend < σ'.nextSend ∧ σ'.sends σ.nextSend = .loadClaimed c := by
    cases moves_of_step hstart with
    | send hlive =>
      refine ⟨Nat.lt_succ_self _, ?_⟩
      show Function.update σ.sends σ.nextSend c.start σ.nextSend = _
      rw [Function.update_self, start_of_limit hlimit]
  have hlog := hrun.invariant_log (I := fun σ => Inv ring initial σ ∧ Closed σ)
    (J := fun ls σ₁ => σ.nextSend < σ₁.nextSend ∧
      LateClaim σ₁ (ls.countP (Label.bySender σ.nextSend)) (σ₁.sends σ.nextSend)) ?_ ?_
    ⟨hi', hclosed'⟩ ⟨hfirst.1, by rw [hfirst.2]; rfl⟩
  · exact hlog
  · exact fun hs hok hst => ⟨inv_step hs.1 hok hst, closed_step hs.1 (moves_of_step hst) hs.2⟩
  · intro ls a σ₁ σ₂ _ hs hJ _ hst
    obtain ⟨hlt, hlate⟩ := hJ
    have hm := moves_of_step hst
    have hd : ∀ j, Dropped σ₁.trace j → Dropped σ₂.trace j := fun j => hm.dropped
    refine ⟨lt_of_lt_of_le hlt hm.nextSend_le, ?_⟩
    rw [List.countP_append, List.countP_singleton]
    rcases hm.sender_cases σ.nextSend with ⟨act, e, rfl, hsm, -, -⟩ | hl
    · rw [if_pos (bySender_self _ _)]
      exact hsm.lateClaim hs.1 hs.2 hlate hd
    · rw [hm.sends_other hlt hl, if_neg (not_bySender hl)]
      exact hlate.mono hd

/-- A late claim that is not refused yet can take a step, and has taken fewer than `N + 2`. -/
theorem LateClaim.pending (hk : k < σ.nextSend) (hl : LateClaim σ n (σ.sends k))
    (hpend : σ.sends k ≠ .refused .shutdown) :
    (σ.sends k).asking = true ∧ n < N + 2 ∧ ∃ σ', step ring σ (.sender k .run) = some σ' := by
  generalize hpc : σ.sends k = pc at hl hpend
  cases pc with
  | loadClaimed c =>
    have hn : n = 0 := hl
    exact ⟨rfl, by omega, exists_step_of_senderStep hk (by rw [hpc]; rfl)⟩
  | maxConsumed c last i x =>
    obtain ⟨hn, hi, -, -⟩ := hl
    refine ⟨rfl, by omega, ?_⟩
    by_cases hlt : i < N
    · exact exists_step_of_senderStep hk (by rw [hpc, senderStep, dif_pos hlt])
    · exact exists_step_of_senderStep hk (by rw [hpc, senderStep, dif_neg hlt])
  | refused e =>
    cases e with
    | empty => exact hl.elim
    | shutdown => exact absurd rfl hpend
  | _ => exact hl.elim

/-- A shutdown value of the cursor was stored by a `close()`. -/
theorem shut_of_hasShutdown {c : Int} (hl : Legal c h)
    (hshut : hasShutdown (replay ring initial h).claimed = true) :
    ∃ raw, Event.shut raw ∈ h ∧ raw ≠ -1 := by
  induction h with
  | nil => exact absurd (show hasShutdown (-1) = true from hshut) (by decide)
  | cons e h ih =>
    have hold : hasShutdown (replay ring initial h).claimed = true →
        ∃ raw, Event.shut raw ∈ e :: h ∧ raw ≠ -1 := by
      intro hs
      obtain ⟨raw, hmem, hraw⟩ := ih hl.1 hs
      exact ⟨raw, List.mem_cons_of_mem e hmem, hraw⟩
    cases e with
    | claim k a b =>
      obtain ⟨-, ha, hab, -⟩ := hl
      have hneg := neg_one_le_highest h
      have hb : b < -1 := hasShutdown_eq_true.mp hshut
      omega
    | shut raw =>
      refine ⟨raw, List.mem_cons_self, ?_⟩
      rintro rfl
      exact absurd hshut (by show ¬ hasShutdown (i64Or (-1) shutdownMask) = true; decide)
    | _ => exact hold hshut

/-- **Disconnection of the senders is sound and permanent**, in every run in range. -/
theorem disconnection_permanent {i₀ : Fin N} {ls : List (Label T N)}
    (hrun : Run (step ring) (InRange ring) (Sys.init initial i₀) ls σ) :
    (∀ k, σ.sends k = .refused .shutdown →
        (∀ i, σ.receivers i = false) ∨ ∃ k', Event.closeStart k' ∈ σ.trace) ∧
      (∀ h c σ' ls' σ'', Stopped σ → 1 ≤ c.limit → InRange ring σ (.send h c) →
        step ring σ (.send h c) = some σ' → Run (step ring) (InRange ring) σ' ls' σ'' →
          σ''.sends σ.nextSend = .refused .shutdown ∨
            ((σ''.sends σ.nextSend).asking = true ∧
              ls'.countP (Label.bySender σ.nextSend) < N + 2 ∧
              ∃ σ₃, step ring σ'' (.sender σ.nextSend .run) = some σ₃)) ∧
      (hasShutdown σ.mem.claimed = false → σ.mem.claimed = highest σ.trace) ∧
      (hasShutdown σ.mem.claimed = true ↔ ∃ raw, Event.shut raw ∈ σ.trace ∧ raw ≠ -1) ∧
      ∀ i, σ.receivers i = true → σ.mem.consumed i ≠ Sequence.shutdownOpen := by
  have hi := (inv_init ring initial i₀).of_run id hrun
  have hc : ClosedInv σ := hrun.invariant_with (I := Inv ring initial)
    (fun hi hok hst => inv_step hi hok hst)
    (fun hi hc _ hst => closedInv_step hi hc (moves_of_step hst))
    (inv_init ring initial i₀) (closedInv_init initial i₀)
  have hshut : hasShutdown σ.mem.claimed = true →
      ∃ raw, Event.shut raw ∈ σ.trace ∧ raw ≠ -1 := by
    intro hs
    rw [hi.sound.mem] at hs
    exact shut_of_hasShutdown hi.sound.legal hs
  refine ⟨fun k hk => ?_, fun h c σ' ls' σ'' hstop hlimit hrange hst hrun' => ?_, fun hopen => ?_,
    ⟨hshut, fun ⟨raw, hmem, hraw⟩ => (hc.shut raw hmem).2 hraw⟩, fun i hlive => ?_⟩
  · have hs := hc.send k
    rw [hk] at hs
    rcases hs with hs | hall
    · obtain ⟨raw, hmem, -⟩ := hshut hs
      exact Or.inr (hc.shut raw hmem).1
    · exact Or.inl fun i => (hi.borrow.dropped i).mp (hall i)
  · have hlive : σ.senders h = true := by
      cases moves_of_step hst with
      | send hlive => exact hlive
    have hclosed := closed_of_stopped hi hc hlive hstop
    obtain ⟨hlt, hlate⟩ := late_claim hi hclosed hrange hst hlimit hrun'
    by_cases hdone : σ''.sends σ.nextSend = .refused .shutdown
    · exact Or.inl hdone
    · exact Or.inr (hlate.pending hlt hdone)
  · exact hi.sound.claimed.eq_highest hi.sound.bound (hasShutdown_eq_false.mp hopen)
  · have hd : ¬ Dropped σ.trace i := by
      rw [hi.borrow.dropped, hlive]
      simp
    rw [hi.sound.consumed_eq hd]
    exact (hi.sound.position_lt i).ne

/-- A recycler panics in the drop of the only permit; after its `terminate()` every later claim on
the living handle is refused. -/
theorem disconnection_permanent_poisoned :
    ∃ (ls : List (Label Nat 1)) (σ : Sys Nat 1),
      Run (step ⟨0, by decide⟩) (InRange ⟨0, by decide⟩) (Sys.init (fun _ => 0) 0) ls σ ∧
        σ.sends 0 = .poisoned ∧
        ∀ σ' ls' σ'', step ⟨0, by decide⟩ σ (.send 0 .tryReserve) = some σ' →
          Run (step ⟨0, by decide⟩) (InRange ⟨0, by decide⟩) σ' ls' σ'' →
            σ''.sends 1 = .refused .shutdown ∨ (σ''.sends 1).asking = true := by
  have hex : (exec (step ⟨0, by decide⟩) (InRange ⟨0, by decide⟩) (Sys.init (fun _ => 0) 0)
      (List.flatten [[.send 0 .tryReserve], List.replicate 4 (.sender 0 .run),
        [.sender 0 .drop, .sender 0 (.panics 5)], List.replicate 6 (.sender 0 .run)])).any
      (fun σ : Sys Nat 1 => decide (σ.sends 0 = .poisoned ∧ σ.nextSend = 1 ∧
        .closeEnd 0 ∈ σ.trace ∧ InRange ⟨0, by decide⟩ σ (.send 0 .tryReserve))) = true := by
    decide +kernel
  obtain ⟨σ, hrun, hσ⟩ := Run.of_exec_any hex
  obtain ⟨hpc, hnext, hend, hrange⟩ := of_decide_eq_true hσ
  refine ⟨_, σ, hrun, hpc, fun σ' ls' σ'' hst hrun' => ?_⟩
  have hlate := (disconnection_permanent hrun).2.1 0 .tryReserve σ' ls' σ'' (Or.inl ⟨0, hend⟩)
    (le_refl 1) hrange hst hrun'
  rw [hnext] at hlate
  exact hlate.imp_right fun hpend => hpend.1

end

end EnsoChannel
