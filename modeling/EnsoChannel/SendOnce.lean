import EnsoChannel.Refinement
import EnsoChannel.Unwinding

/-!
# Every `try_send` is all or nothing

A `try_send` whose claim fails has claimed nothing: it gives its value back (`TrySendError` carries
it, `sender.rs`). One that returns `Ok` has put its value under one sequence. `Sending` follows one
such call through the claim loop, the write and the commit, with every other party in between.

* `Sending.cons`: no step of another party touches what the call claimed or wrote.
* `SenderMoves.sending`: one step of the call itself.
* `try_send_once`: a refused call owns no sequence; a call that returned `Ok` owns exactly one,
  which is published with its value, and each receiver was given it exactly once or is not there
  yet.
-/

namespace EnsoChannel

open Lib

variable {T : Type} {N : Nat}

/-- Call `k` owns the sequence `s` and no other. -/
def OwnsOnly (h : History T N) (k : Nat) (s : Int) : Prop := ∀ t, owner h t = some k ↔ t = s

/-- **What a `try_send(v)` has done so far.** -/
def Sending (h : History T N) (k : Nat) (v : T) : SenderPc T → Prop
  | .loadClaimed c => c = .trySend v ∧ ∀ s, owner h s ≠ some k
  | .maxConsumed c _ _ _ => c = .trySend v ∧ ∀ s, owner h s ≠ some k
  | .compareExchange c _ _ _ => c = .trySend v ∧ ∀ s, owner h s ≠ some k
  | .refused _ => ∀ s, owner h s ≠ some k
  | .writing w seq => w = v ∧ OwnsOnly h k seq
  | .publishing _ seq last =>
    OwnsOnly h k last ∧ stored h last = some v ∧ (seq = last ∨ last < seq ∧ Published h last)
  | .notifying _ | .committed => ∃ s, OwnsOnly h k s ∧ stored h s = some v ∧ Published h s
  | .abandoned => ∃ s, OwnsOnly h k s ∧ ¬ Published h s
  | _ => False

/-- The calls not made yet own nothing. -/
def Unmade (σ : Sys T N) : Prop := ∀ k, σ.nextSend ≤ k → ∀ s, owner σ.trace s ≠ some k

section

variable {ring : RingBufferMeta} {initial : Nat → T} {σ σ' : Sys T N} {l : Label T N} {k : Nat}
  {h : History T N} {m : Mem T N} {e : Event T N} {c s : Int} {v : T} {pc pc' : SenderPc T}
  {act : SenderAct T}

/-! ## The others -/

theorem owner_cons_iff (hl : Legal c (e :: h)) (he : ∀ a b, e ≠ .claim k a b) :
    owner (e :: h) s = some k ↔ owner h s = some k := by
  refine ⟨fun ho => ?_, owner_cons hl⟩
  exact owner_of_record (e := some e) (fun a b heq => he a b (Option.some.inj heq)) ho

theorem OwnsOnly.cons (ho : OwnsOnly h k s) (hl : Legal c (e :: h))
    (he : ∀ a b, e ≠ .claim k a b) : OwnsOnly (e :: h) k s :=
  fun _ => (owner_cons_iff hl he).trans (ho _)

theorem stored_cons_of_ne (he : ∀ w, e ≠ .store k s w) (hl : Legal c (e :: h))
    (ho : owner h s = some k) : stored (e :: h) s = stored h s := by
  cases e with
  | store k' t w =>
    rw [stored, if_neg]
    rintro rfl
    have hown : owner h t = some k' := hl.2.1
    obtain rfl := Option.some.inj (ho.symm.trans hown)
    exact he w rfl
  | _ => rfl

/-- **No other party touches what the call owns.** -/
theorem Sending.cons (hs : Sending h k v pc) (hl : Legal c (e :: h))
    (hclaim : ∀ a b, e ≠ .claim k a b) (hstore : ∀ s w, e ≠ .store k s w)
    (hpublish : ∀ s, e ≠ .publish k s) : Sending (e :: h) k v pc := by
  have hnone : (∀ s, owner h s ≠ some k) → ∀ s, owner (e :: h) s ≠ some k :=
    fun hn s ho => hn s ((owner_cons_iff hl hclaim).mp ho)
  cases pc with
  | loadClaimed call | maxConsumed call | compareExchange call => exact ⟨hs.1, hnone hs.2⟩
  | refused => exact hnone hs
  | writing w seq => exact ⟨hs.1, hs.2.cons hl hclaim⟩
  | publishing first seq last =>
    obtain ⟨ho, hv, hp⟩ := hs
    have hown := (ho last).mpr rfl
    refine ⟨ho.cons hl hclaim, ?_, hp.imp id fun hp => ⟨hp.1, hp.2.cons⟩⟩
    rw [stored_cons_of_ne (hstore last) hl hown, hv]
  | notifying | committed =>
    obtain ⟨s, ho, hv, hp⟩ := hs
    have hown := (ho s).mpr rfl
    refine ⟨s, ho.cons hl hclaim, ?_, hp.cons⟩
    rw [stored_cons_of_ne (hstore s) hl hown, hv]
  | abandoned =>
    obtain ⟨s, ho, hp⟩ := hs
    have hown := (ho s).mpr rfl
    refine ⟨s, ho.cons hl hclaim, fun hpub => ?_⟩
    rcases published_cons.mp hpub with ⟨k', rfl⟩ | hold
    · have hk' : owner h s = some k' := hl.2.1
      obtain rfl := Option.some.inj (hown.symm.trans hk')
      exact hpublish s rfl
    · exact hp hold
  | _ => exact hs.elim

/-! ## The call itself -/

theorem SenderMoves.store_self {k' : Nat} {w : T}
    (hm : SenderMoves ring k m pc act (some (.store k' s w)) pc') : k' = k := by
  cases hm <;> rfl

theorem sending_claimLoop {call : SendCall T} {raw : Int} (hcall : call = .trySend v)
    (hn : ∀ s, owner h s ≠ some k) : Sending h k v (claimLoop call raw) :=
  claimLoop_cases (P := Sending h k v) hn fun _ => ⟨hcall, hn⟩

/-- **One step of the call.** -/
theorem SenderMoves.sending {e' : Option (Event T N)} (hm : SenderMoves ring k m pc act e' pc')
    (hi : SenderInv ring.bufferSize h k pc) (hl : Legal ring.bufferSize (record e' h))
    (hs : Sending h k v pc) : Sending (record e' h) k v pc' := by
  cases hm with
  | load | retry => exact sending_claimLoop hs.1 hs.2
  | gate => exact hs
  | gateEnd => exact claimBody_cases (P := Sending h k v) (fun _ => hs.2) fun _ => hs
  | @claim call last maxConsumed b hcas =>
    obtain ⟨rfl, hn⟩ := hs
    obtain ⟨-, -, hlt, hb, -⟩ := hi
    have hone : b = last + 1 := by
      have hlimit : (SendCall.trySend v).limit = 1 := rfl
      rw [hlimit] at hb
      omega
    refine ⟨rfl, fun t => ?_⟩
    rw [record, owner]
    split
    · rename_i ht
      simp only [true_iff]
      omega
    · rename_i ht
      exact iff_of_false (hn t) (by omega)
  | @write w seq =>
    obtain ⟨rfl, ho⟩ := hs
    exact ⟨ho.cons hl (by simp), by rw [record, stored, if_pos rfl], Or.inl rfl⟩
  | @writePanics w u seq =>
    obtain ⟨rfl, ho⟩ := hs
    refine ⟨seq, ho.cons hl (by simp), fun hp => ?_⟩
    exact (hi seq (le_refl _) (le_refl _)).2 ((published_cons_of_ne (by simp)).mp hp)
  | @publish first seq last hseq =>
    obtain ⟨ho, hv, hp⟩ := hs
    have heq : seq = last := hp.resolve_right fun hlt => by omega
    rw [heq] at hl ⊢
    exact ⟨ho.cons hl (by simp), hv, Or.inr ⟨lt_add_one last, k, List.mem_cons_self⟩⟩
  | @publishEnd first seq last hseq =>
    obtain ⟨ho, hv, hp⟩ := hs
    exact ⟨last, ho, hv, (hp.resolve_left fun heq => hseq heq.le).2⟩
  | wake =>
    obtain ⟨s, ho, hv, hp⟩ := hs
    exact ⟨s, ho.cons hl (by simp), hv, hp.cons⟩
  | wakeEnd => exact hs
  | _ => exact hs.elim

/-! ## The system -/

theorem sending_step (hi : Inv ring initial σ) (hk : k < σ.nextSend)
    (hs : Sending σ.trace k v (σ.sends k)) (hm : Moves ring σ l σ') :
    Sending σ'.trace k v (σ'.sends k) := by
  have hl := hi.legal_step hm
  rcases hm.sender_cases k with ⟨act, e, -, hsm, htrace, -⟩ | hother
  · rw [htrace] at hl ⊢
    exact hsm.sending (hi.send k) hl hs
  · rw [hm.sends_other hk hother]
    obtain ⟨e, htrace⟩ := hm.trace_cases
    cases e with
    | none =>
      rw [htrace]
      exact hs
    | some e =>
      have hclaim := hm.claim_other hother htrace
      rw [htrace] at hl ⊢
      refine hs.cons hl (fun a b heq => hclaim a b (congrArg some heq)) ?_
        (hm.publish_other hother htrace)
      rintro t w rfl
      obtain ⟨k', act, pc, rfl, -, -, hsm⟩ := hm.of_sendSide htrace rfl
      exact hother act (by rw [hsm.store_self])

theorem unmade_step (hu : Unmade σ) (hm : Moves ring σ l σ') : Unmade σ' := by
  intro k hk s ho
  have hle := hm.nextSend_le
  obtain ⟨e, htrace⟩ := hm.trace_cases
  rw [htrace] at ho
  refine hu k (hle.trans hk) s (owner_of_record (fun a b heq => ?_) ho)
  subst heq
  obtain ⟨k', act, pc, -, hk', -, hsm⟩ := hm.of_sendSide htrace rfl
  have := hsm.claim_self
  omega

/-- The invariant of the runs after the call was made. -/
structure Following (ring : RingBufferMeta) (initial : Nat → T) (k : Nat) (v : T) (σ : Sys T N) :
    Prop where
  delivering : Delivering ring initial σ
  made : k < σ.nextSend
  sending : Sending σ.trace k v (σ.sends k)

theorem following_step (hf : Following ring initial k v σ) (hok : Tidy ring σ l)
    (hst : step ring σ l = some σ') : Following ring initial k v σ' := by
  have hm := moves_of_step hst
  exact ⟨delivering_step hf.delivering hok hst, hf.made.trans_le hm.nextSend_le,
    sending_step hf.delivering.served.guarded.inv hf.made hf.sending hm⟩

/-- **A receiver is given no sequence twice.** -/
theorem Delivering.count_delivered (hd : Delivering ring initial σ) (hs : 0 ≤ s) (i : Fin N) :
    (delivered σ.trace i).count s = if s < (delivered σ.trace i).length then 1 else 0 := by
  have ht := hd.given i
  have hlen := ht.length hd.served.guarded.inv
  have hnodup : (delivered σ.trace i).Nodup := by
    rw [ht.count, seqs]
    refine List.Nodup.map (fun a b hab => ?_) List.nodup_range
    have hab : (0 : Int) + (a : Nat) = 0 + (b : Nat) := hab
    omega
  have hmem : s ∈ delivered σ.trace i ↔ s < (delivered σ.trace i).length := by
    rw [hlen, ht.count, mem_seqs]
    omega
  split
  · rename_i hlt
    exact List.count_eq_one_of_mem hnodup (hmem.mpr hlt)
  · rename_i hge
    exact List.count_eq_zero.mpr fun hin => hge (hmem.mp hin)

/-- **Every `try_send` is all or nothing**, in every run in range with one guard at a time and no
leaks, whatever the other parties do while it is under way and after it. If it was refused it has
claimed nothing. If it returned `Ok`, it owns exactly one sequence, which is published with its
value, and every receiver was given that sequence exactly once as soon as it was given that many. -/
theorem try_send_once {i₀ : Fin N} {ls₁ ls₂ : List (Label T N)} {σ₁ σ₂ : Sys T N} {hd : Nat}
    (hrun₁ : Run (step ring) (Tidy ring) (Sys.init initial i₀) ls₁ σ₁)
    (hok : Tidy ring σ₁ (.send hd (.trySend v)))
    (hstart : step ring σ₁ (.send hd (.trySend v)) = some σ₂)
    (hrun₂ : Run (step ring) (Tidy ring) σ₂ ls₂ σ) :
    ((∃ e, σ.sends σ₁.nextSend = .refused e) → ∀ s, owner σ.trace s ≠ some σ₁.nextSend) ∧
      (σ.sends σ₁.nextSend = .committed → ∃ s, (∀ t, owner σ.trace t = some σ₁.nextSend ↔ t = s) ∧
        Published σ.trace s ∧ stored σ.trace s = some v ∧
          ∀ i, (delivered σ.trace i).count s =
            if s < (delivered σ.trace i).length then 1 else 0) := by
  have hd₁ : Delivering ring initial σ₁ :=
    hrun₁.invariant delivering_step (delivering_init ring initial i₀)
  have hunmade : Unmade σ₁ := hrun₁.invariant (I := Unmade)
    (fun hu _ hst => unmade_step hu (moves_of_step hst)) fun _ _ _ => by simp [Sys.init, owner]
  have hmoves := moves_of_step hstart
  have hf₂ : Following ring initial σ₁.nextSend v σ₂ := by
    refine ⟨delivering_step hd₁ hok hstart, ?_, ?_⟩
    · cases hmoves
      exact Nat.lt_succ_self _
    · cases hmoves
      show Sending σ₁.trace σ₁.nextSend v (Function.update σ₁.sends σ₁.nextSend _ σ₁.nextSend)
      rw [Function.update_self]
      exact ⟨rfl, hunmade _ (le_refl _)⟩
  have hf : Following ring initial σ₁.nextSend v σ := hrun₂.invariant following_step hf₂
  have hsending := hf.sending
  constructor
  · rintro ⟨e, hpc⟩
    rw [hpc] at hsending
    exact hsending
  · intro hpc
    rw [hpc] at hsending
    obtain ⟨s, howns, hv, hp⟩ := hsending
    have hs := owner_eq_some hf.delivering.served.guarded.inv.sound.legal ((howns s).mpr rfl)
    exact ⟨s, howns, hp, hv, hf.delivering.count_delivered hs.1⟩

/-- `try_send(7)` overtakes another `try_send`, which loses the race for sequence 0 and gets 1. -/
theorem try_send_once_race :
    ∃ (ls₁ ls₂ : List (Label Nat 1)) (σ₁ σ₂ σ : Sys Nat 1),
      Run (step ⟨1, by decide⟩) (Tidy ⟨1, by decide⟩) (Sys.init (fun _ => 0) 0) ls₁ σ₁ ∧
        step ⟨1, by decide⟩ σ₁ (.send 0 (.trySend 7)) = some σ₂ ∧
        Run (step ⟨1, by decide⟩) (Tidy ⟨1, by decide⟩) σ₂ ls₂ σ ∧ received σ.trace 0 = [7, 5] ∧
        ∃ s, (∀ t, owner σ.trace t = some σ₁.nextSend ↔ t = s) ∧ stored σ.trace s = some 7 := by
  have hex : (exec (step ⟨1, by decide⟩) (Tidy ⟨1, by decide⟩) (Sys.init (fun _ => 0) 0)
      (.send 0 (.trySend 5) :: List.replicate 2 (.sender 0 .run))).any
      (fun σ₁ : Sys Nat 1 => decide (Tidy ⟨1, by decide⟩ σ₁ (.send 0 (.trySend 7))) &&
        (step ⟨1, by decide⟩ σ₁ (.send 0 (.trySend 7))).any fun σ₂ =>
          (exec (step ⟨1, by decide⟩) (Tidy ⟨1, by decide⟩) σ₂
            (List.flatten [List.replicate 9 (.sender 1 .run), List.replicate 10 (.sender 0 .run),
              [.recv 0 2 false], List.replicate 3 (.receiver 0 .run)])).any fun σ =>
              decide (received σ.trace 0 = [7, 5] ∧ σ.sends σ₁.nextSend = .committed)) = true := by
    decide +kernel
  obtain ⟨σ₁, hrun₁, hex⟩ := Run.of_exec_any hex
  obtain ⟨hok, hex⟩ := Bool.and_eq_true_iff.mp hex
  obtain ⟨σ₂, hstart, hex⟩ := (Option.any_eq_true _ _).mp hex
  obtain ⟨σ, hrun₂, hend⟩ := Run.of_exec_any hex
  obtain ⟨hgiven, hpc⟩ := of_decide_eq_true hend
  obtain ⟨s, howns, -, hv, -⟩ :=
    (try_send_once hrun₁ (of_decide_eq_true hok) hstart hrun₂).2 hpc
  exact ⟨_, _, σ₁, σ₂, σ, hrun₁, hstart, hrun₂, hgiven, s, howns, hv⟩

end

end EnsoChannel
