import EnsoChannel.Guards
import EnsoChannel.Poison

/-!
# What a leak costs

`mem::forget` on a permit or on a guard is safe code, and so is a permit whose drop gives its
sequences up. Nothing in the shared memory records either.

* `given_up_stalls`: a sequence whose call is over without having published it is never published.
  The channel runs on for less than one lap after it: no sequence a capacity later is ever claimed,
  no receiver is given anything from it on, and no receiver releases anything from it on.
* `released_once`: a leaked guard loses nothing. Where guards are released alone, the sequences that
  a receiver has released are all of `0 … position`, each once and in order, and every live guard
  starts at the next one: what a leaked guard covered is given again.
-/

namespace EnsoChannel

open Lib

variable {T : Type} {N : Nat}

/-- Call `k` is over and has not published its sequence `s`. -/
structure Sys.GivenUp (σ : Sys T N) (k : Nat) (s : Int) : Prop where
  ended : (σ.sends k).finished = true
  owner : owner σ.trace s = some k
  unpublished : ¬ Published σ.trace s

/-- The sequences receiver `i` has released, in the order of the releases. -/
def releasedSeqs : History T N → Fin N → List Int
  | [], _ => []
  | .release j a b :: h, i =>
    if j = i then releasedSeqs h i ++ seqs a b else releasedSeqs h i
  | _ :: h, i => releasedSeqs h i

section

variable {ring : RingBufferMeta} {initial : Nat → T} {σ σ' : Sys T N} {l : Label T N} {k : Nat}
  {s t : Int} {i : Fin N} {h : History T N}

/-! ## Sequences that were given up -/

/-- **No step repairs it**: only the owner publishes a sequence, and the owner does not move. -/
theorem Sys.GivenUp.step (hg : σ.GivenUp k s) (hi : Inv ring initial σ)
    (hm : Moves ring σ l σ') : σ'.GivenUp k s := by
  have hk : k < σ.nextSend := hi.fresh.lt_of_send (by
    intro hidle
    have hover := hg.ended
    rw [hidle] at hover
    exact absurd hover (by simp [SenderPc.finished]))
  have hsame : σ'.sends k = σ.sends k := by
    rcases hm.sender_cases k with ⟨act, e, -, hsm, -⟩ | hl
    · exact absurd hg.ended (by rw [hsm.unfinished]; simp)
    · exact hm.sends_other hk hl
  have hlegal := hi.legal_step hm
  refine ⟨by rw [hsame, hg.ended], ?_, ?_⟩
  · rcases hm.event_cases with ⟨htrace, -⟩ | ⟨e, htrace, -⟩
    · rw [htrace, hg.owner]
    · rw [htrace] at hlegal ⊢
      exact owner_cons hlegal hg.owner
  · rcases hm.event_cases with ⟨htrace, -⟩ | ⟨e, htrace, -⟩
    · rw [htrace]
      exact hg.unpublished
    · rw [htrace] at hlegal ⊢
      intro hp
      rcases published_cons.mp hp with ⟨k', rfl⟩ | hp
      · obtain ⟨k₀, act, pc, -, -, -, hsm⟩ := hm.of_sendSide htrace rfl
        have hown : EnsoChannel.owner σ.trace s = some k' := hlegal.2.1
        obtain rfl := hsm.publish_self
        obtain rfl := Option.some.inj (hg.owner.symm.trans hown)
        exact absurd hg.ended (by rw [hsm.unfinished]; simp)
      · exact hg.unpublished hp

/-- What a receiver was given was in one of its guards. -/
theorem mem_delivered (ht : t ∈ delivered h i) :
    ∃ r a b, Event.ret r i (.items a b) ∈ h ∧ t ≤ b := by
  induction h with
  | nil => exact absurd ht List.not_mem_nil
  | cons e h ih =>
    by_cases he : ∃ r a b, e = .ret r i (.items a b)
    · obtain ⟨r, a, b, rfl⟩ := he
      rw [delivered, if_pos rfl] at ht
      rcases List.mem_append.mp ht with hold | hnew
      · obtain ⟨r', a', b', hmem, hle⟩ := ih hold
        exact ⟨r', a', b', List.mem_cons_of_mem _ hmem, hle⟩
      · exact ⟨r, a, b, List.mem_cons_self, (mem_seqs.mp hnew).2⟩
    · rw [(delivered_cons_of_ne fun r a b heq => he ⟨r, a, b, heq⟩).1] at ht
      obtain ⟨r', a', b', hmem, hle⟩ := ih ht
      exact ⟨r', a', b', List.mem_cons_of_mem _ hmem, hle⟩

/-! ## Releases -/

theorem releasedSeqs_cons_of_ne {e : Event T N} (he : ∀ a b, e ≠ .release i a b) :
    releasedSeqs (e :: h) i = releasedSeqs h i := by
  cases e with
  | release j a b =>
    rw [releasedSeqs, if_neg]
    rintro rfl
    exact he a b rfl
  | _ => rfl

/-- **A release continues where the last one ended.** -/
theorem releasedSeqs_step (hg : Guarded ring initial σ)
    (hr : ∀ i, releasedSeqs σ.trace i = seqs 0 (position σ.trace i)) (hm : Moves ring σ l σ') :
    ∀ i, releasedSeqs σ'.trace i = seqs 0 (position σ'.trace i) := by
  intro i
  rcases hm.event_cases with ⟨htrace, -⟩ | ⟨e, htrace, -, hfrom⟩
  · rw [htrace, hr i]
  · rw [htrace]
    by_cases he : ∃ a b, e = .release i a b
    · obtain ⟨a, b, rfl⟩ := he
      rcases hfrom with ⟨k, act, pc, -, -, hsm⟩ | ⟨r, act, pc, -, hr₀, hrm⟩ | ⟨j, -, heq⟩
      · exact absurd hsm.sendSide (by simp [Event.sendSide])
      · have hcur := hg.current r hr₀
        have hinv := hg.inv.recv r
        obtain ⟨-, hji, hpc, hlast⟩ := hrm.of_release
        rw [← hji, hpc] at hcur
        rw [hpc] at hinv
        obtain ⟨h₀, h₁, -⟩ := hinv.2 hlast
        have ha : a = position σ.trace i + 1 := hcur hlast
        rw [releasedSeqs, if_pos rfl, position, if_pos rfl, hr i, ha]
        exact seqs_append (by omega) (by omega)
      · exact absurd heq (by simp)
    · have hne : ∀ a b, e ≠ .release i a b := fun a b heq => he ⟨a, b, heq⟩
      rw [releasedSeqs_cons_of_ne hne, position_cons_of_ne hne, hr i]

/-! ## The results -/

/-- **A sequence that was given up stops the channel within a lap.** In every run in range: once a
call is over and has left its sequence `s` unpublished (its permit was leaked, `try_send` unwound
out of its write, or a recycler panicked), `s` stays so, no sequence from `s + capacity` on is
claimed, and no receiver is given or releases anything from `s` on. -/
theorem given_up_stalls {i₀ : Fin N} {ls₁ ls₂ : List (Label T N)}
    (hrun₁ : Run (step ring) (InRange ring) (Sys.init initial i₀) ls₁ σ) (hup : σ.GivenUp k s)
    (hrun₂ : Run (step ring) (InRange ring) σ ls₂ σ') :
    σ'.GivenUp k s ∧ highest σ'.trace < s + ring.bufferSize ∧
      ∀ i, position σ'.trace i < s ∧ ∀ t ∈ delivered σ'.trace i, t < s := by
  have hg : Giving ring initial σ := hrun₁.invariant giving_step (giving_init ring initial i₀)
  have hg' : Giving ring initial σ' := hrun₂.invariant giving_step hg
  have hup' : σ'.GivenUp k s := hrun₂.invariant_with (J := fun σ => σ.GivenUp k s) giving_step
    (fun hg hup _ hst => hup.step hg.inv (moves_of_step hst)) hg hup
  have hl := hg'.inv.sound.legal
  have hs := (owner_eq_some hl hup'.owner).1
  refine ⟨hup', ?_, fun i => ⟨?_, fun t ht => ?_⟩⟩
  · by_contra hlap
    exact hup'.unpublished (published_of_lap ring.bufferSize_pos hl hs (not_lt.mp hlap))
  · by_contra hpos
    exact hup'.unpublished (published_of_position hl hs (not_lt.mp hpos))
  · by_contra hle
    obtain ⟨r, a, b, hmem, htb⟩ := mem_delivered ht
    exact hup'.unpublished (hg'.given r i a b hmem s hs (by omega))

/-- A permit for sequence 0 is leaked; another item is sent, and the receiver gets nothing. -/
theorem given_up_stalls_leak :
    ∃ (ls₁ ls₂ : List (Label Nat 1)) (σ σ' : Sys Nat 1),
      Run (step ⟨1, by decide⟩) (InRange ⟨1, by decide⟩) (Sys.init (fun _ => 0) 0) ls₁ σ ∧
        Run (step ⟨1, by decide⟩) (InRange ⟨1, by decide⟩) σ ls₂ σ' ∧
        σ.sends 0 = .abandoned ∧ highest σ'.trace = 1 ∧ σ'.recvs 0 = .empty ∧
        σ'.GivenUp 0 0 := by
  have hex₁ : (exec (step ⟨1, by decide⟩) (InRange ⟨1, by decide⟩) (Sys.init (fun _ => 0) 0)
      (List.flatten [[.send 0 .tryReserve], List.replicate 4 (.sender 0 .run),
        [.sender 0 .leak]])).any
      (fun σ : Sys Nat 1 => decide (σ.sends 0 = .abandoned ∧ owner σ.trace 0 = some 0 ∧
        ¬ Published σ.trace 0) &&
        (exec (step ⟨1, by decide⟩) (InRange ⟨1, by decide⟩) σ
          (List.flatten [[.send 0 (.trySend 7)], List.replicate 9 (.sender 1 .run),
            [.recv 0 1 false], List.replicate 2 (.receiver 0 .run)])).any
          fun σ' => decide (highest σ'.trace = 1 ∧ σ'.recvs 0 = .empty)) = true := by
    decide +kernel
  obtain ⟨σ, hrun₁, hσ⟩ := Run.of_exec_any hex₁
  obtain ⟨hσ, hex₂⟩ := Bool.and_eq_true_iff.mp hσ
  obtain ⟨hpc, hown, hunpub⟩ := of_decide_eq_true hσ
  obtain ⟨σ', hrun₂, hσ'⟩ := Run.of_exec_any hex₂
  obtain ⟨hhigh, hempty⟩ := of_decide_eq_true hσ'
  have hup : σ.GivenUp 0 0 := ⟨by rw [hpc]; rfl, hown, hunpub⟩
  exact ⟨_, _, σ, σ', hrun₁, hrun₂, hpc, hhigh, hempty, (given_up_stalls hrun₁ hup hrun₂).1⟩

/-- **A leaked guard loses nothing.** In every run in range in which guards are released alone,
leaked or not: the sequences receiver `i` has released are `0 … position`, each once and in order,
and every live guard that is not empty starts at the next one. -/
theorem released_once {i₀ : Fin N} {ls : List (Label T N)}
    (hrun : Run (step ring) (fun σ l => InRange ring σ l ∧ LoneRelease σ l)
      (Sys.init initial i₀) ls σ) (i : Fin N) :
    releasedSeqs σ.trace i = seqs 0 (position σ.trace i) ∧
      ∀ r first last, r < σ.nextRecv → σ.recvReceiver r = i → σ.recvs r = .guard first last →
        last ≠ Sequence.init → first = position σ.trace i + 1 := by
  have hinit := guarded_init ring initial i₀
  have hg : Guarded ring initial σ := hinit.of_run id hrun
  refine ⟨?_, ?_⟩
  · exact hrun.invariant_with (J := fun σ => ∀ i, releasedSeqs σ.trace i =
        seqs 0 (position σ.trace i)) (Guarded.keep id)
      (fun hg hr _ hst => releasedSeqs_step hg hr (moves_of_step hst)) hinit (fun _ => rfl) i
  · rintro r first last hr rfl hpc hlast
    have hcur := hg.current r hr
    rw [hpc] at hcur
    exact hcur hlast

/-- A guard over sequence 0 is leaked; the next one covers it again and is released. -/
theorem released_once_leak :
    ∃ (ls : List (Label Nat 1)) (σ : Sys Nat 1),
      Run (step ⟨1, by decide⟩)
          (fun σ l => InRange ⟨1, by decide⟩ σ l ∧ LoneRelease σ l)
          (Sys.init (fun _ => 0) 0) ls σ ∧
        delivered σ.trace 0 = [0, 0] ∧ releasedSeqs σ.trace 0 = seqs 0 0 := by
  have hex : (exec (step ⟨1, by decide⟩)
      (fun σ l => InRange ⟨1, by decide⟩ σ l ∧ LoneRelease σ l) (Sys.init (fun _ => 0) 0)
      (List.flatten [[.send 0 (.trySend 7)], List.replicate 9 (.sender 0 .run),
        [.recv 0 1 false], List.replicate 2 (.receiver 0 .run), [.receiver 0 .leak],
        [.recv 0 1 false], List.replicate 2 (.receiver 1 .run), [.receiver 1 .release]])).any
      (fun σ : Sys Nat 1 => decide (delivered σ.trace 0 = [0, 0] ∧ position σ.trace 0 = 0)) =
        true := by
    decide +kernel
  obtain ⟨σ, hrun, hσ⟩ := Run.of_exec_any hex
  obtain ⟨hgiven, hpos⟩ := of_decide_eq_true hσ
  have hreleased := (released_once hrun 0).1
  rw [hpos] at hreleased
  exact ⟨_, σ, hrun, hgiven, hreleased⟩

end

end EnsoChannel
