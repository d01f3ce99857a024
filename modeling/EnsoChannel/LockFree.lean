import EnsoChannel.Disconnect
import EnsoChannel.Lib.Count

/-!
# The claim loop is lock-free

The loop of `try_claim_at_most` has no measure of its own: it goes round again whenever its
compare-exchange fails. What bounds it is that a strong compare-exchange fails only on a value that
has changed since the call read it, and that an open `claimed` is changed only by a claim, which
raises it, or by a `close()`, which shuts it.

A call that stands in the loop with a value of `claimed` other than the current one is **stale**
(`SenderPc.stale`): it has one failure ahead of it. Its own steps never make it stale
(`SenderMoves.stale`), so each failure is paid for by a step of somebody else: `Charged` adds this
up for one call, `count_le_mul_of_key` over all of them.

* `claim_lock_free`: between a failed compare-exchange and the call's last look at `claimed`
  somebody else has changed it; the failures of a run are at most the claim calls times the writes
  of `claimed`; and a call that is left alone with `claimed` fails at most once more and returns
  within `2 * (N + 2)` of its own steps.
-/

namespace EnsoChannel

open Lib

variable {T : Type} {N : Nat}

/-! ## Where a call stands towards `claimed` -/

/-- The value of `claimed` that the next compare-exchange of the call expects. -/
def SenderPc.observed : SenderPc T → Option Int
  | .maxConsumed _ last _ _ | .compareExchange _ last _ _ => some last
  | _ => none

/-- In the claim loop. -/
def SenderPc.claiming : SenderPc T → Bool
  | .loadClaimed _ | .maxConsumed _ _ _ _ | .compareExchange _ _ _ _ => true
  | _ => false

/-- 1 if the value the call expects is not the current one. -/
def SenderPc.stale (claimed : Int) (pc : SenderPc T) : Nat :=
  match pc.observed with
  | some last => if claimed = last then 0 else 1
  | none => 0

/-- The own steps the call takes in the loop at most, if nobody else changes `claimed`. -/
def SenderPc.stepsLeft (N : Nat) (claimed : Int) (pc : SenderPc T) : Nat :=
  match pc with
  | .loadClaimed _ => N + 3
  | .maxConsumed _ _ i _ => N - i + 2 + pc.stale claimed * (N + 2)
  | .compareExchange _ _ _ _ => 1 + pc.stale claimed * (N + 2)
  | _ => 0

/-- The step is a compare-exchange that fails. -/
def SenderPc.casFails (claimed : Int) : SenderPc T → SenderAct T → Bool
  | .compareExchange _ last _ _, .run => claimed != last
  | _, _ => false

/-- The step is a failed compare-exchange of some call. -/
def casFails (σ : Sys T N) : Label T N → Bool
  | .sender k act => (σ.sends k).casFails σ.mem.claimed act
  | _ => false

/-- The call that takes the step; 0 for the steps that are not a sender call's. -/
def Label.caller : Label T N → Nat
  | .sender k _ => k
  | _ => 0

/-- The label makes a call that claims. -/
def Label.claims : Label T N → Bool
  | .send _ c => decide (1 ≤ c.limit)
  | _ => false

/-- A successful claim, or the store of a `close()`. -/
def Event.writesClaimed : Event T N → Bool
  | .claim _ _ _ | .shut _ => true
  | _ => false

/-- The failed compare-exchanges of call `k`. -/
def failures (ring : RingBufferMeta) (k : Nat) : Sys T N → List (Label T N) → Nat :=
  count (step ring) fun σ l => casFails σ l && l.caller == k

/-- The claims that were made as call `k`: 1 or 0. -/
def claimCalls (ring : RingBufferMeta) (k : Nat) : Sys T N → List (Label T N) → Nat :=
  count (step ring) fun σ l => l.claims && σ.nextSend == k

/-- Call `k` has just read `claimed`, as `last`. -/
def Observed (k : Nat) (last : Int) (σ : Sys T N) : Prop :=
  σ.mem.claimed = last ∧ ∃ c, σ.sends k = .maxConsumed c last 0 Sequence.shutdownOpen

/-- A step of call `k`, if it is one, only goes through the cursors. -/
def Gating (k : Nat) (last : Int) (σ : Sys T N) (l : Label T N) : Prop :=
  ∀ act, l = .sender k act → ∃ c i x, σ.sends k = .maxConsumed c last i x

/-- Another party than call `k` really changes `claimed`: a claim raises it, or a `close()` turns
it into a shutdown value. -/
def ReallyChanges (k : Nat) (σ : Sys T N) (l : Label T N) (σ' : Sys T N) : Prop :=
  (∀ act, l ≠ .sender k act) ∧
    ((∃ k' a b, σ'.trace = .claim k' a b :: σ.trace ∧ σ.mem.claimed < σ'.mem.claimed) ∨
      ∃ raw, σ'.trace = .shut raw :: σ.trace ∧ hasShutdown σ.mem.claimed = false ∧
        hasShutdown σ'.mem.claimed = true)

/-- Another party really changed `claimed` since call `k` last read it, as `last`. -/
def Interfered (ring : RingBufferMeta) (σ₀ : Sys T N) (ls : List (Label T N)) (σ : Sys T N)
    (k : Nat) (last : Int) : Prop :=
  ∃ l₁ l₂ a l₃ σ₁ m m', ls = l₁ ++ (l₂ ++ a :: l₃) ∧
    Run (step ring) (InRange ring) σ₀ l₁ σ₁ ∧ Observed k last σ₁ ∧
    Run (step ring) (fun σ l => InRange ring σ l ∧ Gating k last σ l) σ₁ l₂ m ∧
    step ring m a = some m' ∧ ReallyChanges k m a m' ∧
    Run (step ring) (fun σ l => InRange ring σ l ∧ Gating k last σ l) m' l₃ σ

/-- The other parties leave `claimed` alone. -/
def Undisturbed (ring : RingBufferMeta) (k : Nat) (σ : Sys T N) (l : Label T N) : Prop :=
  (∀ act, l ≠ .sender k act) → ∀ σ', step ring σ l = some σ' → σ'.mem.claimed = σ.mem.claimed

section

variable {ring : RingBufferMeta} {initial : Nat → T} {σ σ' : Sys T N} {l : Label T N} {k : Nat}
  {m : Mem T N} {pc pc' : SenderPc T} {act : SenderAct T} {e : Option (Event T N)}
  {ls : List (Label T N)}

/-! ## One step of the call -/

theorem observed_claiming {last : Int} (h : pc.observed = some last) : pc.claiming = true := by
  cases pc <;> first | rfl | exact absurd h (by simp [SenderPc.observed])

theorem stale_le_one (pc : SenderPc T) (x : Int) : pc.stale x ≤ 1 := by
  unfold SenderPc.stale
  split
  · split <;> omega
  · omega

theorem stale_of_not_claiming {x : Int} (h : pc.claiming = false) : pc.stale x = 0 := by
  unfold SenderPc.stale
  split
  · rename_i last heq
    rw [observed_claiming heq] at h
    exact absurd h (by simp)
  · rfl

theorem stale_claimLoop {c : SendCall T} {x : Int} : (claimLoop c x).stale x = 0 :=
  claimLoop_cases (P := fun pc => pc.stale x = 0) rfl fun _ => if_pos rfl

theorem stale_claimBody {c : SendCall T} {last b x : Int} {i : Nat} :
    (claimBody ring c last b).stale x ≤ (SenderPc.maxConsumed c last i b : SenderPc T).stale x :=
  claimBody_cases (P := fun pc => pc.stale x ≤ _) (fun _ => Nat.zero_le _) fun _ => le_refl _

theorem claiming_granted (c : SendCall T) (a b : Int) : (granted c a b).claiming = false :=
  granted_cases (P := fun pc => pc.claiming = false) (fun _ => rfl) rfl rfl

/-- A call is in the loop only if it was, and then its step writes nothing and leaves it fewer. -/
theorem SenderMoves.claiming (hm : SenderMoves ring k m pc act e pc')
    (hpc : pc'.claiming = true) :
    pc.claiming = true ∧ e = none ∧
      pc'.stepsLeft N m.claimed + 1 ≤ pc.stepsLeft N m.claimed := by
  cases hm with
  | @load c =>
    refine ⟨rfl, rfl, ?_⟩
    revert hpc
    refine claimLoop_cases
      (P := fun pc => pc.claiming = true → pc.stepsLeft N m.claimed + 1 ≤ N + 3)
      (fun h => absurd h (by simp [SenderPc.claiming])) fun _ _ => ?_
    simp [SenderPc.stepsLeft, SenderPc.stale, SenderPc.observed]
  | @gate c last x i hi =>
    refine ⟨rfl, rfl, ?_⟩
    show N - (i + 1) + 2 + _ + 1 ≤ N - i + 2 + _
    simp only [SenderPc.stale, SenderPc.observed]
    omega
  | @gateEnd c last x i hi =>
    refine ⟨rfl, rfl, ?_⟩
    have hstale : (claimBody ring c last x).stale m.claimed * (N + 2) ≤ _ :=
      Nat.mul_le_mul_right (N + 2) (stale_claimBody (x := m.claimed) (i := i))
    revert hpc hstale
    refine claimBody_cases (P := fun pc => pc.claiming = true → pc.stale m.claimed * (N + 2) ≤ _ →
      pc.stepsLeft N m.claimed + 1 ≤ _) (fun _ h => absurd h (by simp [SenderPc.claiming]))
      fun b _ hstale => ?_
    simp only [SenderPc.stepsLeft]
    omega
  | claim => exact absurd ((claiming_granted _ _ _).symm.trans hpc) (by simp)
  | @retry c last x b hcas =>
    refine ⟨rfl, rfl, ?_⟩
    revert hpc
    refine claimLoop_cases (P := fun pc => pc.claiming = true → pc.stepsLeft N m.claimed + 1 ≤ _)
      (fun h => absurd h (by simp [SenderPc.claiming])) fun _ _ => ?_
    -- the call was stale, and has the current value now
    simp only [SenderPc.stepsLeft, SenderPc.stale, SenderPc.observed, if_neg hcas, if_pos]
    omega
  | closeEnd =>
    cases ‹CloseCaller› <;> exact absurd hpc (by simp [CloseCaller.resume, SenderPc.claiming])
  | _ => exact absurd hpc (by simp [SenderPc.claiming])

/-- **The own steps of a call never make it stale**, and a failed compare-exchange ends it. -/
theorem SenderMoves.stale (hm : SenderMoves ring k m pc act e pc') :
    (pc.casFails m.claimed act).toNat + pc'.stale m.claimed ≤ pc.stale m.claimed := by
  cases hm with
  | load => rw [stale_claimLoop]; exact Nat.zero_le _
  | gate => exact le_of_eq (Nat.zero_add _)
  | gateEnd => exact (Nat.zero_add _).trans_le stale_claimBody
  | @claim c last x b hcas =>
    rw [stale_of_not_claiming (claiming_granted _ _ _)]
    simp [SenderPc.casFails, hcas]
  | @retry c last x b hcas =>
    rw [stale_claimLoop]
    simp only [SenderPc.casFails, SenderPc.stale, SenderPc.observed, if_neg hcas]
    exact Bool.toNat_le _
  | closeEnd => cases ‹CloseCaller› <;> exact Nat.zero_le _
  | _ => exact Nat.zero_le _

/-! ## One step of the system -/

/-- The failure of a step, if it is one of call `k`. -/
theorem casFails_other (hl : ∀ act, l ≠ .sender k act) :
    (casFails σ l && l.caller == k).toNat = 0 := by
  cases l with
  | sender k' act =>
    have hk : ¬ k' = k := fun h => hl act (by rw [h])
    simp [Label.caller, hk]
  | _ => rfl

/-- **A step of the call itself.** -/
theorem Moves.stale_self (hm : Moves ring σ (.sender k act) σ') :
    (casFails σ (.sender k act) && (Label.sender k act : Label T N).caller == k).toNat +
      (σ'.sends k).stale σ'.mem.claimed ≤ (σ.sends k).stale σ.mem.claimed := by
  obtain ⟨e, hsm, -, hmem⟩ := hm.sends_self
  have hstale := hsm.stale
  have hfails : (casFails σ (.sender k act) && (Label.sender k act : Label T N).caller == k) =
      (σ.sends k).casFails σ.mem.claimed act := by
    simp [casFails, Label.caller]
  rw [hfails]
  cases hpc : (σ'.sends k).claiming with
  | false =>
    rw [stale_of_not_claiming hpc]
    omega
  | true =>
    obtain ⟨-, rfl, -⟩ := hsm.claiming hpc
    rw [hmem]
    exact hstale

/-- What writes `claimed`. -/
theorem claimed_unwritten {e : Event T N} (he : e.writesClaimed = false) :
    (m.apply ring e).claimed = m.claimed := by
  cases e <;> first | rfl | exact absurd he (by simp [Event.writesClaimed])

/-- A step that changes `claimed` is counted. -/
theorem Moves.writesClaimed (hm : Moves ring σ l σ') :
    σ.trace.countP Event.writesClaimed + (if σ'.mem.claimed = σ.mem.claimed then 0 else 1) ≤
      σ'.trace.countP Event.writesClaimed := by
  rcases hm.event_cases with ⟨htrace, hmem⟩ | ⟨e, htrace, hmem, -⟩
  · rw [htrace, hmem, if_pos rfl]
    exact le_refl _
  · rw [htrace, List.countP_cons]
    cases he : e.writesClaimed with
    | false =>
      rw [hmem, claimed_unwritten he, if_pos rfl]
      omega
    | true =>
      rw [if_pos rfl]
      split <;> omega

/-! ## The failures of one call -/

/-- What call `k` has cost so far: each of its failures, and the one it has ahead of it, is paid
for by a write of `claimed`. -/
def Charged (ring : RingBufferMeta) (σ₀ : Sys T N) (k : Nat) (ls : List (Label T N))
    (σ : Sys T N) : Prop :=
  ((σ.sends k).claiming = true → 1 ≤ claimCalls ring k σ₀ ls) ∧
    failures ring k σ₀ ls + (σ.sends k).stale σ.mem.claimed ≤
      claimCalls ring k σ₀ ls * σ.trace.countP Event.writesClaimed

/-- A call that starts in the loop claims. -/
theorem limit_of_claiming {c : SendCall T}
    (hlimit : ∀ n, c = .trySendAtMost n → (n : Int) ≤ i64Max) (hpc : c.start.claiming = true) :
    1 ≤ c.limit := by
  have hi : SenderInv 1 ([] : History T 0) 0 c.start := senderInv_start hlimit
  revert hi hpc
  exact start_cases (P := fun pc => pc.claiming = true → SenderInv 1 ([] : History T 0) 0 pc → _)
    (fun _ hi => hi) fun h => absurd h (by simp [SenderPc.claiming])

theorem stale_start (c : SendCall T) (x : Int) : c.start.stale x = 0 :=
  start_cases (P := fun pc => pc.stale x = 0) rfl rfl

/-- **One step is charged.** -/
theorem charged_step {σ₀ : Sys T N} (hrun : Run (step ring) (InRange ring) σ₀ ls σ)
    (hc : Charged ring σ₀ k ls σ) (hok : InRange ring σ l) (hst : step ring σ l = some σ') :
    Charged ring σ₀ k (ls ++ [l]) σ' := by
  have hm := moves_of_step hst
  obtain ⟨hclaim, hpaid⟩ := hc
  have hwrites := hm.writesClaimed
  have hf : failures ring k σ₀ (ls ++ [l]) =
      failures ring k σ₀ ls + (casFails σ l && l.caller == k).toNat := hrun.count_snoc
  have hcalls : claimCalls ring k σ₀ (ls ++ [l]) =
      claimCalls ring k σ₀ ls + (l.claims && σ.nextSend == k).toNat := hrun.count_snoc
  -- the bound grows with the calls and with the writes
  have hgrow : claimCalls ring k σ₀ ls * (σ.trace.countP Event.writesClaimed +
      if σ'.mem.claimed = σ.mem.claimed then 0 else 1) ≤
      claimCalls ring k σ₀ (ls ++ [l]) * σ'.trace.countP Event.writesClaimed :=
    Nat.mul_le_mul (by omega) hwrites
  rw [Nat.mul_add] at hgrow
  unfold Charged
  rw [hf]
  rcases hm.sender_cases k with ⟨act, e, rfl, hsm, -, -⟩ | hl
  · have hstale := hm.stale_self
    refine ⟨fun hpc => ?_, by omega⟩
    have := hclaim (hsm.claiming hpc).1
    omega
  · rw [casFails_other hl, Nat.add_zero]
    rcases hm.sends_cases hl with hsame | ⟨h, c, rfl, hk, hstart⟩ | hclosing
    · rw [hsame]
      refine ⟨fun hpc => by have := hclaim hpc; omega, ?_⟩
      cases hpc : (σ.sends k).claiming with
      | false =>
        rw [stale_of_not_claiming hpc]
        omega
      | true =>
        by_cases heq : σ'.mem.claimed = σ.mem.claimed
        · rw [heq]
          omega
        · have hone := hclaim hpc
          have := stale_le_one (σ.sends k) σ'.mem.claimed
          rw [if_neg heq, Nat.mul_one] at hgrow
          omega
    · rw [hstart, stale_start]
      refine ⟨fun hpc => ?_, by omega⟩
      have hlimit := limit_of_claiming (fun n heq => hok.1 h n (by rw [heq])) hpc
      have hnew : ((Label.send h c : Label T N).claims && σ.nextSend == k) = true := by
        simp [Label.claims, hlimit, hk]
      rw [hcalls, hnew]
      exact Nat.le_add_left 1 _
    · rw [hclosing]
      exact ⟨fun hpc => absurd hpc (by simp [SenderPc.claiming]), by
        show _ + 0 ≤ _
        omega⟩

/-- **The failures of a call** are at most the writes of `claimed`, if it is a claim at all. -/
theorem failures_le {i₀ : Fin N} (hrun : Run (step ring) (InRange ring) (Sys.init initial i₀) ls σ)
    (k : Nat) : failures ring k (Sys.init initial i₀) ls ≤
      claimCalls ring k (Sys.init initial i₀) ls * σ.trace.countP Event.writesClaimed := by
  have hc := hrun.invariant_log (I := fun _ => True)
    (J := fun ls σ => Charged ring (Sys.init initial i₀) k ls σ) (fun _ _ _ => trivial)
    (fun hrun _ hc hok hst => charged_step hrun hc hok hst) trivial
    ⟨fun hpc => absurd hpc (by simp [Sys.init, SenderPc.claiming]), Nat.zero_le _⟩
  exact (Nat.le_add_right _ _).trans hc.2

/-! ## A call that is left alone -/

/-- Where a call stands that nobody has disturbed since it stood in the loop at `σ₀`. -/
def Unhindered (ring : RingBufferMeta) (σ₀ : Sys T N) (k : Nat) (ls : List (Label T N))
    (σ : Sys T N) : Prop :=
  k < σ.nextSend ∧ failures ring k σ₀ ls + (σ.sends k).stale σ.mem.claimed ≤ 1 ∧
    ((σ.sends k).claiming = true → ls.countP (Label.bySender k) +
      (σ.sends k).stepsLeft N σ.mem.claimed ≤ 2 * (N + 2))

theorem unhindered_step {σ₀ : Sys T N} {ok : Sys T N → Label T N → Prop}
    (hrun : Run (step ring) ok σ₀ ls σ) (hu : Unhindered ring σ₀ k ls σ)
    (hok : Undisturbed ring k σ l) (hst : step ring σ l = some σ') :
    Unhindered ring σ₀ k (ls ++ [l]) σ' := by
  have hm := moves_of_step hst
  obtain ⟨hlt, hfail, hleft⟩ := hu
  have hf : failures ring k σ₀ (ls ++ [l]) =
      failures ring k σ₀ ls + (casFails σ l && l.caller == k).toNat := hrun.count_snoc
  refine ⟨lt_of_lt_of_le hlt hm.nextSend_le, ?_⟩
  rw [hf, List.countP_append, List.countP_singleton]
  rcases hm.sender_cases k with ⟨act, e, rfl, hsm, -, hmem⟩ | hl
  · have hstale := hm.stale_self
    refine ⟨by omega, fun hpc => ?_⟩
    obtain ⟨hold, rfl, hdrop⟩ := hsm.claiming hpc
    have := hleft hold
    rw [if_pos (bySender_self _ _), hmem]
    show _ + SenderPc.stepsLeft N σ.mem.claimed _ ≤ _
    omega
  · rw [casFails_other hl, hm.sends_other hlt hl, hok hl σ' hst, if_neg (not_bySender hl)]
    exact ⟨hfail, hleft⟩

/-- In the loop a call can always take a step. -/
theorem exists_step_of_claiming (hlt : k < σ.nextSend) (hpc : (σ.sends k).claiming = true) :
    ∃ σ', step ring σ (.sender k .run) = some σ' := by
  cases heq : σ.sends k with
  | loadClaimed c => exact exists_step_of_senderStep hlt (by rw [heq]; rfl)
  | maxConsumed c last i x =>
    by_cases hi : i < N
    · exact exists_step_of_senderStep hlt (by rw [heq, senderStep, dif_pos hi])
    · exact exists_step_of_senderStep hlt (by rw [heq, senderStep, dif_neg hi])
  | compareExchange c last x b =>
    by_cases hcas : σ.mem.claimed = last
    · exact exists_step_of_senderStep hlt (by rw [heq, senderStep, if_pos hcas])
    · exact exists_step_of_senderStep hlt (by rw [heq, senderStep, if_neg hcas])
  | _ =>
    rw [heq] at hpc
    exact absurd hpc (by simp [SenderPc.claiming])

theorem stepsLeft_pos (x : Int) (hpc : pc.claiming = true) : 1 ≤ pc.stepsLeft N x := by
  cases pc with
  | loadClaimed | maxConsumed | compareExchange => simp only [SenderPc.stepsLeft]; omega
  | _ => exact absurd hpc (by simp [SenderPc.claiming])

theorem stepsLeft_le (x : Int) : pc.stepsLeft N x ≤ 2 * (N + 2) := by
  have hstale : pc.stale x * (N + 2) ≤ 1 * (N + 2) := Nat.mul_le_mul_right _ (stale_le_one pc x)
  cases pc <;> simp only [SenderPc.stepsLeft] <;> omega

/-- **A call that is left alone** fails at most once more and is through its loop within
`2 * (N + 2)` own steps. -/
theorem unhindered_of_run {ok : Sys T N → Label T N → Prop} (hlt : k < σ.nextSend)
    (hrun : Run (step ring) (fun σ l => ok σ l ∧ Undisturbed ring k σ l) σ ls σ') :
    Unhindered ring σ k ls σ' := by
  refine hrun.invariant_log (I := fun _ => True) (fun _ _ _ => trivial)
    (fun hrun _ hu hok hst => unhindered_step hrun hu hok.2 hst) trivial ⟨hlt, ?_, fun _ => ?_⟩
  · exact (Nat.zero_add _).trans_le (stale_le_one _ _)
  · exact (Nat.zero_add _).trans_le (stepsLeft_le _)

/-! ## Who is to blame -/

/-- A call expects what it has just read, or what it expected before. -/
theorem SenderMoves.observed (hm : SenderMoves ring k m pc act e pc') {last : Int}
    (hpc : pc'.observed = some last) :
    e = none ∧ ((m.claimed = last ∧ ∃ c, pc' = .maxConsumed c last 0 Sequence.shutdownOpen) ∨
      ∃ c i x, pc = .maxConsumed c last i x) := by
  have hloop : ∀ c, (claimLoop c m.claimed : SenderPc T).observed = some last →
      m.claimed = last ∧
        ∃ c', (claimLoop c m.claimed : SenderPc T) =
          .maxConsumed c' last 0 Sequence.shutdownOpen := by
    intro c
    refine claimLoop_cases (P := fun pc => pc.observed = some last → m.claimed = last ∧
      ∃ c', pc = .maxConsumed c' last 0 Sequence.shutdownOpen)
      (fun h => absurd h (by simp [SenderPc.observed])) fun _ h => ?_
    have heq : m.claimed = last := Option.some.inj h
    exact ⟨heq, c, by rw [heq]⟩
  cases hm with
  | load | retry => exact ⟨rfl, Or.inl (hloop _ hpc)⟩
  | @gate c last' x i hi =>
    obtain rfl : last' = last := Option.some.inj hpc
    exact ⟨rfl, Or.inr ⟨c, i, x, rfl⟩⟩
  | @gateEnd c last' x i hi =>
    revert hpc
    refine claimBody_cases (P := fun pc => pc.observed = some last → _)
      (fun _ h => absurd h (by simp [SenderPc.observed])) fun b h => ?_
    obtain rfl : last' = last := Option.some.inj h
    exact ⟨rfl, Or.inr ⟨c, i, x, rfl⟩⟩
  | claim =>
    have hout := observed_claiming hpc
    rw [claiming_granted] at hout
    exact absurd hout (by simp)
  | closeEnd =>
    cases ‹CloseCaller› <;> exact absurd hpc (by simp [CloseCaller.resume, SenderPc.observed])
  | _ => exact absurd hpc (by simp [SenderPc.observed])

theorem observed_start (c : SendCall T) : c.start.observed = none :=
  start_cases (P := fun pc => pc.observed = none) rfl rfl

/-- **A call has read what it expects**, and has only gone through the cursors since. -/
theorem since_observed {i₀ : Fin N}
    (hrun : Run (step ring) (InRange ring) (Sys.init initial i₀) ls σ) {last : Int}
    (hpc : (σ.sends k).observed = some last) :
    Since (step ring) (InRange ring) (Sys.init initial i₀) ls σ (Observed k last)
      (Gating k last) := by
  refine hrun.invariant_log (I := fun _ => True)
    (J := fun ls σ => ∀ last, (σ.sends k).observed = some last →
      Since (step ring) (InRange ring) (Sys.init initial i₀) ls σ (Observed k last)
        (Gating k last)) (fun _ _ _ => trivial) ?_ trivial ?_ last hpc
  · intro ls l σ σ' hrun _ hJ hok hst last hpc
    have hm := moves_of_step hst
    rcases hm.sender_cases k with ⟨act, e, rfl, hsm, -, hmem⟩ | hl
    · obtain ⟨rfl, ⟨hread, hnow⟩ | ⟨c, i, x, hgate⟩⟩ := hsm.observed hpc
      · exact Since.now (Run.snoc hrun hok hst) ⟨by rw [hmem]; exact hread, hnow⟩
      · exact (hJ last (by rw [hgate]; rfl)).snoc hok (fun _ _ => ⟨c, i, x, hgate⟩) hst
    · rcases hm.sends_cases hl with hsame | ⟨h, c, -, -, hstart⟩ | hclosing
      · rw [hsame] at hpc
        exact (hJ last hpc).snoc hok (fun act heq => absurd heq (hl act)) hst
      · rw [hstart, observed_start] at hpc
        exact absurd hpc (by simp)
      · rw [hclosing] at hpc
        exact absurd hpc (by simp [SenderPc.observed])
  · intro last hpc
    exact absurd hpc (by simp [Sys.init, SenderPc.observed])

/-- Going through the cursors writes nothing. -/
theorem SenderMoves.gate_silent {c : SendCall T} {last x : Int} {i : Nat}
    (hm : SenderMoves ring k m (.maxConsumed c last i x) act e pc') : e = none := by
  cases hm <;> rfl

/-- **Only a claim and a `close()` change an open `claimed`**, and they really do. -/
theorem reallyChanges {last : Int} (hi : Inv ring initial σ) (hst : step ring σ l = some σ')
    (hopen : -1 ≤ σ.mem.claimed) (hgate : Gating k last σ l)
    (hne : σ'.mem.claimed ≠ σ.mem.claimed) : ReallyChanges k σ l σ' := by
  have hm := moves_of_step hst
  have hhigh := hi.sound.claimed.eq_highest hi.sound.bound hopen
  constructor
  · rintro act rfl
    obtain ⟨c, i, x, hpc⟩ := hgate act rfl
    obtain ⟨e, hsm, -, hmem⟩ := hm.sends_self
    rw [hpc] at hsm
    rw [hmem, hsm.gate_silent] at hne
    exact hne rfl
  · rcases hm.event_cases with ⟨-, hmem⟩ | ⟨e, htrace, hmem, -⟩
    · exact absurd (by rw [hmem]) hne
    · have hwrites : e.writesClaimed = true := by
        by_contra hno
        exact hne (by rw [hmem, claimed_unwritten (Bool.eq_false_iff.mpr hno)])
      have hl := hi.legal_step hm
      rw [htrace] at hl
      cases e with
      | claim k' a b =>
        obtain ⟨-, ha, hab, -⟩ := hl
        refine Or.inl ⟨k', a, b, htrace, ?_⟩
        rw [hmem]
        show σ.mem.claimed < b
        omega
      | shut raw =>
        obtain ⟨k', act, pc, -, -, -, hsm⟩ := hm.of_sendSide htrace rfl
        refine Or.inr ⟨raw, htrace, hasShutdown_eq_false.mpr hopen, ?_⟩
        rw [hmem]
        refine hsm.shut_sets hi.sound (hi.send k') ?_
        -- the untouched cursor is stored over only while it is untouched
        rintro rfl
        obtain ⟨caller, ⟨R, h₀, h₁, heq | heq⟩ | ⟨-, -, hh⟩⟩ := hsm.shut_read (hi.send k')
        · omega
        · have := hi.sound.bound
          unfold i64Min at heq
          omega
        · refine hne ?_
          rw [hmem, hhigh, hh]
          show i64Or (-1) shutdownMask = -1
          decide
      | _ => exact absurd hwrites (by simp [Event.writesClaimed])

/-- **A compare-exchange fails because somebody interfered.** -/
theorem interfered_of_fails {i₀ : Fin N}
    (hrun : Run (step ring) (InRange ring) (Sys.init initial i₀) ls σ) {last : Int}
    (hpc : (σ.sends k).observed = some last) (hne : σ.mem.claimed ≠ last) :
    Interfered ring (Sys.init initial i₀) ls σ k last := by
  obtain ⟨l₁, l₂, σ₁, rfl, h₁, hobs, h₂⟩ := since_observed hrun hpc
  have hi₁ := (inv_init ring initial i₀).of_run id h₁
  have hopen : -1 ≤ σ₁.mem.claimed := by
    obtain ⟨hread, c, hpc₁⟩ := hobs
    have hs := hi₁.send k
    rw [hpc₁] at hs
    rw [hread]
    exact hs.2.1
  have hne₁ : σ.mem.claimed ≠ σ₁.mem.claimed := by rwa [hobs.1]
  obtain ⟨m₁, a, m₂, σ₂, σ₃, rfl, h₃, hok, hst, h₄, hsame, hchange⟩ :=
    h₂.exists_change (f := fun σ => σ.mem.claimed) hne₁
  have hi₂ := hi₁.of_run (fun hok => hok.1) h₃
  refine ⟨l₁, m₁, a, m₂, σ₁, σ₂, σ₃, rfl, h₁, hobs, h₃, hst, ?_, h₄⟩
  exact reallyChanges hi₂ hst (by rw [hsame]; exact hopen) hok.2 hchange

/-- **The claim loop is lock-free**, in every run in range. -/
theorem claim_lock_free {i₀ : Fin N}
    (hrun : Run (step ring) (InRange ring) (Sys.init initial i₀) ls σ) :
    (∀ k c last x b, σ.sends k = .compareExchange c last x b → σ.mem.claimed ≠ last →
        Interfered ring (Sys.init initial i₀) ls σ k last) ∧
      count (step ring) casFails (Sys.init initial i₀) ls ≤
        ls.countP Label.claims * σ.trace.countP Event.writesClaimed ∧
      ∀ k ls' σ', (σ.sends k).claiming = true →
        Run (step ring) (fun σ l => InRange ring σ l ∧ Undisturbed ring k σ l) σ ls' σ' →
          failures ring k σ ls' ≤ 1 ∧
            ((σ'.sends k).claiming = true → ls'.countP (Label.bySender k) < 2 * (N + 2) ∧
              ∃ σ'', step ring σ' (.sender k .run) = some σ'') := by
  have hi := (inv_init ring initial i₀).of_run id hrun
  refine ⟨fun k c last x b hpc hne => ?_, ?_, fun k ls' σ' hpc hrun' => ?_⟩
  · exact interfered_of_fails hrun (by rw [hpc]; rfl) hne
  · calc count (step ring) casFails (Sys.init initial i₀) ls
        ≤ count (step ring) (fun _ l => l.claims) (Sys.init initial i₀) ls *
            σ.trace.countP Event.writesClaimed :=
          count_le_mul_of_key Label.caller (fun (σ : Sys T N) _ => σ.nextSend)
            (failures_le hrun)
      _ ≤ _ := Nat.mul_le_mul_right _ count_le_countP
  · have hlt : k < σ.nextSend := by
      refine hi.fresh.lt_of_send ?_
      intro hidle
      rw [hidle] at hpc
      exact absurd hpc (by simp [SenderPc.claiming])
    obtain ⟨hlt', hfail, hleft⟩ := unhindered_of_run hlt hrun'
    refine ⟨by omega, fun hpc' => ⟨?_, exists_step_of_claiming hlt' hpc'⟩⟩
    have := hleft hpc'
    have := stepsLeft_pos (N := N) σ'.mem.claimed hpc'
    omega

/-- Two claims race on a ring of two slots: the loser has been interfered with, and left alone it
is through after one more failure. -/
theorem claim_lock_free_race :
    ∃ (ls : List (Label Nat 1)) (σ : Sys Nat 1),
      Run (step ⟨1, by decide⟩) (InRange ⟨1, by decide⟩) (Sys.init (fun _ => 0) 0) ls σ ∧
        Interfered ⟨1, by decide⟩ (Sys.init (fun _ => 0) 0) ls σ 0 (-1) ∧
        count (step ⟨1, by decide⟩) casFails (Sys.init (fun _ => 0) 0) ls ≤ 2 * 1 ∧
        ∀ ls' σ', Run (step ⟨1, by decide⟩) (fun σ l => InRange ⟨1, by decide⟩ σ l ∧
          Undisturbed ⟨1, by decide⟩ 0 σ l) σ ls' σ' → failures ⟨1, by decide⟩ 0 σ ls' ≤ 1 := by
  have hex : (exec (step ⟨1, by decide⟩) (InRange ⟨1, by decide⟩) (Sys.init (fun _ => 0) 0)
      (List.flatten [[.send 0 .tryReserve, .send 0 .tryReserve], List.replicate 3 (.sender 0 .run),
        List.replicate 4 (.sender 1 .run)])).any
      (fun σ : Sys Nat 1 => decide (σ.sends 0 = .compareExchange .tryReserve (-1) (-1) 0 ∧
        σ.mem.claimed = 0 ∧ σ.trace.countP Event.writesClaimed = 1)) = true := by
    decide +kernel
  obtain ⟨σ, hrun, hσ⟩ := Run.of_exec_any hex
  obtain ⟨hpc, hclaimed, hwrites⟩ := of_decide_eq_true hσ
  obtain ⟨hblame, hbound, halone⟩ := claim_lock_free hrun
  refine ⟨_, σ, hrun, hblame 0 _ _ _ _ hpc (by rw [hclaimed]; decide), ?_, ?_⟩
  · rw [hwrites] at hbound
    exact hbound
  · exact fun ls' σ' hrun' => (halone 0 ls' σ' (by rw [hpc]; rfl) hrun').1

end

end EnsoChannel
