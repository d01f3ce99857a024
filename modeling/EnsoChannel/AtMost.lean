import EnsoChannel.Alone
import EnsoChannel.Claims

/-!
# Sending batches of at most `limit`

`try_send_at_most` for every `usize` limit, from every state that a run in range reaches.

A limit is cast to `i64` before it is compared with anything, so one above `i64::MAX` turns
negative and moves `claimed` back (below `-1` it reads as a shutdown).

`exact_send_at_most`: `try_send_at_most` reserves exactly what is free, up to the limit, unless the
limit is above `i64::MAX` while something is free; `send_at_most_shuts` is such a call. It needs
that no cursor went back: no more than the capacity is then claimed beyond the slowest receiver.
-/

namespace EnsoChannel

open Lib

variable {T : Type} {N : Nat}

/-- `x as usize` for an `i64`. -/
def i64AsUsize (x : Int) : Nat := (BitVec.ofInt 64 x).toNat

/-- `total_reserved`. -/
def Permits.totalReserved (p : Permits) : Nat := i64AsUsize (p.endSeq - p.startSeq + 1)

/-- What the `i64` operations of one iteration of the claim loop compute. -/
def claimArithmetic (ring : RingBufferMeta) (last maxConsumed limit : Int) : List Int :=
  let wrapPoint := last - ring.bufferSize
  let availableCapacity := maxConsumed - wrapPoint
  let maxAvailable := last + availableCapacity
  let available := maxAvailable - last
  [last + 1, wrapPoint, availableCapacity, maxAvailable, available,
    last + min available (min limit ring.bufferSize)]

/-- The `i64` operations of the claim loop do not overflow. -/
def NoOverflow (ring : RingBufferMeta) (last maxConsumed limit : Int) : Prop :=
  ∀ x ∈ claimArithmetic ring last maxConsumed limit, i64Min ≤ x ∧ x ≤ i64Max

/-- The whole channel state is the same. -/
def Sys.Untouched (σ σ' : Sys T N) : Prop :=
  σ'.mem = σ.mem ∧ σ'.senders = σ.senders ∧ σ'.receivers = σ.receivers

/-- The channel is terminated, or no receiver is left. -/
def Sys.Over (σ : Sys T N) : Prop :=
  hasShutdown σ.mem.claimed = true ∨ ∀ i, σ.receivers i = false

/-- What `try_send_at_most(limit)` is to do from `σ`, its call standing at `pc` in `σ'`. -/
def ExactSend (ring : RingBufferMeta) (limit : Nat) (σ σ' : Sys T N) (pc : SenderPc T) : Prop :=
  (limit = 0 → pc = .permits ⟨0, -1, 0⟩ ∧ σ.Untouched σ') ∧
    (limit ≠ 0 → σ.Over → pc = .refused .shutdown ∧ σ.Untouched σ') ∧
    (limit ≠ 0 → ¬ σ.Over → ∃ x n, σ.Slowest x ∧ n = ring.bufferSize - (σ.mem.claimed - x) ∧
      NoOverflow ring σ.mem.claimed x (usizeAsI64 limit) ∧
      (n = 0 → pc = .refused .empty ∧ σ.Untouched σ') ∧
      (n ≠ 0 → ∃ p : Permits, pc = .permits p ∧ (p.totalReserved : Int) = min (limit : Int) n ∧
        1 ≤ p.totalReserved ∧ p.startSeq = σ.mem.claimed + 1 ∧ p.nextSeq = p.startSeq ∧
        p.endSeq = σ.mem.claimed + p.totalReserved ∧
        σ'.mem = { σ.mem with claimed := σ.mem.claimed + p.totalReserved } ∧
        hasShutdown σ'.mem.claimed = false))

/-- `try_send_at_most(limit)` on handle `h`, run without interference, does what it is to do. -/
def SendsExactly (ring : RingBufferMeta) (recycle : T → T) (h limit : Nat) (σ : Sys T N) : Prop :=
  ∃ σ', Sys.Sends ring recycle h (.trySendAtMost limit) σ σ' ∧
    ExactSend ring limit σ σ' (σ'.sends σ.nextSend)

section

variable {ring : RingBufferMeta} {recycle : T → T} {initial : Nat → T} {σ σ' : Sys T N}
  {h limit : Nat} {m : Mem T N} {x : Int}

/-! ### The gate -/

theorem gate_le_shutdownOpen (n : Nat) : m.gate n ≤ Sequence.shutdownOpen := by
  induction n with
  | zero => exact le_refl _
  | succ n ih =>
    rw [Mem.gate]
    split
    · exact (min_le_left _ _).trans ih
    · exact ih

theorem gate_le_consumed {n : Nat} (i : Fin N) (hi : i.val < n) : m.gate n ≤ m.consumed i := by
  induction n with
  | zero => exact absurd hi (Nat.not_lt_zero _)
  | succ n ih =>
    rw [Mem.gate]
    rcases Nat.lt_succ_iff_lt_or_eq.mp hi with hlt | rfl
    · split
      · exact (min_le_left _ _).trans (ih hlt)
      · exact ih hlt
    · rw [dif_pos i.isLt]
      exact min_le_right _ _

theorem le_gate (hx : x ≤ Sequence.shutdownOpen) (hall : ∀ i, x ≤ m.consumed i) (n : Nat) :
    x ≤ m.gate n := by
  induction n with
  | zero => exact hx
  | succ n ih =>
    rw [Mem.gate]
    split
    · exact le_min ih (hall _)
    · exact ih

/-- The cursors of dropped receivers are at the sentinel. -/
def Sys.Parked (σ : Sys T N) : Prop :=
  ∀ i, σ.receivers i = false → σ.mem.consumed i = Sequence.shutdownOpen

/-- **The gate finds the slowest live receiver.** -/
theorem gate_eq (hp : σ.Parked) (hx : σ.Slowest x) (hle : x ≤ Sequence.shutdownOpen) :
    σ.mem.gate N = x := by
  obtain ⟨⟨i, hi, rfl⟩, hmin⟩ := hx
  refine le_antisymm (gate_le_consumed i i.isLt) (le_gate hle (fun j => ?_) N)
  cases hj : σ.receivers j with
  | true => exact hmin j hj
  | false =>
    rw [hp j hj]
    exact hle

/-- With no receiver left the gate is at the sentinel. -/
theorem gate_of_dropped (hp : σ.Parked) (hall : ∀ i, σ.receivers i = false) :
    σ.mem.gate N = Sequence.shutdownOpen := by
  refine le_antisymm (gate_le_shutdownOpen N) (le_gate (le_refl _) (fun i => ?_) N)
  rw [hp i (hall i)]

theorem Sys.Slowest.unique {y : Int} (hx : σ.Slowest x) (hy : σ.Slowest y) : x = y := by
  obtain ⟨⟨i, hi, rfl⟩, hmin⟩ := hx
  obtain ⟨⟨j, hj, rfl⟩, hmin'⟩ := hy
  exact le_antisymm (hmin j hj) (hmin' i hi)

theorem Inv.parked (hi : Inv ring initial σ) : σ.Parked := fun i hd =>
  hi.sound.consumed_of_dropped ((hi.borrow.dropped i).mpr hd)

/-! ### The outcome -/

variable (ring recycle) in
/-- **What `try_send_at_most(limit)` does**: it returns an empty batch, or what `tryClaimAtMost`
says. -/
theorem sends_atMost (hlive : σ.senders h = true) (hlimit : limit ≠ 0) :
    ∃ σ', Sys.Sends ring recycle h (.trySendAtMost limit) σ σ' ∧ σ'.senders = σ.senders ∧
      σ'.receivers = σ.receivers ∧
      (∀ e, tryClaimAtMost ring σ.mem (usizeAsI64 limit) = .error e →
        σ'.sends σ.nextSend = .refused e ∧ σ'.mem = σ.mem) ∧
      ∀ a b, tryClaimAtMost ring σ.mem (usizeAsI64 limit) = .ok (a, b) →
        σ'.sends σ.nextSend = .permits ⟨a, b, a⟩ ∧ σ'.mem = { σ.mem with claimed := b } := by
  have hstart : (SendCall.trySendAtMost limit : SendCall T).start =
      .loadClaimed (.trySendAtMost limit) := by
    cases limit with
    | zero => exact absurd rfl hlimit
    | succ n => rfl
  generalize hout : tryClaimAtMost ring σ.mem (usizeAsI64 limit) = out
  have hsends : Sys.SenderSettles ring recycle σ.nextSend _
      ((σ.called h).claimed σ.nextSend σ.mem σ.trace (.trySendAtMost limit) out) → _ :=
    sends_claim hlive hstart
  have hout : tryClaimAtMost ring σ.mem (SendCall.trySendAtMost limit : SendCall T).limit = out :=
    hout
  rw [hout] at hsends
  cases out with
  | error e =>
    refine ⟨_, hsends (settles_rest rfl), rfl, rfl, fun e' he => ?_,
      fun a b hab => absurd hab (by simp)⟩
    cases he
    exact ⟨withSend_sends, rfl⟩
  | ok g =>
    obtain ⟨a, b⟩ := g
    refine ⟨_, hsends (settles_rest rfl), rfl, rfl, fun e he => absurd he (by simp),
      fun a' b' hab => ?_⟩
    cases hab
    exact ⟨withSend_sends, rfl⟩

/-- A closed channel is refused. -/
theorem tryClaimAtMost_of_over (hp : σ.Parked) (hover : σ.Over) (n : Int) :
    tryClaimAtMost ring σ.mem n = .error .shutdown := by
  unfold tryClaimAtMost
  rcases hover with hshut | hall
  · rw [if_pos hshut]
  · rw [gate_of_dropped hp hall, if_pos rfl, ite_self]

variable (ring) in
/-- An open channel is claimed up to the limit and what is free. -/
theorem tryClaimAtMost_of_open (hp : σ.Parked) (hopen : ¬ σ.Over) (hx : σ.Slowest x)
    (hlt : x < Sequence.shutdownOpen) (n : Int) :
    tryClaimAtMost ring σ.mem n =
      if ring.bufferSize - (σ.mem.claimed - x) ≤ 0 then .error .empty
      else .ok (σ.mem.claimed + 1, σ.mem.claimed +
        min (ring.bufferSize - (σ.mem.claimed - x)) (min n ring.bufferSize)) := by
  unfold tryClaimAtMost
  rw [if_neg fun hshut => hopen (Or.inl hshut), gate_eq hp hx hlt.le, if_neg hlt.ne]
  simp only [RingBufferMeta.availableSlots_eq]
  rw [show x + ring.bufferSize - σ.mem.claimed = ring.bufferSize - (σ.mem.claimed - x) by omega]
  by_cases hfull : ring.bufferSize - (σ.mem.claimed - x) ≤ 0
  · rw [if_pos hfull, if_pos (by omega)]
  · rw [if_neg hfull, if_neg (by omega)]

/-- A limit above `i64::MAX` is cast to a negative one. -/
theorem usizeAsI64_of_gt (h₀ : i64Max < (limit : Int)) (h₁ : limit < 2 ^ 64) :
    usizeAsI64 limit = limit - 2 ^ 64 := by
  unfold i64Max at h₀
  unfold usizeAsI64
  rw [BitVec.toInt_eq_toNat_cond, BitVec.toNat_ofNat, Nat.mod_eq_of_lt h₁, if_neg (by omega)]
  norm_num

/-- The casts of a reservation that fits the ring. -/
theorem totalReserved_eq {p : Permits} {n : Int} (h₀ : 0 ≤ n) (h₁ : n ≤ i64Max)
    (hp : p.endSeq = p.startSeq + n - 1) : (p.totalReserved : Int) = n := by
  unfold Permits.totalReserved i64AsUsize
  rw [toNat_ofInt_of_nonneg (by omega) (by omega)]
  omega

theorem usizeAsI64_range (u : Nat) : i64Min ≤ usizeAsI64 u ∧ usizeAsI64 u ≤ i64Max := by
  have hlow := BitVec.le_toInt (BitVec.ofNat 64 u)
  have hupp := BitVec.toInt_lt (x := BitVec.ofNat 64 u)
  unfold usizeAsI64 i64Min i64Max
  exact ⟨hlow, by omega⟩

/-- The claim loop stays in the `i64` range, but perhaps for a negative limit. -/
theorem noOverflow {last n : Int} (h₀ : -1 ≤ last) (h₁ : last + 1 < 2 ^ 62) (hx₀ : -1 ≤ x)
    (hx₁ : x ≤ last) (hn : i64Min ≤ last + n) : NoOverflow ring last x n := by
  have hc := ring.bufferSize_pos
  have hle := ring.bufferSize_le
  unfold i64Min at hn
  intro y hy
  unfold i64Min i64Max
  simp only [claimArithmetic, List.mem_cons, List.not_mem_nil, or_false] at hy
  omega

/-- **Exact at-most reservation.** From every state that a run in range reaches,
`try_send_at_most(limit)` run without interference does exactly what it is to do, except: where
something is free, for the limits above `i64::MAX`; and where more than the capacity is claimed
beyond the slowest receiver (whose cursor went back), where it returns `Full`. -/
theorem exact_send_at_most {i₀ : Fin N} {ls : List (Label T N)}
    (hrun : Run (step ring) (InRange ring) (Sys.init initial i₀) ls σ)
    (hlive : σ.senders h = true) (hlimit : limit < 2 ^ 64) :
    SendsExactly ring recycle h limit σ ↔
      limit = 0 ∨ σ.Over ∨
        ∃ n, σ.Free ring n ∧ (n = 0 ∨ 0 < n ∧ (limit : Int) ≤ i64Max) := by
  have hi := Inv.of_run (fun hok => hok) (inv_init ring initial i₀) hrun
  have hp := hi.parked
  have hc := ring.bufferSize_pos
  have hle := ring.bufferSize_le
  by_cases hzero : limit = 0
  · subst hzero
    refine iff_of_true ?_ (Or.inl rfl)
    refine ⟨_, sends_start hlive (settles_rest rfl), fun _ => ⟨withSend_sends, rfl, rfl, rfl⟩,
      fun hne => absurd rfl hne, fun hne => absurd rfl hne⟩
  obtain ⟨σ', hsends, hsenders, hreceivers, herror, hok⟩ :=
    sends_atMost ring recycle hlive hzero
  have hiff : SendsExactly ring recycle h limit σ ↔
      ExactSend ring limit σ σ' (σ'.sends σ.nextSend) := by
    refine ⟨fun ⟨σ'', hs, he⟩ => ?_, fun he => ⟨σ', hsends, he⟩⟩
    rwa [hs.unique hsends] at he
  rw [hiff]
  by_cases hover : σ.Over
  · refine iff_of_true ?_ (Or.inr (Or.inl hover))
    obtain ⟨hpc, hmem⟩ := herror _ (tryClaimAtMost_of_over hp hover _)
    exact ⟨fun h => absurd h hzero, fun _ _ => ⟨hpc, hmem, hsenders, hreceivers⟩,
      fun _ h => absurd hover h⟩
  -- an open channel has a slowest receiver
  obtain ⟨hopen, hlivei⟩ := not_or.mp hover
  obtain ⟨j, hj⟩ := not_forall.mp hlivei
  obtain ⟨x, hx⟩ := exists_slowest (Bool.not_eq_false _ ▸ hj)
  have hclaimed : σ.mem.claimed = highest σ.trace :=
    hi.sound.claimed.eq_highest hi.sound.bound
      (hasShutdown_eq_false.mp (Bool.eq_false_iff.mpr hopen))
  have hneg := neg_one_le_highest σ.trace
  have hbound := hi.sound.bound
  have hxhigh := hi.slowest_le hx
  have hxlow : -1 ≤ x := by
    obtain ⟨⟨i, hli, rfl⟩, -⟩ := hx
    rw [hi.sound.consumed_eq (hi.not_dropped hli)]
    exact neg_one_le_position hi.sound.legal
  have hout := tryClaimAtMost_of_open ring hp hover hx
    (by unfold Sequence.shutdownOpen i64Max; omega) (usizeAsI64 limit)
  have hfree : ∀ n, σ.Free ring n → n = ring.bufferSize - (σ.mem.claimed - x) := by
    rintro n ⟨y, hy, rfl⟩
    rw [hx.unique hy]
  rcases lt_trichotomy (ring.bufferSize - (σ.mem.claimed - x)) 0 with hlt | hzero' | hgt
  · -- more than the capacity is claimed beyond the slowest receiver
    rw [if_pos hlt.le] at hout
    refine iff_of_false (fun he => ?_) ?_
    · obtain ⟨y, n, hy, hn, -, -, hbatch⟩ := he.2.2 hzero hover
      rw [← hx.unique hy] at hn
      obtain ⟨p, hpc, -⟩ := hbatch (by omega)
      rw [(herror _ hout).1] at hpc
      exact absurd hpc (by simp)
    · rintro (h | h | ⟨n, hn, h⟩)
      · exact hzero h
      · exact hover h
      · have := hfree n hn
        omega
  · rw [if_pos hzero'.le] at hout
    refine iff_of_true ⟨fun h => absurd h hzero, fun _ h => absurd h hover, fun _ _ => ?_⟩
      (Or.inr (Or.inr ⟨0, ⟨x, hx, hzero'.symm⟩, Or.inl rfl⟩))
    obtain ⟨hpc, hmem⟩ := herror _ hout
    have hrange := usizeAsI64_range limit
    have hmin : i64Min ≤ σ.mem.claimed + usizeAsI64 limit := by omega
    exact ⟨x, 0, hx, hzero'.symm, noOverflow (by omega) (by omega) hxlow (by omega) hmin,
      fun _ => ⟨hpc, hmem, hsenders, hreceivers⟩, fun h => absurd rfl h⟩
  · rw [if_neg (by omega)] at hout
    obtain ⟨hpc, hmem⟩ := hok _ _ hout
    have hcond : (limit = 0 ∨ σ.Over ∨
        ∃ n, σ.Free ring n ∧ (n = 0 ∨ 0 < n ∧ (limit : Int) ≤ i64Max)) ↔
        (limit : Int) ≤ i64Max := by
      refine ⟨?_, fun h => Or.inr (Or.inr ⟨_, ⟨x, hx, rfl⟩, Or.inr ⟨hgt, h⟩⟩)⟩
      rintro (h | h | ⟨n, hn, h⟩)
      · exact absurd h hzero
      · exact absurd h hover
      · have heq := hfree n hn
        omega
    rw [hcond]
    refine ⟨fun he => ?_, fun hmax => ⟨fun h => absurd h hzero, fun _ h => absurd h hover,
      fun _ _ => ⟨x, _, hx, rfl, ?_, fun h => absurd h (by omega), fun _ => ?_⟩⟩⟩
    · -- a negative limit moves `claimed` back
      by_contra hmax
      have hcast := usizeAsI64_of_gt (not_le.mp hmax) hlimit
      obtain ⟨y, n, hy, hn, -, -, hbatch⟩ := he.2.2 hzero hover
      rw [← hx.unique hy] at hn
      obtain ⟨p, hpc', -, -, -, -, hend, -⟩ := hbatch (by omega)
      rw [hpc] at hpc'
      cases hpc'
      have hend : σ.mem.claimed + min (ring.bufferSize - (σ.mem.claimed - x))
        (min (usizeAsI64 limit) ring.bufferSize) = _ := hend
      omega
    · rw [usizeAsI64_eq hmax]
      exact noOverflow (by omega) (by omega) hxlow (by omega) (by unfold i64Min; omega)
    · rw [usizeAsI64_eq hmax] at hpc hmem
      have hgrant :
          min (ring.bufferSize - (σ.mem.claimed - x)) (min (limit : Int) ring.bufferSize) =
          min (limit : Int) (ring.bufferSize - (σ.mem.claimed - x)) := by
        omega
      rw [hgrant] at hpc hmem
      have hpos : 1 ≤ min (limit : Int) (ring.bufferSize - (σ.mem.claimed - x)) := by omega
      have hupp : min (limit : Int) (ring.bufferSize - (σ.mem.claimed - x)) ≤ ring.bufferSize := by
        omega
      generalize min (limit : Int) (ring.bufferSize - (σ.mem.claimed - x)) = n
        at hpc hmem hpos hupp ⊢
      have htotal : ((⟨σ.mem.claimed + 1, σ.mem.claimed + n, σ.mem.claimed + 1⟩ :
          Permits).totalReserved : Int) = n :=
        totalReserved_eq (by omega) (by unfold i64Max; omega)
          (show σ.mem.claimed + n = σ.mem.claimed + 1 + n - 1 by omega)
      refine ⟨_, hpc, htotal, by omega, rfl, rfl, by rw [htotal], by rw [htotal, hmem], ?_⟩
      rw [hmem, hasShutdown_eq_false]
      show -1 ≤ σ.mem.claimed + n
      omega

/-- On a new ring of four slots, with a limit of three. -/
theorem exact_send_at_most_three :
    SendsExactly ⟨2, by decide⟩ (id : Nat → Nat) 0 3 (Sys.init (fun _ => 0) (0 : Fin 1)) :=
  (exact_send_at_most (Run.nil (s := Sys.init (fun _ => 0) (0 : Fin 1))) rfl
    (by norm_num)).mpr (Or.inr (Or.inr ⟨4, ⟨-1, ⟨⟨0, rfl, rfl⟩, fun _ _ => le_refl _⟩, rfl⟩,
      Or.inr ⟨by norm_num, by unfold i64Max; norm_num⟩⟩))

/-- **A limit of `usize::MAX` shuts a new channel**: on a ring of two slots the limit is cast to
`-1`, and the compare-exchange moves `claimed` from `-1` to `-2`, a shutdown value. -/
theorem send_at_most_shuts :
    (∃ σ' : Sys Nat 1, Sys.Sends ⟨1, by decide⟩ id 0 (.trySendAtMost (2 ^ 64 - 1))
        (Sys.init (fun _ => 0) 0) σ' ∧ σ'.sends 0 = .permits ⟨0, -2, 0⟩ ∧
          hasShutdown σ'.mem.claimed = true) ∧
      ¬ SendsExactly ⟨1, by decide⟩ id 0 (2 ^ 64 - 1) (Sys.init (fun _ => 0) (0 : Fin 1)) := by
  obtain ⟨σ', hsends, -, -, -, hok⟩ := sends_atMost ⟨1, by decide⟩ (id : Nat → Nat)
    (σ := Sys.init (fun _ => 0) (0 : Fin 1)) (h := 0) rfl (show 2 ^ 64 - 1 ≠ 0 by norm_num)
  obtain ⟨hpc, hmem⟩ := hok 0 (-2) (by decide +kernel)
  refine ⟨⟨σ', hsends, hpc, by rw [hmem]; decide⟩, fun ⟨σ'', hsends', he⟩ => ?_⟩
  obtain rfl := hsends.unique hsends'
  obtain ⟨x, n, -, -, -, hfull, hbatch⟩ := he.2.2 (by norm_num) (by
    rintro (h | h)
    · exact absurd h (by decide)
    · exact absurd (h 0) (by decide))
  have hpc : σ'.sends (Sys.init (fun _ => (0 : Nat)) (0 : Fin 1)).nextSend = _ := hpc
  by_cases hn : n = 0
  · rw [hpc] at hfull
    exact absurd (hfull hn).1 (by simp)
  · obtain ⟨p, hpc', -, -, -, -, -, -, hopen⟩ := hbatch hn
    rw [hmem] at hopen
    exact absurd hopen (by decide)

end

end EnsoChannel
