import EnsoChannel.Steps

/-!
# What a sender call may rely on

The invariant of one sender call (`SenderInv`), in terms of the history alone: every `claimed`
value it read back from its own locals is accounted for, and the sequences of its permits are
still its own and unpublished (`Own`). No other party can break it (`SenderInv.cons`): a claim
gives a sequence one owner, and only the owner publishes.

* `SenderInv.step`: one step of the call is allowed by the protocol and keeps its invariant.
* `ClaimedIs`: what the `claimed` cursor says at any time: the highest claimed sequence, or a
  shutdown value over a sequence that was once claimed. `claimedIs_cons` keeps it.

The two facts about `close()` that make this go through: a `terminate()` is called only once
something was claimed, so the value it stores is a shutdown value; and the `close()` of the last
sender's drop, which may find the untouched cursor, has no claim running against it.
-/

namespace EnsoChannel

open Lib

variable {T : Type} {N : Nat}

/-! ## The values a call carries -/

/-- What a load of `claimed` returns: the highest claimed sequence, or a shutdown value. -/
def ClaimedIs (h : History T N) (raw : Int) : Prop :=
  raw = highest h ∨ ∃ R, 0 ≤ R ∧ R ≤ highest h ∧ raw = R + i64Min

/-- `k` owns `a … b`, and nothing of it is published. -/
def Own (h : History T N) (k : Nat) (a b : Int) : Prop :=
  ∀ s, a ≤ s → s ≤ b → owner h s = some k ∧ ¬ Published h s

/-- The batch `p` is a claim of `k`, of which `next()` has handed out an initial part; the empty
batch of a limit of 0 is one too. -/
def OwnBatch (h : History T N) (k : Nat) (p : Permits) : Prop :=
  0 ≤ p.startSeq ∧ p.startSeq ≤ p.nextSeq ∧ p.nextSeq ≤ p.endSeq + 1 ∧
    Own h k p.startSeq p.endSeq

/-- The minimum over the first `i` cursors: the sentinel if those receivers are dropped, or else a
sequence up to which everything is published. -/
def GateRead (h : History T N) (i : Nat) (minConsumed : Int) : Prop :=
  (minConsumed = Sequence.shutdownOpen ∧ ∀ j : Fin N, j.val < i → Dropped h j) ∨
    (-1 ≤ minConsumed ∧ minConsumed ≤ highest h ∧
      ∀ s, 0 ≤ s → s ≤ minConsumed → Published h s)

/-- The value `close()` loaded: a claimed sequence, with or without the shutdown bit; or, for the
last sender's drop, the untouched cursor. -/
def CloseRead (h : History T N) (caller : CloseCaller) (raw : Int) : Prop :=
  (∃ R, 0 ≤ R ∧ R ≤ highest h ∧ (raw = R ∨ raw = R + i64Min)) ∨
    (raw = -1 ∧ caller = .lastSender ∧ highest h = -1)

/-- What the caller of `close()` still holds. -/
def CallerInv (h : History T N) (k : Nat) : CloseCaller → Prop
  | .batch p => OwnBatch h k p ∧ 0 ≤ highest h
  | .permit => 0 ≤ highest h
  | .lastSender => True

/-- What the position of a `close()` says. -/
def CloseInv (h : History T N) (caller : CloseCaller) : ClosePc → Prop
  | .load => True
  | .scan raw _ _ => CloseRead h caller raw
  | .mark raw _ => CloseRead h caller raw
  | .store raw => CloseRead h caller raw
  | .notify _ => True

/-- **The invariant of sender call `k`.** -/
def SenderInv (c : Int) (h : History T N) (k : Nat) : SenderPc T → Prop
  | .loadClaimed call => 1 ≤ call.limit
  | .maxConsumed call last i minConsumed =>
    1 ≤ call.limit ∧ -1 ≤ last ∧ last ≤ highest h ∧ GateRead h i minConsumed
  | .compareExchange call last maxConsumed highest' =>
    1 ≤ call.limit ∧ -1 ≤ last ∧ last < highest' ∧
      highest' = last + min (maxConsumed + c - last) (min call.limit c) ∧
      ∀ s, 0 ≤ s → s ≤ maxConsumed → Published h s
  | .writing _ seq => Own h k seq seq
  | .permit seq => Own h k seq seq
  | .recycling seq => Own h k seq seq
  | .permits p => OwnBatch h k p
  | .batchPermit p seq => OwnBatch h k p ∧ p.startSeq ≤ seq ∧ seq < p.nextSeq
  | .batchRecycling p seq => OwnBatch h k p ∧ p.startSeq ≤ seq ∧ seq < p.nextSeq
  | .draining p => OwnBatch h k p
  | .publishing first seq last => first ≤ seq ∧ Own h k seq last
  | .closing pos caller => CallerInv h k caller ∧ CloseInv h caller pos
  | _ => True

section Stable

variable {c : Int} {h : History T N} {e : Event T N} {k : Nat} {a b a' b' : Int}

theorem Own.sub (ho : Own h k a b) (ha : a ≤ a') (hb : b' ≤ b) : Own h k a' b' :=
  fun s h₀ h₁ => ho s (by omega) (by omega)

/-- **Only the owner publishes.** -/
theorem Own.cons (hl : Legal c (e :: h)) (he : ∀ s, e ≠ .publish k s) (ho : Own h k a b) :
    Own (e :: h) k a b := by
  intro s h₀ h₁
  obtain ⟨hk, hp⟩ := ho s h₀ h₁
  refine ⟨owner_cons hl hk, fun hs => ?_⟩
  rcases published_cons.mp hs with ⟨k', rfl⟩ | hs
  · have hk' : owner h s = some k' := hl.2.1
    have hkk : k = k' := Option.some.inj (hk.symm.trans hk')
    exact he s (by rw [hkk])
  · exact hp hs

theorem OwnBatch.cons {p : Permits} (hl : Legal c (e :: h)) (he : ∀ s, e ≠ .publish k s)
    (ho : OwnBatch h k p) : OwnBatch (e :: h) k p :=
  ⟨ho.1, ho.2.1, ho.2.2.1, ho.2.2.2.cons hl he⟩

theorem GateRead.cons {i : Nat} {x : Int} (hg : GateRead h i x) : GateRead (e :: h) i x := by
  rcases hg with ⟨hx, hd⟩ | ⟨h₀, h₁, hp⟩
  · exact Or.inl ⟨hx, fun j hj => (hd j hj).cons⟩
  · exact Or.inr ⟨h₀, h₁.trans highest_le_cons, fun s hs hsx => (hp s hs hsx).cons⟩

theorem CallerInv.cons {caller : CloseCaller} (hl : Legal c (e :: h))
    (he : ∀ s, e ≠ .publish k s) (hi : CallerInv h k caller) : CallerInv (e :: h) k caller := by
  cases caller with
  | permit => exact le_trans hi highest_le_cons
  | batch p => exact ⟨hi.1.cons hl he, le_trans hi.2 highest_le_cons⟩
  | lastSender => trivial

/-- The value a `close()` loaded stays accounted for; nothing is claimed during the tear-down. -/
theorem CloseRead.cons {caller : CloseCaller} {raw : Int} (hr : CloseRead h caller raw)
    (he : caller = .lastSender → ∀ k a b, e ≠ .claim k a b) : CloseRead (e :: h) caller raw := by
  rcases hr with ⟨R, h₀, h₁, hR⟩ | ⟨hraw, hcaller, hh⟩
  · exact Or.inl ⟨R, h₀, h₁.trans highest_le_cons, hR⟩
  · exact Or.inr ⟨hraw, hcaller, by rw [highest_cons_of_ne (he hcaller), hh]⟩

theorem CloseInv.cons {caller : CloseCaller} {pos : ClosePc} (hi : CloseInv h caller pos)
    (he : caller = .lastSender → ∀ k a b, e ≠ .claim k a b) : CloseInv (e :: h) caller pos := by
  cases pos with
  | load => trivial
  | scan raw lastClaimed seq => exact CloseRead.cons hi he
  | mark raw lastPublished => exact CloseRead.cons hi he
  | store raw => exact CloseRead.cons hi he
  | notify i => trivial

/-- **No other party breaks the invariant of a sender call**: a publish of the call itself is a
step of its own, and during the tear-down nothing is claimed. -/
theorem SenderInv.cons {pc : SenderPc T} (hl : Legal c (e :: h)) (he : ∀ s, e ≠ .publish k s)
    (hclaim : pc.teardown = true → ∀ k a b, e ≠ .claim k a b) (hi : SenderInv c h k pc) :
    SenderInv c (e :: h) k pc := by
  cases pc with
  | loadClaimed call => exact hi
  | maxConsumed call last i minConsumed =>
    exact ⟨hi.1, hi.2.1, hi.2.2.1.trans highest_le_cons, hi.2.2.2.cons⟩
  | compareExchange call last maxConsumed highest' =>
    obtain ⟨h₁, h₂, h₃, h₄, hp⟩ := hi
    exact ⟨h₁, h₂, h₃, h₄, fun s hs hsx => (hp s hs hsx).cons⟩
  | writing v seq => exact Own.cons hl he hi
  | permit seq => exact Own.cons hl he hi
  | recycling seq => exact Own.cons hl he hi
  | permits p => exact OwnBatch.cons hl he hi
  | batchPermit p seq => exact ⟨hi.1.cons hl he, hi.2⟩
  | batchRecycling p seq => exact ⟨hi.1.cons hl he, hi.2⟩
  | draining p => exact OwnBatch.cons hl he hi
  | publishing first seq last => exact ⟨hi.1, hi.2.cons hl he⟩
  | closing pos caller =>
    refine ⟨hi.1.cons hl he, hi.2.cons ?_⟩
    rintro rfl
    exact hclaim rfl
  | _ => trivial

end Stable

/-! ## The `claimed` cursor -/

section Claimed

variable {ring : RingBufferMeta} {initial : Nat → T} {h : History T N} {raw : Int}

/-- An open cursor is the highest claimed sequence. -/
theorem ClaimedIs.eq_highest (hc : ClaimedIs h raw) (hb : highest h + 1 < 2 ^ 62)
    (hopen : -1 ≤ raw) : raw = highest h := by
  rcases hc with heq | ⟨R, h₀, h₁, heq⟩
  · exact heq
  · unfold i64Min at heq
    omega

theorem ClaimedIs.closeRead {caller : CloseCaller} (hc : ClaimedIs h raw)
    (hcaller : caller ≠ .lastSender → 0 ≤ highest h) : CloseRead h caller raw := by
  have hneg := neg_one_le_highest h
  rcases hc with heq | ⟨R, h₀, h₁, heq⟩
  · rcases lt_or_ge (highest h) 0 with hlt | hge
    · refine Or.inr ⟨by omega, ?_, by omega⟩
      by_contra hne
      exact absurd (hcaller hne) (by omega)
    · exact Or.inl ⟨highest h, hge, le_refl _, Or.inl heq⟩
  · exact Or.inl ⟨R, h₀, h₁, Or.inr heq⟩

/-- What a `close()` stores over what it loaded. -/
theorem CloseRead.or_shutdownMask {caller : CloseCaller} (hr : CloseRead h caller raw)
    (hb : highest h + 1 < 2 ^ 62) :
    (∃ R, 0 ≤ R ∧ R ≤ highest h ∧ i64Or raw shutdownMask = R + i64Min) ∨
      (i64Or raw shutdownMask = -1 ∧ highest h = -1 ∧ caller = .lastSender) := by
  rcases hr with ⟨R, h₀, h₁, rfl | rfl⟩ | ⟨rfl, hcaller, hh⟩
  · exact Or.inl ⟨raw, h₀, h₁, or_shutdownMask_of_nonneg h₀ (by unfold i64Max; omega)⟩
  · refine Or.inl ⟨R, h₀, h₁, or_shutdownMask_of_neg ?_ ?_⟩ <;> unfold i64Min <;> omega
  · exact Or.inr ⟨by decide, hh, hcaller⟩

/-- **The cursor is accounted for after every event.** -/
theorem claimedIs_cons {c : Int} {e : Event T N} (hl : Legal c (e :: h))
    (hb : highest h + 1 < 2 ^ 62) (hc : ClaimedIs h (replay ring initial h).claimed)
    (hshut : ∀ raw, e = .shut raw → ∃ caller, CloseRead h caller raw) :
    ClaimedIs (e :: h) (replay ring initial (e :: h)).claimed := by
  cases e with
  | claim k a b =>
    obtain ⟨-, ha, hab, -⟩ := hl
    refine Or.inl ?_
    show b = max b (highest h)
    omega
  | shut raw =>
    obtain ⟨caller, hr⟩ := hshut raw rfl
    rcases hr.or_shutdownMask hb with ⟨R, h₀, h₁, heq⟩ | ⟨heq, hh, -⟩
    · exact Or.inr ⟨R, h₀, h₁, heq⟩
    · exact Or.inl (heq.trans hh.symm)
  | _ => exact hc

end Claimed

/-! ## One step of a sender call -/

/-- The memory is the replay of a legal history, its cursor is accounted for, and the sequences
are in range. -/
structure Sound (ring : RingBufferMeta) (initial : Nat → T) (h : History T N) (m : Mem T N) :
    Prop where
  mem : m = replay ring initial h
  legal : Legal ring.bufferSize h
  claimed : ClaimedIs h m.claimed
  bound : highest h + 1 < 2 ^ 62

section Step

variable {ring : RingBufferMeta} {initial : Nat → T} {h : History T N} {m : Mem T N} {k : Nat}
  {pc pc' : SenderPc T} {act : SenderAct T} {e : Option (Event T N)} {i : Fin N}

/-- The cursor of a live receiver. -/
theorem Sound.consumed_eq (hs : Sound ring initial h m) (hi : ¬ Dropped h i) :
    m.consumed i = position h i := by
  rw [hs.mem, replay_consumed hi]

/-- The cursor of a dropped receiver. -/
theorem Sound.consumed_of_dropped (hs : Sound ring initial h m) (hi : Dropped h i) :
    m.consumed i = Sequence.shutdownOpen := by
  rw [hs.mem, replay_consumed_of_dropped hs.legal hi]

/-- **The cursor of a live receiver is never the sentinel.** -/
theorem Sound.position_lt (hs : Sound ring initial h m) (i : Fin N) :
    position h i < Sequence.shutdownOpen := by
  have := position_le_highest (i := i) hs.legal
  have := hs.bound
  unfold Sequence.shutdownOpen i64Max
  omega

/-- Reading one more cursor. -/
theorem GateRead.snoc {x : Int} (hs : Sound ring initial h m) (hg : GateRead h i.val x) :
    GateRead h (i.val + 1) (min x (m.consumed i)) := by
  by_cases hd : Dropped h i
  · rw [hs.consumed_of_dropped hd]
    rcases hg with ⟨hx, hall⟩ | ⟨h₀, h₁, hp⟩
    · refine Or.inl ⟨by rw [hx, min_self], fun j hj => ?_⟩
      rcases Nat.lt_succ_iff_lt_or_eq.mp hj with hlt | heq
      · exact hall j hlt
      · rwa [Fin.ext heq]
    · have hb := hs.bound
      rw [min_eq_left (by unfold Sequence.shutdownOpen i64Max; omega)]
      exact Or.inr ⟨h₀, h₁, hp⟩
  · have hpos := neg_one_le_position (i := i) hs.legal
    have hhigh := position_le_highest (i := i) hs.legal
    rw [hs.consumed_eq hd]
    rcases hg with ⟨hx, -⟩ | ⟨h₀, h₁, hp⟩
    · rw [hx, min_eq_right (hs.position_lt i).le]
      exact Or.inr ⟨hpos, hhigh, fun s hs₀ hs₁ => published_of_position hs.legal hs₀ hs₁⟩
    · exact Or.inr ⟨le_min h₀ hpos, (min_le_left _ _).trans h₁,
        fun s hs₀ hs₁ => hp s hs₀ (hs₁.trans (min_le_left _ _))⟩

theorem senderInv_claimLoop {call : SendCall T} (hs : Sound ring initial h m)
    (hlimit : 1 ≤ call.limit) : SenderInv ring.bufferSize h k (claimLoop call m.claimed) := by
  unfold claimLoop
  split
  · trivial
  · rename_i hopen
    have hraw : -1 ≤ m.claimed := hasShutdown_eq_false.mp (Bool.eq_false_iff.mpr hopen)
    have heq := hs.claimed.eq_highest hs.bound hraw
    exact ⟨hlimit, hraw, heq.le, Or.inl ⟨rfl, fun j hj => absurd hj (Nat.not_lt_zero _)⟩⟩

theorem senderInv_claimBody {call : SendCall T} {last x : Int} {n : Nat}
    (hi : SenderInv ring.bufferSize h k (.maxConsumed call last n x)) :
    SenderInv ring.bufferSize h k (claimBody ring call last x) := by
  obtain ⟨hlimit, h₀, h₁, hg⟩ := hi
  have hc := ring.bufferSize_pos
  unfold claimBody
  split
  · trivial
  · rename_i hx
    have hp := (hg.resolve_left fun hl => hx hl.1).2.2
    simp only [RingBufferMeta.availableSlots_eq]
    split
    · trivial
    · have heq : last + min (last + (x + ring.bufferSize - last) - last)
          (min call.limit ring.bufferSize) =
          last + min (x + ring.bufferSize - last) (min call.limit ring.bufferSize) := by
        congr 2
        omega
      refine ⟨hlimit, h₀, ?_, heq, hp⟩
      omega

/-- What a call is granted is its own. -/
theorem senderInv_granted {call : SendCall T} {last b : Int} (hl : Legal ring.bufferSize h)
    (h₀ : -1 ≤ last) (h₁ : last < b) (hlast : last = highest h) :
    SenderInv ring.bufferSize (.claim k (last + 1) b :: h) k (granted call (last + 1) b) := by
  have hown : Own (.claim k (last + 1) b :: h : History T N) k (last + 1) b := by
    intro s hs₀ hs₁
    refine ⟨by rw [owner, if_pos ⟨hs₀, hs₁⟩], fun hp => ?_⟩
    have := (((published_cons_of_ne (by simp)).mp hp).range hl).2
    omega
  cases call with
  | trySend v => exact hown.sub (by omega) (le_refl _)
  | tryReserve => exact hown.sub (by omega) (le_refl _)
  | trySendAtMost n =>
    refine ⟨?_, le_refl _, ?_, hown⟩
    · show 0 ≤ last + 1
      omega
    · show last + 1 ≤ b + 1
      omega

/-- A store to an own sequence, and what the call does next. -/
theorem store_own {s : Int} {v : T} (hs : Sound ring initial h m) (ho : Own h k s s)
    (hi : SenderInv ring.bufferSize h k pc') :
    Legal ring.bufferSize (.store k s v :: h) ∧
      SenderInv ring.bufferSize (.store k s v :: h) k pc' := by
  have hl : Legal ring.bufferSize (.store k s v :: h) := ⟨hs.legal, ho s (le_refl _) (le_refl _)⟩
  exact ⟨hl, hi.cons hl (by simp) (by simp)⟩

/-- An event the protocol does not restrict, and what the call does next. -/
theorem free_event {e : Event T N} (hs : Sound ring initial h m)
    (ha : Allowed ring.bufferSize h e) (hp : ∀ s, e ≠ .publish k s)
    (hc : ∀ k a b, e ≠ .claim k a b) (hi : SenderInv ring.bufferSize h k pc') :
    Legal ring.bufferSize (e :: h) ∧ SenderInv ring.bufferSize (e :: h) k pc' :=
  ⟨⟨hs.legal, ha⟩, hi.cons ⟨hs.legal, ha⟩ hp fun _ => hc⟩

/-- Every sequence of a batch is its owner's. -/
theorem OwnBatch.own {p : Permits} {s : Int} (ho : OwnBatch h k p) (h₀ : p.startSeq ≤ s)
    (h₁ : s ≤ p.endSeq) : Own h k s s :=
  ho.2.2.2.sub h₀ h₁

/-- A sequence that `next()` handed out is in the batch. -/
theorem OwnBatch.le_endSeq {p : Permits} {s : Int} (ho : OwnBatch h k p) (h₁ : s < p.nextSeq) :
    s ≤ p.endSeq := by
  have := ho.2.2.1
  omega

/-- Handing out the next sequence. -/
theorem OwnBatch.next {p : Permits} (ho : OwnBatch h k p) (hp : p.nextSeq ≤ p.endSeq) :
    OwnBatch h k { p with nextSeq := p.nextSeq + 1 } := by
  obtain ⟨h₀, h₁, h₂, ho⟩ := ho
  refine ⟨h₀, ?_, ?_, ho⟩
  · show p.startSeq ≤ p.nextSeq + 1
    omega
  · show p.nextSeq + 1 ≤ p.endSeq + 1
    omega

/-- An owned sequence was claimed. -/
theorem Own.highest_nonneg {a b : Int} (hl : Legal ring.bufferSize h) (ho : Own h k a b)
    (hab : a ≤ b) : 0 ≤ highest h := by
  have := owner_eq_some hl (ho a (le_refl _) hab).1
  omega

/-- A `terminate()` runs only once something was claimed. -/
theorem CallerInv.highest {caller : CloseCaller} (hi : CallerInv h k caller)
    (hcaller : caller ≠ .lastSender) : 0 ≤ highest h := by
  cases caller with
  | permit => exact hi
  | batch p => exact hi.2
  | lastSender => exact absurd rfl hcaller

/-- **One step of a sender call** is allowed by the protocol and keeps the invariant of the call. -/
theorem SenderInv.step (hs : Sound ring initial h m) (hi : SenderInv ring.bufferSize h k pc)
    (hmove : SenderMoves ring k m pc act e pc') :
    Legal ring.bufferSize (record e h) ∧ SenderInv ring.bufferSize (record e h) k pc' := by
  cases hmove with
  | load => exact ⟨hs.legal, senderInv_claimLoop hs hi⟩
  | gate hlt =>
    obtain ⟨hlimit, h₀, h₁, hg⟩ := hi
    exact ⟨hs.legal, hlimit, h₀, h₁, GateRead.snoc (i := ⟨_, hlt⟩) hs hg⟩
  | gateEnd => exact ⟨hs.legal, senderInv_claimBody hi⟩
  | @claim call last maxConsumed b hcas =>
    obtain ⟨hlimit, h₀, h₁, hb, hp⟩ := hi
    have hlast : last = highest h := hcas ▸ hs.claimed.eq_highest hs.bound (hcas ▸ h₀)
    have hl : Legal ring.bufferSize (.claim k (last + 1) b :: h) := by
      refine ⟨hs.legal, by rw [hlast], by omega, fun s hs₀ hs₁ => hp s hs₀ ?_⟩
      omega
    exact ⟨hl, senderInv_granted hs.legal h₀ h₁ hlast⟩
  | retry => exact ⟨hs.legal, senderInv_claimLoop hs hi.1⟩
  | write => exact store_own hs hi ⟨le_refl _, hi⟩
  | writePanics => exact store_own hs hi trivial
  | permitWrite => exact store_own hs hi ⟨le_refl _, hi⟩
  | permitPanics => exact store_own hs hi hi
  | permitDrop => exact ⟨hs.legal, hi⟩
  | permitLeak => exact ⟨hs.legal, trivial⟩
  | recycled => exact store_own hs hi ⟨le_refl _, hi⟩
  | recyclePanics => exact store_own hs hi ⟨Own.highest_nonneg hs.legal hi (le_refl _), trivial⟩
  | recyclePanicsTwice => exact store_own hs hi trivial
  | nextNone => exact ⟨hs.legal, hi⟩
  | @next p hp => exact ⟨hs.legal, hi.next (not_lt.mp hp), hi.2.1, lt_add_one p.nextSeq⟩
  | permitsDrop => exact ⟨hs.legal, hi⟩
  | permitsLeak => exact ⟨hs.legal, trivial⟩
  | batchWrite => exact store_own hs (hi.1.own hi.2.1 (hi.1.le_endSeq hi.2.2)) hi.1
  | batchPanics => exact store_own hs (hi.1.own hi.2.1 (hi.1.le_endSeq hi.2.2)) hi
  | batchDrop => exact ⟨hs.legal, hi⟩
  | batchLeak => exact ⟨hs.legal, hi.1⟩
  | batchRecycled | batchRecyclePanicsTwice =>
    exact store_own hs (hi.1.own hi.2.1 (hi.1.le_endSeq hi.2.2)) hi.1
  | batchRecyclePanics =>
    have ho := hi.1.own hi.2.1 (hi.1.le_endSeq hi.2.2)
    exact store_own hs ho ⟨⟨hi.1, ho.highest_nonneg hs.legal (le_refl _)⟩, trivial⟩
  | drainEmpty => exact ⟨hs.legal, trivial⟩
  | drainDone => exact ⟨hs.legal, le_refl _, hi.2.2.2⟩
  | drainRecycled hp => exact store_own hs (hi.own hi.2.1 hp.2) (hi.next hp.2)
  | drainPanics hp =>
    have ho := hi.own hi.2.1 hp.2
    exact store_own hs ho ⟨ho.highest_nonneg hs.legal (le_refl _), trivial⟩
  | @publish first seq last hseq =>
    obtain ⟨hfirst, ho⟩ := hi
    refine ⟨⟨hs.legal, ho seq (le_refl _) hseq⟩, by omega, fun t ht₀ ht₁ => ?_⟩
    -- the rest of the range is still its own and unpublished
    obtain ⟨hk, hp⟩ := ho t (by omega) ht₁
    refine ⟨hk, fun hpub => ?_⟩
    rcases published_publish.mp hpub with heq | hpub
    · omega
    · exact hp hpub
  | publishEnd => exact ⟨hs.legal, trivial⟩
  | wake => exact free_event hs trivial (by simp) (by simp) trivial
  | wakeEnd => exact ⟨hs.legal, trivial⟩
  | closeUnclaimed =>
    exact free_event hs trivial (by simp) (by simp) ⟨hi.1, hs.claimed.closeRead hi.1.highest⟩
  | closeLoad =>
    exact free_event hs trivial (by simp) (by simp) ⟨hi.1, hs.claimed.closeRead hi.1.highest⟩
  | closeScan => exact ⟨hs.legal, hi⟩
  | closeFound => exact ⟨hs.legal, hi⟩
  | closeScanEnd => exact ⟨hs.legal, hi⟩
  | closeMark => exact free_event hs trivial (by simp) (by simp) hi
  | closeStore => exact free_event hs trivial (by simp) (by simp) ⟨hi.1, trivial⟩
  | closeWake => exact free_event hs trivial (by simp) (by simp) hi
  | @closeEnd i caller =>
    refine free_event hs trivial (by simp) (by simp) ?_
    cases caller with
    | batch p => exact hi.1.1
    | _ => trivial

end Step

end EnsoChannel
