import EnsoChannel.Alone
import EnsoChannel.Invariant
import EnsoChannel.Lib.Cells

/-!
# What a batch leaves behind

The user of a batch takes permits with `next()` and writes them, updates them in place, drops them
unused, or panics in an update and catches that; then the batch is released, and its drop recycles
the slots that `next()` never handed out and publishes the whole range (`WritePermitsImpl`,
`guards.rs`).

The inner permit recycles its own slot and the batch those from `next_seq` on, so each slot is
modified by exactly one of the two: the uses of the permits and the drop together are one
`modifyFrom` over the range (`uses_alone`, `drain_alone`).

* `Sys.BatchesFit`: in every reachable state a batch is no longer than the ring, so no two of its
  sequences share a slot.
* `batch_contents`: the contents of the slots after the release, the published sequences before and
  after it, and that nothing else changes.
-/

namespace EnsoChannel

open Lib

variable {T : Type} {N : Nat}

/-- `modify_at` for each of the sequences from `a` on. -/
def Mem.modifyFrom (ring : RingBufferMeta) (m : Mem T N) (a : Int) (fs : List (T → T)) : Mem T N :=
  { m with slots := Lib.modifyFrom ring.indexOfSeq m.slots a fs }

/-- The memory after `commit_range(a, b)`, which has woken receivers. -/
def Mem.commitRange (ring : RingBufferMeta) (m : Mem T N) (a b : Int) (w : Fin N → Option Nat) :
    Mem T N :=
  { m with states := ring.publishRange m.states a b, wakers := w }

/-! ## Using a batch -/

/-- What the user does with a permit that `next()` returned. -/
inductive PermitUse (T : Type)
  | write (v : T)
  | update (f : T → T)
  | drop
  /-- The closure of `update_in_place` panics, having made `f old` of the old value, and the panic
  is caught. -/
  | panics (f : T → T)

/-- The step of the user, who finds `old` in the slot. -/
def PermitUse.act (old : T) : PermitUse T → SenderAct T
  | .write v => .write v
  | .update f => .write (f old)
  | .drop => .drop
  | .panics f => .panics (f old)

/-- What is to be in the slot when the permit is gone. -/
def PermitUse.leaves (recycle : T → T) : PermitUse T → T → T
  | .write v => fun _ => v
  | .update f => f
  | .drop => recycle
  | .panics f => fun old => recycle (f old)

/-- `next()` is called on the batch of call `k`, and the permit it returns, if there is one, is
used as `u` says. -/
inductive Sys.Uses (ring : RingBufferMeta) (recycle : T → T) (k : Nat) (u : PermitUse T)
    (σ : Sys T N) : Sys T N → Prop
  | some {σ₁ σ₂ : Sys T N} {p : Permits} {seq : Int}
      (hnext : Sys.Acts ring recycle k .next σ σ₁) (hpc : σ₁.sends k = .batchPermit p seq)
      (hact : Sys.Acts ring recycle k (u.act (σ₁.mem.slots (ring.indexOfSeq seq))) σ₁ σ₂) :
      Sys.Uses ring recycle k u σ σ₂
  | none {σ₁ : Sys T N} {p : Permits}
      (hnext : Sys.Acts ring recycle k .next σ σ₁) (hpc : σ₁.sends k = .permits p) :
      Sys.Uses ring recycle k u σ σ₁

/-- `next()` is called once for each of the `us`. -/
def Sys.UsesAll (ring : RingBufferMeta) (recycle : T → T) (k : Nat) (us : List (PermitUse T))
    (σ σ' : Sys T N) : Prop :=
  Chain (Sys.Uses ring recycle k) us σ σ'

/-- What is to be in the slot of the `j`-th sequence of a batch used as `us` says: the slots that
`next()` did not hand out are recycled. -/
def batchLeaves (recycle : T → T) (us : List (PermitUse T)) (j : Nat) : T → T :=
  match us[j]? with
  | some u => u.leaves recycle
  | none => recycle

/-- While the user holds the batch `a … b`, the slots of other sequences, the slot states and the
cursors stay as they are, and nothing is published. -/
structure BatchHolds (ring : RingBufferMeta) (a b : Int) (σ σ' : Sys T N) : Prop where
  slots : ∀ i, (∀ s, a ≤ s → s ≤ b → ring.indexOfSeq s ≠ i) → σ'.mem.slots i = σ.mem.slots i
  states : σ'.mem.states = σ.mem.states
  claimed : σ'.mem.claimed = σ.mem.claimed
  consumed : σ'.mem.consumed = σ.mem.consumed
  published : ∀ s, Published σ'.trace s ↔ Published σ.trace s

/-- What the batch `a … b`, used as `us` says and released, leaves of `σ`. -/
structure BatchLeaves (ring : RingBufferMeta) (recycle : T → T) (us : List (PermitUse T))
    (a b : Int) (σ σ' : Sys T N) : Prop where
  slots : ∀ s, a ≤ s → s ≤ b → σ'.mem.slots (ring.indexOfSeq s) =
    batchLeaves recycle us (s - a).toNat (σ.mem.slots (ring.indexOfSeq s))
  states : ∀ s, a ≤ s → s ≤ b → σ'.mem.states (ring.indexOfSeq s) = ring.availableFlag s
  others : ∀ i, (∀ s, a ≤ s → s ≤ b → ring.indexOfSeq s ≠ i) →
    σ'.mem.slots i = σ.mem.slots i ∧ σ'.mem.states i = σ.mem.states i
  claimed : σ'.mem.claimed = σ.mem.claimed
  consumed : σ'.mem.consumed = σ.mem.consumed
  published : ∀ s, Published σ'.trace s ↔ Published σ.trace s ∨ a ≤ s ∧ s ≤ b

section

variable {ring : RingBufferMeta} {recycle : T → T} {σ σ' σ'' : Sys T N} {k : Nat} {m : Mem T N}
  {t : History T N} {a b : Int}

/-! ## Batches fit the ring -/

/-- The batch starts at a sequence and is no longer than the ring. -/
def Permits.Fits (ring : RingBufferMeta) (p : Permits) : Prop :=
  0 ≤ p.startSeq ∧ p.endSeq - p.startSeq < ring.bufferSize

def CloseCaller.Fits (ring : RingBufferMeta) : CloseCaller → Prop
  | .batch p => p.Fits ring
  | .permit | .lastSender => True

/-- The batch of a call fits the ring, and so does what its claim loop is about to claim. -/
def SenderPc.Fits (ring : RingBufferMeta) : SenderPc T → Prop
  | .maxConsumed _ last _ _ => -1 ≤ last
  | .compareExchange _ last _ highest => -1 ≤ last ∧ highest - last ≤ ring.bufferSize
  | .permits p | .batchPermit p _ | .batchRecycling p _ | .draining p => p.Fits ring
  | .closing _ caller => caller.Fits ring
  | _ => True

/-- Every batch fits the ring. -/
def Sys.BatchesFit (ring : RingBufferMeta) (σ : Sys T N) : Prop :=
  ∀ k, (σ.sends k).Fits ring

theorem fits_claimLoop {c : SendCall T} {raw : Int} : (claimLoop c raw).Fits ring :=
  claimLoop_cases (P := SenderPc.Fits ring) trivial hasShutdown_eq_false.mp

theorem fits_claimBody {c : SendCall T} {last x : Int} (hlast : -1 ≤ last) :
    (claimBody ring c last x).Fits ring := by
  unfold claimBody
  split
  · trivial
  · dsimp only
    split
    · trivial
    · refine ⟨hlast, ?_⟩
      omega

theorem fits_granted {c : SendCall T} {last highest : Int} (hlast : -1 ≤ last)
    (hhigh : highest - last ≤ ring.bufferSize) : (granted c (last + 1) highest).Fits ring := by
  refine granted_cases (P := SenderPc.Fits ring) (fun _ => trivial) trivial ⟨?_, ?_⟩ <;>
    dsimp only <;> omega

theorem SenderMoves.fits {pc pc' : SenderPc T} {act : SenderAct T} {e : Option (Event T N)}
    (hm : SenderMoves ring k m pc act e pc') (hf : pc.Fits ring) : pc'.Fits ring := by
  cases hm with
  | load | retry => exact fits_claimLoop
  | gateEnd => exact fits_claimBody hf
  | claim => exact fits_granted hf.1 hf.2
  | closeEnd =>
    rename_i caller _
    cases caller <;> exact hf
  | _ => first | exact hf | trivial

theorem batchesFit_init (ring : RingBufferMeta) (initial : Nat → T) (i₀ : Fin N) :
    (Sys.init initial i₀).BatchesFit ring := fun _ => trivial

theorem batchesFit_step {l : Label T N} (hf : σ.BatchesFit ring) (hm : Moves ring σ l σ') :
    σ'.BatchesFit ring := by
  refine hm.forall_sends (J := fun _ pc => pc.Fits ring) (K := fun _ pc => pc.Fits ring) hf
    (fun _ _ _ => ?_) (fun _ _ _ _ _ _ => trivial) (fun _ _ _ _ _ _ hmove hpc _ _ => hmove.fits hpc)
    fun _ _ hpc => hpc
  have hsize := ring.bufferSize_pos
  refine start_cases (P := SenderPc.Fits ring) trivial ⟨le_refl _, ?_⟩
  dsimp only
  omega

/-- **In every reachable state a batch fits the ring.** -/
theorem batchesFit_of_run {initial : Nat → T} {i₀ : Fin N} {ok : Sys T N → Label T N → Prop}
    {ls : List (Label T N)} (hrun : Run (step ring) ok (Sys.init initial i₀) ls σ) :
    σ.BatchesFit ring :=
  hrun.invariant (fun hf _ hst => batchesFit_step hf (moves_of_step hst))
    (batchesFit_init ring initial i₀)

/-! ## The uses of the permits -/

/-- Two changes of one slot are one. -/
theorem modifyFrom_twice {f g : T → T} {s : Int} :
    (m.modifyFrom ring s [f]).modifyFrom ring s [g] =
      m.modifyFrom ring s [fun old => g (f old)] := by
  simp [Mem.modifyFrom, Lib.modifyFrom]

theorem published_store {s s' : Int} {v : T} :
    Published (.store k s v :: t) s' ↔ Published t s' :=
  published_cons_of_ne (by simp)

/-- A permit that is used settles where the batch is with the user again, its slot modified. -/
theorem permit_alone (hk : k < σ.nextSend) (u : PermitUse T) {p : Permits} {seq : Int} :
    ∃ t', Sys.Acts ring recycle k (u.act (m.slots (ring.indexOfSeq seq)))
        (σ.withSend k m t (.batchPermit p seq))
        (σ.withSend k (m.modifyFrom ring seq [u.leaves recycle]) t' (.permits p)) ∧
      ∀ s, Published t' s ↔ Published t s := by
  cases u with
  | write v =>
    refine ⟨_, ⟨_, step_withSend hk rfl, settles_rest rfl⟩, fun s => published_store⟩
  | update f =>
    refine ⟨_, ⟨_, step_withSend hk rfl, settles_rest rfl⟩, fun s => published_store⟩
  | drop =>
    refine ⟨_, ⟨_, step_withSend hk rfl, settles_move hk rfl (settles_rest rfl)⟩,
      fun s => published_store⟩
  | panics f =>
    -- the closure has changed the slot, and then the recycler finds what it left there
    have hs : Sys.SenderSettles ring recycle k
        (σ.withSend k (m.modifyFrom ring seq [f])
          (.store k seq (f (m.slots (ring.indexOfSeq seq))) :: t) (.batchRecycling p seq))
        (σ.withSend k ((m.modifyFrom ring seq [f]).modifyFrom ring seq [recycle]) _ (.permits p)) :=
      settles_move hk rfl (settles_rest rfl)
    rw [modifyFrom_twice] at hs
    exact ⟨_, ⟨_, step_withSend hk rfl, hs⟩, fun s => published_store.trans published_store⟩

variable (ring recycle) in
/-- **One use of a permit**: `next()` hands out the next sequence, and the use modifies its slot
once. -/
theorem use_alone (hk : k < σ.nextSend) (u : PermitUse T) {p : Permits}
    (hp : p.nextSeq ≤ p.endSeq) :
    ∃ t', Sys.Uses ring recycle k u (σ.withSend k m t (.permits p))
        (σ.withSend k (m.modifyFrom ring p.nextSeq [u.leaves recycle]) t'
          (.permits { p with nextSeq := p.nextSeq + 1 })) ∧
      ∀ s, Published t' s ↔ Published t s := by
  have hnext : Sys.Acts ring recycle k .next (σ.withSend k m t (.permits p))
      (σ.withSend k m t (.batchPermit { p with nextSeq := p.nextSeq + 1 } p.nextSeq)) := by
    refine ⟨_, step_withSend (e := none) hk ?_, settles_rest rfl⟩
    simp only [senderStep]
    rw [if_neg (by omega)]
  obtain ⟨t', hacts, hpub⟩ := permit_alone (σ := σ) (m := m) (t := t) hk u
  exact ⟨t', .some hnext withSend_sends hacts, hpub⟩

variable (ring recycle) in
/-- After the last permit `next()` returns nothing. -/
theorem use_none (hk : k < σ.nextSend) (u : PermitUse T) {p : Permits}
    (hp : p.endSeq < p.nextSeq) :
    Sys.Uses ring recycle k u (σ.withSend k m t (.permits p)) (σ.withSend k m t (.permits p)) := by
  refine .none ⟨_, step_withSend (e := none) hk ?_, settles_rest rfl⟩ withSend_sends
  simp only [senderStep]
  rw [if_pos (by omega)]

variable (ring recycle) in
/-- **The uses of the permits**, of which `n` are left. -/
theorem uses_alone (hk : k < σ.nextSend) (us : List (PermitUse T)) {p : Permits} {n : Nat}
    (hn : n = (p.endSeq + 1 - p.nextSeq).toNat) :
    ∃ t', Sys.UsesAll ring recycle k us (σ.withSend k m t (.permits p))
        (σ.withSend k (m.modifyFrom ring p.nextSeq ((us.take n).map (·.leaves recycle))) t'
          (.permits { p with nextSeq := p.nextSeq + min us.length n })) ∧
      ∀ s, Published t' s ↔ Published t s := by
  induction us generalizing m t p n with
  | nil => exact ⟨t, by simp [Sys.UsesAll, Chain, Mem.modifyFrom, Lib.modifyFrom], fun _ => Iff.rfl⟩
  | cons u us ih =>
    cases n with
    | zero =>
      obtain ⟨t', huses, hpub⟩ := ih (m := m) (t := t) hn
      have hnone := use_none ring recycle (σ := σ) (m := m) (t := t) hk u
        (p := p) (by omega)
      exact ⟨t', ⟨_, hnone, by simpa [Sys.UsesAll] using huses⟩, hpub⟩
    | succ n =>
      obtain ⟨t₁, huse, hpub₁⟩ :=
        use_alone ring recycle (σ := σ) (m := m) (t := t) hk u (p := p) (by omega)
      obtain ⟨t', huses, hpub⟩ := ih (m := m.modifyFrom ring p.nextSeq [u.leaves recycle])
        (t := t₁) (p := { p with nextSeq := p.nextSeq + 1 }) (n := n)
        (by dsimp only; omega)
      refine ⟨t', ⟨_, huse, ?_⟩, fun s => (hpub s).trans (hpub₁ s)⟩
      have hlen : p.nextSeq + (min (u :: us).length (n + 1) : Nat) =
          p.nextSeq + 1 + (min us.length n : Nat) := by
        rw [List.length_cons]
        omega
      rw [hlen]
      exact huses

/-! ## The release -/

theorem commitRange_empty (hab : b < a) : m.commitRange ring a b m.wakers = m := by
  unfold Mem.commitRange RingBufferMeta.publishRange
  rw [show (b + 1 - a).toNat = 0 by omega, RingBufferMeta.publishFrom]

variable (ring recycle) in
/-- `commit_range` on any range, which may be empty. -/
theorem commitRange_alone (hk : k < σ.nextSend) (a b : Int) :
    ∃ w t', Sys.SenderSettles ring recycle k (σ.withSend k m t (.publishing a a b))
        (σ.withSend k (m.commitRange ring a b w) t' .committed) ∧
      ∀ s, Published t' s ↔ Published t s ∨ a ≤ s ∧ s ≤ b := by
  by_cases hab : b < a
  · obtain ⟨w, t', hs, hpub⟩ := notify_alone ring recycle (m := m) (t := t) hk (Nat.zero_le N)
    refine ⟨w, t', settles_move (e := none) (q := .notifying 0) hk ?_ ?_, fun s => ?_⟩
    · simp only [nextAct, senderStep]
      rw [if_neg (by omega)]
    · unfold Mem.commitRange RingBufferMeta.publishRange
      rw [show (b + 1 - a).toNat = 0 by omega]
      exact hs
    · rw [hpub]
      exact (or_iff_left (by omega)).symm
  · obtain ⟨w, t', hs, hpub⟩ :=
      commit_alone ring recycle (σ := σ) (m := m) (t := t) hk (b + 1 - a).toNat a a
    rw [show a + ((b + 1 - a).toNat : Int) - 1 = b by omega] at hs
    refine ⟨w, t', hs, fun s => (hpub s).trans (or_congr_right ?_)⟩
    omega

variable (ring recycle) in
/-- **The drop of a batch** recycles the slots that are left and publishes the range. -/
theorem drain_alone (hk : k < σ.nextSend) {p : Permits} (h₀ : 0 ≤ p.startSeq)
    (h₁ : p.startSeq ≤ p.nextSeq) {n : Nat} (hn : n = (p.endSeq + 1 - p.nextSeq).toNat) :
    ∃ w t', Sys.SenderSettles ring recycle k (σ.withSend k m t (.draining p))
        (σ.withSend k ((m.modifyFrom ring p.nextSeq (List.replicate n recycle)).commitRange ring
          p.startSeq p.endSeq w) t' .committed) ∧
      ∀ s, Published t' s ↔ Published t s ∨ p.startSeq ≤ s ∧ s ≤ p.endSeq := by
  induction n generalizing m t p with
  | zero =>
    show ∃ w t',
      Sys.SenderSettles ring recycle k _ (σ.withSend k (m.commitRange ring _ _ w) t' _) ∧ _
    by_cases hempty : p.endSeq = -1
    · -- a batch without any sequence
      refine ⟨m.wakers, t, ?_, fun s => (or_iff_left (by omega)).symm⟩
      rw [commitRange_empty (by omega)]
      refine settles_move (e := none) hk ?_ (settles_rest rfl)
      simp only [nextAct, senderStep, hempty, ne_eq, not_true_eq_false, false_and, if_false,
        if_true]
    · obtain ⟨w, t', hs, hpub⟩ := commitRange_alone ring recycle (σ := σ) (m := m) (t := t) hk
        p.startSeq p.endSeq
      refine ⟨w, t', settles_move (e := none) hk ?_ hs, hpub⟩
      have hdone : ¬ p.nextSeq ≤ p.endSeq := by omega
      simp only [nextAct, senderStep, hempty, hdone, and_false, if_false]
  | succ n ih =>
    obtain ⟨w, t', hs, hpub⟩ := ih (m := m.modifyFrom ring p.nextSeq [recycle])
      (t := .store k p.nextSeq (recycle (m.slots (ring.indexOfSeq p.nextSeq))) :: t)
      (p := { p with nextSeq := p.nextSeq + 1 }) h₀ (by dsimp only; omega) (by dsimp only; omega)
    refine ⟨w, t', ?_, fun s => (hpub s).trans (or_congr_left published_store)⟩
    have hleft : p.endSeq ≠ -1 ∧ p.nextSeq ≤ p.endSeq := by omega
    refine settles_move (e := some (.store k p.nextSeq
      (recycle (m.slots (ring.indexOfSeq p.nextSeq)))))
      (q := .draining { p with nextSeq := p.nextSeq + 1 }) hk ?_ hs
    simp only [nextAct, senderStep, if_pos hleft]

/-! ## The contents -/

theorem Sys.Uses.unique {u : PermitUse T} (h₁ : Sys.Uses ring recycle k u σ σ')
    (h₂ : Sys.Uses ring recycle k u σ σ'') : σ' = σ'' := by
  cases h₁ with
  | some hnext₁ hpc₁ hact₁ =>
    cases h₂ with
    | some hnext₂ hpc₂ hact₂ =>
      obtain rfl := hnext₁.unique hnext₂
      cases hpc₁.symm.trans hpc₂
      exact hact₁.unique hact₂
    | none hnext₂ hpc₂ =>
      obtain rfl := hnext₁.unique hnext₂
      cases hpc₁.symm.trans hpc₂
  | none hnext₁ hpc₁ =>
    cases h₂ with
    | some hnext₂ hpc₂ _ =>
      obtain rfl := hnext₁.unique hnext₂
      cases hpc₁.symm.trans hpc₂
    | none hnext₂ _ => exact hnext₁.unique hnext₂

theorem Sys.UsesAll.unique {us : List (PermitUse T)} (h₁ : Sys.UsesAll ring recycle k us σ σ')
    (h₂ : Sys.UsesAll ring recycle k us σ σ'') : σ' = σ'' :=
  Chain.unique h₁ h₂ fun h h' => h.unique h'

/-- The loop of `publish_range` sets each slot to the flag of its sequence. -/
theorem publishFrom_eq (states : Nat → RawState) (seq : Int) (n : Nat) :
    ring.publishFrom states seq n = Lib.modifyFrom ring.indexOfSeq states seq
      ((List.range n).map fun j _ => ring.availableFlag (seq + (j : Nat))) := by
  induction n generalizing states seq with
  | zero => rfl
  | succ n ih =>
    rw [RingBufferMeta.publishFrom, ih, List.range_succ_eq_map, List.map_cons, List.map_map,
      Lib.modifyFrom, Nat.cast_zero, add_zero]
    refine congrArg _ (List.map_congr_left fun j _ => funext fun _ => ?_)
    show ring.availableFlag (seq + 1 + (j : Nat)) = ring.availableFlag (seq + ((j + 1 : Nat) : Int))
    rw [Nat.cast_add, Nat.cast_one, add_assoc, add_comm (1 : Int)]

/-- The permits and the drop share the slots of a batch of `n`. -/
theorem leaves_append (us : List (PermitUse T)) (n : Nat) :
    (us.take n).map (·.leaves recycle) ++ List.replicate (n - us.length) recycle =
      (List.range n).map (batchLeaves recycle us) := by
  refine List.ext_getElem (by simp; omega) fun j hj _ => ?_
  rw [List.getElem_map, List.getElem_range, batchLeaves]
  by_cases hlt : j < us.length
  · have hj : j < ((us.take n).map (·.leaves recycle)).length := by
      simp at hj ⊢
      omega
    rw [List.getElem_append_left hj, List.getElem_map, List.getElem_take,
      List.getElem?_eq_getElem hlt]
  · have hj : ((us.take n).map (·.leaves recycle)).length ≤ j := by
      simp
      omega
    rw [List.getElem_append_right hj, List.getElem_replicate,
      List.getElem?_eq_none (not_lt.mp hlt)]

/-- No two sequences of a batch that fits share a slot. -/
theorem injOn_batch (hfits : b - a < ring.bufferSize) {n : Nat} (hn : n = (b + 1 - a).toNat) :
    Set.InjOn ring.indexOfSeq (Set.Ico a (a + n)) := by
  refine (indexOfSeq_bijOn ring a).injOn.mono fun s hs => ?_
  obtain ⟨h₀, h₁⟩ := hs
  have hsize := ring.bufferSize_pos
  exact ⟨h₀, by omega⟩

variable (ring recycle) in
/-- **A batch that fits, used and released.** -/
theorem batch_alone (hk : k < σ.nextSend) (us : List (PermitUse T))
    (hbatch : σ.sends k = .permits ⟨a, b, a⟩) (h₀ : 0 ≤ a) (hfits : b - a < ring.bufferSize) :
    ∃ σ₁ σ₂, Sys.UsesAll ring recycle k us σ σ₁ ∧ Sys.Acts ring recycle k .drop σ₁ σ₂ ∧
      BatchHolds ring a b σ σ₁ ∧ BatchLeaves ring recycle us a b σ σ₂ := by
  obtain ⟨n, hn⟩ : ∃ n, n = (b + 1 - a).toNat := ⟨_, rfl⟩
  have hinj := injOn_batch hfits hn
  obtain ⟨t₁, huses, hpub₁⟩ := uses_alone ring recycle (m := σ.mem) (t := σ.trace) hk us
    (p := ⟨a, b, a⟩) hn
  rw [withSend_self hbatch] at huses
  obtain ⟨w, t₂, hdrain, hpub₂⟩ := drain_alone ring recycle (σ := σ)
    (m := σ.mem.modifyFrom ring a ((us.take n).map (·.leaves recycle))) (t := t₁) hk
    (p := ⟨a, b, a + (min us.length n : Nat)⟩) h₀ (by dsimp only; omega)
    (n := n - us.length) (by dsimp only; omega)
  have hdrop : Sys.Acts ring recycle k .drop _ _ :=
    ⟨_, step_withSend (t := t₁) hk
      (show senderStep ring k _ (.permits ⟨a, b, a + (min us.length n : Nat)⟩) .drop =
        some (none, .draining _) from rfl), hdrain⟩
  -- the uses and the drain modify the slots of the whole range, each once
  have hslots : ((σ.mem.modifyFrom ring a ((us.take n).map (·.leaves recycle))).modifyFrom ring
      (a + (min us.length n : Nat)) (List.replicate (n - us.length) recycle)).slots =
        Lib.modifyFrom ring.indexOfSeq σ.mem.slots a
          ((List.range n).map (batchLeaves recycle us)) := by
    rw [← leaves_append, Lib.modifyFrom_append, List.length_map, List.length_take, min_comm]
    rfl
  have hstates : ring.publishRange σ.mem.states a b = Lib.modifyFrom ring.indexOfSeq σ.mem.states a
      ((List.range n).map fun j _ => ring.availableFlag (a + (j : Nat))) := by
    rw [RingBufferMeta.publishRange, ← hn, publishFrom_eq]
  have hother : ∀ {α : Type} (cells : Nat → α) (fs : List (α → α)) (i : Nat), fs.length ≤ n →
      (∀ s, a ≤ s → s ≤ b → ring.indexOfSeq s ≠ i) →
        Lib.modifyFrom ring.indexOfSeq cells a fs i = cells i := by
    intro α cells fs i hlen hi
    exact modifyFrom_of_ne fun t h₀ h₁ => hi t h₀ (by omega)
  have hrange : ∀ s, a ≤ s → s ≤ b → ∃ j < n, s = a + (j : Nat) ∧ (s - a).toNat = j :=
    fun s h₀ h₁ => ⟨(s - a).toNat, by omega, by omega, rfl⟩
  refine ⟨_, _, huses, hdrop, ⟨fun i hi => hother _ _ i ?_ hi, rfl, rfl, rfl, hpub₁⟩,
    ⟨fun s hs₀ hs₁ => ?_, fun s hs₀ hs₁ => ?_, fun i hi => ⟨?_, ?_⟩, rfl, rfl,
      fun s => (hpub₂ s).trans (or_congr_left (hpub₁ s))⟩⟩
  · rw [List.length_map, List.length_take]
    exact min_le_left _ _
  · obtain ⟨j, hj, rfl, hsub⟩ := hrange s hs₀ hs₁
    rw [hsub]
    refine (congrFun hslots _).trans ?_
    rw [modifyFrom_at (by simpa using hinj) (by simpa using hj)]
    simp
  · obtain ⟨j, hj, rfl, hsub⟩ := hrange s hs₀ hs₁
    refine (congrFun hstates _).trans ?_
    rw [modifyFrom_at (by simpa using hinj) (by simpa using hj)]
    simp
  · exact (congrFun hslots i).trans (hother _ _ i (by simp) hi)
  · exact (congrFun hstates i).trans (hother _ _ i (by simp) hi)

/-- **A committed batch leaves exactly the intended contents.** From every reachable state, whatever
the user does with the permits of the batch `a … b`: until the batch is released nothing else
changes and nothing is published; the release leaves in each slot what was written or updated there,
or the recycler applied once to what it found, publishes `a … b`, and changes nothing else. In a run
in range none of `a … b` was published before. -/
theorem batch_contents {initial : Nat → T} {i₀ : Fin N} {ok : Sys T N → Label T N → Prop}
    {ls : List (Label T N)} (hrun : Run (step ring) ok (Sys.init initial i₀) ls σ)
    (hbatch : σ.sends k = .permits ⟨a, b, a⟩) (recycle : T → T) (us : List (PermitUse T)) :
    (∃ σ₁ σ₂, Sys.UsesAll ring recycle k us σ σ₁ ∧ Sys.Acts ring recycle k .drop σ₁ σ₂) ∧
      (∀ σ₁ σ₂, Sys.UsesAll ring recycle k us σ σ₁ → Sys.Acts ring recycle k .drop σ₁ σ₂ →
        BatchHolds ring a b σ σ₁ ∧ BatchLeaves ring recycle us a b σ σ₂) ∧
      ((∀ σ l, ok σ l → InRange ring σ l) → ∀ s, a ≤ s → s ≤ b → ¬ Published σ.trace s) := by
  have hfresh : Fresh σ := hrun.invariant (fun hf _ hst => fresh_step hf (moves_of_step hst))
    (fresh_init initial i₀)
  have hk : k < σ.nextSend := hfresh.lt_of_send (by rw [hbatch]; simp)
  have hfits := batchesFit_of_run hrun k
  rw [hbatch] at hfits
  obtain ⟨σ₁, σ₂, huses, hdrop, hholds, hleaves⟩ :=
    batch_alone ring recycle hk us hbatch hfits.1 hfits.2
  refine ⟨⟨σ₁, σ₂, huses, hdrop⟩, fun τ₁ τ₂ huses' hdrop' => ?_, fun hok s hs₀ hs₁ => ?_⟩
  · obtain rfl := huses.unique huses'
    obtain rfl := hdrop.unique hdrop'
    exact ⟨hholds, hleaves⟩
  · have hi := (inv_init ring initial i₀).of_run (fun h => hok _ _ h) hrun
    have hown := hi.send k
    rw [hbatch] at hown
    exact (hown.2.2.2 s hs₀ hs₁).2

/-- On a ring of two slots an item is sent and received, and then a batch of two wraps around: its
first permit is written, and its second one is not taken. -/
theorem batch_contents_wraps :
    ∃ (ls : List (Label Nat 1)) (σ σ₁ σ₂ : Sys Nat 1),
      Run (step ⟨1, by decide⟩) (InRange ⟨1, by decide⟩) (Sys.init (fun _ => 0) 0) ls σ ∧
        Sys.UsesAll ⟨1, by decide⟩ (10 * ·) 1 [.write 9] σ σ₁ ∧
        Sys.Acts ⟨1, by decide⟩ (10 * ·) 1 .drop σ₁ σ₂ ∧
        σ₂.mem.slots 1 = 9 ∧ σ₂.mem.slots 0 = 70 := by
  have hex : (exec (step ⟨1, by decide⟩) (InRange ⟨1, by decide⟩) (Sys.init (fun _ => 0) 0)
      (List.flatten [[.send 0 (.trySend 7)], List.replicate 9 (.sender 0 .run),
        [.recv 0 1 false], List.replicate 2 (.receiver 0 .run), [.receiver 0 .release],
        [.send 0 (.trySendAtMost 2)], List.replicate 4 (.sender 1 .run)])).any
      (fun σ : Sys Nat 1 =>
        decide (σ.sends 1 = .permits ⟨1, 2, 1⟩ ∧ σ.mem.slots 0 = 7)) = true := by
    decide +kernel
  obtain ⟨σ, hrun, hσ⟩ := Run.of_exec_any hex
  obtain ⟨hbatch, hold⟩ := of_decide_eq_true hσ
  obtain ⟨⟨σ₁, σ₂, huses, hdrop⟩, hall, -⟩ := batch_contents hrun hbatch (10 * ·) [.write 9]
  obtain ⟨-, hleaves⟩ := hall σ₁ σ₂ huses hdrop
  have hslot₁ := hleaves.slots 1 (by decide) (by decide)
  have hslot₀ := hleaves.slots 2 (by decide) (by decide)
  have hidx₁ : (⟨1, by decide⟩ : RingBufferMeta).indexOfSeq 1 = 1 := by decide
  have hidx₀ : (⟨1, by decide⟩ : RingBufferMeta).indexOfSeq 2 = 0 := by decide
  rw [hidx₁] at hslot₁
  rw [hidx₀, hold] at hslot₀
  exact ⟨_, σ, σ₁, σ₂, hrun, huses, hdrop, hslot₁, hslot₀⟩

end

end EnsoChannel
