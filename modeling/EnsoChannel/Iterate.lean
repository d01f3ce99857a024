import EnsoChannel.RecvAtMost
import EnsoChannel.Guards

/-!
# Reading through a guard while the others go on

`ReadBatchIter::next` and the dereference of a `ReadRef` (`receiver.rs`) load one slot of the ring,
without any check, while senders write other slots. `readStep` is the channel with the iterators of
its guards as parties of their own: any number of them on one guard, advanced one item at a time,
abandoned part-way, with every step of the channel in between. The borrow checker's part is that
an iterator is advanced, and a `ReadRef` dereferenced, only while the guard is live.

* `iterators_exact`: where guards are released alone, the `m`-th `next()` of any iterator returns
  the `m`-th item of the guard's batch, and `None` from its end on, whatever the senders did before
  and between the calls; a dereference always gives the same item; and these are the items that
  were stored for the sequences of the guard.

The items are `&'a T`, with the lifetime of the borrow of the receiver and not of the guard: safe
code may keep one when its guard is gone.

* `kept_reference`: what it reads then. It keeps its item until the sequence a capacity later is
  claimed, which no other receiver that is behind lets happen; from the write of that sequence on it
  reads the other item.
-/

namespace EnsoChannel

open Lib

variable {T : Type} {N : Nat}

/-! ## The iterator -/

/-- `ReadBatchIter`. -/
structure ReadBatchIter where
  currentSeq : Int
  endSeq : Int
  deriving DecidableEq

/-- `ReadBatchIter::next`. -/
def ReadBatchIter.next (ring : RingBufferMeta) (slots : Nat → T) (it : ReadBatchIter) :
    Option T × ReadBatchIter :=
  if it.currentSeq > it.endSeq then (none, it)
  else
    (some (slots (ring.indexOfSeq it.currentSeq)), { it with currentSeq := it.currentSeq + 1 })

/-- The channel with the readers of its guards. -/
structure Readers (T : Type) (N : Nat) where
  sys : Sys T N
  /-- The iterators: the call whose guard each was made from, where it stands, and what its calls
  of `next` have returned. -/
  iterOf : Nat → Nat
  iters : Nat → ReadBatchIter
  items : Nat → List (Option T)
  nextIter : Nat
  /-- What the dereferences of the `ReadRef` of a call have given. -/
  derefs : Nat → List T

inductive ReadLabel (T : Type) (N : Nat)
  | channel (l : Label T N)
  /-- `iter()` on the guard of call `r`. -/
  | iter (r : Nat)
  | next (j : Nat)
  | deref (r : Nat)

def Readers.init (initial : Nat → T) (i₀ : Fin N) : Readers T N where
  sys := Sys.init initial i₀
  iterOf := fun _ => 0
  iters := fun _ => ⟨0, Sequence.init⟩
  items := fun _ => []
  nextIter := 0
  derefs := fun _ => []

/-- **One step of the channel with its readers.** -/
def readStep (ring : RingBufferMeta) (ρ : Readers T N) : ReadLabel T N → Option (Readers T N)
  | .channel l =>
    match step ring ρ.sys l with
    | some σ => some { ρ with sys := σ }
    | none => none
  | .iter r =>
    match ρ.sys.recvs r with
    | .guard first last =>
      some { ρ with
        iterOf := Function.update ρ.iterOf ρ.nextIter r
        iters := Function.update ρ.iters ρ.nextIter ⟨first, last⟩
        items := Function.update ρ.items ρ.nextIter []
        nextIter := ρ.nextIter + 1 }
    | _ => none
  | .next j =>
    match ρ.sys.recvs (ρ.iterOf j) with
    | .guard _ _ =>
      if j < ρ.nextIter then
        let (v, it) := (ρ.iters j).next ring ρ.sys.mem.slots
        some { ρ with
          iters := Function.update ρ.iters j it
          items := Function.update ρ.items j (ρ.items j ++ [v]) }
      else none
    | _ => none
  | .deref r =>
    match ρ.sys.recvs r with
    | .guard first last =>
      if first = last then
        some { ρ with
          derefs := Function.update ρ.derefs r
            (ρ.derefs r ++ [ρ.sys.mem.slots (ring.indexOfSeq last)]) }
      else none
    | _ => none

/-- The steps of the channel are in range, and guards are released alone. -/
def ReadOk (ring : RingBufferMeta) (ρ : Readers T N) (l : ReadLabel T N) : Prop :=
  ∀ l', l = .channel l' → InRange ring ρ.sys l' ∧ LoneRelease ρ.sys l'

instance (ring : RingBufferMeta) (ρ : Readers T N) (l : ReadLabel T N) :
    Decidable (ReadOk ring ρ l) :=
  match l with
  | .channel l' =>
    decidable_of_iff (InRange ring ρ.sys l' ∧ LoneRelease ρ.sys l')
      ⟨fun h _ heq => by cases heq; exact h, fun h => h l' rfl⟩
  | .iter _ | .next _ | .deref _ => isTrue fun _ heq => by cases heq

/-- The call has returned a guard, which may be gone by now. -/
def RecvPc.guarded : RecvPc → Bool
  | .guard _ _ | .released | .leaked => true
  | _ => false

/-- The iterator `it` of a guard over `first … last` has returned the first of the items, in
order, and then `None`. -/
structure Iterated (ring : RingBufferMeta) (slots : Nat → T) (first last : Int)
    (it : ReadBatchIter) (items : List (Option T)) : Prop where
  stop : it.endSeq = last
  current : it.currentSeq = first + min items.length (last + 1 - first).toNat
  items : items = (List.range items.length).map fun m => (readBatch ring slots first last)[m]?

/-- **What the readers rely on.** -/
structure Steady (ring : RingBufferMeta) (initial : Nat → T) (ρ : Readers T N) : Prop where
  guarded : Guarded ring initial ρ.sys
  made : ∀ j < ρ.nextIter, (ρ.sys.recvs (ρ.iterOf j)).guarded = true
  iters : ∀ j < ρ.nextIter, ∀ first last, ρ.sys.recvs (ρ.iterOf j) = .guard first last →
    Iterated ring ρ.sys.mem.slots first last (ρ.iters j) (ρ.items j)
  given : ∀ r, ρ.derefs r ≠ [] → (ρ.sys.recvs r).guarded = true
  derefs : ∀ r first last, ρ.sys.recvs r = .guard first last →
    ∀ v ∈ ρ.derefs r, first = last ∧ v = ρ.sys.mem.slots (ring.indexOfSeq last)

section

variable {ring : RingBufferMeta} {initial : Nat → T} {σ σ' : Sys T N} {l : Label T N} {r : Nat}
  {ρ ρ' : Readers T N} {a : ReadLabel T N} {slots slots' : Nat → T} {first last : Int}
  {it : ReadBatchIter} {items : List (Option T)}

/-! ## The iterator alone -/

theorem readBatch_congr
    (hsame : ∀ s, first ≤ s → s ≤ last → slots' (ring.indexOfSeq s) = slots (ring.indexOfSeq s)) :
    readBatch ring slots' first last = readBatch ring slots first last := by
  unfold readBatch
  rw [readFrom_eq, readFrom_eq]
  refine List.map_congr_left fun j hj => ?_
  have hlt := List.mem_range.mp hj
  exact hsame _ (by omega) (by omega)

theorem getElem?_readBatch (n : Nat) :
    (readBatch ring slots first last)[n]? =
      if first + n ≤ last then some (slots (ring.indexOfSeq (first + n))) else none := by
  unfold readBatch
  rw [readFrom_eq]
  split
  · rw [List.getElem?_map, List.getElem?_range (by omega)]
    rfl
  · rw [List.getElem?_eq_none]
    rw [List.length_map, List.length_range]
    omega

theorem iterated_start : Iterated ring slots first last ⟨first, last⟩ [] :=
  ⟨rfl, by simp, rfl⟩

theorem Iterated.congr (h : Iterated ring slots first last it items)
    (hsame : ∀ s, first ≤ s → s ≤ last → slots' (ring.indexOfSeq s) = slots (ring.indexOfSeq s)) :
    Iterated ring slots' first last it items := by
  refine ⟨h.stop, h.current, ?_⟩
  rw [readBatch_congr hsame]
  exact h.items

/-- **One call of `next`.** -/
theorem Iterated.next (h : Iterated ring slots first last it items) :
    Iterated ring slots first last (it.next ring slots).2
      (items ++ [(it.next ring slots).1]) := by
  have hcur := h.current
  have hstop := h.stop
  have hvalue : (it.next ring slots).1 = (readBatch ring slots first last)[items.length]? := by
    rw [getElem?_readBatch]
    unfold ReadBatchIter.next
    split
    · rw [if_neg (by omega)]
    · rw [if_pos (by omega), show first + (items.length : Int) = it.currentSeq by omega]
  refine ⟨?_, ?_, ?_⟩
  · unfold ReadBatchIter.next
    split <;> exact hstop
  · rw [List.length_append, List.length_singleton]
    unfold ReadBatchIter.next
    split <;> dsimp only <;> omega
  · rw [List.length_append, List.length_singleton, List.range_succ, List.map_append, ← h.items,
      List.map_singleton, hvalue]

/-! ## The steps of the channel -/

/-- A guard stays as it is until it is released or leaked. -/
theorem Moves.recvs_guarded (hm : Moves ring σ l σ') (hr : r < σ.nextRecv)
    (hg : (σ.recvs r).guarded = true) :
    σ'.recvs r = σ.recvs r ∨ σ'.recvs r = .released ∨ σ'.recvs r = .leaked := by
  by_cases hself : ∃ act, l = .receiver r act
  · obtain ⟨act, rfl⟩ := hself
    obtain ⟨e, hrm, -⟩ := hm.recvs_self
    generalize σ.recvs r = pc₀ at hg hrm
    generalize σ'.recvs r = pc at hrm ⊢
    cases hrm with
    | release | releaseEmpty => exact Or.inr (Or.inl rfl)
    | leak => exact Or.inr (Or.inr rfl)
    | _ => exact absurd hg (by simp [RecvPc.guarded])
  · exact Or.inl (hm.recvs_other hr fun act heq => hself ⟨act, heq⟩).1

/-- **No step changes a slot under a live guard.** -/
theorem Guarded.slots_guard (hg : Guarded ring initial σ) (hm : Moves ring σ l σ')
    (hpc : σ.recvs r = .guard first last) {s : Int} (h₀ : first ≤ s) (h₁ : s ≤ last) :
    σ'.mem.slots (ring.indexOfSeq s) = σ.mem.slots (ring.indexOfSeq s) :=
  hg.inv.slots_step hm fun _ hu => hg.covered_slot hu ⟨first, last, hpc, h₀, h₁⟩

theorem Guarded.lt_of_guarded (hg : Guarded ring initial σ)
    (hpc : (σ.recvs r).guarded = true) : r < σ.nextRecv := by
  refine hg.inv.fresh.lt_of_recv ?_
  intro hidle
  rw [hidle] at hpc
  exact absurd hpc (by simp [RecvPc.guarded])

theorem steady_channel (hs : Steady ring initial ρ) (hrange : InRange ring ρ.sys l)
    (hok : LoneRelease ρ.sys l) (hst : step ring ρ.sys l = some σ') :
    Steady ring initial { ρ with sys := σ' } := by
  have hm := moves_of_step hst
  have hg := hs.guarded
  -- a guard that is there after the step was there before, over the same sequences
  have hsame : ∀ r first last, (ρ.sys.recvs r).guarded = true → σ'.recvs r = .guard first last →
      ρ.sys.recvs r = .guard first last := by
    intro r first last hpc hpc'
    rcases hm.recvs_guarded (hg.lt_of_guarded hpc) hpc with heq | heq | heq
    · rw [← heq, hpc']
    · rw [hpc'] at heq
      exact absurd heq (by simp)
    · rw [hpc'] at heq
      exact absurd heq (by simp)
  have hkeep : ∀ r, (ρ.sys.recvs r).guarded = true → (σ'.recvs r).guarded = true := by
    intro r hpc
    rcases hm.recvs_guarded (hg.lt_of_guarded hpc) hpc with heq | heq | heq
    · rw [heq, hpc]
    · rw [heq]
      rfl
    · rw [heq]
      rfl
  refine ⟨guarded_step hg hrange hok hst, fun j hj => hkeep _ (hs.made j hj), ?_,
    fun r hne => hkeep r (hs.given r hne), ?_⟩
  · intro j hj first last hpc'
    have hpc := hsame _ first last (hs.made j hj) hpc'
    exact (hs.iters j hj first last hpc).congr fun s h₀ h₁ => hg.slots_guard hm hpc h₀ h₁
  · intro r first last hpc' v hv
    have hpc := hsame r first last (hs.given r (List.ne_nil_of_mem hv)) hpc'
    obtain ⟨heq, hval⟩ := hs.derefs r first last hpc v hv
    refine ⟨heq, ?_⟩
    show v = σ'.mem.slots (ring.indexOfSeq last)
    rw [hg.slots_guard hm hpc (by omega) (le_refl last), hval]

/-! ## Every run -/

theorem steady_init (ring : RingBufferMeta) (initial : Nat → T) (i₀ : Fin N) :
    Steady ring initial (Readers.init initial i₀) where
  guarded := guarded_init ring initial i₀
  made j hj := absurd hj (Nat.not_lt_zero j)
  iters j hj := absurd hj (Nat.not_lt_zero j)
  given _ hne := absurd rfl hne
  derefs _ _ _ _ _ hv := absurd hv List.not_mem_nil

theorem steady_step (hs : Steady ring initial ρ) (hok : ReadOk ring ρ a)
    (hst : readStep ring ρ a = some ρ') : Steady ring initial ρ' := by
  cases a with
  | channel l =>
    simp only [readStep] at hst
    split at hst
    · rename_i σ' hsys
      cases hst
      exact steady_channel hs (hok l rfl).1 (hok l rfl).2 hsys
    · cases hst
  | iter r =>
    simp only [readStep] at hst
    split at hst
    · rename_i first last hpc
      cases hst
      refine ⟨hs.guarded, ?_, ?_, hs.given, hs.derefs⟩
      · intro j hj
        dsimp only at hj ⊢
        by_cases hjn : j = ρ.nextIter
        · rw [hjn, Function.update_self, hpc]
          rfl
        · rw [Function.update_of_ne hjn]
          exact hs.made j (by omega)
      · intro j hj first' last' hpc'
        dsimp only at hj hpc' ⊢
        by_cases hjn : j = ρ.nextIter
        · rw [hjn, Function.update_self] at hpc'
          obtain ⟨rfl, rfl⟩ := RecvPc.guard.inj (hpc.symm.trans hpc')
          rw [hjn, Function.update_self, Function.update_self]
          exact iterated_start
        · rw [Function.update_of_ne hjn] at hpc' ⊢
          rw [Function.update_of_ne hjn]
          exact hs.iters j (by omega) first' last' hpc'
    · cases hst
  | next j =>
    simp only [readStep] at hst
    split at hst
    · rename_i first last hpc
      split at hst
      · rename_i hj
        cases hst
        refine ⟨hs.guarded, hs.made, ?_, hs.given, hs.derefs⟩
        intro j' hj' first' last' hpc'
        dsimp only at hj' hpc' ⊢
        by_cases hjj : j' = j
        · rw [hjj] at hpc' ⊢
          rw [Function.update_self, Function.update_self]
          exact (hs.iters j hj first' last' hpc').next
        · rw [Function.update_of_ne hjj, Function.update_of_ne hjj]
          exact hs.iters j' hj' first' last' hpc'
      · cases hst
    · cases hst
  | deref r =>
    simp only [readStep] at hst
    split at hst
    · rename_i first last hpc
      split at hst
      · rename_i hone
        cases hst
        refine ⟨hs.guarded, hs.made, hs.iters, ?_, ?_⟩
        · intro r' hne
          dsimp only at hne ⊢
          by_cases hrr : r' = r
          · rw [hrr, hpc]
            rfl
          · rw [Function.update_of_ne hrr] at hne
            exact hs.given r' hne
        · intro r' first' last' hpc' v hv
          dsimp only at hpc' hv ⊢
          by_cases hrr : r' = r
          · rw [hrr] at hpc' hv
            rw [Function.update_self] at hv
            rcases List.mem_append.mp hv with hold | hnew
            · exact hs.derefs r first' last' hpc' v hold
            · obtain ⟨rfl, rfl⟩ := RecvPc.guard.inj (hpc.symm.trans hpc')
              exact ⟨hone, List.mem_singleton.mp hnew⟩
          · rw [Function.update_of_ne hrr] at hv
            exact hs.derefs r' first' last' hpc' v hv
      · cases hst
    · cases hst

/-- A slot keeps its published value until the sequence a capacity later is claimed. -/
theorem Inv.slots_published (hi : Inv ring initial σ) (hm : Moves ring σ l σ') {s : Int}
    (hp : Published σ.trace s) (hlow : highest σ.trace < s + ring.bufferSize) :
    σ'.mem.slots (ring.indexOfSeq s) = σ.mem.slots (ring.indexOfSeq s) := by
  refine hi.slots_step hm fun t ht hidx => ?_
  have hw := ht.window ring.bufferSize_pos hi.sound.legal
  have hhigh := ht.2.1
  have hrange := (hp.range hi.sound.legal).2
  have heq : t = s :=
    eq_of_emod_eq ((RingBufferMeta.indexOfSeq_eq_iff ring).mp hidx) (by omega) (by omega)
  exact ht.2.2 (heq ▸ hp)

/-- **What an item reads that was kept when its guard was gone.** In every run in range in which
guards are released alone, from a state in which a live guard covers `s`: until the sequence a
capacity after `s` is claimed, the slot reads the same item; when it is claimed, no guard covers `s`
and every live receiver has released it; and from its write on, up to the next lap, the slot reads
what was written for it. -/
theorem kept_reference {i₀ : Fin N} {ls₁ ls₂ : List (Label T N)} {s : Int}
    (hrun₁ : Run (step ring) (fun σ l => InRange ring σ l ∧ LoneRelease σ l)
      (Sys.init initial i₀) ls₁ σ)
    (hc : σ.Covers r s)
    (hrun₂ : Run (step ring) (fun σ l => InRange ring σ l ∧ LoneRelease σ l) σ ls₂ σ') :
    (highest σ'.trace < s + ring.bufferSize →
        σ'.mem.slots (ring.indexOfSeq s) = σ.mem.slots (ring.indexOfSeq s)) ∧
      (s + ring.bufferSize ≤ highest σ'.trace → (∀ r', ¬ σ'.Covers r' s) ∧
        ∀ i, σ'.receivers i = true → s ≤ position σ'.trace i) ∧
      ∀ v, stored σ'.trace (s + ring.bufferSize) = some v →
        highest σ'.trace < s + 2 * ring.bufferSize →
          σ'.mem.slots (ring.indexOfSeq s) = v := by
  have hg : Guarded ring initial σ := (guarded_init ring initial i₀).of_run id hrun₁
  have hg' : Guarded ring initial σ' := hg.of_run id hrun₂
  have hp : Published σ.trace s := (hg.covers hc).1 s (hg.covers_nonneg hc) (le_refl s)
  have hsame : Published σ'.trace s ∧ (highest σ'.trace < s + ring.bufferSize →
      σ'.mem.slots (ring.indexOfSeq s) = σ.mem.slots (ring.indexOfSeq s)) := by
    refine hrun₂.invariant_with (J := fun ρ => Published ρ.trace s ∧
      (highest ρ.trace < s + ring.bufferSize →
        ρ.mem.slots (ring.indexOfSeq s) = σ.mem.slots (ring.indexOfSeq s))) (Guarded.keep id) ?_ hg
      ⟨hp, fun _ => rfl⟩
    rintro ρ l ρ' hgρ ⟨hpρ, hslot⟩ - hst
    have hm := moves_of_step hst
    have hmono : highest ρ.trace ≤ highest ρ'.trace ∧ Published ρ'.trace s := by
      rcases hm.event_cases with ⟨htrace, -⟩ | ⟨e, htrace, -⟩
      · rw [htrace]
        exact ⟨Int.le_refl _, hpρ⟩
      · rw [htrace]
        exact ⟨highest_le_cons, hpρ.cons⟩
    refine ⟨hmono.2, fun hlow => ?_⟩
    rw [hgρ.inv.slots_published hm hpρ (by omega), hslot (by omega)]
  refine ⟨hsame.2, fun hover => ⟨fun r' hc' => ?_, fun i hlive => ?_⟩, fun v hv hlow => ?_⟩
  · have := (hg'.covers hc').2
    omega
  · have := hg'.lag.lag i (hg'.inv.not_dropped hlive)
    omega
  · have hidx : ring.indexOfSeq s = ring.indexOfSeq (s + ring.bufferSize) :=
      (RingBufferMeta.indexOfSeq_eq_iff ring).mpr (by simp)
    rw [hidx, hg'.inv.sound.mem]
    exact slots_replay hg'.inv.sound.legal (by omega) hv

/-- A ring of one slot: the item of a released guard turns from 7 into 8. -/
theorem kept_reference_overwritten :
    ∃ (ls₁ ls₂ : List (Label Nat 1)) (σ σ' : Sys Nat 1),
      Run (step ⟨0, by decide⟩) (fun σ l => InRange ⟨0, by decide⟩ σ l ∧ LoneRelease σ l)
          (Sys.init (fun _ => 0) 0) ls₁ σ ∧
        Run (step ⟨0, by decide⟩) (fun σ l => InRange ⟨0, by decide⟩ σ l ∧ LoneRelease σ l)
          σ ls₂ σ' ∧
        σ.recvs 0 = .guard 0 0 ∧ σ.mem.slots 0 = 7 ∧
        σ'.mem.slots (RingBufferMeta.indexOfSeq ⟨0, by decide⟩ 0) = 8 := by
  have hex : (exec (step ⟨0, by decide⟩)
      (fun σ l => InRange ⟨0, by decide⟩ σ l ∧ LoneRelease σ l) (Sys.init (fun _ => 0) 0)
      (List.flatten [[.send 0 (.trySend 7)], List.replicate 9 (.sender 0 .run),
        [.recv 0 1 false], List.replicate 2 (.receiver 0 .run)])).any
      (fun σ : Sys Nat 1 => decide (σ.recvs 0 = .guard 0 0 ∧ σ.mem.slots 0 = 7) &&
        (exec (step ⟨0, by decide⟩)
          (fun σ l => InRange ⟨0, by decide⟩ σ l ∧ LoneRelease σ l) σ
          (List.flatten [[.receiver 0 .release, .send 0 (.trySend 8)],
            List.replicate 9 (.sender 1 .run)])).any fun σ' =>
              decide (stored σ'.trace 1 = some 8 ∧ highest σ'.trace = 1)) = true := by
    decide +kernel
  obtain ⟨σ, hrun₁, hex⟩ := Run.of_exec_any hex
  obtain ⟨hσ, hex⟩ := Bool.and_eq_true_iff.mp hex
  obtain ⟨σ', hrun₂, hσ'⟩ := Run.of_exec_any hex
  obtain ⟨hguard, hslot⟩ := of_decide_eq_true hσ
  obtain ⟨hstored, hhigh⟩ := of_decide_eq_true hσ'
  have hkept := kept_reference hrun₁ (r := 0) (s := 0) ⟨0, 0, hguard, le_refl 0, le_refl 0⟩ hrun₂
  refine ⟨_, _, σ, σ', hrun₁, hrun₂, hguard, hslot, hkept.2.2 8 hstored ?_⟩
  rw [hhigh]
  decide

end

end EnsoChannel
