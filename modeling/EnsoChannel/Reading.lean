import EnsoChannel.Ownership

/-!
# What a receive call may rely on

The invariant of one receive call (`RecvInv`): everything the scan has passed, and everything a
guard covers, is published. Publications are final, so no other party can break it
(`RecvInv.cons`). `RecvInv.step`: one step of the call is allowed by the protocol and keeps its
invariant. The scan reads a matching flag as "published", which is `published_of_flag`: it holds
in every state of the channel.

What this does not say is where a scan starts: a call may have read a cursor that has moved since.
That is `Position.lean`.
-/

namespace EnsoChannel

open Lib

variable {T : Type} {N : Nat}

/-- **The invariant of a receive call.** -/
def RecvInv (c : Int) (h : History T N) : RecvPc → Prop
  | .scan _ lastClaimed last seq _ =>
    -1 ≤ lastClaimed ∧ lastClaimed ≤ highest h ∧ lastClaimed < seq ∧ seq ≤ last ∧
      last ≤ lastClaimed + c ∧ ∀ s, 0 ≤ s → s < seq → Published h s
  | .guard first last =>
    (last = Sequence.init → first = 0) ∧
      (last ≠ Sequence.init → 0 ≤ first ∧ first ≤ last ∧ last < first + c ∧
        ∀ s, 0 ≤ s → s ≤ last → Published h s)
  | _ => True

section Step

variable {ring : RingBufferMeta} {initial : Nat → T} {h : History T N} {m : Mem T N} {r : Nat}
  {i : Fin N} {pc pc' : RecvPc} {act : RecvAct} {e : Option (Event T N)} {c : Int}

/-- No other party breaks the invariant of a receive call. -/
theorem RecvInv.cons {e : Event T N} (hi : RecvInv c h pc) : RecvInv c (e :: h) pc := by
  cases pc with
  | scan q lastClaimed last seq shutdown =>
    obtain ⟨h₀, h₁, h₂, h₃, h₄, hp⟩ := hi
    exact ⟨h₀, h₁.trans highest_le_cons, h₂, h₃, h₄, fun s hs₀ hs₁ => (hp s hs₀ hs₁).cons⟩
  | guard first last =>
    refine ⟨hi.1, fun hlast => ?_⟩
    obtain ⟨h₀, h₁, h₂, hp⟩ := hi.2 hlast
    exact ⟨h₀, h₁, h₂, fun s hs₀ hs₁ => (hp s hs₀ hs₁).cons⟩
  | _ => trivial

theorem RecvInv.record (hi : RecvInv c h pc) : RecvInv c (record e h) pc := by
  cases e with
  | none => exact hi
  | some e => exact hi.cons

/-- What a receive call returns when its scan got as far as `available`. -/
theorem Returns.recvInv {q : RecvCall} {lastClaimed available : Int} {shutdown : Bool}
    (hret : Returns r i q lastClaimed available shutdown e pc)
    (h₀ : -1 ≤ lastClaimed) (h₁ : available ≤ lastClaimed + c)
    (hp : ∀ s, 0 ≤ s → s ≤ available → Published h s) : RecvInv c h pc := by
  cases hret with
  | items ha =>
    refine ⟨fun hlast => ?_, fun _ => ⟨by omega, by omega, by omega, hp⟩⟩
    have hlast : available = -1 := hlast
    omega
  | _ => trivial

/-- Returning is an event the protocol does not restrict. -/
theorem Returns.legal {q : RecvCall} {lastClaimed available : Int} {shutdown : Bool}
    (hret : Returns r i q lastClaimed available shutdown e pc) (hl : Legal c h) :
    Legal c (EnsoChannel.record e h) := by
  cases hret with
  | again => exact hl
  | _ => exact ⟨hl, trivial⟩

/-- The slot state the scan compares is the flag of a published sequence. -/
theorem Sound.published (hs : Sound ring initial h m) {s : Int} (h₀ : 0 ≤ s)
    (h₁ : s ≤ highest h + ring.bufferSize)
    (hflag : lapOf (m.states (ring.indexOfSeq s)) = ring.availableFlag s) : Published h s := by
  rw [hs.mem] at hflag
  exact published_of_flag hs.legal h₀ h₁ hflag

/-- **One step of a receive call** is allowed by the protocol and keeps the invariant of the
call. -/
theorem RecvInv.step (hs : Sound ring initial h m) (hlive : ¬ Dropped h i)
    (hi : RecvInv ring.bufferSize h pc) (hmove : RecvMoves ring r i m pc act e pc') :
    Legal ring.bufferSize (EnsoChannel.record e h) ∧
      RecvInv ring.bufferSize (EnsoChannel.record e h) pc' := by
  have hpos := neg_one_le_position (i := i) hs.legal
  have hhigh := position_le_highest (i := i) hs.legal
  have hpub : ∀ s, 0 ≤ s → s ≤ position h i → Published h s :=
    fun s h₀ h₁ => published_of_position hs.legal h₀ h₁
  cases hmove with
  | load hn =>
    rw [hs.consumed_eq hlive] at hn ⊢
    exact ⟨hs.legal, hpos, hhigh, by omega, hn, by omega, fun s h₀ h₁ => hpub s h₀ (by omega)⟩
  | loadEmpty hn hret =>
    rw [hs.consumed_eq hlive] at hret
    refine ⟨hret.legal hs.legal, RecvInv.record (hret.recvInv hpos ?_ ?_)⟩
    · have := ring.bufferSize_pos
      omega
    · exact fun s h₀ h₁ => hpub s h₀ (by omega)
  | scanNext hflag hseq =>
    obtain ⟨h₀, h₁, h₂, h₃, h₄, hp⟩ := hi
    have hnext := hs.published (by omega) (by omega) hflag
    refine ⟨hs.legal, h₀, h₁, by omega, by omega, h₄, fun s hs₀ hs₁ => ?_⟩
    rcases Int.lt_add_one_iff.mp hs₁ |>.lt_or_eq with hlt | rfl
    · exact hp s hs₀ hlt
    · exact hnext
  | scanEnd hflag hseq hret =>
    obtain ⟨h₀, h₁, h₂, h₃, h₄, hp⟩ := hi
    have hnext := hs.published (by omega) (by omega) hflag
    refine ⟨hret.legal hs.legal, RecvInv.record (hret.recvInv h₀ (by omega) fun s hs₀ hs₁ => ?_)⟩
    rcases hs₁.lt_or_eq with hlt | rfl
    · exact hp s hs₀ hlt
    · exact hnext
  | scanStop hflag hret =>
    obtain ⟨h₀, h₁, h₂, h₃, h₄, hp⟩ := hi
    refine ⟨hret.legal hs.legal, RecvInv.record (hret.recvInv h₀ (by omega) fun s hs₀ hs₁ => ?_)⟩
    exact hp s hs₀ (by omega)
  | register => exact ⟨⟨hs.legal, trivial⟩, trivial⟩
  | releaseEmpty => exact ⟨hs.legal, trivial⟩
  | release hlast =>
    obtain ⟨h₀, h₁, -, hp⟩ := hi.2 hlast
    exact ⟨⟨hs.legal, hlive, h₀, h₁, hp⟩, trivial⟩
  | leak => exact ⟨hs.legal, trivial⟩

end Step

end EnsoChannel
