import EnsoChannel.Lib.Broadcast
import EnsoChannel.Lib.Refine
import EnsoChannel.Snapshot

/-!
# The channel refines the bounded broadcast log

The lock-free ring is, for its users, one atomic object: `Lib.Broadcast`, a log that writers extend
and every reader follows at its own pace, with room for the capacity. The abstract state is read off
the channel (`Sys.broadcast`), and every step of the channel stands for the abstract actions
`Sys.acts`:

| step of the channel | abstract action |
|---|---|
| the compare-exchange of a claim | `reserve` |
| the slot-state store of a publish | `commit`, of what the slot then contains |
| the last slot-state load of a receive call | `take`, or `nothing` |
| the store of the cursor in the drop of a guard | `release` |
| the store of the sentinel in the drop of a receiver | `leave` |
| the store of `claimed` in `close()` | `close` |

All other steps (the loads of the claim loop, the slot writes, the earlier loads of a scan, the
marks and wakes) stand for nothing.

* `simulates_broadcast`: this is a simulation, in every run in range with one guard at a time and no
  leaks. So no grant is beyond the capacity of any receiver, nothing is committed twice, and a
  receive call takes the longest run of committed entries, up to its limit, at one instant.
* `refines_broadcast`: runs of the channel are runs of the log, and its readers agree.
-/

namespace EnsoChannel

open Lib

variable {T : Type} {N : Nat}

/-! ## The abstract state -/

/-- The log entry of a sequence: its value, once it is published. -/
def entry (h : History T N) (s : Int) : Option T := if Published h s then stored h s else none

/-- The log: the claimed sequences. -/
def entries (h : History T N) : List (Option T) := (seqs 0 (highest h)).map (entry h)

/-- The values of the sequences receiver `i` was given. -/
def received (h : History T N) (i : Fin N) : List T := (delivered h i).filterMap (stored h)

/-- How many sequences receiver `i` has released, while it is there. -/
def Sys.released (σ : Sys T N) (i : Fin N) : Option Nat :=
  if σ.receivers i then some (σ.mem.consumed i + 1).toNat else none

/-- The broadcast log a channel stands for. -/
def Sys.broadcast (σ : Sys T N) : Broadcast T (Fin N) where
  entries := entries σ.trace
  released := σ.released
  given := received σ.trace
  closed := hasShutdown σ.mem.claimed

/-- The events of a receive call that give nothing and release nothing. -/
def Event.silent : Event T N → Bool
  | .ret _ _ (.items _ _) => false
  | .ret _ _ _ | .register _ _ => true
  | _ => false

/-- What an event of the sender side stands for. -/
def sendActs (ring : RingBufferMeta) (m : Mem T N) :
    Option (Event T N) → List (Broadcast.Act T (Fin N))
  | some (.claim _ a b) => [.reserve (b + 1 - a).toNat]
  | some (.publish _ s) => [.commit s.toNat (m.slots (ring.indexOfSeq s))]
  | some (.shut raw) => if hasShutdown (i64Or raw shutdownMask) then [.close] else []
  | _ => []

/-- What a step of a receive call on `i` stands for. -/
def recvActs (i : Fin N) : RecvPc → RecvPc → List (Broadcast.Act T (Fin N))
  | .scan _ _ _ _ _, .scan _ _ _ _ _ => []
  | .scan _ lastClaimed last _ _, .guard _ _ => [.take i (last - lastClaimed).toNat]
  | .scan _ _ _ _ _, _ => [.nothing i]
  | .guard _ last, .released => if last = Sequence.init then [] else [.release i]
  | _, _ => []

/-- **The abstract actions a step stands for.** -/
def Sys.acts (ring : RingBufferMeta) (σ : Sys T N) : Label T N → List (Broadcast.Act T (Fin N))
  | .sender k act =>
    match senderStep ring k σ.mem (σ.sends k) act with
    | some (e, _) => sendActs ring σ.mem e
    | none => []
  | .receiver r act =>
    match recvStep ring r (σ.recvReceiver r) σ.mem (σ.recvs r) act with
    | some (_, pc) => recvActs (σ.recvReceiver r) (σ.recvs r) pc
    | none => []
  | .dropReceiver i => [.leave i]
  | _ => []

section

variable {ring : RingBufferMeta} {initial : Nat → T} {σ σ' : Sys T N} {l : Label T N} {k r : Nat}
  {h h' : History T N} {m : Mem T N} {i : Fin N} {e : Event T N} {c a b s : Int}

/-! ## Lists of sequences -/

theorem length_seqs : (seqs a b).length = (b + 1 - a).toNat := by
  unfold seqs
  rw [List.length_map, List.length_range]

theorem getElem?_seqs (n : Nat) :
    (seqs a b)[n]? = if a + n ≤ b then some (a + n) else none := by
  unfold seqs
  rw [List.getElem?_map]
  by_cases hn : a + n ≤ b
  · rw [if_pos hn, List.getElem?_range (by omega)]
    rfl
  · rw [if_neg hn, List.getElem?_eq_none (by rw [List.length_range]; omega)]
    rfl

/-- The values of sequences that have one. -/
theorem filterMap_stored {l : List Int} (hl : ∀ s ∈ l, HasValue h s) :
    (l.filterMap (stored h)).map some = l.map (stored h) := by
  induction l with
  | nil => rfl
  | cons s l ih =>
    obtain ⟨v, hv⟩ := hl s List.mem_cons_self
    rw [List.filterMap_cons, hv, List.map_cons, List.map_cons, hv,
      ih fun t ht => hl t (List.mem_cons_of_mem s ht)]

/-! ## The log -/

theorem entry_of_published (hp : Published h s) : entry h s = stored h s := if_pos hp

theorem entry_of_not_published (hp : ¬ Published h s) : entry h s = none := if_neg hp

/-- Only a publish of the sequence itself changes its entry. -/
theorem entry_cons (hl : Legal c (e :: h)) (he : ∀ k, e ≠ .publish k s) :
    entry (e :: h) s = entry h s := by
  by_cases hp : Published h s
  · rw [entry_of_published hp.cons, entry_of_published hp, stored_cons_of_published hl hp]
  · have hp' : ¬ Published (e :: h) s := fun hp' => hp ((published_cons_of_ne he).mp hp')
    rw [entry_of_not_published hp', entry_of_not_published hp]

theorem entries_cons (hl : Legal c (e :: h)) (hclaim : ∀ k a b, e ≠ .claim k a b)
    (hpub : ∀ k s, e ≠ .publish k s) : entries (e :: h) = entries h := by
  unfold entries
  rw [highest_cons_of_ne hclaim]
  exact List.map_congr_left fun s _ => entry_cons hl fun k => hpub k s

/-- A claim appends open entries. -/
theorem entries_claim (hl : Legal c (.claim k a b :: h)) :
    entries (.claim k a b :: h) = entries h ++ List.replicate (b + 1 - a).toNat none := by
  have hnow := hl
  obtain ⟨hl₀, rfl, hab, -⟩ := hnow
  have hneg := neg_one_le_highest h
  have hmax : highest (Event.claim k (highest h + 1) b :: h) = b := max_eq_left (by omega)
  unfold entries
  rw [hmax, ← seqs_append (by omega : (0 : Int) ≤ highest h + 1) (by omega : highest h ≤ b),
    List.map_append]
  congr 1
  · exact List.map_congr_left fun s _ => entry_cons hl fun k' => by simp
  · rw [List.eq_replicate_iff]
    refine ⟨by rw [List.length_map, length_seqs], fun v hv => ?_⟩
    obtain ⟨s, hs, rfl⟩ := List.mem_map.mp hv
    refine entry_of_not_published fun hp => ?_
    have hrange := (hp.range hl).1
    have hold := ((published_cons_of_ne (by simp)).mp hp).range hl₀
    have hlow := (mem_seqs.mp hs).1
    omega

/-- A publish commits its entry. -/
theorem entries_publish {v : T} (hl : Legal c (.publish k s :: h)) (hv : stored h s = some v) :
    entries (.publish k s :: h) = (entries h).set s.toNat (some v) := by
  have hs := owner_eq_some hl.1 hl.2.1
  apply List.ext_getElem?
  intro n
  unfold entries
  rw [List.getElem?_set, List.getElem?_map, List.getElem?_map, getElem?_seqs, getElem?_seqs,
    List.length_map, length_seqs]
  show Option.map _ (if 0 + (n : Int) ≤ highest h then _ else _) = _
  by_cases hn : s.toNat = n
  · rw [if_pos hn, if_pos (by omega), if_pos (by omega), show 0 + (n : Int) = s by omega]
    have hp : Published (.publish k s :: h) s := published_cons.mpr (Or.inl ⟨k, rfl⟩)
    show some (entry _ s) = _
    rw [entry_of_published hp]
    exact congrArg some hv
  · rw [if_neg hn]
    by_cases hle : 0 + (n : Int) ≤ highest h
    · rw [if_pos hle]
      refine congrArg some (entry_cons hl ?_)
      rintro k' heq
      cases heq
      omega
    · rw [if_neg hle]
      rfl

/-! ## What the readers were given -/

/-- The values a receiver was given are final. -/
theorem received_cons (hl : Legal c (e :: h)) (hp : ∀ s ∈ delivered h i, Published h s)
    (he : ∀ r a b, e ≠ .ret r i (.items a b)) : received (e :: h) i = received h i := by
  unfold received
  rw [(delivered_cons_of_ne he).1]
  exact List.filterMap_congr fun s hs => stored_cons_of_published hl (hp s hs)

/-- Everything in the log up to what a receiver was given is published. -/
theorem Delivering.delivered_published (hd : Delivering ring initial σ) :
    ∀ s ∈ delivered σ.trace i, Published σ.trace s := by
  rw [(hd.given i).count]
  intro s hs
  obtain ⟨h₀, h₁⟩ := mem_seqs.mp hs
  exact ((hd.given i).published hd.served.guarded.inv).2 s h₀ h₁

/-- A receiver was given one value for each sequence up to the last one it was given. -/
theorem Delivering.length_received (hd : Delivering ring initial σ) (i : Fin N) :
    (received σ.trace i).length = (taken σ.trace i + 1).toNat := by
  have hmap := filterMap_stored (h := σ.trace) (l := delivered σ.trace i)
    fun s hs => hd.filled.published s (hd.delivered_published s hs)
  have hlen := congrArg List.length hmap
  rw [List.length_map, List.length_map, (hd.given i).count, length_seqs] at hlen
  unfold received
  rw [(hd.given i).count, hlen]
  congr 1
  omega

/-- A receiver with no live guard has released all it was given. -/
theorem Delivering.taken_eq (hd : Delivering ring initial σ) (hr : r < σ.nextRecv)
    (hfin : (σ.recvs r).finished = false) (hend : (σ.recvs r).guardEnd = none) :
    taken σ.trace (σ.recvReceiver r) = position σ.trace (σ.recvReceiver r) := by
  refine (hd.given (σ.recvReceiver r)).idle.resolve_right fun ⟨r', hr', hi, hend'⟩ => ?_
  by_cases hrr : r' = r
  · rw [hrr, hend] at hend'
    exact absurd hend' (by simp)
  · rw [RecvPc.guardEnd_of_finished (hd.served.solo.finished_of_ne hr hr' hrr hi hfin)] at hend'
    exact absurd hend' (by simp)

/-! ## Steps that stand for nothing -/

/-- The abstract state is read off these parts of the channel. -/
theorem broadcast_congr (hentries : entries σ'.trace = entries σ.trace)
    (hreceivers : σ'.receivers = σ.receivers) (hconsumed : σ'.mem.consumed = σ.mem.consumed)
    (hreceived : ∀ i, received σ'.trace i = received σ.trace i)
    (hclosed : hasShutdown σ'.mem.claimed = hasShutdown σ.mem.claimed) :
    σ'.broadcast = σ.broadcast := by
  unfold Sys.broadcast Sys.released
  rw [hentries, hreceivers, hconsumed, funext hreceived, hclosed]

/-- A step of a receive call that gives nothing and releases nothing. -/
theorem broadcast_silent {e : Option (Event T N)} (hd : Delivering ring initial σ)
    (hl : Legal ring.bufferSize (record e σ.trace))
    (he : ∀ e', e = some e' → e'.silent = true) (htrace : σ'.trace = record e σ.trace)
    (hmem : σ'.mem = (σ.perform ring e).mem) (hreceivers : σ'.receivers = σ.receivers) :
    σ'.broadcast = σ.broadcast := by
  cases e with
  | none =>
    exact broadcast_congr (by rw [htrace]; rfl) hreceivers (by rw [hmem]; rfl)
      (fun i => by rw [htrace]; rfl) (by rw [hmem]; rfl)
  | some e =>
    have hsilent := he e rfl
    have hentries : entries (e :: σ.trace) = entries σ.trace :=
      entries_cons hl (by rintro k a b rfl; exact absurd hsilent (by simp [Event.silent]))
        (by rintro k s rfl; exact absurd hsilent (by simp [Event.silent]))
    have hmem' : (σ.mem.apply ring e).consumed = σ.mem.consumed ∧
        (σ.mem.apply ring e).claimed = σ.mem.claimed := by
      cases e <;> first | exact ⟨rfl, rfl⟩ | exact absurd hsilent (by simp [Event.silent])
    have hmem : σ'.mem = σ.mem.apply ring e := hmem
    refine broadcast_congr (by rw [htrace]; exact hentries) hreceivers (by rw [hmem, hmem'.1])
      (fun i => ?_) (by rw [hmem, hmem'.2])
    rw [htrace]
    refine received_cons hl hd.delivered_published ?_
    rintro r a b rfl
    exact absurd hsilent (by simp [Event.silent])

/-- The abstract step is always possible where it is allowed. -/
theorem broadcast_run {b b' : Broadcast T (Fin N)} {n : Nat} {a : Broadcast.Act T (Fin N)}
    (hok : Broadcast.Allowed n b a) (heq : b' = b.apply a) :
    Run Broadcast.step (Broadcast.Allowed n) b [a] b' :=
  Run.single hok (by rw [heq]; rfl)

/-! ## The sender side -/

theorem length_entries (h : History T N) : (entries h).length = (highest h + 1).toNat := by
  unfold entries
  rw [List.length_map, length_seqs]
  congr 1
  omega

/-- A claim reserves entries within the capacity of every receiver. -/
theorem reserve_allowed (hd : Delivering ring initial σ) {pc pc' : SenderPc T} {act : SenderAct T}
    {k' : Nat} (hpc : σ.sends k = pc)
    (hsm : SenderMoves ring k σ.mem pc act (some (.claim k' a b)) pc') :
    Broadcast.Allowed ring.bufferSize.toNat σ.broadcast (.reserve (b + 1 - a).toNat) := by
  have hg := hd.served.guarded
  have hinv := hg.inv.send k
  have hslag := hg.lag.send k
  rw [hpc] at hinv hslag
  have hlag : Lag ring.bufferSize (.claim k' a b :: σ.trace) := hsm.lag hinv hslag hg.lag.lag
  have hopen : hasShutdown σ.mem.claimed = false := hasShutdown_eq_false.mpr (hsm.claim_open hinv)
  have hclaimed := hg.inv.sound.claimed.eq_highest hg.inv.sound.bound
    (hasShutdown_eq_false.mp hopen)
  have hneg := neg_one_le_highest σ.trace
  have hc := ring.bufferSize_pos
  cases hsm with
  | @claim c last x b hcas =>
    obtain ⟨hlimit, hlast, hlt, hb, -⟩ := hinv
    refine ⟨hopen, by omega, by omega, fun i m hm => ?_⟩
    have hm : σ.released i = some m := hm
    unfold Sys.released at hm
    show (entries σ.trace).length + _ ≤ _
    rw [length_entries]
    split at hm
    · rename_i hlive
      have hd := hg.inv.not_dropped hlive
      have hd' : ¬ Dropped (.claim k (last + 1) b :: σ.trace) i := fun h =>
        hd ((dropped_cons.mp h).resolve_left (by simp))
      have hbound : max b (highest σ.trace) ≤ position σ.trace i + ring.bufferSize := hlag i hd'
      have hcons := hg.inv.sound.consumed_eq hd
      have hpos := neg_one_le_position (i := i) hg.inv.sound.legal
      obtain rfl := Option.some.inj hm
      omega
    · exact absurd hm (by simp)

/-- A publish commits what its slot contains. -/
theorem publish_stored (hd : Delivering ring initial σ) {pc pc' : SenderPc T} {act : SenderAct T}
    {k' : Nat} (hpc : σ.sends k = pc) (hl : Legal ring.bufferSize (.publish k' s :: σ.trace))
    (hsm : SenderMoves ring k σ.mem pc act (some (.publish k' s)) pc') :
    stored σ.trace s = some (σ.mem.slots (ring.indexOfSeq s)) := by
  have hfilled := hd.filled.send k
  rw [hpc] at hfilled
  obtain ⟨v, hv⟩ := hsm.publish_filled hfilled
  have hun := uncommitted_of_owner hl.1 hl.2.1 hl.2.2
  rw [hv, hd.served.guarded.inv.sound.mem,
    slots_replay hl.1 (hun.window ring.bufferSize_pos hl.1) hv]

/-- An open entry is committed. -/
theorem commit_allowed (hl : Legal c (.publish k s :: σ.trace)) (v : T) {n : Nat} :
    Broadcast.Allowed n σ.broadcast (.commit s.toNat v) := by
  have hs := owner_eq_some hl.1 hl.2.1
  show (entries σ.trace)[s.toNat]? = some none
  unfold entries
  rw [List.getElem?_map, getElem?_seqs, if_pos (by omega), show 0 + (s.toNat : Int) = s by omega]
  exact congrArg some (entry_of_not_published hl.2.2)

/-- An event of the sender side changes only the log, and whether it is closed. -/
theorem broadcast_sendSide (hd : Delivering ring initial σ)
    (hl : Legal ring.bufferSize (e :: σ.trace)) (hside : e.sendSide = true)
    (htrace : σ'.trace = e :: σ.trace) (hmem : σ'.mem = σ.mem.apply ring e)
    (hreceivers : σ'.receivers = σ.receivers) :
    σ'.broadcast = { σ.broadcast with
      entries := entries (e :: σ.trace)
      closed := hasShutdown (σ.mem.apply ring e).claimed } := by
  have hreceived : received σ'.trace = received σ.trace := by
    funext i
    rw [htrace]
    refine received_cons hl hd.delivered_published ?_
    rintro r a b rfl
    exact absurd hside (by simp [Event.sendSide])
  have hconsumed : (σ.mem.apply ring e).consumed = σ.mem.consumed := by
    cases e <;> first | rfl | exact absurd hside (by simp [Event.sendSide])
  unfold Sys.broadcast Sys.released
  rw [hreceived, hreceivers, hmem, hconsumed, htrace]

/-- **A step of a sender call** does what it stands for. -/
theorem SenderMoves.matches_broadcast (hd : Delivering ring initial σ) {pc pc' : SenderPc T}
    {act : SenderAct T} {e : Option (Event T N)} (hpc : σ.sends k = pc)
    (hsm : SenderMoves ring k σ.mem pc act e pc') (hm : Moves ring σ l σ')
    (htrace : σ'.trace = record e σ.trace) (hmem : σ'.mem = (σ.perform ring e).mem)
    (hreceivers : σ'.receivers = σ.receivers) :
    Run Broadcast.step (Broadcast.Allowed ring.bufferSize.toNat) σ.broadcast
      (sendActs ring σ.mem e) σ'.broadcast := by
  have hi := hd.served.guarded.inv
  have hl := hi.legal_step hm
  rw [htrace] at hl
  cases e with
  | none =>
    rw [broadcast_congr (by rw [htrace]; rfl) hreceivers (by rw [hmem]; rfl)
      (fun i => by rw [htrace]; rfl) (by rw [hmem]; rfl)]
    exact Run.nil
  | some e =>
    have heq := broadcast_sendSide hd hl hsm.sendSide htrace hmem hreceivers
    cases e with
    | claim k' a b =>
      have hopen : hasShutdown σ.mem.claimed = false :=
        hasShutdown_eq_false.mpr (hsm.claim_open (hpc ▸ hi.send k))
      have hb : hasShutdown b = false := by
        have hab : a = highest σ.trace + 1 ∧ a ≤ b ∧ _ := hl.2
        have hneg := neg_one_le_highest σ.trace
        rw [hasShutdown_eq_false]
        omega
      have hclosed : hasShutdown (σ.mem.apply ring (.claim k' a b)).claimed =
          hasShutdown σ.mem.claimed := hb.trans hopen.symm
      refine broadcast_run (reserve_allowed hd hpc hsm) ?_
      rw [heq, entries_claim hl, hclosed]
      rfl
    | publish k' s =>
      refine broadcast_run (commit_allowed hl _) ?_
      rw [heq, entries_publish hl (publish_stored hd hpc hl hsm)]
      rfl
    | shut raw =>
      rw [entries_cons hl (by simp) (by simp)] at heq
      by_cases hshut : hasShutdown (i64Or raw shutdownMask) = true
      · rw [sendActs, if_pos hshut]
        have hclosed : hasShutdown (σ.mem.apply ring (.shut raw)).claimed = true := hshut
        refine broadcast_run (a := .close) trivial ?_
        rw [heq, hclosed]
        rfl
      · -- nothing was ever claimed, and the signal is lost
        have hkeep : hasShutdown σ.mem.claimed = false := by
          rw [Bool.eq_false_iff]
          intro h
          have hafter := hasShutdown_step hi hm h
          rw [hmem] at hafter
          exact hshut hafter
        have hclosed : hasShutdown (σ.mem.apply ring (.shut raw)).claimed =
            hasShutdown σ.mem.claimed := (Bool.eq_false_iff.mpr hshut).trans hkeep.symm
        rw [sendActs, if_neg hshut, heq, hclosed]
        exact Run.nil
    | store | mark | closeStart | closeEnd | wake =>
      rw [entries_cons hl (by simp) (by simp)] at heq
      rw [heq]
      exact Run.nil
    | _ => exact absurd hsm.sendSide (by simp [Event.sendSide])

/-! ## The receivers -/

/-- What the last load of a scan finds from the place of its receiver on. -/
theorem ready_drop (hd : Delivering ring initial σ) {lastClaimed last available : Int}
    (hneg : -1 ≤ lastClaimed)
    (hext : Extent (Published σ.trace) (lastClaimed + 1) last available)
    (hhigh : lastClaimed ≤ highest σ.trace)
    (hlen : (received σ.trace i).length = (lastClaimed + 1).toNat) :
    (Broadcast.ready ((entries σ.trace).drop (received σ.trace i).length)).take
        (last - lastClaimed).toNat =
      (seqs (lastClaimed + 1) available).filterMap (stored σ.trace) := by
  have hlow := hext.lower
  have hupp := hext.upper
  have hvalues := filterMap_stored (h := σ.trace) (l := seqs (lastClaimed + 1) available)
    fun s hs => hd.filled.published s (hext.within s (mem_seqs.mp hs).1 (mem_seqs.mp hs).2)
  have hcount := congrArg List.length hvalues
  rw [List.length_map, List.length_map, length_seqs] at hcount
  have hdrop : (entries σ.trace).drop (received σ.trace i).length =
      (seqs (lastClaimed + 1) (highest σ.trace)).map (entry σ.trace) := by
    unfold entries
    rw [← seqs_append (by omega : (0 : Int) ≤ lastClaimed + 1) hhigh, List.map_append]
    refine List.drop_left' ?_
    rw [hlen, List.length_map, length_seqs]
    congr 1
    omega
  rw [hdrop]
  refine Broadcast.ready_take (by omega) ?_ fun hlt v => ?_
  · have hentry : (seqs (lastClaimed + 1) available).map (stored σ.trace) =
        (seqs (lastClaimed + 1) available).map (entry σ.trace) :=
      List.map_congr_left fun s hs => (entry_of_published
        (hext.within s (mem_seqs.mp hs).1 (mem_seqs.mp hs).2)).symm
    have hle : available ≤ highest σ.trace := by
      rcases eq_or_lt_of_le hlow with heq | hlt
      · omega
      · exact ((hext.within available (by omega) (le_refl _)).range
          hd.served.guarded.inv.sound.legal).2
    rw [hvalues, hentry]
    exact (seqs_isPrefix (by omega) hle).map _
  · rw [hcount, List.getElem?_map, getElem?_seqs]
    split
    · rw [show lastClaimed + 1 + ((available + 1 - (lastClaimed + 1)).toNat : Int) =
        available + 1 by omega]
      intro heq
      have heq : entry σ.trace (available + 1) = some v := Option.some.inj heq
      rw [entry_of_not_published (hext.stop (by omega))] at heq
      exact absurd heq (by simp)
    · simp

/-- A call that returns a batch takes the entries that are ready. -/
theorem take_step (hd : Delivering ring initial σ) {lastClaimed last available : Int}
    (hlive : σ.receivers i = true) (hneg : -1 ≤ lastClaimed) (hlt : lastClaimed < available)
    (hcur : lastClaimed = position σ.trace i) (htaken : taken σ.trace i = lastClaimed)
    (hext : Extent (Published σ.trace) (lastClaimed + 1) last available)
    (hl : Legal ring.bufferSize (.ret r i (.items (lastClaimed + 1) available) :: σ.trace))
    (htrace : σ'.trace = .ret r i (.items (lastClaimed + 1) available) :: σ.trace)
    (hmem : σ'.mem = σ.mem) (hreceivers : σ'.receivers = σ.receivers) {n : Nat} :
    Run Broadcast.step (Broadcast.Allowed n) σ.broadcast
      [.take i (last - lastClaimed).toNat] σ'.broadcast := by
  have hi := hd.served.guarded.inv
  have hlen := hd.length_received i
  rw [htaken] at hlen
  have hhigh : lastClaimed ≤ highest σ.trace := hcur ▸ position_le_highest hl.1
  have hcons : σ.mem.consumed i = lastClaimed := by
    rw [hcur, hi.sound.consumed_eq (hi.not_dropped hlive)]
  have hready := ready_drop hd hneg hext hhigh hlen
  have hupp := hext.upper
  refine broadcast_run ⟨?_, by omega, fun hnone => ?_⟩ ?_
  · show σ.released i = _
    rw [Sys.released, if_pos hlive, hcons]
    exact congrArg some hlen.symm
  · -- what was returned is there
    have hempty : (seqs (lastClaimed + 1) available).filterMap (stored σ.trace) = [] := by
      rw [← hready]
      exact (congrArg (List.take _) hnone).trans List.take_nil
    have hvalues := filterMap_stored (h := σ.trace) (l := seqs (lastClaimed + 1) available)
      fun s hs => hd.filled.published s (hext.within s (mem_seqs.mp hs).1 (mem_seqs.mp hs).2)
    have hcount := congrArg List.length hvalues
    rw [hempty, List.length_map, List.length_map, length_seqs, List.length_nil] at hcount
    omega
  · have hreceived : received σ'.trace =
        Function.update (received σ.trace) i (received σ.trace i ++
          (Broadcast.ready ((entries σ.trace).drop (received σ.trace i).length)).take
            (last - lastClaimed).toNat) := by
      funext j
      rw [htrace, hready]
      by_cases hji : j = i
      · rw [hji, Function.update_self]
        unfold received
        rw [delivered, if_pos rfl, List.filterMap_append]
        rfl
      · rw [Function.update_of_ne hji]
        exact received_cons hl hd.delivered_published fun r' a b heq => by
          cases heq
          exact hji rfl
    have happly : σ.broadcast.apply (.take i (last - lastClaimed).toNat) =
        { σ.broadcast with given := received σ'.trace } := by
      rw [hreceived]
      rfl
    rw [happly]
    unfold Sys.broadcast Sys.released
    rw [hreceivers, hmem, htrace, entries_cons hl (by simp) (by simp)]

/-- A call that returns nothing, or goes to register, finds nothing ready. -/
theorem nothing_allowed (hd : Delivering ring initial σ) {lastClaimed last : Int}
    (hlive : σ.receivers i = true) (hneg : -1 ≤ lastClaimed) (hlt : lastClaimed < last)
    (hcur : lastClaimed = position σ.trace i) (htaken : taken σ.trace i = lastClaimed)
    (hext : Extent (Published σ.trace) (lastClaimed + 1) last lastClaimed) {n : Nat} :
    Broadcast.Allowed n σ.broadcast (.nothing i) := by
  have hi := hd.served.guarded.inv
  have hlen := hd.length_received i
  rw [htaken] at hlen
  have hready := ready_drop hd hneg hext (hcur ▸ position_le_highest hi.sound.legal) hlen
  refine ⟨?_, ?_⟩
  · show σ.released i = _
    rw [Sys.released, if_pos hlive, hi.sound.consumed_eq (hi.not_dropped hlive), ← hcur]
    exact congrArg some hlen.symm
  · have hnone : seqs (lastClaimed + 1) lastClaimed = [] :=
      List.length_eq_zero_iff.mp (by rw [length_seqs]; omega)
    rw [hnone, List.filterMap_nil, List.take_eq_nil_iff] at hready
    exact hready.resolve_left (by omega)

/-- The drop of a guard releases all that its receiver was given. -/
theorem release_step (hd : Delivering ring initial σ) {first last : Int}
    (hlive : σ.receivers i = true) (h₀ : 0 ≤ first) (h₁ : first ≤ last)
    (hcur : first = position σ.trace i + 1) (htaken : taken σ.trace i = last)
    (hl : Legal ring.bufferSize (.release i first last :: σ.trace))
    (htrace : σ'.trace = .release i first last :: σ.trace)
    (hmem : σ'.mem = σ.mem.apply ring (.release i first last))
    (hreceivers : σ'.receivers = σ.receivers) {n : Nat} :
    Run Broadcast.step (Broadcast.Allowed n) σ.broadcast [.release i] σ'.broadcast := by
  have hi := hd.served.guarded.inv
  have hlen := hd.length_received i
  rw [htaken] at hlen
  refine broadcast_run ⟨first.toNat, ?_, ?_⟩ ?_
  · show σ.released i = _
    rw [Sys.released, if_pos hlive, hi.sound.consumed_eq (hi.not_dropped hlive), hcur]
  · show first.toNat < (received σ.trace i).length
    omega
  · have hreleased : σ'.released =
        Function.update σ.released i (some (received σ.trace i).length) := by
      funext j
      rw [hlen]
      unfold Sys.released
      rw [hreceivers, hmem]
      show (if σ.receivers j then some (Function.update σ.mem.consumed i last j + 1).toNat
        else none) = _
      by_cases hji : j = i
      · rw [hji, Function.update_self, Function.update_self, if_pos hlive]
      · rw [Function.update_of_ne hji, Function.update_of_ne hji]
    have hreceived : received σ'.trace = received σ.trace := by
      funext j
      rw [htrace]
      exact received_cons hl hd.delivered_published (by simp)
    have happly : σ.broadcast.apply (.release i) =
        { σ.broadcast with released := σ'.released } := by
      rw [hreleased]
      rfl
    rw [happly]
    unfold Sys.broadcast
    rw [hreceived, htrace, entries_cons hl (by simp) (by simp), hmem]
    rfl

/-- A call that ends its scan with less than a batch. -/
theorem Returns.silent {q : RecvCall} {lastClaimed available : Int} {shutdown : Bool} {pc : RecvPc}
    {e : Option (Event T N)} (hret : Returns r i q lastClaimed available shutdown e pc)
    (ha : available ≤ lastClaimed) : ∀ e', e = some e' → e'.silent = true := by
  rintro e' rfl
  cases hret with
  | items hlt => omega
  | _ => rfl

/-- **A step of a receive call** does what it stands for. -/
theorem RecvMoves.matches_broadcast (hd : Delivering ring initial σ) {pc pc' : RecvPc}
    {act : RecvAct} {e : Option (Event T N)} (hr : r < σ.nextRecv) (hpc : σ.recvs r = pc)
    (hleak : act ≠ .leak) (hrm : RecvMoves ring r (σ.recvReceiver r) σ.mem pc act e pc')
    (hm : Moves ring σ l σ') (htrace : σ'.trace = record e σ.trace)
    (hmem : σ'.mem = (σ.perform ring e).mem) (hreceivers : σ'.receivers = σ.receivers) :
    Run Broadcast.step (Broadcast.Allowed ring.bufferSize.toNat) σ.broadcast
      (recvActs (σ.recvReceiver r) pc pc') σ'.broadcast := by
  have hi := hd.served.guarded.inv
  have hl := hi.legal_step hm
  rw [htrace] at hl
  have hfin : (σ.recvs r).finished = false := by
    rw [hpc]
    exact hrm.unfinished
  have hd' := hi.borrow.live_of_recv hr hfin
  have hlive : σ.receivers (σ.recvReceiver r) = true := by
    rw [← Bool.not_eq_false, ← hi.borrow.dropped]
    exact hd'
  have hinv := hi.recv r
  have hcur := hd.served.guarded.current r hr
  have htaken := hd.taken_eq hr hfin
  have hgiven := (hd.given (σ.recvReceiver r)).live r hr rfl
  rw [hpc] at hinv hcur htaken hgiven
  have hsilent : (∀ e', e = some e' → e'.silent = true) → σ'.broadcast = σ.broadcast :=
    fun he => broadcast_silent hd hl he htrace hmem hreceivers
  cases pc with
  | load q =>
    have hquiet : ∀ e', e = some e' → e'.silent = true := by
      cases hrm with
      | load => simp
      | loadEmpty hn hret => exact hret.silent (by omega)
    rw [hsilent hquiet]
    exact Run.nil
  | scan q lastClaimed last seq shutdown =>
    have hlc : lastClaimed = position σ.trace (σ.recvReceiver r) := hcur
    have htaken := (htaken rfl).trans hlc.symm
    rcases hrm.scan_cases hi hd.served.guarded.lag hd' hinv hlc with ⟨rfl, shutdown', rfl⟩ | hends
    · rw [hsilent (by simp)]
      exact Run.nil
    obtain ⟨available, shutdown', hret, hext, -⟩ := hends
    obtain ⟨hneg, hhigh, hseq, hle, -⟩ := hinv
    by_cases ha : available ≤ lastClaimed
    · have hlow := hext.lower
      obtain rfl : available = lastClaimed := by omega
      have hnothing : recvActs (σ.recvReceiver r) (.scan q available last seq shutdown) pc' =
          [(.nothing (σ.recvReceiver r) : Broadcast.Act T (Fin N))] := by
        cases hret with
        | items hlt => omega
        | _ => rfl
      rw [hnothing, hsilent (hret.silent ha)]
      exact broadcast_run (nothing_allowed hd hlive hneg (by omega) hlc htaken hext) rfl
    · cases hret with
      | items hlt => exact take_step hd hlive hneg hlt hlc htaken hext hl htrace hmem hreceivers
      | _ => omega
  | register q =>
    cases hrm
    rw [hsilent (by rintro e' heq; cases heq; rfl)]
    exact Run.nil
  | guard first last =>
    cases hrm with
    | releaseEmpty hlast =>
      rw [recvActs, if_pos hlast, hsilent (by simp)]
      exact Run.nil
    | release hlast =>
      rw [recvActs, if_neg hlast]
      obtain ⟨h₀, h₁, -⟩ := hinv.2 hlast
      have hend := hgiven last (by rw [RecvPc.guardEnd, if_neg hlast])
      exact release_step hd hlive h₀ h₁ (hcur hlast) hend.symm hl htrace hmem hreceivers
    | leak => exact absurd rfl hleak
  | _ => cases hrm

/-- The drop of a receiver leaves the log. -/
theorem leave_step (hd : Delivering ring initial σ) (hlive : σ.receivers i = true)
    (hm : Moves ring σ (.dropReceiver i) σ') {n : Nat} :
    Run Broadcast.step (Broadcast.Allowed n) σ.broadcast [.leave i] σ'.broadcast := by
  have hl := hd.served.guarded.inv.legal_step hm
  cases hm with
  | dropReceiver _ hidle =>
    refine broadcast_run ?_ ?_
    · show σ.released i ≠ none
      rw [Sys.released, if_pos hlive]
      simp
    · ext1
      · exact entries_cons hl (by simp) (by simp)
      · funext j
        show (if Function.update σ.receivers i false j then
            some (Function.update σ.mem.consumed i Sequence.shutdownOpen j + 1).toNat else none) =
          Function.update σ.released i none j
        by_cases hji : j = i
        · rw [hji, Function.update_self, Function.update_self, Function.update_self]
          rfl
        · rw [Function.update_of_ne hji, Function.update_of_ne hji, Function.update_of_ne hji]
          rfl
      · funext j
        exact received_cons hl hd.delivered_published (by simp)
      · rfl

/-! ## The simulation -/

variable (ring initial) in
/-- **The channel simulates the broadcast log**: in every run in range with one guard at a time and
no leaks, each step does to the log what it stands for, and the log allows it. -/
theorem simulates_broadcast :
    Simulation (step ring) (Tidy ring) Broadcast.step
      (Broadcast.Allowed ring.bufferSize.toNat) (Delivering ring initial)
      (Sys.broadcast : Sys T N → Broadcast T (Fin N)) (Sys.acts ring) where
  keeps hd hok hst := delivering_step hd hok hst
  matches_step := by
    intro σ l σ' hd hok hst
    have hm := moves_of_step hst
    cases hm with
    | clone | dropSender | dropLast | send | recv => exact Run.nil
    | @sender k act e pc hk hsend =>
      have hacts : σ.acts ring (.sender k act) = sendActs ring σ.mem e := by
        simp only [Sys.acts, hsend]
      rw [hacts]
      exact (senderMoves_of_step hsend).matches_broadcast hd rfl (moves_of_step hst)
        (perform_trace ring σ e) rfl (perform_receivers ring σ e)
    | @receiver r act e pc hr hrecv =>
      have hacts : σ.acts ring (.receiver r act) =
          recvActs (σ.recvReceiver r) (σ.recvs r) pc := by
        simp only [Sys.acts, hrecv]
      rw [hacts]
      refine (recvMoves_of_step hrecv).matches_broadcast hd hr rfl ?_ (moves_of_step hst)
        (perform_trace ring σ e) rfl (perform_receivers ring σ e)
      rintro rfl
      exact hok.2.2.2 r rfl
    | @dropReceiver i hlive hidle =>
      exact leave_step hd hlive (moves_of_step hst)

theorem broadcast_init (initial : Nat → T) (i₀ : Fin N) :
    (Sys.init initial i₀).broadcast = Broadcast.init := by
  rfl

/-- **The channel refines the broadcast log.** Every run in range with one guard at a time and no
leaks, read through the actions its steps stand for, is a run of the log; and of any two receivers,
one was given the beginning of what the other was given. -/
theorem refines_broadcast {i₀ : Fin N} {ls : List (Label T N)}
    (hrun : Run (step ring) (Tidy ring) (Sys.init initial i₀) ls σ) :
    Run Broadcast.step (Broadcast.Allowed ring.bufferSize.toNat) Broadcast.init
        (matched (step ring) (Sys.acts ring) (Sys.init initial i₀) ls) σ.broadcast ∧
      ∀ i j, received σ.trace i <+: received σ.trace j ∨
        received σ.trace j <+: received σ.trace i := by
  have habs := (simulates_broadcast ring initial).run hrun (delivering_init ring initial i₀)
  rw [broadcast_init] at habs
  exact ⟨habs, (Broadcast.valid_init.of_run habs).agree⟩

/-- Two receivers are given an item; one of them releases it and leaves. -/
theorem refines_broadcast_two :
    ∃ (ls : List (Label Nat 2)) (σ : Sys Nat 2), received σ.trace 0 = [7] ∧
      received σ.trace 1 = [7] ∧ σ.receivers 1 = false ∧
        Run Broadcast.step (Broadcast.Allowed 2) Broadcast.init
          (matched (step ⟨1, by decide⟩) (Sys.acts ⟨1, by decide⟩) (Sys.init (fun _ => 0) 0) ls)
          σ.broadcast := by
  have hex : (exec (step ⟨1, by decide⟩) (Tidy ⟨1, by decide⟩) (Sys.init (fun _ => 0) 0)
      (List.flatten [[.send 0 (.trySend 7)], List.replicate 11 (.sender 0 .run),
        [.recv 0 1 false, .receiver 0 .run, .recv 1 2 true, .receiver 0 .run],
        List.replicate 3 (.receiver 1 .run), [.receiver 1 .release, .dropReceiver 1]])).any
      (fun σ : Sys Nat 2 => decide (received σ.trace 0 = [7] ∧ received σ.trace 1 = [7] ∧
        σ.receivers 1 = false)) = true := by
    decide +kernel
  obtain ⟨σ, hrun, hσ⟩ := Run.of_exec_any hex
  obtain ⟨h₀, h₁, hdrop⟩ := of_decide_eq_true hσ
  exact ⟨_, σ, h₀, h₁, hdrop, (refines_broadcast hrun).1⟩

end

end EnsoChannel
