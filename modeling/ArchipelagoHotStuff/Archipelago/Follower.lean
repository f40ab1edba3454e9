/- Module: ArchipelagoHotStuff/Archipelago/Follower
   source: hotstuff.cpp (check_stable_point_index, server_consensus_request_cmd_handler),
     archipelago_app.cpp (client_ordering2_request_cmd_handler)
   digest: What a replica other than the leader makes of the leader's stable points: when the
     check of an index is exact, and when the index stays inside the commit set. -/

import ArchipelagoHotStuff.Archipelago.Leader

set_option autoImplicit false
set_option relaxedAutoImplicit false

namespace ArchipelagoHotStuff.Archipelago.Follower

open Crypto.Wire General.Sorting General.Transition Leader

/-- A `MsgConsensusReqCmd`, without the fields that its handler does not use. -/
structure MsgConsensusReqCmd where
  commitSetHash : Uint256
  stableTimestamp : Timestamp
  stableIdx : Fin (2 ^ 32)
  placeHolder2 : Uint256
  placeHolder3 : Uint256
  placeHolder4 : Uint256

/-- A replica with the errors it has recorded and the commands in its queue `cmd_pending`. -/
structure Replica extends HotStuffApp where
  stablePointErrors : List (Timestamp × Fin (2 ^ 32))
  cmdPending : List Uint256

/-- A request of a client or a message of the leader. -/
inductive Input
  | ordering2 (a : Arrival)
  | consensus (msg : MsgConsensusReqCmd)

/-- The comparisons of `check_stable_point_index`: the element at the index is beyond the stable
timestamp, the one before it is not. -/
def passes (commitSet : List Entry) (stableTimestamp : Timestamp) (stableIdx : Fin (2 ^ 32)) :
    Bool :=
  decide (stableIdx.val < commitSet.length % 2 ^ 32) &&
    (commitSet[stableIdx.val]?).any (fun e => decide (stableTimestamp < e.timestamp)) &&
    decide (0 < stableIdx.val) &&
    (commitSet[stableIdx.val - 1]?).any (fun e => decide (e.timestamp ≤ stableTimestamp))

namespace Replica

variable (r : Replica)

def start (idx : ReplicaID) (stablePeriod : Fin (2 ^ 32)) : Replica :=
  { HotStuffApp.start idx stablePeriod with stablePointErrors := [], cmdPending := [] }

/-- The part of `check_stable_point_index` that moves the index up.  There is nothing to sort from
an index beyond the end. -/
def advance (std : Sorter Entry.timestamp) (stableIdx : Fin (2 ^ 32)) : Option Replica :=
  if r.stablePointIdx < stableIdx.val then
    if r.stablePointIdx ≤ r.commitSet.length then
      some { r with
        commitSet :=
          r.commitSet.take r.stablePointIdx ++ std.sort (r.commitSet.drop r.stablePointIdx)
        stablePointIdx := stableIdx.val }
    else none
  else some r

def checkStablePointIndex (std : Sorter Entry.timestamp) (stableTimestamp : Timestamp)
    (stableIdx : Fin (2 ^ 32)) : Option Replica :=
  (r.advance std stableIdx).map (fun r =>
    if passes r.commitSet stableTimestamp stableIdx then r
    else { r with stablePointErrors := r.stablePointErrors ++ [(stableTimestamp, stableIdx)] })

def onConsensusRequest (std : Sorter Entry.timestamp) (msg : MsgConsensusReqCmd) :
    Option Replica :=
  if r.idx = 1 then some r
  else
    (r.checkStablePointIndex std msg.stableTimestamp msg.stableIdx).map (fun r =>
      { r with cmdPending := r.cmdPending ++
          [msg.commitSetHash, msg.placeHolder2, msg.placeHolder3, msg.placeHolder4] })

end Replica

def Replica.step (std : Sorter Entry.timestamp) (r : Replica) : Input → Option Replica
  | .ordering2 a =>
      (r.onOrdering2Request std a).map (fun app => { r with toHotStuffApp := app })
  | .consensus msg => r.onConsensusRequest std msg

def follower (std : Sorter Entry.timestamp) (idx : ReplicaID) (stablePeriod : Fin (2 ^ 32)) :
    System Replica Input where
  init r := r = .start idx stablePeriod
  step r i r' := r.step std i = some r'

/-- The number of elements with a timestamp up to a bound. -/
def upTo (commitSet : List Entry) (t : Timestamp) : Nat :=
  commitSet.countP (fun e => decide (e.timestamp ≤ t))

/-! The check. -/

/-- The call records an error if the number of elements up to the stable timestamp is not the
index, and only then. -/
def RecordsExactly (std : Sorter Entry.timestamp) (r : Replica) (t : Timestamp)
    (k : Fin (2 ^ 32)) : Prop :=
  ∃ r', r.checkStablePointIndex std t k = some r' ∧
    r'.stablePointErrors =
      r.stablePointErrors ++ (if upTo r.commitSet t = k.val then [] else [(t, k)])

/-- The elements at the index and before it are on their sides of the stable timestamp. -/
def Beside (commitSet : List Entry) (t : Timestamp) (k : Nat) : Prop :=
  (∃ e, commitSet[k]? = some e ∧ t < e.timestamp) ∧
    ∃ e, commitSet[k - 1]? = some e ∧ e.timestamp ≤ t

def timestamps (commitSet : List Entry) : List Timestamp :=
  commitSet.map Entry.timestamp

/-- The elements at an index and before it are those that sorting would put there, as far as their
timestamps go; or else they are not in ascending order, and sorting would put equal timestamps
there, so that no stable timestamp lies between them either way. -/
def Placed (commitSet : List Entry) (k : Nat) : Prop :=
  ∃ a b, commitSet[k - 1]? = some a ∧ commitSet[k]? = some b ∧
    ((HasRank (timestamps commitSet) (k - 1) a.timestamp ∧
        HasRank (timestamps commitSet) k b.timestamp) ∨
      (b.timestamp ≤ a.timestamp ∧ ∃ v ∈ timestamps commitSet,
        HasRank (timestamps commitSet) (k - 1) v ∧ HasRank (timestamps commitSet) k v))

/-- What keeps a call exact.  The range to sort is there; an index that is not inside the commit
set is not the number looked for.  When the index grows, the elements that are not sorted again
matter only if they are all up to the stable timestamp; when it does not, nothing is sorted, and
the elements beside it have to be in their places already. -/
structure Settles (r : Replica) (t : Timestamp) (k : Fin (2 ^ 32)) : Prop where
  range : r.stablePointIdx < k.val → r.stablePointIdx ≤ r.commitSet.length
  edge : k.val = 0 ∨ r.commitSet.length % 2 ^ 32 ≤ k.val → upTo r.commitSet t ≠ k.val
  grown : r.stablePointIdx < k.val → k.val < r.commitSet.length % 2 ^ 32 →
    upTo (r.commitSet.drop r.stablePointIdx) t = k.val - r.stablePointIdx ∨
      upTo r.commitSet t = k.val →
    ∀ e ∈ r.commitSet.take r.stablePointIdx, e.timestamp ≤ t
  kept : k.val ≤ r.stablePointIdx → 0 < k.val → k.val < r.commitSet.length % 2 ^ 32 →
    Placed r.commitSet k.val

/-- An index that grows, or that is not inside the commit set. -/
def Moves (r : Replica) (k : Fin (2 ^ 32)) : Prop :=
  r.stablePointIdx < k.val ∨ k.val = 0 ∨ r.commitSet.length % 2 ^ 32 ≤ k.val

section check

variable {std : Sorter Entry.timestamp} {r r' : Replica} {t : Timestamp} {k : Fin (2 ^ 32)}

theorem passes_iff {commitSet : List Entry} : passes commitSet t k = true ↔
    k.val < commitSet.length % 2 ^ 32 ∧ 0 < k.val ∧ Beside commitSet t k.val := by
  unfold passes Beside
  simp only [Bool.and_eq_true, decide_eq_true_eq, Option.any_eq_true]
  constructor
  · rintro ⟨⟨⟨hlt, hat⟩, hpos⟩, hbefore⟩
    exact ⟨hlt, hpos, hat, hbefore⟩
  · rintro ⟨hlt, hpos, hat, hbefore⟩
    exact ⟨⟨⟨hlt, hat⟩, hpos⟩, hbefore⟩

theorem upTo_append (l l' : List Entry) : upTo (l ++ l') t = upTo l t + upTo l' t :=
  List.countP_append

theorem upTo_perm {l l' : List Entry} (h : l.Perm l') : upTo l t = upTo l' t :=
  h.countP_eq _

theorem upTo_split (l : List Entry) (n : Nat) :
    upTo l t = upTo (l.take n) t + upTo (l.drop n) t := by
  rw [← upTo_append, List.take_append_drop]

theorem upTo_eq_countP (l : List Entry) :
    upTo l t = (timestamps l).countP (fun x => decide (x ≤ t)) := by
  unfold upTo timestamps
  rw [List.countP_map]
  rfl

theorem upTo_eq_length {l : List Entry} : upTo l t = l.length ↔ ∀ e ∈ l, e.timestamp ≤ t := by
  unfold upTo
  rw [List.countP_eq_length]
  simp only [decide_eq_true_eq]

/-- The elements beside an index of a sorted part are on their sides exactly if the index is the
number of elements of that part up to the bound. -/
theorem beside_append {front tail : List Entry} {n : Nat}
    (htail : tail.Pairwise (fun x y => x.timestamp ≤ y.timestamp)) (hfront : front.length < n)
    (hn : n < (front ++ tail).length) :
    Beside (front ++ tail) t n ↔ upTo tail t = n - front.length := by
  rw [List.length_append] at hn
  have hat := List.getElem?_eq_getElem (show n - front.length < tail.length by omega)
  have hbefore := List.getElem?_eq_getElem (show n - 1 - front.length < tail.length by omega)
  unfold Beside
  rw [List.getElem?_append_right hfront.le, List.getElem?_append_right (by omega)]
  have hle := le_iff_lt_countP (t := t) htail hat
  have hle' := le_iff_lt_countP (t := t) htail hbefore
  constructor
  · rintro ⟨⟨e, he, hlt⟩, e', he', hle''⟩
    rw [hat] at he
    rw [hbefore] at he'
    cases he
    cases he'
    have hnot : ¬ n - front.length < upTo tail t := fun h => absurd (hle.mpr h) (not_le.mpr hlt)
    have hyes : n - 1 - front.length < upTo tail t := hle'.mp hle''
    omega
  · intro hcount
    refine ⟨⟨_, hat, not_le.mp (fun h => ?_)⟩, _, hbefore, hle'.mpr ?_⟩
    · have hlt : n - front.length < upTo tail t := hle.mp h
      omega
    · show _ < upTo tail t
      omega

/-- A call that does not run into undefined behaviour is exact if the comparisons agree with the
number of elements. -/
private theorem recordsExactly_of_advance {s : Replica} (hadvance : r.advance std k = some s)
    (herrors : s.stablePointErrors = r.stablePointErrors) :
    RecordsExactly std r t k ↔ (passes s.commitSet t k = true ↔ upTo r.commitSet t = k.val) := by
  unfold RecordsExactly Replica.checkStablePointIndex
  rw [hadvance, ← herrors]
  by_cases hpasses : passes s.commitSet t k = true
  · by_cases hcount : upTo r.commitSet t = k.val
    · simp [hpasses, hcount]
    · simp [hpasses, hcount]
  · by_cases hcount : upTo r.commitSet t = k.val
    · simp [hpasses, hcount]
    · simp [hpasses, hcount]

/-- After the index has grown, the comparisons look at the sorted part only. -/
theorem passes_grown (hle : r.stablePointIdx ≤ r.commitSet.length)
    (hlt : r.stablePointIdx < k.val) :
    passes (r.commitSet.take r.stablePointIdx ++ std.sort (r.commitSet.drop r.stablePointIdx)) t k =
        true ↔
      k.val < r.commitSet.length % 2 ^ 32 ∧
        upTo (r.commitSet.drop r.stablePointIdx) t = k.val - r.stablePointIdx := by
  have hperm := std.perm (r.commitSet.drop r.stablePointIdx)
  have hfront : (r.commitSet.take r.stablePointIdx).length = r.stablePointIdx :=
    List.length_take_of_le hle
  have hlength : (r.commitSet.take r.stablePointIdx ++
      std.sort (r.commitSet.drop r.stablePointIdx)).length = r.commitSet.length := by
    rw [List.length_append, hperm.length_eq, ← List.length_append, List.take_append_drop]
  rw [passes_iff, hlength]
  constructor
  · rintro ⟨hn, _, hbeside⟩
    have hin := lt_of_lt_of_le hn (Nat.mod_le _ _)
    have hcount := (beside_append (std.sorted _) (by rwa [hfront]) (by rwa [hlength])).mp hbeside
    rw [hfront, upTo_perm hperm] at hcount
    exact ⟨hn, hcount⟩
  · rintro ⟨hn, hcount⟩
    have hin := lt_of_lt_of_le hn (Nat.mod_le _ _)
    refine ⟨hn, by omega, ?_⟩
    rw [beside_append (std.sorted _) (by rwa [hfront]) (by rwa [hlength]), hfront,
      upTo_perm hperm]
    exact hcount

/-- The number of elements up to a bound is the index exactly if the bound lies between the
timestamps of the ranks before it and at it. -/
theorem upTo_eq_iff {l : List Entry} {n : Nat} {v w : Timestamp} (hn : 0 < n)
    (hv : HasRank (timestamps l) (n - 1) v) (hw : HasRank (timestamps l) n w) :
    upTo l t = n ↔ v ≤ t ∧ t < w := by
  rw [upTo_eq_countP, ← not_le, hv.le_iff, hw.le_iff]
  omega

/-- Elements in their places are beside a bound exactly if the index is the number of elements up
to it. -/
theorem Placed.beside_iff {l : List Entry} {n : Nat} (hn : 0 < n) (h : Placed l n) :
    Beside l t n ↔ upTo l t = n := by
  obtain ⟨a, b, ha, hb, hplaced⟩ := h
  have hbeside : Beside l t n ↔ a.timestamp ≤ t ∧ t < b.timestamp := by
    unfold Beside
    simp only [ha, hb, Option.some.injEq, exists_eq_left']
    exact and_comm
  rw [hbeside]
  rcases hplaced with ⟨hranka, hrankb⟩ | ⟨hle, v, _, hbefore, hat⟩
  · exact (upTo_eq_iff hn hranka hrankb).symm
  · rw [upTo_eq_iff hn hbefore hat]
    refine iff_of_false (fun hbetween => ?_) (fun hbetween => ?_)
    · exact absurd (hbetween.1.trans_lt hbetween.2) (not_lt.mpr hle)
    · exact absurd (hbetween.1.trans_lt hbetween.2) (lt_irrefl v)

/-- Elements that are beside a bound exactly if the index is the number of elements up to it, for
every bound, are in their places. -/
theorem placed_of_beside {l : List Entry} {n : Nat} (hpos : 0 < n) (hn : n < l.length)
    (h : ∀ t, Beside l t n ↔ upTo l t = n) : Placed l n := by
  have hlength : (timestamps l).length = l.length := List.length_map _
  obtain ⟨v, hv⟩ := exists_hasRank (l := timestamps l) (k := n - 1) (by omega)
  obtain ⟨w, hw⟩ := exists_hasRank (l := timestamps l) (k := n) (by omega)
  have ha := List.getElem?_eq_getElem (show n - 1 < l.length by omega)
  have hb := List.getElem?_eq_getElem hn
  refine ⟨_, _, ha, hb, ?_⟩
  generalize l[n - 1] = a at ha
  generalize l[n] = b at hb
  have hbetween : ∀ t, (a.timestamp ≤ t ∧ t < b.timestamp) ↔ (v ≤ t ∧ t < w) := by
    intro t
    rw [← upTo_eq_iff hpos hv hw, ← h t]
    unfold Beside
    simp only [ha, hb, Option.some.injEq, exists_eq_left']
    exact and_comm
  have hle : v ≤ w := hv.le hw (Nat.sub_le n 1)
  rcases hle.lt_or_eq with hlt | rfl
  · -- The bounds between them are the same, so that both ends are.
    obtain ⟨hav, hvb⟩ := (hbetween v).mpr ⟨le_rfl, hlt⟩
    have hab := hav.trans_lt hvb
    obtain ⟨hva, haw⟩ := (hbetween a.timestamp).mp ⟨le_rfl, hab⟩
    have hwb : ¬ b.timestamp < w := fun hbw =>
      absurd ((hbetween b.timestamp).mpr ⟨hvb.le, hbw⟩).2 (lt_irrefl _)
    have hbw : ¬ w < b.timestamp := fun hwb =>
      absurd ((hbetween w).mp ⟨haw.le, hwb⟩).2 (lt_irrefl _)
    refine .inl ⟨?_, ?_⟩
    · rwa [le_antisymm hav hva]
    · rwa [le_antisymm (not_lt.mp hbw) (not_lt.mp hwb)]
  · refine .inr ⟨not_lt.mp (fun hab => ?_), v, hv.mem, hv, hw⟩
    obtain ⟨hva, hav⟩ := (hbetween a.timestamp).mp ⟨le_rfl, hab⟩
    exact absurd (hva.trans_lt hav) (lt_irrefl v)

private theorem recordsExactly_grown (hgrow : r.stablePointIdx < k.val) :
    RecordsExactly std r t k ↔ Settles r t k := by
  have hsplit := upTo_split (t := t) r.commitSet r.stablePointIdx
  by_cases hrange : r.stablePointIdx ≤ r.commitSet.length
  · have hadvance : r.advance std k = some { r with
        commitSet :=
          r.commitSet.take r.stablePointIdx ++ std.sort (r.commitSet.drop r.stablePointIdx)
        stablePointIdx := k.val } := by
      unfold Replica.advance
      rw [if_pos hgrow, if_pos hrange]
    rw [recordsExactly_of_advance hadvance rfl, passes_grown hrange hgrow]
    -- The elements before the range are all up to the bound exactly if they are that many.
    have hall := upTo_eq_length (t := t) (l := r.commitSet.take r.stablePointIdx)
    rw [List.length_take_of_le hrange] at hall
    constructor
    · intro hexact
      refine ⟨fun _ => hrange, fun hedge hcount => ?_, fun _ hn hor => ?_, fun hle => ?_⟩
      · have hn := (hexact.mpr hcount).1
        omega
      · refine hall.mp ?_
        rcases hor with htail | hcount
        · have hcount := hexact.mp ⟨hn, htail⟩
          omega
        · have htail := (hexact.mpr hcount).2
          omega
      · omega
    · rintro ⟨_, hedge, hgrown, _⟩
      constructor
      · rintro ⟨hn, htail⟩
        have hfront := hall.mpr (hgrown hgrow hn (.inl htail))
        omega
      · intro hcount
        have hn : k.val < r.commitSet.length % 2 ^ 32 :=
          not_le.mp (fun hle => hedge (.inr hle) hcount)
        have hfront := hall.mpr (hgrown hgrow hn (.inr hcount))
        exact ⟨hn, by omega⟩
  · refine iff_of_false ?_ (fun hsettles => hrange (hsettles.range hgrow))
    rintro ⟨r', hcheck, _⟩
    unfold Replica.checkStablePointIndex Replica.advance at hcheck
    rw [if_pos hgrow, if_neg hrange] at hcheck
    cases hcheck

private theorem recordsExactly_kept (hgrow : ¬ r.stablePointIdx < k.val) :
    RecordsExactly std r t k ↔
      ((k.val < r.commitSet.length % 2 ^ 32 ∧ 0 < k.val ∧ Beside r.commitSet t k.val) ↔
        upTo r.commitSet t = k.val) := by
  have hadvance : r.advance std k = some r := by
    unfold Replica.advance
    rw [if_neg hgrow]
  rw [recordsExactly_of_advance hadvance rfl, passes_iff]

theorem Settles.recordsExactly (h : Settles r t k) : RecordsExactly std r t k := by
  by_cases hgrow : r.stablePointIdx < k.val
  · exact (recordsExactly_grown hgrow).mpr h
  · rw [recordsExactly_kept hgrow]
    by_cases hin : 0 < k.val ∧ k.val < r.commitSet.length % 2 ^ 32
    · rw [← (h.kept (not_lt.mp hgrow) hin.1 hin.2).beside_iff hin.1]
      exact ⟨fun hpasses => hpasses.2.2, fun hbeside => ⟨hin.2, hin.1, hbeside⟩⟩
    · refine iff_of_false (fun hpasses => hin ⟨hpasses.2.1, hpasses.1⟩) (h.edge ?_)
      omega

/-- For an index that grows, or that is not inside the commit set, no other call is. -/
theorem settles_of_recordsExactly (hmoves : Moves r k) (h : RecordsExactly std r t k) :
    Settles r t k := by
  by_cases hgrow : r.stablePointIdx < k.val
  · exact (recordsExactly_grown hgrow).mp h
  · have hedge : k.val = 0 ∨ r.commitSet.length % 2 ^ 32 ≤ k.val := hmoves.resolve_left hgrow
    rw [recordsExactly_kept hgrow] at h
    refine ⟨fun hlt => absurd hlt hgrow, fun _ hcount => ?_, fun hlt => absurd hlt hgrow,
      fun _ hpos hn => ?_⟩
    · obtain ⟨hn, hpos, _⟩ := h.mpr hcount
      omega
    · omega

/-- An index all of whose calls are exact meets the condition for every stable timestamp. -/
theorem settles_of_forall (h : ∀ t, RecordsExactly std r t k) (t : Timestamp) :
    Settles r t k := by
  by_cases hmoves : Moves r k
  · exact settles_of_recordsExactly hmoves (h t)
  · unfold Moves at hmoves
    have hpos : 0 < k.val := by omega
    have hn : k.val < r.commitSet.length % 2 ^ 32 := by omega
    have hplaced : Placed r.commitSet k.val := by
      refine placed_of_beside hpos (hn.trans_le (Nat.mod_le _ _)) (fun t => ?_)
      rw [← (recordsExactly_kept (by omega)).mp (h t)]
      exact ⟨fun hbeside => ⟨hn, hpos, hbeside⟩, fun hpasses => hpasses.2.2⟩
    exact ⟨fun hlt => by omega, fun hedge => by omega, fun hlt => by omega, fun _ _ _ => hplaced⟩

end check

/-! Runs. -/

section step

variable {std : Sorter Entry.timestamp} {r r' : Replica} {k : Fin (2 ^ 32)}

/-- Moving the index up leaves all as it is, or sorts what is beyond the old index. -/
theorem advance_cases (h : r.advance std k = some r') :
    (k.val ≤ r.stablePointIdx ∧ r' = r) ∨
      r.stablePointIdx < k.val ∧ r.stablePointIdx ≤ r.commitSet.length ∧ r' = { r with
        commitSet :=
          r.commitSet.take r.stablePointIdx ++ std.sort (r.commitSet.drop r.stablePointIdx)
        stablePointIdx := k.val } := by
  unfold Replica.advance at h
  split at h
  · rename_i hlt
    split at h
    · rename_i hle
      cases h
      exact .inr ⟨hlt, hle, rfl⟩
    · cases h
  · rename_i hge
    cases h
    exact .inl ⟨not_lt.mp hge, rfl⟩

theorem commitSet_advance (h : r.advance std k = some r') : r'.commitSet.Perm r.commitSet := by
  rcases advance_cases h with ⟨_, rfl⟩ | ⟨_, _, rfl⟩
  · exact .refl _
  · have hperm := (std.perm (r.commitSet.drop r.stablePointIdx)).append_left
      (r.commitSet.take r.stablePointIdx)
    rw [List.take_append_drop] at hperm
    exact hperm

theorem stablePointIdx_advance (h : r.advance std k = some r') :
    r'.stablePointIdx = max r.stablePointIdx k.val := by
  rcases advance_cases h with ⟨hle, rfl⟩ | ⟨hlt, _, rfl⟩
  · exact (max_eq_left hle).symm
  · exact (max_eq_right hlt.le).symm

theorem idx_advance (h : r.advance std k = some r') : r'.idx = r.idx := by
  rcases advance_cases h with ⟨_, rfl⟩ | ⟨_, _, rfl⟩ <;> rfl

theorem stablePoint_advance (h : r.advance std k = some r') : r'.stablePoint = r.stablePoint := by
  rcases advance_cases h with ⟨_, rfl⟩ | ⟨_, _, rfl⟩ <;> rfl

/-- A message of the leader moves the index up, may add an error and adds its commands. -/
theorem onConsensusRequest_cases {msg : MsgConsensusReqCmd} (hidx : r.idx ≠ 1)
    (h : r.onConsensusRequest std msg = some r') :
    ∃ s errors, r.advance std msg.stableIdx = some s ∧
      r.checkStablePointIndex std msg.stableTimestamp msg.stableIdx =
        some { s with stablePointErrors := errors } ∧
      r' = { s with
        stablePointErrors := errors
        cmdPending := s.cmdPending ++
          [msg.commitSetHash, msg.placeHolder2, msg.placeHolder3, msg.placeHolder4] } := by
  unfold Replica.onConsensusRequest at h
  rw [if_neg hidx] at h
  obtain ⟨t, hcheck, rfl⟩ := Option.map_eq_some_iff.mp h
  have hcheck' := hcheck
  unfold Replica.checkStablePointIndex at hcheck'
  obtain ⟨s, hadvance, rfl⟩ := Option.map_eq_some_iff.mp hcheck'
  split at hcheck
  · exact ⟨s, s.stablePointErrors, hadvance, hcheck, by split <;> trivial⟩
  · exact ⟨s, _, hadvance, hcheck, by split <;> trivial⟩

theorem step_ordering2 {a : Arrival} (hidx : r.idx ≠ 1) (hpoint : r.stablePoint = 0) :
    r.step std (.ordering2 a) = some { r with commitSet := r.commitSet ++ [a.entry] } := by
  have hreq : r.onOrdering2Request std a =
      some { r.toHotStuffApp with commitSet := r.commitSet ++ [a.entry] } := by
    have hlate : ¬ a.timestamp < r.stablePoint := hpoint ▸ Fin.not_lt_zero _
    unfold HotStuffApp.onOrdering2Request
    rw [if_neg hlate]
    exact if_pos hidx
  show (r.onOrdering2Request std a).map _ = _
  rw [hreq]
  rfl

end step

/-- The conditions under which all calls are exact, along a run. -/
def Settled (r : Replica) : Input → Prop
  | .consensus msg => Settles r msg.stableTimestamp msg.stableIdx
  | .ordering2 _ => True

/-- The errors a run calls for: those of the messages whose index is not the number of requests
received so far with a timestamp up to the stable one. -/
def errorsDue : List Entry → List Input → List (Timestamp × Fin (2 ^ 32))
  | _, [] => []
  | received, .ordering2 a :: inputs => errorsDue (received ++ [a.entry]) inputs
  | received, .consensus msg :: inputs =>
      (if upTo received msg.stableTimestamp = msg.stableIdx.val then []
        else [(msg.stableTimestamp, msg.stableIdx)]) ++ errorsDue received inputs

instance (l : List Timestamp) (k : Nat) (v : Timestamp) : Decidable (HasRank l k v) :=
  decidable_of_iff (v ∈ l ∧ l.countP (fun x => decide (x < v)) ≤ k ∧
      k < l.countP (fun x => decide (x ≤ v)))
    ⟨fun ⟨hmem, hbelow, hupto⟩ => ⟨hmem, hbelow, hupto⟩,
      fun ⟨hmem, hbelow, hupto⟩ => ⟨hmem, hbelow, hupto⟩⟩

instance (commitSet : List Entry) (k : Nat) : Decidable (Placed commitSet k) :=
  match ha : commitSet[k - 1]?, hb : commitSet[k]? with
  | some a, some b =>
      let := List.decidableBEx (fun v => HasRank (timestamps commitSet) (k - 1) v ∧
        HasRank (timestamps commitSet) k v) (timestamps commitSet)
      decidable_of_iff ((HasRank (timestamps commitSet) (k - 1) a.timestamp ∧
          HasRank (timestamps commitSet) k b.timestamp) ∨
        (b.timestamp ≤ a.timestamp ∧ ∃ v ∈ timestamps commitSet,
          HasRank (timestamps commitSet) (k - 1) v ∧ HasRank (timestamps commitSet) k v))
        ⟨fun h => ⟨a, b, ha, hb, h⟩, fun ⟨_, _, ha', hb', h⟩ =>
          Option.some.inj (ha.symm.trans ha') ▸ Option.some.inj (hb.symm.trans hb') ▸ h⟩
  | none, _ => isFalse (fun ⟨_, _, ha', _, _⟩ => nomatch ha.symm.trans ha')
  | _, none => isFalse (fun ⟨_, _, _, hb', _⟩ => nomatch hb.symm.trans hb')

instance (r : Replica) (t : Timestamp) (k : Fin (2 ^ 32)) : Decidable (Settles r t k) :=
  decidable_of_iff ((r.stablePointIdx < k.val → r.stablePointIdx ≤ r.commitSet.length) ∧
    (k.val = 0 ∨ r.commitSet.length % 2 ^ 32 ≤ k.val → upTo r.commitSet t ≠ k.val) ∧
    (r.stablePointIdx < k.val → k.val < r.commitSet.length % 2 ^ 32 →
      upTo (r.commitSet.drop r.stablePointIdx) t = k.val - r.stablePointIdx ∨
        upTo r.commitSet t = k.val →
      ∀ e ∈ r.commitSet.take r.stablePointIdx, e.timestamp ≤ t) ∧
    (k.val ≤ r.stablePointIdx → 0 < k.val → k.val < r.commitSet.length % 2 ^ 32 →
      Placed r.commitSet k.val))
    ⟨fun ⟨hrange, hedge, hgrown, hkept⟩ => ⟨hrange, hedge, hgrown, hkept⟩,
      fun ⟨hrange, hedge, hgrown, hkept⟩ => ⟨hrange, hedge, hgrown, hkept⟩⟩

instance (std : Sorter Entry.timestamp) (r : Replica) (t : Timestamp) (k : Fin (2 ^ 32)) :
    Decidable (RecordsExactly std r t k) :=
  decidable_of_iff ((r.checkStablePointIndex std t k).any (fun r' =>
      decide (r'.stablePointErrors = r.stablePointErrors ++
        (if upTo r.commitSet t = k.val then [] else [(t, k)]))) = true) (by
    unfold RecordsExactly
    simp only [Option.any_eq_true, decide_eq_true_eq])

instance (r : Replica) (i : Input) : Decidable (Settled r i) :=
  match i with
  | .ordering2 _ => isTrue trivial
  | .consensus msg => inferInstanceAs (Decidable (Settles r msg.stableTimestamp msg.stableIdx))

section runs

variable {std : Sorter Entry.timestamp} {idx : ReplicaID} {stablePeriod : Fin (2 ^ 32)}
  {r r' : Replica}

private theorem errors_of_execute {inputs : List Input} {received : List Entry}
    (hidx : r.idx ≠ 1) (hpoint : r.stablePoint = 0) (hperm : r.commitSet.Perm received)
    (h : execute (guarded Settled (Replica.step std)) inputs r = some r') :
    r'.stablePointErrors = r.stablePointErrors ++ errorsDue received inputs := by
  induction inputs generalizing r received with
  | nil =>
      cases h
      exact (List.append_nil _).symm
  | cons i inputs ih =>
      obtain ⟨s, hs, hrest⟩ := Option.bind_eq_some_iff.mp h
      obtain ⟨hok, hstep⟩ := guarded_eq_some hs
      cases i with
      | ordering2 a =>
          rw [step_ordering2 hidx hpoint] at hstep
          cases hstep
          have hperm' := hperm.append_right [a.entry]
          exact ih (r := { r with commitSet := r.commitSet ++ [a.entry] }) hidx hpoint hperm' hrest
      | consensus msg =>
          obtain ⟨t, errors, hadvance, hcheck, rfl⟩ := onConsensusRequest_cases hidx hstep
          obtain ⟨t', hcheck', herrors⟩ := Settles.recordsExactly hok
          rw [hcheck] at hcheck'
          cases hcheck'
          have hidx' : t.idx ≠ 1 := by
            rw [idx_advance hadvance]
            exact hidx
          have hpoint' : t.stablePoint = 0 := (stablePoint_advance hadvance).trans hpoint
          have hperm' : t.commitSet.Perm received := (commitSet_advance hadvance).trans hperm
          rw [upTo_perm hperm] at herrors
          refine (ih (r := { t with stablePointErrors := errors, cmdPending := _ }) hidx' hpoint'
            hperm' hrest).trans ?_
          show errors ++ _ = _
          rw [show errors = _ from herrors, List.append_assoc]
          rfl

/-- In every reachable state the calls that meet the condition are exact, and no others when the
index grows or is not inside the commit set; an index all of whose calls are exact meets it for
every stable timestamp.  A run all of whose calls meet it records the errors that are due. -/
theorem check_exact (hidx : idx ≠ 1) :
    (∀ r, Reachable (follower std idx stablePeriod) r → ∀ k,
      (∀ t, Settles r t k → RecordsExactly std r t k) ∧
      (Moves r k → ∀ t, RecordsExactly std r t k → Settles r t k) ∧
      ((∀ t, RecordsExactly std r t k) ↔ ∀ t, Settles r t k)) ∧
    ∀ inputs r, execute (guarded Settled (Replica.step std)) inputs (.start idx stablePeriod) =
      some r → r.stablePointErrors = errorsDue [] inputs :=
  ⟨fun _ _ _ => ⟨fun _ h => h.recordsExactly,
      fun hmoves _ h => settles_of_recordsExactly hmoves h,
      settles_of_forall, fun h t => (h t).recordsExactly⟩,
    fun _ _ h => errors_of_execute hidx rfl .nil h⟩

/-- Two requests, an index that is right, and a request that comes too late for it. -/
def lateInputs : List Input :=
  [.ordering2 ⟨1, 10, 0, 0⟩, .ordering2 ⟨2, 90, 0, 0⟩, .consensus ⟨0, 50, 1, 0, 0, 0⟩,
    .ordering2 ⟨3, 30, 0, 0⟩]

/-- An index that comes again for a later timestamp passes; an index of zero for a timestamp that
covers a request is an error. -/
theorem check_exact_late : ∃ r, execute (guarded Settled (Replica.step (.insertion _)))
    (lateInputs.take 3 ++ [.consensus ⟨0, 60, 1, 0, 0, 0⟩, .consensus ⟨0, 70, 0, 0, 0, 0⟩])
      (.start 2 1) = some r ∧ r.stablePointErrors = [(70, 0)] := by
  have hrun : (execute (guarded Settled (Replica.step (.insertion _)))
      (lateInputs.take 3 ++ [.consensus ⟨0, 60, 1, 0, 0, 0⟩, .consensus ⟨0, 70, 0, 0, 0, 0⟩])
      (.start 2 1)).isSome = true := by
    decide +kernel
  obtain ⟨r, hr⟩ := Option.isSome_iff_exists.mp hrun
  exact ⟨r, hr, (check_exact (show (2 : ReplicaID) ≠ 1 by decide)).2 _ r hr⟩

def lateReplica : Replica :=
  (execute (Replica.step (.insertion _)) lateInputs (.start 2 1)).get (by decide +kernel)

theorem lateReplica_reachable : Reachable (follower (.insertion _) 2 1) lateReplica :=
  Reachable.trans (.init rfl) (steps_of_execute (fun _ _ _ h => h) (Option.some_get _).symm)

/-- The index that has become wrong still passes; the number of all requests fails although it is
right, as does zero. -/
theorem wrong_index_passes : Reachable (follower (.insertion _) 2 1) lateReplica ∧
    (upTo lateReplica.commitSet 50 = 2 ∧ ¬ RecordsExactly (.insertion _) lateReplica 50 1) ∧
    (upTo lateReplica.commitSet 90 = 3 ∧ ¬ RecordsExactly (.insertion _) lateReplica 90 3) ∧
    upTo lateReplica.commitSet 5 = 0 ∧ ¬ RecordsExactly (.insertion _) lateReplica 5 0 := by
  refine ⟨lateReplica_reachable, ⟨?_, ?_⟩, ⟨?_, ?_⟩, ?_, ?_⟩ <;> decide +kernel

/-! The index inside the commit set. -/

/-- The leader's index is not beyond the requests that this replica has. -/
def Covered (r : Replica) : Input → Prop
  | .consensus msg => msg.stableIdx.val ≤ r.commitSet.length
  | .ordering2 _ => True

theorem follower_idx (hidx : idx ≠ 1) (h : Reachable (follower std idx stablePeriod) r) :
    r.idx ≠ 1 ∧ r.stablePoint = 0 := by
  refine Reachable.invariant (I := fun r => r.idx ≠ 1 ∧ r.stablePoint = 0) h ?_ ?_
  · rintro r rfl
    exact ⟨hidx, rfl⟩
  · intro r i r' _ hok hstep
    cases i with
    | ordering2 a =>
        have hadd := (step_ordering2 hok.1 hok.2).symm.trans hstep
        cases hadd
        exact hok
    | consensus msg =>
        obtain ⟨s, errors, hadvance, _, rfl⟩ := onConsensusRequest_cases hok.1 hstep
        refine ⟨?_, (stablePoint_advance hadvance).trans hok.2⟩
        rw [← idx_advance hadvance] at hok
        exact hok.1

/-- From an index inside the commit set, a step ends inside exactly if the message is covered. -/
private theorem inside_step_iff {i : Input} (hidx : r.idx ≠ 1) (hpoint : r.stablePoint = 0)
    (hin : r.stablePointIdx ≤ r.commitSet.length) (hstep : r.step std i = some r') :
    r'.stablePointIdx ≤ r'.commitSet.length ↔ Covered r i := by
  cases i with
  | ordering2 a =>
      rw [step_ordering2 hidx hpoint] at hstep
      cases hstep
      refine iff_of_true (hin.trans ?_) trivial
      rw [List.length_append]
      exact Nat.le_add_right _ _
  | consensus msg =>
      obtain ⟨s, errors, hadvance, _, rfl⟩ := onConsensusRequest_cases hidx hstep
      show s.stablePointIdx ≤ s.commitSet.length ↔ _
      rw [stablePointIdx_advance hadvance, (commitSet_advance hadvance).length_eq, sup_le_iff]
      exact and_iff_right hin

/-- While the leader's messages are covered, the index stays inside the commit set, so that there
is a range to sort; the first that is not covered moves it outside. -/
theorem stable_idx_inside (hidx : idx ≠ 1)
    (h : Reachable ((follower std idx stablePeriod).restrict Covered) r) :
    r.stablePointIdx ≤ r.commitSet.length ∧ (∀ i, (r.step std i).isSome = true) ∧
      ∀ i r', r.step std i = some r' →
        (r'.stablePointIdx ≤ r'.commitSet.length ↔ Covered r i) := by
  obtain ⟨hidx', hpoint⟩ := follower_idx hidx h.of_restrict
  have hin : r.stablePointIdx ≤ r.commitSet.length := by
    refine (show r.stablePointIdx ≤ r.commitSet.length from
      Reachable.invariant (I := fun r => r.stablePointIdx ≤ r.commitSet.length) h ?_ ?_)
    · rintro r rfl
      exact le_rfl
    · intro s i s' hs hle hstep
      obtain ⟨hidx'', hpoint'⟩ := follower_idx hidx hs.of_restrict
      exact (inside_step_iff hidx'' hpoint' hle hstep.2).mpr hstep.1
  refine ⟨hin, fun i => ?_, fun i r' hstep => inside_step_iff hidx' hpoint hin hstep⟩
  cases i with
  | ordering2 a =>
      rw [step_ordering2 hidx' hpoint]
      rfl
  | consensus msg =>
      show (r.onConsensusRequest std msg).isSome = true
      have hadvance : (r.advance std msg.stableIdx).isSome = true := by
        unfold Replica.advance
        rw [if_pos hin]
        split <;> rfl
      unfold Replica.onConsensusRequest Replica.checkStablePointIndex
      rw [if_neg hidx', Option.isSome_map, Option.isSome_map]
      exact hadvance

instance (r : Replica) (i : Input) : Decidable (Covered r i) :=
  match i with
  | .ordering2 _ => isTrue trivial
  | .consensus msg => inferInstanceAs (Decidable (msg.stableIdx.val ≤ r.commitSet.length))

/-- All messages that the late replica has received were covered. -/
theorem stable_idx_inside_late :
    ∃ r, execute (guarded Covered (Replica.step (.insertion _))) lateInputs (.start 2 1) = some r ∧
      r.stablePointIdx ≤ r.commitSet.length := by
  have hrun : (execute (guarded Covered (Replica.step (.insertion _))) lateInputs
      (.start 2 1)).isSome = true := by decide +kernel
  obtain ⟨r, hr⟩ := Option.isSome_iff_exists.mp hrun
  have hsteps : Steps ((follower (.insertion Entry.timestamp) 2 1).restrict Covered)
      (.start 2 1) r :=
    steps_of_execute (fun _ _ _ h => guarded_eq_some h) hr
  exact ⟨r, hr, (stable_idx_inside (show (2 : ReplicaID) ≠ 1 by decide)
    (Reachable.trans (.init rfl) hsteps)).1⟩

/-- A replica that has no requests yet, while the leader has five. -/
def aheadReplica : Replica :=
  (execute (Replica.step (.insertion _)) [.consensus ⟨0, 50, 5, 0, 0, 0⟩] (.start 2 1)).get
    (by decide +kernel)

/-- The index is beyond the end, and the next message sorts from there. -/
theorem idx_beyond_end : Reachable (follower (.insertion _) 2 1) aheadReplica ∧
    aheadReplica.stablePointIdx = 5 ∧ aheadReplica.commitSet.length = 0 ∧
    (aheadReplica.step (.insertion _) (.consensus ⟨0, 60, 6, 0, 0, 0⟩)).isNone = true := by
  refine ⟨?_, by decide +kernel, by decide +kernel, by decide +kernel⟩
  exact Reachable.trans (.init rfl) (steps_of_execute (fun _ _ _ h => h) (Option.some_get _).symm)

end runs

end ArchipelagoHotStuff.Archipelago.Follower
