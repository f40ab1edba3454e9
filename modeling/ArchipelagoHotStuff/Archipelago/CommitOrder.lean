/- Module: ArchipelagoHotStuff/Archipelago/CommitOrder
   source: hotstuff.cpp (check_stable_point_index), hotstuff.h (commit_set_cmp)
   digest: Two replicas that get the same requests in different orders, and when they agree on the
     order of the stable ones. -/

import ArchipelagoHotStuff.Archipelago.Follower

set_option autoImplicit false
set_option relaxedAutoImplicit false

namespace ArchipelagoHotStuff.Archipelago.CommitOrder

open Crypto.Wire General.Sorting General.Transition Leader Follower

/-- Two replicas. -/
structure Pair where
  left : Replica
  right : Replica

/-- A request arrives at one of the replicas, or both handle the same message of the leader. -/
inductive Event
  | left (a : Arrival)
  | right (a : Arrival)
  | both (msg : MsgConsensusReqCmd)

/-- What happens to the pair.  Messages that either replica finds in error are left out. -/
def Pair.step (std : Sorter Entry.timestamp) (p : Pair) : Event → Option Pair
  | .left a => (p.left.step std (.ordering2 a)).map (fun r => { p with left := r })
  | .right a => (p.right.step std (.ordering2 a)).map (fun r => { p with right := r })
  | .both msg =>
      (p.left.step std (.consensus msg)).bind (fun left =>
        (p.right.step std (.consensus msg)).bind (fun right =>
          if left.stablePointErrors = p.left.stablePointErrors ∧
              right.stablePointErrors = p.right.stablePointErrors then some ⟨left, right⟩
          else none))

def pair (std : Sorter Entry.timestamp) (i j : ReplicaID) (stablePeriod : Fin (2 ^ 32)) :
    System Pair Event where
  init p := p = ⟨.start i stablePeriod, .start j stablePeriod⟩
  step p e p' := p.step std e = some p'

/-- The command and the timestamp of a request. -/
abbrev Request := Uint256 × Timestamp

def requests (commitSet : List Entry) : List Request :=
  commitSet.map (fun e => (e.cmdHash, e.timestamp))

def coveredBy (t : Timestamp) (commitSet : List Entry) : List Request :=
  (requests commitSet).filter (fun q => decide (q.2 ≤ t))

/-- When a message moves the index up, both replicas hold the same requests up to its stable
timestamp. -/
def Alike (p : Pair) : Event → Prop
  | .both msg => p.left.stablePointIdx < msg.stableIdx.val →
      (coveredBy msg.stableTimestamp p.left.commitSet).Perm
        (coveredBy msg.stableTimestamp p.right.commitSet)
  | .left _ | .right _ => True

/-- No two commands share a timestamp. -/
def Untied (commitSet : List Entry) : Prop :=
  ∀ x ∈ requests commitSet, ∀ y ∈ requests commitSet, x.2 = y.2 → x = y

/-- The replicas agree on the stable part of their commit sets. -/
structure Agree (p : Pair) : Prop where
  idx_eq : p.left.stablePointIdx = p.right.stablePointIdx
  left_le : p.left.stablePointIdx ≤ p.left.commitSet.length
  right_le : p.right.stablePointIdx ≤ p.right.commitSet.length
  stable : requests (p.left.commitSet.take p.left.stablePointIdx) =
    requests (p.right.commitSet.take p.right.stablePointIdx)

section order

variable {std : Sorter Entry.timestamp} {t : Timestamp} {l l' : List Entry}

theorem requests_append (l l' : List Entry) : requests (l ++ l') = requests l ++ requests l' :=
  List.map_append

theorem requests_perm (h : l.Perm l') : (requests l).Perm (requests l') :=
  h.map _

theorem coveredBy_append (l l' : List Entry) :
    coveredBy t (l ++ l') = coveredBy t l ++ coveredBy t l' := by
  unfold coveredBy
  rw [requests_append, List.filter_append]

theorem coveredBy_perm (h : l.Perm l') : (coveredBy t l).Perm (coveredBy t l') :=
  (requests_perm h).filter _

theorem Untied.subset (h : Untied l) (hsub : l' ⊆ l) : Untied l' := by
  have hsub' : requests l' ⊆ requests l := List.map_subset _ hsub
  exact fun x hx y hy => h x (hsub' hx) y (hsub' hy)

theorem requests_sorted (m : List Entry) :
    (requests (std.sort m)).Pairwise (fun x y => x.2 ≤ y.2) :=
  List.pairwise_map.mpr (std.sorted m)

theorem requests_sort_eq (std : Sorter Entry.timestamp) (hperm : (requests l).Perm (requests l'))
    (huntied : Untied l) :
    requests (std.sort l) = requests (std.sort l') := by
  have hsort : ∀ m : List Entry, (requests (std.sort m)).Perm (requests m) :=
    fun m => requests_perm (std.perm m)
  refine sorted_unique (requests_sorted l) (requests_sorted l')
    ((hsort l).trans (hperm.trans (hsort l').symm)) ?_
  intro x hx y hy
  exact huntied x ((hsort l).subset hx) y ((hsort l).subset hy)

theorem requests_take_sort :
    requests ((std.sort l).take (upTo l t)) = coveredBy t (std.sort l) := by
  rw [← upTo_perm (std.perm l)]
  unfold upTo coveredBy requests
  rw [take_countP_eq_filter (std.sorted l), List.filter_map]
  rfl

/-- Without ties, sorting puts the same requests up to a timestamp into the same order, whatever
else there is. -/
theorem coveredBy_sort_eq (std : Sorter Entry.timestamp)
    (hperm : (coveredBy t l).Perm (coveredBy t l')) (huntied : Untied l) :
    coveredBy t (std.sort l) = coveredBy t (std.sort l') := by
  have hsort : ∀ m : List Entry, (coveredBy t (std.sort m)).Perm (coveredBy t m) :=
    fun m => coveredBy_perm (std.perm m)
  have hmem : ∀ x ∈ coveredBy t (std.sort l), x ∈ requests l :=
    fun x hx => (List.mem_filter.mp ((hsort l).subset hx)).1
  refine sorted_unique ((requests_sorted l).filter _) ((requests_sorted l').filter _)
    ((hsort l).trans (hperm.trans (hsort l').symm)) ?_
  intro x hx y hy
  exact huntied x (hmem x hx) y (hmem y hy)

end order

section agree

variable {std : Sorter Entry.timestamp} {i j : ReplicaID} {stablePeriod : Fin (2 ^ 32)}
  {r r' : Replica} {p p' : Pair} {msg : MsgConsensusReqCmd}

private theorem step_both (h : p.step std (.both msg) = some p') :
    ∃ left, p.left.onConsensusRequest std msg = some left ∧
      ∃ right, p.right.onConsensusRequest std msg = some right ∧
        left.stablePointErrors = p.left.stablePointErrors ∧
        right.stablePointErrors = p.right.stablePointErrors ∧ p' = ⟨left, right⟩ := by
  obtain ⟨left, hleft, h⟩ := Option.bind_eq_some_iff.mp h
  obtain ⟨right, hright, h⟩ := Option.bind_eq_some_iff.mp h
  split at h
  · rename_i herrors
    cases h
    exact ⟨left, hleft, right, hright, herrors.1, herrors.2, rfl⟩
  · cases h

/-- A message without error either changes nothing or finds what is new in the stable part. -/
private theorem silent_cases (hidx : r.idx ≠ 1) (h : r.onConsensusRequest std msg = some r')
    (hsilent : r'.stablePointErrors = r.stablePointErrors) :
    (msg.stableIdx.val ≤ r.stablePointIdx ∧ r'.commitSet = r.commitSet ∧
        r'.stablePointIdx = r.stablePointIdx) ∨
      r.stablePointIdx < msg.stableIdx.val ∧ msg.stableIdx.val ≤ r.commitSet.length ∧
        upTo (r.commitSet.drop r.stablePointIdx) msg.stableTimestamp =
          msg.stableIdx.val - r.stablePointIdx ∧
        r'.commitSet = r.commitSet.take r.stablePointIdx ++
          std.sort (r.commitSet.drop r.stablePointIdx) ∧
        r'.stablePointIdx = msg.stableIdx.val := by
  obtain ⟨s, errors, hadvance, hcheck, rfl⟩ := onConsensusRequest_cases hidx h
  unfold Replica.checkStablePointIndex at hcheck
  rw [hadvance] at hcheck
  rcases advance_cases hadvance with ⟨hle, rfl⟩ | ⟨hlt, hle, rfl⟩
  · exact .inl ⟨hle, rfl, rfl⟩
  · by_cases hpasses : passes (r.commitSet.take r.stablePointIdx ++
        std.sort (r.commitSet.drop r.stablePointIdx)) msg.stableTimestamp msg.stableIdx = true
    · obtain ⟨hn, hcount⟩ := (passes_grown hle hlt).mp hpasses
      exact .inr ⟨hlt, hn.le.trans (Nat.mod_le _ _), hcount, rfl, rfl⟩
    · -- An error has been recorded.
      have hrecorded : errors = r.stablePointErrors ++
          [(msg.stableTimestamp, msg.stableIdx)] := by
        have heq := Option.some.inj hcheck
        dsimp only at heq
        rw [if_neg hpasses] at heq
        exact (congrArg Replica.stablePointErrors heq).symm
      have hlength := congrArg List.length (hrecorded.symm.trans hsilent)
      rw [List.length_append] at hlength
      exact absurd hlength (Nat.succ_ne_self _)

private theorem pair_ok (hi : i ≠ 1) (hj : j ≠ 1)
    (h : Reachable (pair std i j stablePeriod) p) :
    (p.left.idx ≠ 1 ∧ p.left.stablePoint = 0) ∧ p.right.idx ≠ 1 ∧ p.right.stablePoint = 0 := by
  have hboth : Reachable (follower std i stablePeriod) p.left ∧
      Reachable (follower std j stablePeriod) p.right := by
    refine Reachable.invariant (I := fun p => Reachable (follower std i stablePeriod) p.left ∧
      Reachable (follower std j stablePeriod) p.right) h ?_ ?_
    · rintro p rfl
      exact ⟨.init rfl, .init rfl⟩
    · intro p e p' _ hok hstep
      cases e with
      | left a =>
          obtain ⟨r, hr, rfl⟩ := Option.map_eq_some_iff.mp hstep
          exact ⟨hok.1.step hr, hok.2⟩
      | right a =>
          obtain ⟨r, hr, rfl⟩ := Option.map_eq_some_iff.mp hstep
          exact ⟨hok.1, hok.2.step hr⟩
      | both msg =>
          obtain ⟨r, hr, s, hs, _, _, rfl⟩ := step_both hstep
          exact ⟨hok.1.step (a := .consensus msg) hr, hok.2.step (a := .consensus msg) hs⟩
  exact ⟨follower_idx hi hboth.1, follower_idx hj hboth.2⟩

/-- What a message without error leaves of the requests, and what it makes stable. -/
private theorem stable_grown {front tail : List Entry} {n : Nat}
    (hcount : upTo tail msg.stableTimestamp = n - front.length) (hn : front.length ≤ n) :
    requests ((front ++ std.sort tail).take n) =
      requests front ++ coveredBy msg.stableTimestamp (std.sort tail) := by
  rw [List.take_append, List.take_of_length_le hn, requests_append, ← hcount,
    requests_take_sort]

private theorem Agree.left (h : Agree p) (e : Entry) :
    Agree { p with left := { p.left with commitSet := p.left.commitSet ++ [e] } } := by
  refine ⟨h.idx_eq, ?_, h.right_le, ?_⟩
  · show _ ≤ (p.left.commitSet ++ [e]).length
    rw [List.length_append]
    exact h.left_le.trans (Nat.le_add_right _ _)
  · show requests ((p.left.commitSet ++ [e]).take _) = _
    rw [List.take_append_of_le_length h.left_le]
    exact h.stable

private theorem Agree.right (h : Agree p) (e : Entry) :
    Agree { p with right := { p.right with commitSet := p.right.commitSet ++ [e] } } := by
  refine ⟨h.idx_eq, h.left_le, ?_, ?_⟩
  · show _ ≤ (p.right.commitSet ++ [e]).length
    rw [List.length_append]
    exact h.right_le.trans (Nat.le_add_right _ _)
  · show _ = requests ((p.right.commitSet ++ [e]).take _)
    rw [List.take_append_of_le_length h.right_le]
    exact h.stable

/-- The requests up to a timestamp that are not stable yet are the same if all are. -/
private theorem coveredBy_drop (h : Agree p) {t : Timestamp}
    (hperm : (coveredBy t p.left.commitSet).Perm (coveredBy t p.right.commitSet)) :
    (coveredBy t (p.left.commitSet.drop p.left.stablePointIdx)).Perm
      (coveredBy t (p.right.commitSet.drop p.right.stablePointIdx)) := by
  have hstable : coveredBy t (p.left.commitSet.take p.left.stablePointIdx) =
      coveredBy t (p.right.commitSet.take p.right.stablePointIdx) := by
    unfold coveredBy
    rw [h.stable]
  rw [← List.take_append_drop p.left.stablePointIdx p.left.commitSet,
    ← List.take_append_drop p.right.stablePointIdx p.right.commitSet, coveredBy_append,
    coveredBy_append, hstable] at hperm
  exact (List.perm_append_left_iff _).mp hperm

private theorem Agree.both (h : Agree p) (hleft : p.left.idx ≠ 1) (hright : p.right.idx ≠ 1)
    (huntied : Untied p.left.commitSet) (halike : Alike p (.both msg))
    (hstep : p.step std (.both msg) = some p') : Agree p' := by
  obtain ⟨left, hl, right, hr, hls, hrs, rfl⟩ := step_both hstep
  rcases silent_cases hleft hl hls with ⟨hle, hlset, hlidx⟩ |
      ⟨hlt, hllen, hlcount, hlset, hlidx⟩ <;>
    rcases silent_cases hright hr hrs with ⟨hle', hrset, hridx⟩ |
      ⟨hlt', hrlen, hrcount, hrset, hridx⟩
  · refine ⟨?_, ?_, ?_, ?_⟩
    · exact hlidx.trans (h.idx_eq.trans hridx.symm)
    · exact hlidx.trans_le (h.left_le.trans_eq (congrArg List.length hlset.symm))
    · exact hridx.trans_le (h.right_le.trans_eq (congrArg List.length hrset.symm))
    · show requests (left.commitSet.take left.stablePointIdx) = _
      rw [hlset, hlidx, h.stable, ← hrset, ← hridx]
  · exact absurd (hle.trans_eq h.idx_eq) (not_le.mpr hlt')
  · exact absurd (hle'.trans_eq h.idx_eq.symm) (not_le.mpr hlt)
  · have hlfront := List.length_take_of_le h.left_le
    have hrfront := List.length_take_of_le h.right_le
    have hsort := coveredBy_sort_eq std (coveredBy_drop h (halike hlt))
      (huntied.subset (List.drop_subset _ _))
    have hlength : ∀ (l : List Entry) (n : Nat),
        (l.take n ++ std.sort (l.drop n)).length = l.length := by
      intro l n
      rw [List.length_append, (std.perm _).length_eq, ← List.length_append,
        List.take_append_drop]
    refine ⟨hlidx.trans hridx.symm, ?_, ?_, ?_⟩
    · show left.stablePointIdx ≤ left.commitSet.length
      rw [hlidx, hlset, hlength]
      exact hllen
    · show right.stablePointIdx ≤ right.commitSet.length
      rw [hridx, hrset, hlength]
      exact hrlen
    · show requests (left.commitSet.take left.stablePointIdx) =
        requests (right.commitSet.take right.stablePointIdx)
      rw [hlidx, hridx, hlset, hrset,
        stable_grown (by rw [hlfront]; exact hlcount) (by rw [hlfront]; exact hlt.le),
        stable_grown (by rw [hrfront]; exact hrcount) (by rw [hrfront]; exact hlt'.le),
        h.stable, hsort]

private theorem commitSet_subset {e : Event}
    (hok : (p.left.idx ≠ 1 ∧ p.left.stablePoint = 0) ∧ p.right.idx ≠ 1 ∧ p.right.stablePoint = 0)
    (hstep : p.step std e = some p') : p.left.commitSet ⊆ p'.left.commitSet := by
  cases e with
  | left a =>
      obtain ⟨r, hr, rfl⟩ := Option.map_eq_some_iff.mp hstep
      rw [step_ordering2 hok.1.1 hok.1.2] at hr
      cases hr
      exact List.subset_append_left _ _
  | right a =>
      obtain ⟨r, hr, rfl⟩ := Option.map_eq_some_iff.mp hstep
      exact List.Subset.refl _
  | both msg =>
      obtain ⟨left, hl, right, _, _, _, rfl⟩ := step_both hstep
      obtain ⟨s, errors, hadvance, _, rfl⟩ := onConsensusRequest_cases hok.1.1 hl
      exact (commitSet_advance hadvance).symm.subset

/-- Replicas that have handled the same messages without error agree on what is stable, as long as
no two commands share a timestamp. -/
private theorem agree_of_reachable (hi : i ≠ 1) (hj : j ≠ 1)
    (h : Reachable ((pair std i j stablePeriod).restrict Alike) p)
    (huntied : Untied p.left.commitSet) : Agree p := by
  induction h with
  | init h =>
      cases h
      exact ⟨rfl, le_rfl, le_rfl, rfl⟩
  | step hr hs ih =>
      rename_i p p' e
      have hok := pair_ok hi hj hr.of_restrict
      have huntied' := huntied.subset (commitSet_subset hok hs.2)
      have hagree := ih huntied'
      cases e with
      | left a =>
          obtain ⟨r, hr, rfl⟩ := Option.map_eq_some_iff.mp hs.2
          rw [step_ordering2 hok.1.1 hok.1.2] at hr
          cases hr
          exact hagree.left a.entry
      | right a =>
          obtain ⟨r, hr, rfl⟩ := Option.map_eq_some_iff.mp hs.2
          rw [step_ordering2 hok.2.1 hok.2.2] at hr
          cases hr
          exact hagree.right a.entry
      | both msg => exact hagree.both hok.1.1 hok.2.1 huntied' hs.1 hs.2

/-- Two replicas that hold the same requests, no two commands of which share a timestamp, and that
have agreed on what earlier messages made stable, agree on the order of the commands up to the
index of the next message. -/
theorem order_agrees (hi : i ≠ 1) (hj : j ≠ 1)
    (h : Reachable ((pair std i j stablePeriod).restrict Alike) p)
    (huntied : Untied p.left.commitSet)
    (hsame : (requests p.left.commitSet).Perm (requests p.right.commitSet))
    {msg : MsgConsensusReqCmd} {left right : Replica}
    (hleft : p.left.step std (.consensus msg) = some left)
    (hright : p.right.step std (.consensus msg) = some right) :
    (left.commitSet.take msg.stableIdx.val).map Entry.cmdHash =
      (right.commitSet.take msg.stableIdx.val).map Entry.cmdHash := by
  have hok := pair_ok hi hj h.of_restrict
  have hagree := agree_of_reachable hi hj h huntied
  suffices hreq : requests (left.commitSet.take msg.stableIdx.val) =
      requests (right.commitSet.take msg.stableIdx.val) by
    have hfst := congrArg (List.map Prod.fst) hreq
    unfold requests at hfst
    rw [List.map_map, List.map_map] at hfst
    exact hfst
  obtain ⟨s, _, hadvance, _, rfl⟩ := onConsensusRequest_cases hok.1.1 hleft
  obtain ⟨s', _, hadvance', _, rfl⟩ := onConsensusRequest_cases hok.2.1 hright
  show requests (s.commitSet.take _) = requests (s'.commitSet.take _)
  have htake : ∀ (l : List Entry) n, requests (l.take n) = (requests l).take n :=
    fun l n => List.map_take
  have hsplit : ∀ (l : List Entry) n, requests l = requests (l.take n) ++ requests (l.drop n) := by
    intro l n
    rw [← requests_append, List.take_append_drop]
  rcases advance_cases hadvance with ⟨hle, rfl⟩ | ⟨hlt, _, rfl⟩ <;>
    rcases advance_cases hadvance' with ⟨hle', rfl⟩ | ⟨hlt', _, rfl⟩
  · -- What is asked for is stable already.
    have hold : ∀ (l : List Entry) n, msg.stableIdx.val ≤ n →
        requests (l.take msg.stableIdx.val) = (requests (l.take n)).take msg.stableIdx.val := by
      intro l n hn
      rw [← htake, List.take_take, Nat.min_eq_left hn]
    rw [hold _ _ hle, hold _ _ hle', hagree.stable]
  · exact absurd (hle.trans_eq hagree.idx_eq) (not_le.mpr hlt')
  · exact absurd (hle'.trans_eq hagree.idx_eq.symm) (not_le.mpr hlt)
  · have hrest : (requests (p.left.commitSet.drop p.left.stablePointIdx)).Perm
        (requests (p.right.commitSet.drop p.right.stablePointIdx)) := by
      rw [hsplit _ p.left.stablePointIdx, hsplit p.right.commitSet p.right.stablePointIdx,
        hagree.stable] at hsame
      exact (List.perm_append_left_iff _).mp hsame
    have hsort := requests_sort_eq std hrest (huntied.subset (List.drop_subset _ _))
    rw [htake, htake]
    show (requests (_ ++ _)).take _ = (requests (_ ++ _)).take _
    rw [requests_append, requests_append, hagree.stable, hsort]

instance (p : Pair) (e : Event) : Decidable (Alike p e) :=
  match e with
  | .left _ | .right _ => isTrue trivial
  | .both msg => inferInstanceAs (Decidable (p.left.stablePointIdx < msg.stableIdx.val →
      (coveredBy msg.stableTimestamp p.left.commitSet).Perm
        (coveredBy msg.stableTimestamp p.right.commitSet)))

instance (l : List Entry) : Decidable (Untied l) :=
  @List.decidableBAll _ _ (fun _ => List.decidableBAll _ _) _

/-- The commands up to an index after both replicas have handled a message. -/
def ordersAt (p : Pair) (msg : MsgConsensusReqCmd) : Option (List Uint256 × List Uint256) :=
  (p.left.step (.insertion _) (.consensus msg)).bind (fun left =>
    (p.right.step (.insertion _) (.consensus msg)).map (fun right =>
      ((left.commitSet.take msg.stableIdx.val).map Entry.cmdHash,
        (right.commitSet.take msg.stableIdx.val).map Entry.cmdHash)))

/-- Three requests in two orders around a message for the first of them. -/
def swappedPair : Pair :=
  (execute (guarded Alike (Pair.step (.insertion _)))
    [.left ⟨1, 3, 0, 0⟩, .left ⟨9, 100, 0, 0⟩, .right ⟨9, 100, 0, 0⟩, .right ⟨1, 3, 0, 0⟩,
      .both ⟨0, 5, 1, 0, 0, 0⟩, .left ⟨2, 40, 0, 0⟩, .right ⟨2, 40, 0, 0⟩]
    ⟨.start 2 1, .start 3 1⟩).get (by decide +kernel)

theorem swappedPair_reachable :
    Reachable ((pair (.insertion _) 2 3 1).restrict Alike) swappedPair :=
  Reachable.trans (.init rfl)
    (steps_of_execute (fun _ _ _ h => guarded_eq_some h) (Option.some_get _).symm)

theorem order_agrees_swapped : ∃ left right,
    swappedPair.left.step (.insertion _) (.consensus ⟨0, 50, 2, 0, 0, 0⟩) = some left ∧
      swappedPair.right.step (.insertion _) (.consensus ⟨0, 50, 2, 0, 0, 0⟩) = some right ∧
      (left.commitSet.take 2).map Entry.cmdHash = (right.commitSet.take 2).map Entry.cmdHash := by
  have hl : (swappedPair.left.step (.insertion _) (.consensus ⟨0, 50, 2, 0, 0, 0⟩)).isSome =
      true := by decide +kernel
  have hr : (swappedPair.right.step (.insertion _) (.consensus ⟨0, 50, 2, 0, 0, 0⟩)).isSome =
      true := by decide +kernel
  obtain ⟨left, hl⟩ := Option.isSome_iff_exists.mp hl
  obtain ⟨right, hr⟩ := Option.isSome_iff_exists.mp hr
  exact ⟨left, right, hl, hr, order_agrees (show (2 : ReplicaID) ≠ 1 by decide)
    (show (3 : ReplicaID) ≠ 1 by decide) swappedPair_reachable (by decide +kernel)
    (by decide +kernel) hl hr⟩

/-- Two commands of one timestamp, in two orders. -/
def tiedPair : Pair :=
  (execute (guarded Alike (Pair.step (.insertion _)))
    [.left ⟨1, 3, 0, 0⟩, .left ⟨2, 3, 0, 0⟩, .right ⟨2, 3, 0, 0⟩, .right ⟨1, 3, 0, 0⟩]
    ⟨.start 2 1, .start 3 1⟩).get (by decide +kernel)

/-- Two commands each of which one of the replicas gets after the message that covers it. -/
def crossedPair : Pair :=
  (execute (Pair.step (.insertion _))
    [.left ⟨1, 3, 0, 0⟩, .left ⟨9, 100, 0, 0⟩, .right ⟨2, 4, 0, 0⟩, .right ⟨9, 100, 0, 0⟩,
      .both ⟨0, 5, 1, 0, 0, 0⟩, .left ⟨2, 4, 0, 0⟩, .right ⟨1, 3, 0, 0⟩]
    ⟨.start 2 1, .start 3 1⟩).get (by decide +kernel)

/-- Either way the replicas hold the same requests and order them differently. -/
theorem orders_differ :
    (Reachable ((pair (.insertion _) 2 3 1).restrict Alike) tiedPair ∧
      (requests tiedPair.left.commitSet).Perm (requests tiedPair.right.commitSet) ∧
      ordersAt tiedPair ⟨0, 5, 2, 0, 0, 0⟩ = some ([1, 2], [2, 1])) ∧
    Reachable (pair (.insertion _) 2 3 1) crossedPair ∧ Untied crossedPair.left.commitSet ∧
      (requests crossedPair.left.commitSet).Perm (requests crossedPair.right.commitSet) ∧
      ordersAt crossedPair ⟨0, 50, 2, 0, 0, 0⟩ = some ([1, 2], [2, 1]) := by
  refine ⟨⟨?_, by decide +kernel, by decide +kernel⟩, ?_, by decide +kernel, by decide +kernel,
    by decide +kernel⟩
  · exact Reachable.trans (.init rfl)
      (steps_of_execute (fun _ _ _ h => guarded_eq_some h) (Option.some_get _).symm)
  · exact Reachable.trans (.init rfl)
      (steps_of_execute (fun _ _ _ h => h) (Option.some_get _).symm)

end agree

end ArchipelagoHotStuff.Archipelago.CommitOrder
