/- Module: ArchipelagoHotStuff/General/Quorum
   scope: general
   digest: Threshold quorums whose intersections always hold a member that is not faulty. -/

import Mathlib.Data.Finset.Card

set_option autoImplicit false
set_option relaxedAutoImplicit false

namespace ArchipelagoHotStuff.General.Quorum

universe u

/-- Members, the faulty ones among all, and a quorum size for which two quorums overlap in
more members than can be faulty. -/
structure QuorumSystem (R : Type u) [DecidableEq R] where
  members : Finset R
  faulty : Finset R
  size : Nat
  overlap : members.card + faulty.card < 2 * size

variable {R : Type u} [DecidableEq R] (Q : QuorumSystem R)

/-- A set of members that is large enough to decide. -/
structure QuorumSystem.IsQuorum (A : Finset R) : Prop where
  subset : A ⊆ Q.members
  size_le : Q.size ≤ A.card

variable {Q}

/-- Two quorums share a member that is not faulty. -/
theorem QuorumSystem.IsQuorum.exists_common {A A' : Finset R} (h : Q.IsQuorum A)
    (h' : Q.IsQuorum A') : ∃ r, r ∈ A ∧ r ∈ A' ∧ r ∉ Q.faulty := by
  have hunion : (A ∪ A').card ≤ Q.members.card :=
    Finset.card_le_card (Finset.union_subset h.subset h'.subset)
  have hsum := Finset.card_union_add_card_inter A A'
  have hA := h.size_le
  have hA' := h'.size_le
  have hlt : Q.faulty.card < (A ∩ A').card := by
    have := Q.overlap
    omega
  obtain ⟨r, hr, hgood⟩ := Finset.exists_mem_notMem_of_card_lt_card hlt
  exact ⟨r, (Finset.mem_inter.mp hr).1, (Finset.mem_inter.mp hr).2, hgood⟩

theorem QuorumSystem.IsQuorum.exists_correct {A : Finset R} (h : Q.IsQuorum A) :
    ∃ r, r ∈ A ∧ r ∉ Q.faulty := by
  obtain ⟨r, hr, _, hgood⟩ := h.exists_common h
  exact ⟨r, hr, hgood⟩

/-- With at most `n` members, at most a third of the others faulty and quorums of all but that
many, any two quorums meet in a correct member. -/
def thresholdSystem (n : Nat) (members faulty : Finset R) (pos : 1 ≤ n) (few : members.card ≤ n)
    (bound : faulty.card ≤ (n - 1) / 3) : QuorumSystem R where
  members := members
  faulty := faulty
  size := n - (n - 1) / 3
  overlap := by omega

end ArchipelagoHotStuff.General.Quorum
