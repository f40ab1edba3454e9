/- Module: ArchipelagoHotStuff/Consensus/Voting
   source: consensus.cpp (on_propose, on_receive_proposal)
   digest: A replica votes for at most one block of each height, however its calls interleave. -/

import ArchipelagoHotStuff.Consensus.Machine
import Mathlib.Data.Finset.Lattice.Fold
import Mathlib.Order.Lattice.Nat

set_option autoImplicit false
set_option relaxedAutoImplicit false

namespace ArchipelagoHotStuff.Consensus.Voting

open Crypto.Wire Crypto.Certificates State Handlers Effects Consensus.Tree Ballots Trails Machine
open General.Transition

variable {K : Secp256k1} {env : Env K} {c : HotStuffCore K} {e : Effect K} {h x : Uint256}

def acceptedBy : Event K → Option Uint256
  | .accept h => some h
  | _ => none

def accepted (c : HotStuffCore K) : Finset Uint256 := (c.trace.filterMap acceptedBy).toFinset

theorem mem_accepted : h ∈ accepted c ↔ .accept h ∈ c.trace := by
  unfold accepted
  rw [List.mem_toFinset, List.mem_filterMap]
  constructor
  · rintro ⟨a, ha, heq⟩
    cases a with
    | accept k =>
        cases heq
        exact ha
    | _ => cases heq
  · intro hmem
    exact ⟨_, hmem, rfl⟩

def Accepts (h : Uint256) : Effect K → Prop
  | .accept k _ => k = h
  | .acceptOwn k _ _ => k = h
  | _ => False

theorem accept_mem_newEvents : .accept h ∈ newEvents env c e ↔ Accepts h e := by
  rw [mem_newEvents id]
  cases e <;> simp [eventOf, Accepts, eq_comm]

theorem partCert_mem_newEvents : .partCert h ∈ newEvents env c e ↔ e = .sign h := by
  rw [mem_newEvents id]
  cases e <;> simp [eventOf]

theorem accept_mem_apply :
    .accept h ∈ (apply env c e).trace ↔ Accepts h e ∨ .accept h ∈ c.trace := by
  rw [trace_eq, List.mem_append, accept_mem_newEvents]

theorem partCert_mem_apply :
    .partCert h ∈ (apply env c e).trace ↔ e = .sign h ∨ .partCert h ∈ c.trace := by
  rw [trace_eq, List.mem_append, partCert_mem_newEvents]

theorem allowed_accepts (he : Allowed env c e) (ha : Accepts h e) :
    (c.blk h).delivered = true ∧ c.vheight < (c.blk h).height ∧
      (apply env c e).vheight = (c.blk h).height := by
  cases e with
  | accept k offLock =>
      cases ha
      exact ⟨he.1, he.2.1, rfl⟩
  | acceptOwn k data offLock =>
      cases ha
      exact ⟨he.1, he.2.1, rfl⟩
  | _ => exact absurd ha id

theorem vheight_of_not_accepts (hn : ∀ h, ¬ Accepts h e) :
    (apply env c e).vheight = c.vheight := by
  refine vheight_apply env c ?_ ?_
  · rintro h o rfl
    exact hn h rfl
  · rintro h d o rfl
    exact hn h rfl

theorem vheight_le_apply (he : Allowed env c e) : c.vheight ≤ (apply env c e).vheight := by
  by_cases ha : ∃ h, Accepts h e
  · obtain ⟨h, ha⟩ := ha
    obtain ⟨_, hlt, heq⟩ := allowed_accepts he ha
    rw [heq]
    exact Nat.le_of_lt hlt
  · exact (vheight_of_not_accepts (fun h hh => ha ⟨h, hh⟩)).ge

/-- The discipline of voting. -/
structure VotingOk (c : HotStuffCore K) : Prop where
  delivered : ∀ h, .accept h ∈ c.trace → (c.blk h).delivered = true
  vheight_eq : c.vheight = (accepted c).sup (fun h => (c.blk h).height)
  unique : ∀ h h', .accept h ∈ c.trace → .accept h' ∈ c.trace →
    (c.blk h).height = (c.blk h').height → h = h'
  signed : ∀ h, .partCert h ∈ c.trace → .accept h ∈ c.trace

theorem VotingOk.height_le (hok : VotingOk c) (ha : .accept h ∈ c.trace) :
    (c.blk h).height ≤ c.vheight := by
  rw [hok.vheight_eq]
  exact Finset.le_sup (f := fun h => (c.blk h).height) (mem_accepted.mpr ha)

theorem accepted_apply (ha : Accepts h e) : accepted (apply env c e) = insert h (accepted c) := by
  ext x
  rw [mem_accepted, Finset.mem_insert, mem_accepted, accept_mem_apply]
  have hx : Accepts x e ↔ x = h := by
    cases e with
    | accept k offLock =>
        cases ha
        exact eq_comm
    | acceptOwn k data offLock =>
        cases ha
        exact eq_comm
    | _ => exact absurd ha id
  rw [hx]

theorem accepted_apply_of_not (hn : ∀ h, ¬ Accepts h e) :
    accepted (apply env c e) = accepted c := by
  ext x
  rw [mem_accepted, mem_accepted, accept_mem_apply]
  simp [hn x]

theorem VotingOk.apply (hok : VotingOk c) (he : Allowed env c e) :
    VotingOk (Effects.apply env c e) := by
  have hg := grows_apply he
  have hheight : ∀ h, .accept h ∈ c.trace →
      ((Effects.apply env c e).blk h).height = (c.blk h).height :=
    fun h ha => hg.height (hok.delivered h ha)
  have hsup : (accepted c).sup (fun h => ((Effects.apply env c e).blk h).height) = c.vheight := by
    rw [hok.vheight_eq]
    refine Finset.sup_congr rfl (fun h hmem => ?_)
    exact hheight h (mem_accepted.mp hmem)
  have hsigned : ∀ h, .partCert h ∈ (Effects.apply env c e).trace →
      .accept h ∈ (Effects.apply env c e).trace := by
    intro h hmem
    refine hg.trace.subset ?_
    rcases partCert_mem_apply.mp hmem with rfl | hold
    · exact he
    · exact hok.signed h hold
  by_cases hacc : ∃ k, Accepts k e
  · obtain ⟨k, hk⟩ := hacc
    obtain ⟨hd, hlt, hv⟩ := allowed_accepts he hk
    have hcases : ∀ h, .accept h ∈ (Effects.apply env c e).trace →
        h = k ∨ .accept h ∈ c.trace := by
      intro h hmem
      have hmem' := mem_accepted.mpr hmem
      rw [accepted_apply hk, Finset.mem_insert, mem_accepted] at hmem'
      exact hmem'
    -- The accepted block is higher than all accepted before it.
    have hhigher : ∀ h, .accept h ∈ c.trace → ((Effects.apply env c e).blk h).height <
        ((Effects.apply env c e).blk k).height := by
      intro h ha
      rw [hheight h ha, hg.height hd]
      exact Nat.lt_of_le_of_lt (hok.height_le ha) hlt
    refine ⟨?_, ?_, ?_, hsigned⟩
    · intro h hmem
      rcases hcases h hmem with rfl | hold
      · exact hg.delivered hd
      · exact hg.delivered (hok.delivered h hold)
    · rw [accepted_apply hk, Finset.sup_insert, hsup, hv, hg.height hd]
      exact (sup_eq_left.mpr (Nat.le_of_lt hlt)).symm
    · intro h h' hmem hmem' heq
      rcases hcases h hmem with rfl | hold <;> rcases hcases h' hmem' with rfl | hold'
      · rfl
      · exact absurd heq (Nat.ne_of_gt (hhigher h' hold'))
      · exact absurd heq (Nat.ne_of_lt (hhigher h hold))
      · rw [hheight h hold, hheight h' hold'] at heq
        exact hok.unique h h' hold hold' heq
  · have hn : ∀ k, ¬ Accepts k e := fun k hk => hacc ⟨k, hk⟩
    have hold : ∀ h, .accept h ∈ (Effects.apply env c e).trace → .accept h ∈ c.trace := by
      intro h hmem
      exact (accept_mem_apply.mp hmem).resolve_left (hn h)
    refine ⟨?_, ?_, ?_, hsigned⟩
    · intro h hmem
      exact hg.delivered (hok.delivered h (hold h hmem))
    · rw [vheight_of_not_accepts hn, accepted_apply_of_not hn, hsup]
    · intro h h' hmem hmem' heq
      rw [hheight h (hold h hmem), hheight h' (hold h' hmem')] at heq
      exact hok.unique h h' (hold h hmem) (hold h' hmem') heq

theorem VotingOk.start (env : Env K) (config : ReplicaConfig K) (id : ReplicaID)
    (key : K.PrivKey) (voteDisabled : Bool) :
    VotingOk (HotStuffCore.start env config id key voteDisabled) :=
  ⟨nofun, rfl, nofun, nofun⟩

section machine

variable {config : ReplicaConfig K} {id : ReplicaID} {key : K.PrivKey} {voteDisabled : Bool}
  {r r' : Replica K}

theorem votingOk_of_reachable (h : Reachable (machine env config id key voteDisabled) r) :
    VotingOk r.core :=
  invariant_of_effects h (.start _ _ _ _ _) (fun _ _ _ _ hok he => hok.apply he)

theorem vheight_le_of_steps (h : Reachable (machine env config id key voteDisabled) r)
    (hs : Steps (machine env config id key voteDisabled) r r') :
    r.core.vheight ≤ r'.core.vheight := by
  refine Steps.monotone (R := fun s s' => s.core.vheight ≤ s'.core.vheight) h (fun _ => le_rfl)
    le_trans ?_ hs
  intro s i s' hreach hstep
  have htrail := ((replicaOk_of_reachable hreach).step hstep).2
  refine Trail.invariant (I := fun d => s.core.vheight ≤ d.vheight) htrail le_rfl ?_
  intro d e _ hle he
  exact hle.trans (vheight_le_apply he)

/-- A replica signs at most one block of each height, its `vheight` is the largest height it has
accepted, and it never decreases. -/
theorem voting_discipline (h : Reachable (machine env config id key voteDisabled) r) :
    (∀ b b', .partCert b ∈ r.core.trace → .partCert b' ∈ r.core.trace →
        (r.core.blk b).height = (r.core.blk b').height → b = b') ∧
      r.core.vheight = (accepted r.core).sup (fun b => (r.core.blk b).height) ∧
      ∀ r', Steps (machine env config id key voteDisabled) r r' →
        r.core.vheight ≤ r'.core.vheight := by
  have hok := votingOk_of_reachable h
  refine ⟨?_, hok.vheight_eq, fun r' hs => vheight_le_of_steps h hs⟩
  intro b b' hb hb' heq
  exact hok.unique b b' (hok.signed b hb) (hok.signed b' hb') heq

theorem voting_discipline_sole :
    (∀ b b', .partCert b ∈ soleReplica.core.trace → .partCert b' ∈ soleReplica.core.trace →
        (soleReplica.core.blk b).height = (soleReplica.core.blk b').height → b = b') ∧
      soleReplica.core.vheight =
        (accepted soleReplica.core).sup (fun b => (soleReplica.core.blk b).height) ∧
      ∀ r', Steps soleMachine soleReplica r' → soleReplica.core.vheight ≤ r'.core.vheight :=
  voting_discipline soleReplica_reachable

end machine

end ArchipelagoHotStuff.Consensus.Voting
