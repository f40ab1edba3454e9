/- Module: ArchipelagoHotStuff/Network/Memory
   source: consensus.cpp (update_hqc, update, on_propose, on_receive_proposal, on_receive_vote)
   digest: Correct replicas forget nothing: registers only rise, votes are only added, decisions
     stay; and at most one block of each height ever gets a certificate. -/

import ArchipelagoHotStuff.Network.Heights

set_option autoImplicit false
set_option relaxedAutoImplicit false

namespace ArchipelagoHotStuff.Network.Memory

open Crypto.Wire Crypto.Certificates
open Consensus Consensus.State Consensus.Effects Consensus.Tree Consensus.Ballots
open Consensus.Trails Consensus.Machine Consensus.CommitLog
open Network.Model Network.Views Network.Chains Network.Refinement Network.Heights
open General.Transition General.VoteLedger

variable {K : Secp256k1} {D : Deployment K} {c c' c'' : HotStuffCore K} {e : Effect K}
  {L : Ledger ReplicaID Uint256} {s s' : Replicas K} {r r' : ReplicaID} {h h' : Uint256}

/-- What a core knows in one state it knows in another. -/
structure Remembers (c c' : HotStuffCore K) : Prop where
  grows : Grows c c'
  vheight : c.vheight ≤ c'.vheight
  hqc : (c.blk c.hqc.1).height ≤ (c'.blk c'.hqc.1).height
  lock : (c.blk c.bLock).height ≤ (c'.blk c'.bLock).height
  voted : ∀ h, (c.blk h).voted ⊆ (c'.blk h).voted
  decided : ∀ h, (c.blk h).decision = true → (c'.blk h).decision = true
  commits : commits c <+: commits c'

theorem Remembers.refl (c : HotStuffCore K) : Remembers c c :=
  ⟨.refl c, le_rfl, le_rfl, le_rfl, fun _ => Finset.Subset.refl _, fun _ => id, List.prefix_rfl⟩

theorem Remembers.trans (h : Remembers c c') (h' : Remembers c' c'') : Remembers c c'' :=
  ⟨h.grows.trans h'.grows, h.vheight.trans h'.vheight, h.hqc.trans h'.hqc, h.lock.trans h'.lock,
    fun x => (h.voted x).trans (h'.voted x), fun x => h'.decided x ∘ h.decided x,
    h.commits.trans h'.commits⟩

/-! One effect. -/

theorem vheight_le_apply {env : Env K} (he : Allowed env c e) :
    c.vheight ≤ (Effects.apply env c e).vheight := by
  by_cases hacc : ∃ h offLock, e = .accept h offLock
  · obtain ⟨h, offLock, rfl⟩ := hacc
    exact he.2.1.le
  by_cases hown : ∃ h data offLock, e = .acceptOwn h data offLock
  · obtain ⟨h, data, offLock, rfl⟩ := hown
    exact he.2.1.le
  · exact (vheight_apply env c (fun h o heq => hacc ⟨h, o, heq⟩)
      (fun h d o heq => hown ⟨h, d, o, heq⟩)).ge

theorem voted_subset_apply {env : Env K} (he : Allowed env c e) (x : Uint256) :
    (c.blk x).voted ⊆ ((Effects.apply env c e).blk x).voted := by
  by_cases hc : Counts e
  swap
  · exact (voted_apply he hc x).ge
  cases e with
  | create data =>
      by_cases hx : x = env.getHash data
      · rw [hx, c.blk_of_none he.1]
        exact Finset.empty_subset _
      · exact (congrArg Block.voted (blk_createBlk_ne hx)).ge
  | resetSelfQc h voted =>
      exact (c.field_modifyBlk Block.voted h x
        (f := fun b => { b with selfQc := some (QuorumCert.create c.config h) })
        (fun _ => rfl)).ge
  | count vote own qc =>
      by_cases hx : x = vote.blkHash
      · have hnew : (Effects.apply env c (.count vote own qc)).blk vote.blkHash = _ :=
          blk_countVote_self (isSome_of_delivered he.1)
        rw [hx, hnew]
        exact Finset.subset_insert _ _
      · exact (congrArg Block.voted (blk_countVote_ne hx)).ge
  | miscount vote =>
      by_cases hx : x = vote.blkHash
      · have hnew : (Effects.apply env c (.miscount vote)).blk vote.blkHash = _ :=
          c.blk_modifyBlk_self (isSome_of_delivered he.1) _
        rw [hx, hnew]
        exact Finset.subset_insert _ _
      · exact (congrArg Block.voted (c.blk_modifyBlk_ne hx _)).ge
  | _ => exact absurd hc id

theorem decided_apply {env : Env K} (he : Allowed env c e) {x : Uint256}
    (hdec : (c.blk x).decision = true) : ((Effects.apply env c e).blk x).decision = true := by
  by_cases hcommit : ∃ queue h, e = .commit queue h
  · obtain ⟨queue, h, rfl⟩ := hcommit
    exact (decision_commitAll queue.reverse).mpr (.inl hdec)
  · rw [decision_apply he (fun queue h heq => hcommit ⟨queue, h, heq⟩)]
    exact hdec

theorem commits_le_apply (env : Env K) (c : HotStuffCore K) (e : Effect K) :
    commits c <+: commits (Effects.apply env c e) := by
  unfold commits
  rw [trace_eq, List.filterMap_append, List.reverse_append]
  exact List.prefix_append _ _

/-- The blocks of the registers are delivered. -/
structure Held (D : Deployment K) (c : HotStuffCore K) : Prop where
  view : ViewOk D c
  hqc : (c.blk c.hqc.1).delivered = true
  lock : (c.blk c.bLock).delivered = true

theorem Held.apply (hok : Held D c) (hP : Contents D e) (he : Allowed D.env c e) :
    Held D (Effects.apply D.env c e) ∧ Remembers c (Effects.apply D.env c e) := by
  have hg := grows_apply he
  have hview := hok.view.apply hP he
  have hhqc : ((Effects.apply D.env c e).blk (Effects.apply D.env c e).hqc.1).delivered = true ∧
      (c.blk c.hqc.1).height ≤
        ((Effects.apply D.env c e).blk (Effects.apply D.env c e).hqc.1).height := by
    by_cases hraise : ∃ h qc, e = .raiseHqc h qc
    · obtain ⟨h, qc, rfl⟩ := hraise
      have hd := hok.view.delivered_of_height_pos (Nat.zero_lt_of_lt he.1)
      exact ⟨hg.delivered hd, he.1.le⟩
    · rw [hqc_apply D.env c (fun h qc heq => hraise ⟨h, qc, heq⟩)]
      exact ⟨hg.delivered hok.hqc, (hg.height hok.hqc).ge⟩
  have hlock : ((Effects.apply D.env c e).blk (Effects.apply D.env c e).bLock).delivered = true ∧
      (c.blk c.bLock).height ≤
        ((Effects.apply D.env c e).blk (Effects.apply D.env c e).bLock).height := by
    by_cases hraise : ∃ h, e = .raiseLock h
    · obtain ⟨h, rfl⟩ := hraise
      have hd := hok.view.delivered_of_height_pos (Nat.zero_lt_of_lt he.1)
      exact ⟨hg.delivered hd, he.1.le⟩
    · rw [bLock_apply D.env c (fun h heq => hraise ⟨h, heq⟩)]
      exact ⟨hg.delivered hok.lock, (hg.height hok.lock).ge⟩
  exact ⟨⟨hview, hhqc.1, hlock.1⟩, hg, vheight_le_apply he, hhqc.2, hlock.2,
    voted_subset_apply he, fun _ => decided_apply he, commits_le_apply D.env c e⟩

/-! Runs. -/

theorem remembers_step {a : ReplicaID × Input K} (hs : Reachable D.network s)
    (hstep : D.network.step s a s') (hr : D.Correct r) : Remembers (s r).core (s' r).core := by
  obtain ⟨L, _, hj⟩ := joined_of_reachable hs
  have hcov := covers_and (covers_vouched hj hstep) (covers_true D.env (s a.1) a.2)
  obtain ⟨htrail, hother⟩ := step_effects hs hcov
    (vouched_outputs ⟨fun _ => trivial, fun _ => trivial, fun _ _ => trivial⟩) hstep
  by_cases hra : r = a.1
  · subst hra
    have hok := hj a.1 hr
    have hinv : Held D (s' a.1).core ∧ Remembers (s a.1).core (s' a.1).core := by
      refine Trail.invariant (I := fun d => Held D d ∧ Remembers (s a.1).core d) htrail
        ⟨⟨hok.view, hok.chain.hqc_delivered, hok.chain.lock_delivered⟩, .refl _⟩ ?_
      rintro d e ⟨hP, _⟩ ⟨hheld, hrem⟩ he
      obtain ⟨hheld', hrem'⟩ := hheld.apply hP.contents he
      exact ⟨hheld', hrem.trans hrem'⟩
    exact hinv.2
  · rw [hother r hra]
    exact .refl _

theorem remembers_of_steps (hs : Reachable D.network s) (hrun : Steps D.network s s')
    (hr : D.Correct r) : Remembers (s r).core (s' r).core :=
  hrun.monotone (R := fun s s' => Remembers (s r).core (s' r).core) hs
    (fun _ => .refl _) Remembers.trans (fun _ _ _ hs hstep => remembers_step hs hstep hr)

/-- A correct replica never goes back, whatever arrives: over any run `vheight` and the heights of
the highest certificate and of the lock only rise, delivered blocks keep their place in the tree,
votes are only added, what is decided stays decided and the log only grows. -/
theorem nothing_forgotten (hs : Reachable D.network s) (hrun : Steps D.network s s')
    (hr : D.Correct r) :
    (s r).core.vheight ≤ (s' r).core.vheight ∧
    ((s r).core.blk (s r).core.hqc.1).height ≤ ((s' r).core.blk (s' r).core.hqc.1).height ∧
    ((s r).core.blk (s r).core.bLock).height ≤ ((s' r).core.blk (s' r).core.bLock).height ∧
    (∀ h, ((s r).core.blk h).delivered = true →
      node ((s' r).core.blk h) = node ((s r).core.blk h)) ∧
    (∀ h, ((s r).core.blk h).voted ⊆ ((s' r).core.blk h).voted ∧
      (((s r).core.blk h).decision = true → ((s' r).core.blk h).decision = true)) ∧
    commits (s r).core <+: commits (s' r).core := by
  have hrem := remembers_of_steps hs hrun hr
  exact ⟨hrem.vheight, hrem.hqc, hrem.lock, hrem.grows.node_eq,
    fun h => ⟨hrem.voted h, hrem.decided h⟩, hrem.commits⟩

/-- Later, block 4 brings the certificate of block 3. -/
def summit : Replicas clearScheme :=
  (execute climb.next (handles 1 (blockOf 3 2 2 [0, 1, 3]) ++ handles 0 (blockOf 4 3 3 [0, 1, 3]) ++
    handles 1 (blockOf 4 3 3 [0, 1, 3])) climbed).get (by decide +kernel)

theorem summit_steps : Steps climb.network climbed summit :=
  steps_of_execute (fun _ _ _ => Deployment.step_of_next) (Option.some_get _).symm

theorem nothing_forgotten_climbed : (climbed 0).core.vheight = 3 ∧
    commits (summit 0).core = [1] ∧ (climbed 0).core.vheight ≤ (summit 0).core.vheight ∧
    commits (climbed 0).core <+: commits (summit 0).core := by
  obtain ⟨hvheight, _, _, _, _, hcommits⟩ :=
    nothing_forgotten climbed_reachable summit_steps (show climb.Correct 0 by decide)
  exact ⟨by decide +kernel, by decide +kernel, hvheight, hcommits⟩

theorem obtains_mono (hs : Reachable D.network s) (hrun : Steps D.network s s')
    (hb : Obtains D s h) : Obtains D s' h := by
  obtain ⟨A, hcard, hvotes⟩ := hb
  refine ⟨A, hcard, fun v hv => ?_⟩
  obtain ⟨vote, hvoter, hhash, hverify, hgen⟩ := hvotes v hv
  refine ⟨vote, hvoter, hhash, hverify, fun hr pubkey hkey hvalid => ?_⟩
  exact (remembers_of_steps hs hrun hr).grows.trace.subset (hgen hr pubkey hkey hvalid)

/-- No two blocks of one height ever get `nmajority` valid votes, however far apart in a run. -/
theorem one_certificate (hs : Reachable D.network s) (hrun : Steps D.network s s')
    (hr : D.Correct r) (hr' : D.Correct r') (hd : ((s r).core.blk h).delivered = true)
    (hd' : ((s' r').core.blk h').delivered = true)
    (hheight : ((s r).core.blk h).height = ((s' r').core.blk h').height)
    (hb : Obtains D s h) (hb' : Obtains D s' h') : h = h' := by
  have hs' := hs.trans hrun
  obtain ⟨L, hL, hj⟩ := joined_of_reachable hs'
  have hg := (remembers_of_steps hs hrun hr).grows
  refine (valid_of_ruled hL).certified_unique (certified_of_obtains hj (obtains_mono hs hrun hb))
    (certified_of_obtains hj hb') ?_
  rw [(hj r hr).view.height (hg.delivered hd), (hj r' hr').view.height hd', hg.height hd]
  exact hheight

/-- Block 1 has the votes of the replicas 0 and 1 and of the Byzantine one. -/
theorem obtains_climbed : Obtains climb climbed 1 := by
  refine ⟨{0, 1, 3}, by decide +kernel, fun v hv => ?_⟩
  refine ⟨⟨v, 1, PartCert.create (show clearScheme.PrivKey from v.val) 1⟩, rfl, rfl, ?_⟩
  simp only [Finset.mem_insert, Finset.mem_singleton] at hv
  rcases hv with rfl | rfl | rfl
  · exact ⟨by decide +kernel, by decide +kernel⟩
  · exact ⟨by decide +kernel, by decide +kernel⟩
  · exact ⟨by decide +kernel, by decide +kernel⟩

theorem one_certificate_climbed : ((climbed 0).core.blk 1).height = 1 ∧ (1 : Uint256) = 1 :=
  ⟨by decide +kernel, one_certificate climbed_reachable summit_steps
    (show climb.Correct 0 by decide) (show climb.Correct 1 by decide) (by decide +kernel)
    (by decide +kernel) (by decide +kernel) obtains_climbed
    (obtains_mono climbed_reachable summit_steps obtains_climbed)⟩

end ArchipelagoHotStuff.Network.Memory
