/- Module: ArchipelagoHotStuff/Network/Chains
   digest: What the votes of the correct replicas say about the blocks and the registers of each
     of them, and that every effect keeps it so. -/

import ArchipelagoHotStuff.Network.Views

set_option autoImplicit false
set_option relaxedAutoImplicit false

namespace ArchipelagoHotStuff.Network.Chains

open Crypto.Wire Crypto.Certificates
open Consensus Consensus.State Consensus.Effects Consensus.Tree Consensus.Ballots
open Consensus.Voting Consensus.CommitLog Network.Model Network.Views
open General.ParentTree General.VoteLedger

variable {K : Secp256k1} {D : Deployment K} {c c' : HotStuffCore K} {e : Effect K}
  {L L' : Ledger ReplicaID Uint256} {r : ReplicaID} {b h t x : Uint256}

def Backed (D : Deployment K) (L : Ledger ReplicaID Uint256) (h : Uint256) : Prop :=
  h = D.env.genesisHash ∨ Certified D.quorums L h

/-- The certificate of the block is for a backed one. -/
def Justified (D : Deployment K) (L : Ledger ReplicaID Uint256) (h : Uint256) : Prop :=
  ∃ u, D.forest.qc h = some u ∧ Backed D L u

theorem Backed.mono (hb : Backed D L h) (hsub : L ⊆ L') : Backed D L' h :=
  hb.imp_right (fun hc => hc.mono hsub)

theorem Justified.mono (hj : Justified D L h) (hsub : L ⊆ L') : Justified D L' h := by
  obtain ⟨u, hu, hb⟩ := hj
  exact ⟨u, hu, hb.mono hsub⟩

/-- The acceptances of the ledger are those of the replica's trace; delivered blocks are justified,
and the votes counted are votes of the ledger. -/
structure BlocksOk (D : Deployment K) (L : Ledger ReplicaID Uint256) (r : ReplicaID)
    (c : HotStuffCore K) : Prop where
  id : c.id = r
  config : c.config = D.config
  ledger : ∀ h, .accept h ∈ c.trace ↔ (r, h) ∈ L
  justified : ∀ h, (c.blk h).delivered = true → Justified D L h
  voted : ∀ h, h ≠ D.env.genesisHash → ∀ v ∈ (c.blk h).voted,
    v ∈ D.quorums.members ∧ (v ∉ D.quorums.faulty → (v, h) ∈ L)

/-- What `hqc`, `b_lock` and `b_exec` are worth. -/
structure ChainOk (D : Deployment K) (L : Ledger ReplicaID Uint256) (r : ReplicaID)
    (c : HotStuffCore K) : Prop where
  hqc_delivered : (c.blk c.hqc.1).delivered = true
  lock_delivered : (c.blk c.bLock).delivered = true
  hqc_backed : Backed D L c.hqc.1
  lock_backed : Backed D L c.bLock
  committed : Committed D.forest D.quorums (chainLength D.env) L c.bExec
  exec_le_lock : D.forest.height c.bExec ≤ D.forest.height c.bLock
  held : ∀ v b, (r, v) ∈ L → General.VoteLedger.Linked D.forest (chainLength D.env) v b →
    D.forest.height b ≤ D.forest.height c.bLock
  lock_le_hqc : D.forest.height c.bLock ≤ D.forest.height c.hqc.1
  lock_lt_hqc : D.env.twoStep = false → (c.bLock = D.env.genesisHash ∧
    c.hqc.1 = D.env.genesisHash) ∨ D.forest.height c.bLock < D.forest.height c.hqc.1

/-- Effects that a correct replica has in the network. -/
def Vouched (D : Deployment K) (L : Ledger ReplicaID Uint256) : Effect K → Prop
  | .deliver h => Justified D L h
  | .count vote own _ => own = true ∨ (vote.voter ∈ D.quorums.members ∧
      (vote.voter ∉ D.quorums.faulty → (vote.voter, vote.blkHash) ∈ L))
  | .miscount vote => vote.cert.objHash = vote.blkHash
  | e => Contents D e

theorem Vouched.contents (hP : Vouched D L e) : Contents D e := by
  cases e <;> first | exact hP | exact trivial

theorem Vouched.mono (hP : Vouched D L e) (hsub : L ⊆ L') : Vouched D L' e := by
  cases e with
  | deliver h => exact hP.mono hsub
  | count vote own qc => exact hP.imp_right (fun hv => ⟨hv.1, fun hgood => hsub (hv.2 hgood)⟩)
  | _ => exact hP

/-! Blocks. -/

theorem BlocksOk.mono (hok : BlocksOk D L r c) (hsub : L ⊆ L')
    (hown : ∀ h, (r, h) ∈ L' ↔ (r, h) ∈ L) : BlocksOk D L' r c where
  id := hok.id
  config := hok.config
  ledger h := (hok.ledger h).trans (hown h).symm
  justified h hd := (hok.justified h hd).mono hsub
  voted h hne v hv := by
    obtain ⟨hmem, hvote⟩ := hok.voted h hne v hv
    exact ⟨hmem, fun hgood => hsub (hvote hgood)⟩

theorem voted_apply_cases (he : Allowed D.env c e) {v : ReplicaID}
    (hv : v ∈ ((Effects.apply D.env c e).blk x).voted) :
    v ∈ (c.blk x).voted ∨ ∃ vote, vote.blkHash = x ∧ vote.voter = v ∧
      ((∃ own qc, e = .count vote own qc) ∨ e = .miscount vote) := by
  by_cases hcount : Counts e
  swap
  · rw [voted_apply he hcount] at hv
    exact .inl hv
  have hinsert : ∀ vote : Vote K, (Effects.apply D.env c e).blk x = c.blk x ∨
      (x = vote.blkHash ∧ ((Effects.apply D.env c e).blk x).voted =
        insert vote.voter (c.blk x).voted) →
      v ∈ (c.blk x).voted ∨ vote.blkHash = x ∧ vote.voter = v := by
    rintro vote (hsame | ⟨rfl, hnew⟩)
    · rw [hsame] at hv
      exact .inl hv
    · rw [hnew, Finset.mem_insert] at hv
      rcases hv with rfl | hold
      · exact .inr ⟨rfl, rfl⟩
      · exact .inl hold
  cases e with
  | create data =>
      by_cases hx : x = D.env.getHash data
      · subst hx
        have hblk : (Effects.apply D.env c (.create data)).blk (D.env.getHash data) = _ :=
          blk_createBlk_self D.env data
        rw [hblk] at hv
        cases hv
      · have hblk : (Effects.apply D.env c (.create data)).blk x = c.blk x :=
          blk_createBlk_ne hx
        rw [hblk] at hv
        exact .inl hv
  | resetSelfQc k voted =>
      have hsame : ((Effects.apply D.env c (.resetSelfQc k voted)).blk x).voted =
          (c.blk x).voted := c.field_modifyBlk Block.voted k x (fun _ => rfl)
      rw [hsame] at hv
      exact .inl hv
  | count vote own qc =>
      refine (hinsert vote ?_).imp_right (fun hx => ⟨vote, hx.1, hx.2, .inl ⟨own, qc, rfl⟩⟩)
      by_cases hx : x = vote.blkHash
      · subst hx
        have hblk : (Effects.apply D.env c (.count vote own qc)).blk vote.blkHash = _ :=
          blk_countVote_self (isSome_of_delivered he.1)
        exact .inr ⟨rfl, by rw [hblk]⟩
      · exact .inl (blk_countVote_ne hx)
  | miscount vote =>
      refine (hinsert vote ?_).imp_right (fun hx => ⟨vote, hx.1, hx.2, .inr rfl⟩)
      by_cases hx : x = vote.blkHash
      · subst hx
        have hblk : (Effects.apply D.env c (.miscount vote)).blk vote.blkHash = _ :=
          c.blk_modifyBlk_self (isSome_of_delivered he.1) _
        exact .inr ⟨rfl, by rw [hblk]⟩
      · exact .inl (c.blk_modifyBlk_ne hx _)
  | _ => exact absurd hcount id

theorem BlocksOk.apply (hr : D.Correct r) (hview : ViewOk D c) (hok : BlocksOk D L r c)
    (hqc : Backed D L c.hqc.1) (hP : Vouched D L e) (he : Allowed D.env c e)
    (hn : ∀ h, ¬ Accepts h e) : BlocksOk D L r (Effects.apply D.env c e) where
  id := (id_apply D.env c).trans hok.id
  config := (config_apply D.env c).trans hok.config
  ledger h := by
    rw [accept_mem_apply]
    exact (or_iff_right (hn h)).trans (hok.ledger h)
  justified x hd := by
    rcases delivered_apply_cases he hd with hold | rfl | ⟨data, rfl, rfl⟩
    · exact hok.justified x hold
    · exact hP
    · -- The block is new and certified by the highest certificate.
      have hne : D.env.getHash data ≠ D.env.genesisHash := by
        intro heq
        have hs := isSome_of_delivered hview.tree.genesis.delivered
        rw [← heq, he.1] at hs
        cases hs
      refine ⟨c.hqc.1, ?_, hqc⟩
      rw [Deployment.qc_forest hne hP]
      show some data.qc.objHash = _
      rw [he.2.1, hview.certs.hqc_hash]
  voted x hne v hv := by
    rcases voted_apply_cases he hv with hold | ⟨vote, rfl, rfl, ⟨own, qc, rfl⟩ | rfl⟩
    · exact hok.voted x hne v hold
    · rcases hP with hown | hvouched
      · obtain ⟨heq, hacc⟩ := he.2.2.2.2 hown
        have hvoter : vote.voter = r := (congrArg Vote.voter heq).trans hok.id
        rw [hvoter]
        exact ⟨Deployment.mem_members (Deployment.getPubkey_correct hr),
          fun _ => (hok.ledger _).mp hacc⟩
      · exact hvouched
    · have hmis := he.2.2.2
      rw [hview.certs.getD_hash] at hmis
      exact absurd hP hmis

theorem BlocksOk.certified (hok : BlocksOk D L r c) (hne : h ≠ D.env.genesisHash)
    (hcard : (c.blk h).voted.card = c.config.nmajority) : Certified D.quorums L h := by
  refine ⟨(c.blk h).voted, ⟨fun v hv => (hok.voted h hne v hv).1, ?_⟩,
    fun v hv hgood => (hok.voted h hne v hv).2 hgood⟩
  rw [Deployment.size_quorums, hcard, hok.config]

theorem BlocksOk.backed_qcRef (hview : ViewOk D c) (hok : BlocksOk D L r c)
    (hd : (c.blk h).delivered = true) (hq : (c.blk h).qcRef = some t) : Backed D L t := by
  obtain ⟨u, hu, hb⟩ := hok.justified h hd
  rw [← hview.qcRef hd, hq] at hu
  cases hu
  exact hb

/-! Registers. -/

theorem ChainOk.mono (hok : ChainOk D L r c) (hsub : L ⊆ L')
    (hown : ∀ h, (r, h) ∈ L' ↔ (r, h) ∈ L) : ChainOk D L' r c :=
  { hok with
    hqc_backed := hok.hqc_backed.mono hsub
    lock_backed := hok.lock_backed.mono hsub
    committed := hok.committed.mono hsub
    held := fun v b hv hlink => hok.held v b ((hown v).mp hv) hlink }

theorem ChainOk.of_same (hok : ChainOk D L r c) (hg : Grows c c') (hhqc : c'.hqc = c.hqc)
    (hlock : c'.bLock = c.bLock) (hexec : c'.bExec = c.bExec) : ChainOk D L r c' := by
  refine ⟨?_, ?_, ?_, ?_, ?_, ?_, ?_, ?_, ?_⟩ <;> simp only [hhqc, hlock, hexec]
  · exact hg.delivered hok.hqc_delivered
  · exact hg.delivered hok.lock_delivered
  · exact hok.hqc_backed
  · exact hok.lock_backed
  · exact hok.committed
  · exact hok.exec_le_lock
  · exact hok.held
  · exact hok.lock_le_hqc
  · exact hok.lock_lt_hqc

theorem ChainOk.raiseHqc {qc : QuorumCert K} (hview : ViewOk D c) (hblocks : BlocksOk D L r c)
    (hok : ChainOk D L r c) (he : Allowed D.env c (.raiseHqc h qc)) :
    ChainOk D L r (Effects.apply D.env c (.raiseHqc h qc)) := by
  have hg := grows_apply he
  obtain ⟨hlt, hwhy⟩ := he
  have hd : (c.blk h).delivered = true := hview.delivered_of_height_pos (Nat.zero_lt_of_lt hlt)
  rw [← hview.height hd, ← hview.height hok.hqc_delivered] at hlt
  have hbacked : Backed D L h := by
    rcases hwhy with ⟨n, hn, hq, _⟩ | ⟨_, _, hcard⟩
    · exact hblocks.backed_qcRef hview hn hq
    · by_cases hne : h = D.env.genesisHash
      · exact .inl hne
      · exact .inr (hblocks.certified hne hcard)
  have hle := hok.lock_le_hqc
  exact
    { hqc_delivered := hg.delivered hd
      lock_delivered := hg.delivered hok.lock_delivered
      hqc_backed := hbacked
      lock_backed := hok.lock_backed
      committed := hok.committed
      exec_le_lock := hok.exec_le_lock
      held := hok.held
      lock_le_hqc := (Nat.lt_of_le_of_lt hle hlt).le
      lock_lt_hqc := fun _ => .inr (Nat.lt_of_le_of_lt hle hlt) }

theorem ChainOk.raiseLock (hL : Valid D.forest D.quorums L) (hview : ViewOk D c)
    (hblocks : BlocksOk D L r c) (hok : ChainOk D L r c) (he : Allowed D.env c (.raiseLock h)) :
    ChainOk D L r (Effects.apply D.env c (.raiseLock h)) := by
  have hg := grows_apply he
  obtain ⟨hlt, n, t, hn, hq, hle, hlock⟩ := he
  have hd : (c.blk h).delivered = true := hview.delivered_of_height_pos (Nat.zero_lt_of_lt hlt)
  rw [← hview.height hd, ← hview.height hok.lock_delivered] at hlt
  have ht := hblocks.backed_qcRef hview hn hq
  have hhqc : ∀ {y : Uint256}, (c.blk y).delivered = true →
      (c.blk y).height ≤ (c.blk c.hqc.1).height →
      D.forest.height y ≤ D.forest.height c.hqc.1 := by
    intro y hy hyle
    rw [hview.height hy, hview.height hok.hqc_delivered]
    exact hyle
  have hraised : Backed D L h ∧ D.forest.height h ≤ D.forest.height c.hqc.1 ∧
      (D.env.twoStep = false → D.forest.height h < D.forest.height c.hqc.1) := by
    cases htwo : D.env.twoStep with
    | true =>
        have heq : h = t := by
          simp only [lockRef, htwo, if_true] at hlock
          rw [hq] at hlock
          exact (Option.some.inj hlock).symm
        subst heq
        exact ⟨ht, hhqc hd hle, Bool.noConfusion⟩
    | false =>
        have hqt : (c.blk t).qcRef = some h := by
          simp only [lockRef, htwo, Bool.false_eq_true, if_false] at hlock
          rw [hq] at hlock
          exact hlock
        have htd := hview.tree.delivered_of_qcRef hqt
        have hht : D.forest.height h < D.forest.height t := by
          rcases ht with rfl | hcert
          · rw [hview.tree.genesis.qcRef] at hqt
            cases hqt
            rw [← Deployment.root_forest, Forest.height_root] at hlt
            exact absurd hlt (Nat.not_lt_zero _)
          · exact hL.certified_qc_lt hcert ((hview.qcRef htd).symm.trans hqt)
        have hlt' := Nat.lt_of_lt_of_le hht (hhqc htd hle)
        exact ⟨hblocks.backed_qcRef hview htd hqt, hlt'.le, fun _ => hlt'⟩
  obtain ⟨hbacked, hleq, hltq⟩ := hraised
  exact
    { hqc_delivered := hg.delivered hok.hqc_delivered
      lock_delivered := hg.delivered hd
      hqc_backed := hok.hqc_backed
      lock_backed := hbacked
      committed := hok.committed
      exec_le_lock := hok.exec_le_lock.trans hlt.le
      held := fun v b hv hlink => (hok.held v b hv hlink).trans hlt.le
      lock_le_hqc := hleq
      lock_lt_hqc := fun htwo => .inr (hltq htwo) }

/-- What `update` is about to commit is committed in the ledger, and the lock is above it. -/
theorem committed_of_commitReady (hview : ViewOk D c) (hblocks : BlocksOk D L r c)
    (hchain : ChainOk D L r c) (hready : CommitReady D.env c h) :
    Committed D.forest D.quorums (chainLength D.env) L h ∧
      D.forest.height h < D.forest.height c.bLock := by
  obtain ⟨n, t, p, hn, hq, hdec, hlink, hlock, hdecp, hp, hle⟩ := hready.chain
  have hcert : Certified D.quorums L t := by
    refine (hblocks.backed_qcRef hview hn hq).resolve_left ?_
    rintro rfl
    rw [(hview.commits.decided _).mpr (.inl rfl)] at hdec
    cases hdec
  -- The block to lock is `t` itself or its first parent.
  have hdelivered : (c.blk t).delivered = true ∧ (c.blk p).delivered = true := by
    cases htwo : D.env.twoStep with
    | true =>
        have hlen : chainLength D.env = 1 := by simp [chainLength, htwo]
        rw [hlen] at hlink
        obtain ⟨q, hqt, _, _⟩ := hlink
        have htd := hview.tree.delivered_of_qcRef hqt
        simp only [lockRef, htwo, if_true] at hlock
        rw [hq] at hlock
        cases hlock
        exact ⟨htd, htd⟩
    | false =>
        have hlen : chainLength D.env = 2 := by simp [chainLength, htwo]
        rw [hlen] at hlink
        obtain ⟨q, hqt, hpt, _⟩ := hlink
        have htd := hview.tree.delivered_of_qcRef hqt
        simp only [lockRef, htwo, Bool.false_eq_true, if_false] at hlock
        rw [hq] at hlock
        have hqp : (c.blk t).qcRef = some p := hlock
        rw [hqt] at hqp
        cases hqp
        rw [← firstParent_eq htd] at hpt
        exact ⟨htd, (hview.tree.delivered_firstParent hpt).1⟩
  obtain ⟨htd, hpd⟩ := hdelivered
  refine ⟨.inr ⟨t, hcert, (hview.linked_iff htd).mpr hlink⟩, ?_⟩
  rw [← firstParent_eq hpd] at hp
  have hheight := ((hview.rooted hpd).of_parent (hview.parent hp)).2
  rw [← hview.height hpd, ← hview.height hchain.lock_delivered] at hle
  omega

theorem ChainOk.commit {queue : List Uint256} (hview : ViewOk D c) (hblocks : BlocksOk D L r c)
    (hok : ChainOk D L r c) (he : Allowed D.env c (.commit queue h)) :
    ChainOk D L r (Effects.apply D.env c (.commit queue h)) := by
  have hg := grows_apply he
  obtain ⟨hcommitted, hlt⟩ := committed_of_commitReady hview hblocks hok he.1
  have hhqc := hqc_apply D.env c (e := .commit queue h) nofun
  have hlock := bLock_apply D.env c (e := .commit queue h) nofun
  refine ⟨?_, ?_, ?_, ?_, hcommitted, ?_, ?_, ?_, ?_⟩ <;> simp only [hhqc, hlock]
  · exact hg.delivered hok.hqc_delivered
  · exact hg.delivered hok.lock_delivered
  · exact hok.hqc_backed
  · exact hok.lock_backed
  · exact hlt.le
  · exact hok.held
  · exact hok.lock_le_hqc
  · exact hok.lock_lt_hqc

theorem ChainOk.apply (hL : Valid D.forest D.quorums L) (hview : ViewOk D c)
    (hblocks : BlocksOk D L r c) (hok : ChainOk D L r c) (he : Allowed D.env c e) :
    ChainOk D L r (Effects.apply D.env c e) := by
  have hsame : (∀ h qc, e ≠ .raiseHqc h qc) → (∀ h, e ≠ .raiseLock h) →
      (∀ queue h, e ≠ .commit queue h) → ChainOk D L r (Effects.apply D.env c e) :=
    fun hhqc hlock hexec => hok.of_same (grows_apply he) (hqc_apply D.env c hhqc)
      (bLock_apply D.env c hlock) (bExec_apply D.env c hexec)
  cases e with
  | raiseHqc h qc => exact hok.raiseHqc hview hblocks he
  | raiseLock h => exact hok.raiseLock hL hview hblocks he
  | commit queue h => exact hok.commit hview hblocks he
  | _ => exact hsame nofun nofun nofun

end ArchipelagoHotStuff.Network.Chains
