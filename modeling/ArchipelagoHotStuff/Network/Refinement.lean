/- Module: ArchipelagoHotStuff/Network/Refinement
   digest: The network refines the ledger of acceptances: a step of a correct replica adds to the
     ledger what the replica accepts, and each acceptance is admissible. -/

import ArchipelagoHotStuff.Network.Chains

set_option autoImplicit false
set_option relaxedAutoImplicit false

namespace ArchipelagoHotStuff.Network.Refinement

open Crypto.Wire Crypto.Certificates
open Consensus Consensus.State Consensus.Handlers Consensus.Effects Consensus.Tree
open Consensus.Ballots Consensus.Trails Consensus.Machine Consensus.Voting Consensus.CommitLog
open Network.Model Network.Views Network.Chains
open General.Transition General.ParentTree General.VoteLedger

variable {K : Secp256k1} {D : Deployment K} {c c' : HotStuffCore K} {e : Effect K}
  {L L' : Ledger ReplicaID Uint256} {r : ReplicaID} {b h t x : Uint256} {s s' : Replicas K}

/-- A correct replica as the ledger shows it. -/
structure JoinedOk (D : Deployment K) (L : Ledger ReplicaID Uint256) (r : ReplicaID)
    (c : HotStuffCore K) : Prop where
  view : ViewOk D c
  blocks : BlocksOk D L r c
  chain : ChainOk D L r c

theorem JoinedOk.mono (hok : JoinedOk D L r c) (hsub : L ⊆ L')
    (hown : ∀ h, (r, h) ∈ L' ↔ (r, h) ∈ L) : JoinedOk D L' r c :=
  ⟨hok.view, hok.blocks.mono hsub hown, hok.chain.mono hsub hown⟩

theorem JoinedOk.apply (hr : D.Correct r) (hL : Valid D.forest D.quorums L)
    (hok : JoinedOk D L r c) (hP : Vouched D L e) (he : Allowed D.env c e)
    (hn : ∀ h, ¬ Accepts h e) : JoinedOk D L r (Effects.apply D.env c e) :=
  ⟨hok.view.apply hP.contents he,
    hok.blocks.apply hr hok.view hok.chain.hqc_backed hP he hn,
    hok.chain.apply hL hok.view hok.blocks he⟩

theorem JoinedOk.start (D : Deployment K) (r : ReplicaID) :
    JoinedOk D [] r (D.start r).core := by
  have hgenesis : (D.start r).core.blk D.env.genesisHash =
      HotStuffCore.genesis D.env D.config := by
    simp [Deployment.start, HotStuffCore.start, HotStuffCore.blk]
  have hother : ∀ h, h ≠ D.env.genesisHash → (D.start r).core.blk h = .absent := by
    intro h hh
    simp [Deployment.start, HotStuffCore.start, HotStuffCore.blk, hh]
  have hdelivered : ((D.start r).core.blk D.env.genesisHash).delivered = true := by
    rw [hgenesis]
    rfl
  have hview : ViewOk D (D.start r).core :=
    ⟨⟨.start _ _ _ _ _, .start _ _ _ _ _, .start _ _ _ _ _, .start _ _ _ _ _⟩,
      NodeOk.start D r⟩
  have hblocks : BlocksOk D [] r (D.start r).core := by
    refine ⟨rfl, rfl, fun h => ?_, fun h hd => ?_, fun h hne v hv => ?_⟩
    · exact ⟨(fun hmem => by cases hmem), (fun hmem => by cases hmem)⟩
    · by_cases hh : h = D.env.genesisHash
      · exact ⟨D.env.genesisHash, by rw [hh]; exact Deployment.qc_root, .inl rfl⟩
      · rw [hother h hh] at hd
        cases hd
    · rw [hother h hne] at hv
      cases hv
  exact ⟨hview, hblocks, ⟨hdelivered, hdelivered, .inl rfl, .inl rfl, .inl rfl, le_rfl,
    (fun _ _ hmem => by cases hmem), le_rfl, fun _ => .inl ⟨rfl, rfl⟩⟩⟩

/-! Accepting a block. -/

theorem allowed_accepts_processed (he : Allowed D.env c e) (ha : Accepts h e) :
    Processed D.env c h := by
  cases e with
  | accept k offLock =>
      cases ha
      exact he.2.2.1
  | acceptOwn k data offLock =>
      cases ha
      exact he.2.2.1
  | _ => exact absurd ha id

theorem apply_accepts (ha : Accepts h e) : Effects.apply D.env c e = c.accept h := by
  cases e with
  | accept k offLock =>
      cases ha
      rfl
  | acceptOwn k data offLock =>
      cases ha
      rfl
  | _ => exact absurd ha id

theorem contents_accepts (ha : Accepts h e) : Contents D e := by
  cases e <;> first | exact trivial | exact absurd ha id

theorem JoinedOk.admissible (hr : D.Correct r) (hok : JoinedOk D L r c)
    (he : Allowed D.env c e) (ha : Accepts h e) :
    Admissible D.forest D.quorums L r h := by
  obtain ⟨hd, hlt, _⟩ := allowed_accepts he ha
  refine ⟨hr.2, hok.view.rooted hd, ?_, ?_, hok.blocks.justified h hd⟩
  · rintro rfl
    have hzero : (c.blk D.forest.root).height = 0 := hok.view.tree.genesis.height
    omega
  · intro v hv
    have hacc := (hok.blocks.ledger v).mpr hv
    rw [hok.view.height (hok.view.voting.delivered v hacc), hok.view.height hd]
    exact Nat.lt_of_le_of_lt (hok.view.voting.height_le hacc) hlt

theorem JoinedOk.linked_le (hok : JoinedOk D L r c) (hd : (c.blk h).delivered = true)
    (hproc : Processed D.env c h)
    (hlink : General.VoteLedger.Linked D.forest (chainLength D.env) h b) :
    D.forest.height b ≤ D.forest.height c.bLock := by
  have hdecided : ∀ y, (c.blk y).decision = true → D.forest.height y ≤ D.forest.height c.bLock :=
    fun y hy => (hok.view.decided_le hy).trans hok.chain.exec_le_lock
  have hlocal : ∀ y, (c.blk y).delivered = true → (c.blk y).height ≤ (c.blk c.bLock).height →
      D.forest.height y ≤ D.forest.height c.bLock := by
    intro y hy hle
    rw [hok.view.height hy, hok.view.height hok.chain.lock_delivered]
    exact hle
  have hbelow := (hlink.rooted (hok.view.rooted hd)).2
  have hlink' := (hok.view.linked_iff hd).mp hlink
  have hbd := Linked.delivered hok.view.tree hd hlink'
  cases htwo : D.env.twoStep with
  | true =>
      have hlen : chainLength D.env = 1 := by simp [chainLength, htwo]
      rw [hlen] at hlink'
      obtain ⟨p, hq, _, hpb⟩ := hlink'
      cases hpb
      rcases hproc b hq with hdec | ⟨_, hall⟩
      · exact hdecided b hdec
      · have hlock : lockRef D.env c h = some b := by simp [lockRef, htwo, hq]
        rcases hall b hlock with hdec | hle
        · exact hdecided b hdec
        · exact hlocal b hbd hle
  | false =>
      have hlen : chainLength D.env = 2 := by simp [chainLength, htwo]
      rw [hlen] at hlink'
      obtain ⟨p, hq, hp, q, hpq, hqp, hqb⟩ := hlink'
      cases hqb
      rw [← firstParent_eq hd] at hp
      have hpd := (hok.view.tree.delivered_firstParent hp).1
      rw [← firstParent_eq hpd] at hqp
      rcases hproc p hq with hdec | ⟨_, hall⟩
      · have hheight := ((hok.view.rooted hpd).of_parent (hok.view.parent hqp)).2
        have hle := hdecided p hdec
        omega
      · have hlock : lockRef D.env c h = some b := by simp [lockRef, htwo, hq, hpq]
        rcases hall b hlock with hdec | hle
        · exact hdecided b hdec
        · exact hlocal b hbd hle

theorem JoinedOk.accept (hok : JoinedOk D L r c) (he : Allowed D.env c e) (ha : Accepts h e) :
    JoinedOk D ((r, h) :: L) r (Effects.apply D.env c e) := by
  have hview := hok.view.apply (contents_accepts ha) he
  have hsub : L ⊆ (r, h) :: L := List.subset_cons_self _ _
  have hd := (allowed_accepts he ha).1
  have hproc := allowed_accepts_processed he ha
  have hlinked : ∀ b, General.VoteLedger.Linked D.forest (chainLength D.env) h b →
      D.forest.height b ≤ D.forest.height c.bLock :=
    fun b hlink => hok.linked_le hd hproc hlink
  rw [apply_accepts ha] at hview ⊢
  refine ⟨hview, ?_, ?_⟩
  · refine ⟨hok.blocks.id, hok.blocks.config, fun x => ?_,
      fun x hx => (hok.blocks.justified x hx).mono hsub, fun x hne v hv => ?_⟩
    · show .accept x ∈ Event.accept h :: c.trace ↔ _
      rw [List.mem_cons, List.mem_cons, hok.blocks.ledger x]
      simp
    · obtain ⟨hmem, hvote⟩ := hok.blocks.voted x hne v hv
      exact ⟨hmem, fun hgood => hsub (hvote hgood)⟩
  · have hchain := hok.chain
    refine ⟨hchain.hqc_delivered, hchain.lock_delivered, hchain.hqc_backed.mono hsub,
      hchain.lock_backed.mono hsub, hchain.committed.mono hsub, hchain.exec_le_lock, ?_,
      hchain.lock_le_hqc, hchain.lock_lt_hqc⟩
    intro v b hv hlink
    rcases List.mem_cons.mp hv with heq | hold
    · cases heq
      exact hlinked b hlink
    · exact hchain.held v b hold hlink

/-! Runs of effects. -/

/-- Ledgers whose acceptances keep a rule. -/
abbrev ruledLedgers (D : Deployment K)
    (rule : Ledger ReplicaID Uint256 → ReplicaID × Uint256 → Prop) :
    System (Ledger ReplicaID Uint256) (ReplicaID × Uint256) :=
  (ledgers D.forest D.quorums).restrict rule

def Keeps (D : Deployment K) (rule : Ledger ReplicaID Uint256 → ReplicaID × Uint256 → Prop)
    (G : Effect K → Prop) : Prop :=
  ∀ L r c e h, Reachable (ruledLedgers D rule) L → D.Correct r → JoinedOk D L r c → G e →
    Allowed D.env c e → Accepts h e → rule L (r, h)

section simulation

variable {rule : Ledger ReplicaID Uint256 → ReplicaID × Uint256 → Prop} {G : Effect K → Prop}

/-- The ledger after a replica `r` has run some effects: the entries of the others are as
before. -/
structure Extended (D : Deployment K)
    (rule : Ledger ReplicaID Uint256 → ReplicaID × Uint256 → Prop) (r : ReplicaID)
    (L L' : Ledger ReplicaID Uint256) : Prop where
  steps : Steps (ruledLedgers D rule) L L'
  subset : L ⊆ L'
  others : ∀ r' h, r' ≠ r → ((r', h) ∈ L' ↔ (r', h) ∈ L)

theorem Extended.refl (L : Ledger ReplicaID Uint256) : Extended D rule r L L :=
  ⟨.refl, List.Subset.refl _, fun _ _ _ => Iff.rfl⟩

theorem extended_apply (hkeeps : Keeps D rule G) (hr : D.Correct r)
    (hreach : Reachable (ruledLedgers D rule) L) (hext : Extended D rule r L L')
    (hok : JoinedOk D L' r c) (hP : Vouched D L e) (hG : G e) (he : Allowed D.env c e) :
    ∃ M, Extended D rule r L M ∧ JoinedOk D M r (Effects.apply D.env c e) := by
  have hreach' := hreach.trans hext.steps
  by_cases hacc : ∃ h, Accepts h e
  · obtain ⟨h, ha⟩ := hacc
    refine ⟨(r, h) :: L', ⟨?_, ?_, ?_⟩, hok.accept he ha⟩
    · exact hext.steps.tail ⟨(r, h), hkeeps L' r c e h hreach' hr hok hG he ha,
        hok.admissible hr he ha, rfl⟩
    · exact List.Subset.trans hext.subset (List.subset_cons_self _ _)
    · intro r' h' hne
      rw [← hext.others r' h' hne]
      simp [hne]
  · have hL' := valid_of_reachable hreach'.of_restrict
    exact ⟨L', hext, hok.apply hr hL' (hP.mono hext.subset) he (fun h ha => hacc ⟨h, ha⟩)⟩

theorem extended_trail (hkeeps : Keeps D rule G) (hr : D.Correct r)
    (hreach : Reachable (ruledLedgers D rule) L) (hok : JoinedOk D L r c)
    (htrail : Trail D.env (fun e => Vouched D L e ∧ G e) c c') :
    ∃ L', Extended D rule r L L' ∧ JoinedOk D L' r c' := by
  refine Trail.invariant (I := fun d => ∃ L', Extended D rule r L L' ∧ JoinedOk D L' r d) htrail
    ⟨L, .refl L, hok⟩ ?_
  rintro d e ⟨hP, hG⟩ ⟨L', hext, hok'⟩ he
  exact extended_apply hkeeps hr hreach hext hok' hP hG he

/-! Steps of the network. -/

/-- A ledger and the correct replicas agree. -/
def Joined (D : Deployment K) (s : Replicas K) (L : Ledger ReplicaID Uint256) : Prop :=
  ∀ r, D.Correct r → JoinedOk D L r (s r).core

/-- A genuine signature of a correct replica is backed by its acceptance. -/
theorem Joined.accepted_of_genuine (hj : Joined D s L) {sig : K.Sig} {pubkey : K.PubKey}
    (hgen : D.Genuine s r h sig) (hkey : D.config.getPubkey r = .ok pubkey)
    (hvalid : K.verify h pubkey sig = true) :
    r ∈ D.quorums.members ∧ (r ∉ D.quorums.faulty → (r, h) ∈ L) := by
  have hmem := Deployment.mem_members hkey
  refine ⟨hmem, fun hgood => ?_⟩
  have hr := Deployment.correct_of_mem hmem hgood
  have hok := hj r hr
  exact (hok.blocks.ledger h).mp (hok.view.voting.signed h (hgen hr pubkey hkey hvalid))

theorem Joined.backed_of_verifies (hj : Joined D s L) {qc : QuorumCert K} (hwf : qc.Wf)
    (hv : D.Verifies s qc) : Backed D L qc.objHash := by
  rcases hv with hroot | ⟨hverify, hgen⟩
  · exact .inl hroot
  · refine .inr ⟨qc.signers, ⟨fun v hv => ?_, ?_⟩, fun v hv hgood => ?_⟩
    · obtain ⟨sig, pubkey, _, hkey, _⟩ := QuorumCert.valid_of_verify hwf hverify hv
      exact Deployment.mem_members hkey
    · rw [Deployment.size_quorums]
      exact QuorumCert.nmajority_le_of_verify hverify
    · obtain ⟨sig, pubkey, hsig, hkey, hvalid⟩ := QuorumCert.valid_of_verify hwf hverify hv
      have hentry := hgen ⟨v, sig⟩ (AList.mem_lookup_iff.mp hsig)
      exact (hj.accepted_of_genuine hentry hkey hvalid).2 hgood

theorem names_forest (hview : ViewOk D c) {cmds parents : List Uint256}
    {extra : List UInt8} (hn : D.Names (c.newData cmds parents extra))
    (hne : D.env.getHash (c.newData cmds parents extra) ≠ D.env.genesisHash) :
    D.forest.parent (D.env.getHash (c.newData cmds parents extra)) = parents.head? ∧
      D.forest.qc (D.env.getHash (c.newData cmds parents extra)) = some c.hqc.1 := by
  refine ⟨Deployment.parent_forest hne hn, ?_⟩
  rw [Deployment.qc_forest hne hn]
  show some c.hqc.2.objHash = _
  rw [hview.certs.hqc_hash]

/-- A replica builds and votes for its own block with vouched effects only. -/
theorem JoinedOk.vouched_of_proposes (hok : JoinedOk D L r c) {cmds parents : List Uint256}
    {extra : List UInt8} (hnames : D.Names (c.newData cmds parents extra))
    (hparents : ∀ p ∈ parents, (c.blk p).delivered = true)
    (he : Proposes D.env c (c.newData cmds parents extra) e) : Vouched D L e := by
  cases e with
  | create data =>
      obtain rfl := he
      exact hnames
  | deliver k =>
      obtain ⟨rfl, _⟩ := he
      by_cases hne : D.env.getHash (c.newData cmds parents extra) = D.env.genesisHash
      · exact ⟨D.env.genesisHash, by rw [hne]; exact Deployment.qc_root, .inl rfl⟩
      · exact ⟨_, (names_forest hok.view hnames hne).2, hok.chain.hqc_backed⟩
  | spoil k ps height =>
      obtain ⟨rfl, hs, hund, hnot, hne⟩ := he
      have hk : D.env.getHash (c.newData cmds parents extra) ≠ D.env.genesisHash := by
        intro heq
        rw [heq, hok.view.tree.genesis.delivered] at hund
        cases hund
      have hsame := ((hok.view.nodes _).named hk hs).symm.trans hnames
      obtain ⟨hps, hqc⟩ := Prod.mk.inj (Option.some.inj hsame)
      refine absurd ⟨?_, ?_, ?_⟩ hnot
      · rw [hps]
        exact hne
      · rw [hps]
        exact hparents
      · rw [hqc]
        show (c.storage c.hqc.2.objHash).isSome
        rw [hok.view.certs.hqc_hash]
        exact hok.view.certs.hqc_stored
  | count vote own qc => exact .inl he.2
  | miscount vote => exact he.2
  | store data => exact absurd he id
  | _ => exact trivial

theorem JoinedOk.hqc_stored (hok : JoinedOk D L r c) :
    (c.storage c.hqc.2.objHash).isSome := by
  rw [hok.view.certs.hqc_hash]
  exact hok.view.certs.hqc_stored

theorem covers_vouched {a : ReplicaID × Input K} (hj : Joined D s L)
    (hstep : D.network.step s a s') :
    Covers D.env (s a.1) (Vouched D L) a.2 := by
  obtain ⟨r, i⟩ := a
  obtain ⟨hr, hadm, hadv⟩ := hstep
  have hok := hj r hr
  have hself := (Deployment.advance_eq hadv).1
  cases i with
  | fetch data => exact ⟨hadm.1, hadm.2.1⟩
  | deliver h =>
      obtain ⟨_, hs, _⟩ := step_deliver hself
      obtain ⟨hparents, hqc, hverifies⟩ := hadm
      intro e he
      cases e with
      | deliver k =>
          obtain rfl : k = h := he
          show Justified D L k
          cases hd : ((s r).core.blk k).delivered with
          | true => exact hok.blocks.justified k hd
          | false =>
              have hne : k ≠ D.env.genesisHash := by
                rintro rfl
                rw [hok.view.tree.genesis.delivered] at hd
                cases hd
              exact ⟨_, Deployment.qc_forest hne ((hok.view.nodes k).named hne hs),
                hj.backed_of_verifies ((hok.view.nodes k).wf hs hd) hverifies⟩
      | spoil k parents height =>
          obtain ⟨rfl, hne, hnot⟩ := he
          exact absurd ⟨hne, hparents, hqc⟩ hnot
      | _ => exact absurd he id
  | propose cmds parents extra =>
      have hparents := (step_propose hok.hqc_stored hself).1
      exact ⟨fun e he => hok.vouched_of_proposes hadm hparents he, trivial⟩
  | receiveProposal prop =>
      refine ⟨fun e he => ?_, trivial, trivial⟩
      cases e <;> first | exact trivial | exact absurd he id
  | receiveVote vote =>
      obtain ⟨hverify, hgen⟩ := hadm
      obtain ⟨hhash, pubkey, hkey, hvalid⟩ := Vote.verify_true hverify
      intro e he
      cases e with
      | count v own qc =>
          obtain ⟨rfl, _⟩ := he
          refine .inr (hj.accepted_of_genuine hgen hkey ?_)
          rw [← hhash]
          exact hvalid
      | miscount v =>
          obtain rfl := he
          exact hhash
      | raiseHqc _ _ => exact trivial
      | wake _ => exact trivial
      | _ => exact absurd he id
  | wait h => exact trivial
  | resume => exact ⟨fun _ => trivial, fun _ => trivial, fun _ => trivial⟩

theorem vouched_outputs (hG : Outputs G) : Outputs (fun e => Vouched D L e ∧ G e) :=
  ⟨fun e => ⟨trivial, hG.throw e⟩, fun h => ⟨trivial, hG.broadcast h⟩,
    fun q v => ⟨trivial, hG.sendVote q v⟩⟩

/-- A network all of whose steps have effects that keep a rule refines the ledgers that keep it. -/
def refinement {ok : Replicas K → ReplicaID × Input K → Prop} (hkeeps : Keeps D rule G)
    (hG : Outputs G)
    (hcovers : ∀ s a L, Reachable (D.network.restrict ok) s → ok s a → D.Correct a.1 →
      D.Admits s a.1 a.2 → Joined D s L → Covers D.env (s a.1) G a.2) :
    Simulation (D.network.restrict ok) (ruledLedgers D rule) where
  rel := Joined D
  init := by
    rintro s rfl
    exact ⟨[], rfl, fun r _ => .start D r⟩
  step := by
    rintro s a s' L hs hL hj ⟨hok, hstep⟩
    have hcov := covers_and (covers_vouched hj hstep)
      (hcovers s a L hs hok hstep.1 hstep.2.1 hj)
    obtain ⟨htrail, hother⟩ := step_effects hs.of_restrict hcov (vouched_outputs hG) hstep
    obtain ⟨L', hext, hacts⟩ := extended_trail hkeeps hstep.1 hL (hj a.1 hstep.1) htrail
    refine ⟨L', hext.steps, fun r hr => ?_⟩
    by_cases hra : r = a.1
    · exact hra ▸ hacts
    · rw [hother r hra]
      exact (hj r hr).mono hext.subset (fun h => hext.others r h hra)

end simulation

theorem joined_of_reachable (hs : Reachable D.network s) :
    ∃ L, Reachable (ruledLedgers D (fun _ _ => True)) L ∧ Joined D s L := by
  have hkeeps : Keeps D (fun _ _ => True) (fun _ : Effect K => True) :=
    fun _ _ _ _ _ _ _ _ _ _ _ => trivial
  exact (show Simulation (D.network.restrict (fun _ _ => True)) _ from
    refinement hkeeps ⟨fun _ => trivial, fun _ => trivial, fun _ _ => trivial⟩
      (fun s a _ _ _ _ _ _ => covers_true D.env (s a.1) a.2)).reachable
    (hs.restrict (fun _ _ => trivial))

theorem valid_of_ruled {rule : Ledger ReplicaID Uint256 → ReplicaID × Uint256 → Prop}
    (hL : Reachable (ruledLedgers D rule) L) : Valid D.forest D.quorums L :=
  valid_of_reachable hL.of_restrict

end ArchipelagoHotStuff.Network.Refinement
