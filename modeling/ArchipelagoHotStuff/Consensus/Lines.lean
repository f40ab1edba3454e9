/- Module: ArchipelagoHotStuff/Consensus/Lines
   source: consensus.cpp (on_propose, on_receive_vote, update)
   digest: A replica whose blocks are all its own: they stand in a line, the next one can be built
     on the last as soon as that has its certificate, and b_exec follows at a fixed distance. -/

import ArchipelagoHotStuff.Consensus.Leading
import ArchipelagoHotStuff.Consensus.Setup
import ArchipelagoHotStuff.Crypto.Bitmaps

set_option autoImplicit false
set_option relaxedAutoImplicit false

namespace ArchipelagoHotStuff.Consensus.Lines

open Crypto.Wire Crypto.Certificates Crypto.Bitmaps
open State Handlers Effects Consensus.Tree Trails Machine
open Ballots CommitLog Voting HighTail Stages FailedProposals Duplicates Levels Leading
open General.ParentTree General.Transition

variable {K : Secp256k1} {env : Env K} {c c' d : HotStuffCore K} {b h m p x y : Uint256}
  {older : List Uint256}

/-- The blocks of the replica in a line from the last one down to the genesis block, each of which
certifies the one below it; there are no others. -/
structure Line (env : Env K) (c : HotStuffCore K) (m : Uint256) (older : List Uint256) : Prop where
  linked : (m :: older).IsChain (Certifies c)
  root : (m :: older).getLast? = some env.genesisHash
  stored : ∀ h, (c.storage h).isSome → h ∈ m :: older
  tails : c.tails = [m]
  leads : older ≠ [] → Leads env c m
  start : older = [] → c.hqc.1 = m ∧ c.hqcTail = m ∧ c.vheight = 0
  seated : ∀ r, r ∈ c.config.replicaMap → r ∈ (c.blk env.genesisHash).voted
  sole : c.config.nmajority ≤ 1 → Complete c m
  executed : (c.blk c.bExec).height = older.length - (chainLength env + 1)

/-! Places in a row. -/

theorem height_of_place {l : List Uint256} {j : Nat} (htree : TreeOk env c)
    (hrow : (b :: l).IsChain (Certifies c)) (hx : (b :: l)[j]? = some x) :
    (c.blk x).height + j = (c.blk b).height := by
  induction l generalizing b j with
  | nil =>
      cases j with
      | zero =>
          obtain rfl : b = x := Option.some.inj hx
          rfl
      | succ j => simp at hx
  | cons q l ih =>
      obtain ⟨hb, hrow⟩ := List.isChain_cons_cons.mp hrow
      cases j with
      | zero =>
          obtain rfl : b = x := Option.some.inj hx
          rfl
      | succ j =>
          rw [List.getElem?_cons_succ] at hx
          have hq := ih hrow hx
          have hnext := (htree.delivered_firstParent hb.1).2
          omega

namespace Line

variable (hline : Line env c m older)
include hline

theorem height (htree : TreeOk env c) : (c.blk m).height = older.length := by
  rw [height_of_row htree hline.linked hline.root, htree.genesis.height, Nat.zero_add]

theorem height_at {j : Nat} (htree : TreeOk env c) (hx : (m :: older)[j]? = some x) :
    (c.blk x).height + j = older.length := by
  rw [height_of_place htree hline.linked hx, hline.height htree]

theorem height_le (htree : TreeOk env c) (hx : x ∈ m :: older) :
    (c.blk x).height ≤ older.length := by
  obtain ⟨j, hj⟩ := List.mem_iff_getElem?.mp hx
  have hheight := hline.height_at htree hj
  omega

theorem eq_of_height (htree : TreeOk env c) (hx : x ∈ m :: older) (hy : y ∈ m :: older)
    (hheight : (c.blk x).height = (c.blk y).height) : x = y := by
  obtain ⟨j, hj⟩ := List.mem_iff_getElem?.mp hx
  obtain ⟨k, hk⟩ := List.mem_iff_getElem?.mp hy
  have hxj := hline.height_at htree hj
  have hyk := hline.height_at htree hk
  obtain rfl : j = k := by omega
  exact Option.some.inj (hj.symm.trans hk)

theorem mem_of_delivered (hd : (c.blk x).delivered = true) : x ∈ m :: older :=
  hline.stored x (isSome_of_delivered hd)

theorem lower (htree : TreeOk env c) (hx : x ∈ m :: older) (hne : x ≠ m) :
    (c.blk x).height < (c.blk m).height := by
  refine Nat.lt_of_le_of_ne ?_ (fun heq => hne ?_)
  · rw [hline.height htree]
    exact hline.height_le htree hx
  · exact hline.eq_of_height htree hx List.mem_cons_self heq

theorem delivered (htree : TreeOk env c) (hx : x ∈ m :: older) : (c.blk x).delivered = true := by
  obtain ⟨l, r, hsplit⟩ := List.append_of_mem hx
  cases r with
  | nil =>
      have hlast := hline.root
      rw [hsplit, List.getLast?_append, List.getLast?_singleton] at hlast
      obtain rfl : x = env.genesisHash := Option.some.inj hlast
      exact htree.genesis.delivered
  | cons q r =>
      have hlinked := hline.linked
      rw [hsplit] at hlinked
      have hxq := (List.isChain_cons_cons.mp (List.isChain_append.mp hlinked).2.1).1
      exact delivered_of_firstParent hxq.1

/-- Once the last block has its certificate, `hqc` and the tail of the pacemaker are that block. -/
theorem heads (htree : TreeOk env c) (hdone : Complete c m) :
    c.hqc.1 = m ∧ c.hqcTail = m ∧ c.vheight = older.length := by
  by_cases hnil : older = []
  · obtain ⟨hhqc, htail, hvheight⟩ := hline.start hnil
    refine ⟨hhqc, htail, ?_⟩
    rw [hvheight, hnil]
    rfl
  · have hlead := hline.leads hnil
    refine ⟨?_, hlead.tail hdone, hlead.vheight.trans (hline.height htree)⟩
    rcases hlead.tracks with ⟨hfew, _⟩ | ⟨_, hhqc⟩
    · exact absurd hdone hfew
    · exact hhqc

theorem foremost : Foremost c m := by
  intro t ht _
  rw [hline.tails] at ht
  rw [List.mem_singleton.mp ht]

end Line

/-! Votes. -/

section votes

variable {vote : Vote K} {woken : Bool}

theorem receiveVote_keeps (hres : c.onReceiveVote vote = .ok (woken, c')) :
    c'.tails = c.tails ∧ c'.id = c.id ∧ (∀ x, (c'.storage x).isSome = (c.storage x).isSome) ∧
      ∀ x, (c.blk x).voted ⊆ (c'.blk x).voted := by
  rcases receiveVote_parts hres with rfl | ⟨qc, hd, _, _, hend⟩
  · exact ⟨rfl, rfl, fun _ => rfl, fun _ => Finset.Subset.refl _⟩
  have hs := isSome_of_delivered hd
  have hvoted : ∀ x, (c.blk x).voted ⊆ ((counted c vote qc).blk x).voted := by
    intro x
    rw [voted_counted c vote qc x hs]
    split
    · exact Finset.subset_insert _ _
    · exact Finset.Subset.refl _
  have hstored : ∀ x, ((counted c vote qc).storage x).isSome = (c.storage x).isSome :=
    fun x => c.isSome_modifyBlk vote.blkHash x _
  rcases hend with ⟨_, rfl⟩ | ⟨_, heq⟩
  · exact ⟨rfl, rfl, hstored, hvoted⟩
  obtain ⟨woken', w, hfin⟩ := onQcFinish_eq
    (((counted c vote qc).emit (.quorum vote.blkHash qc)).updateHqc vote.blkHash qc) vote.blkHash
  rw [hfin] at heq
  cases heq
  rcases updateHqc_cases ((counted c vote qc).emit (.quorum vote.blkHash qc)) vote.blkHash qc with
    ⟨hsame, _⟩ | ⟨_, hsame⟩
  · rw [hsame]
    exact ⟨rfl, rfl, hstored, hvoted⟩
  · rw [hsame]
    exact ⟨rfl, rfl, hstored, hvoted⟩

/-- Whoever waits for the certificate of a block stops waiting with the vote that completes it. -/
theorem receiveVote_wakes (hres : c.onReceiveVote vote = .ok (woken, c')) :
    (c'.qcWaiting = c.qcWaiting ∧ ∀ x, Complete c' x → Complete c x) ∨
      (c'.qcWaiting = c.qcWaiting.erase vote.blkHash ∧ Complete c' vote.blkHash ∧
        ∀ x, x ≠ vote.blkHash → Complete c' x → Complete c x) := by
  rcases receiveVote_parts hres with rfl | ⟨qc, hd, hvoted, hmore, hend⟩
  · exact .inl ⟨rfl, fun _ => id⟩
  have hs := isSome_of_delivered hd
  have hother : ∀ x, x ≠ vote.blkHash → Complete (counted c vote qc) x → Complete c x := by
    intro x hx hdone
    unfold Complete at hdone ⊢
    rw [voted_counted c vote qc x hs, if_neg hx] at hdone
    exact hdone
  rcases hend with ⟨hnot, rfl⟩ | ⟨hlast, heq⟩
  · refine .inl ⟨rfl, fun x hdone => ?_⟩
    by_cases hx : x = vote.blkHash
    · subst hx
      unfold Complete at hdone ⊢
      rw [voted_counted c vote qc _ hs, if_pos rfl, Finset.card_insert_of_notMem hvoted] at hdone
      have hconfig : (counted c vote qc).config = c.config := rfl
      rw [hconfig] at hdone
      omega
    · exact hother x hx hdone
  · have hfull : Complete (counted c vote qc) vote.blkHash := by
      unfold Complete
      rw [voted_counted c vote qc _ hs, if_pos rfl, Finset.card_insert_of_notMem hvoted, hlast]
      exact le_rfl
    have hfin : ∀ e : HotStuffCore K, (e.onQcFinish vote.blkHash).2 =
        waiting e (e.qcWaiting.erase vote.blkHash) := by
      intro e
      unfold HotStuffCore.onQcFinish
      split
      · rfl
      · rename_i hnot
        rw [Finset.erase_eq_of_notMem hnot]
        rfl
    have heq' := congrArg Prod.snd heq
    rw [hfin] at heq'
    obtain rfl : c' = _ := heq'
    rcases updateHqc_cases ((counted c vote qc).emit (.quorum vote.blkHash qc)) vote.blkHash qc with
      ⟨hsame, _⟩ | ⟨_, hsame⟩
    · rw [hsame]
      exact .inr ⟨rfl, hfull, hother⟩
    · rw [hsame]
      exact .inr ⟨rfl, hfull, hother⟩

theorem Line.receiveVote (hline : Line env c m older) (htree : TreeOk env c)
    (hvalid : vote.verify c.config = .ok true)
    (hres : c.onReceiveVote vote = .ok (woken, c')) (hg : Grows c c') : Line env c' m older := by
  have hsame := receiveVote_same hres
  obtain ⟨htails, hid, hstored, hvoted⟩ := receiveVote_keeps hres
  have hmore : ∀ x, Complete c x → Complete c' x := by
    intro x hdone
    unfold Complete at hdone ⊢
    rw [hsame.config]
    exact hdone.trans (Finset.card_le_card (hvoted x))
  refine ⟨hline.linked.imp (fun _ _ hbq => hbq.grows hg), hline.root, fun h hs => ?_, ?_,
    fun hne => ?_, fun hnil => ?_, fun r hr => ?_, fun hone => ?_, ?_⟩
  · rw [hstored] at hs
    exact hline.stored h hs
  · rw [htails]
    exact hline.tails
  · have hlead := hline.leads hne
    have hlower : vote.blkHash ≠ m → (c.blk vote.blkHash).height < (c.blk m).height := by
      intro hm
      refine hline.lower htree (hline.stored _ ?_) hm
      cases hs : c.storage vote.blkHash with
      | some x => rfl
      | none =>
          -- A vote for a block that is not there is an error.
          simp [HotStuffCore.onReceiveVote, c.blk_of_none hs, Block.absent] at hres
          cases hres
    obtain ⟨htracks, htail⟩ := hlead.tracks.receiveVote hres (fun hm _ => hlower hm)
    refine ⟨hlead.accepted.imp_left (fun h => hg.trace.subset h), ?_, htracks,
      htail hlead.tail (fun _ _ => hline.foremost)⟩
    exact hsame.vheight.trans (hlead.vheight.trans (hsame.height m).symm)
  · -- All replicas sit on the genesis block from the start, so that votes for it do not count.
    have hm : m = env.genesisHash := by
      have hroot := hline.root
      rw [hnil] at hroot
      exact Option.some.inj hroot
    have hkept : c' = c := by
      rcases receiveVote_parts hres with hkept | ⟨qc, hd, hfresh, _⟩
      · exact hkept
      · have hmem := hline.mem_of_delivered hd
        rw [hnil, List.mem_singleton] at hmem
        obtain ⟨_, pubkey, hkey, _⟩ := Vote.verify_true hvalid
        refine absurd (hline.seated vote.voter ?_) (hm ▸ hmem ▸ hfresh)
        unfold ReplicaConfig.getPubkey at hkey
        split at hkey
        · cases hkey
        · rename_i hlookup
          exact AList.lookup_isSome.mp (by rw [hlookup]; rfl)
    rw [hkept]
    exact hline.start hnil
  · rw [hsame.config] at hr
    exact hvoted _ (hline.seated r hr)
  · rw [hsame.config] at hone
    exact hmore m (hline.sole hone)
  · rw [hsame.bExec, hsame.height]
    exact hline.executed

end votes

/-! Start-up, and what does not touch the line. -/

theorem Line.genesis (env : Env K) {config : ReplicaConfig K} {id : ReplicaID} (key : K.PrivKey)
    (voteDisabled : Bool) (hid : id ∈ config.replicaMap) :
    Line env (.start env config id key voteDisabled) env.genesisHash [] := by
  have hblk : (HotStuffCore.start env config id key voteDisabled).blk env.genesisHash =
      HotStuffCore.genesis env config := by
    simp [HotStuffCore.start, HotStuffCore.blk]
  refine ⟨List.isChain_singleton _, rfl, fun h hs => ?_, rfl, fun hne => absurd rfl hne,
    fun _ => ⟨rfl, rfl, rfl⟩, fun r hr => ?_, fun hone => ?_, ?_⟩
  · by_contra hne
    rw [List.mem_singleton] at hne
    simp [HotStuffCore.start, hne] at hs
  · rw [hblk]
    exact List.mem_toFinset.mpr (AList.mem_keys.mp hr)
  · unfold Complete
    rw [hblk]
    exact hone.trans (Finset.card_pos.mpr ⟨id, List.mem_toFinset.mpr (AList.mem_keys.mp hid)⟩)
  · rw [List.length_nil, Nat.zero_sub]
    exact congrArg Block.height hblk

theorem Line.waiting (hline : Line env c m older) (w : Finset Uint256) :
    Line env (waiting c w) m older :=
  ⟨hline.linked, hline.root, hline.stored, hline.tails,
    fun hne => ⟨(hline.leads hne).accepted, (hline.leads hne).vheight, (hline.leads hne).tracks,
      (hline.leads hne).tail⟩,
    hline.start, hline.seated, hline.sole, hline.executed⟩

theorem Line.emit (hline : Line env c m older) (e : Event K) : Line env (c.emit e) m older :=
  ⟨hline.linked, hline.root, hline.stored, hline.tails,
    fun hne => ⟨(hline.leads hne).accepted.imp_left (List.mem_cons_of_mem _),
      (hline.leads hne).vheight, (hline.leads hne).tracks, (hline.leads hne).tail⟩,
    hline.start, hline.seated, hline.sole, hline.executed⟩

/-! Proposals. -/

section proposing

variable {cmds : List Uint256}

/-- A new block is not there yet: whoever names the last block as its parent is higher. -/
theorem Line.fresh (hline : Line env c m older) (htree : TreeOk env c) (hdone : Complete c m)
    (hown : Unshared env c (c.newData cmds c.getParents [])) :
    c.storage (env.getHash (c.newData cmds c.getParents [])) = none := by
  obtain ⟨hne, hdist⟩ := hown
  generalize hh : env.getHash (c.newData cmds c.getParents []) = h at hne hdist ⊢
  cases hs : c.storage h with
  | none => rfl
  | some x =>
      have hstored : (c.storage h).isSome := by rw [hs]; rfl
      have hmem := hline.stored h hstored
      have hd := hline.delivered htree hmem
      obtain ⟨hps, _⟩ := hdist (hh ▸ hne) (by rw [hh]; exact hstored)
      have hlow := hline.height_le htree hmem
      rw [hh] at hps
      have hdel := htree.deliveredOk h hne hd
      have hparent : (c.blk h).parents.head? = some m := by
        rw [hdel.parents, hps, HotStuffCore.newData, HotStuffCore.getParents,
          (hline.heads htree hdone).2.1]
        rfl
      rw [hdel.height m hparent, hline.height htree] at hlow
      exact absurd hlow (Nat.not_succ_le_self _)

theorem walk_of_le {floor : Nat} (hle : (c.blk b).height ≤ floor) (fuel : Nat) :
    c.walk floor fuel b = some ([], b) := by
  cases fuel with
  | zero => rw [HotStuffCore.walk_zero, if_pos hle]
  | succ fuel => rw [HotStuffCore.walk_succ, if_pos hle]

theorem commit_of_parent (hp : (c.blk b).parents.head? = some c.bExec)
    (hheight : (c.blk b).height = (c.blk c.bExec).height + 1) : ∃ u, c.commit b = .ok u := by
  have hdesc : c.descend (c.blk c.bExec).height b = some ([b], c.bExec) := by
    unfold HotStuffCore.descend
    rw [hheight, HotStuffCore.walk_succ, if_neg (by omega), hp]
    simp only [walk_of_le (le_refl (c.blk c.bExec).height)]
    rfl
  unfold HotStuffCore.commit
  rw [hdesc]
  exact ⟨_, if_pos rfl⟩

theorem Line.update (hline : Line env c m older) (htree : TreeOk env c)
    (hcommits : CommitOk env c) (hg : Grows c d) (htree_d : TreeOk env d)
    (hcommits_d : CommitOk env d) (hlink : Certifies d h m)
    (hstored : ∀ x, (d.storage x).isSome → x = h ∨ (c.storage x).isSome)
    (hexec : d.bExec = c.bExec) : ∃ u, d.update env h = .ok u := by
  rw [update_eq]
  cases hb : target env d h with
  | none => exact ⟨_, rfl⟩
  | some b =>
      obtain ⟨t, ht, hheight⟩ := height_of_target htree_d hb
      obtain rfl : m = t :=
        Option.some.inj (hlink.2.symm.trans (certified_eq_some.mp ht).1)
      have hm : (d.blk m).height = older.length := by
        rw [hg.height (hline.delivered htree List.mem_cons_self), hline.height htree]
      have hbd := delivered_of_target htree_d hb
      have hne : b ≠ env.genesisHash := by
        intro heq
        have hund := undecided_of_target hb
        rw [(hcommits_d.decided b).mpr (.inl heq)] at hund
        cases hund
      -- The first parent of the block is `b_exec`, as the heights in the line tell.
      have hdel := htree_d.deliveredOk b hne hbd
      obtain ⟨p, ps, hps⟩ := List.exists_cons_of_ne_nil hdel.nonempty
      have hp : (d.blk b).parents.head? = some p := by rw [hps]; rfl
      have hbp := hdel.height p hp
      have hpd := hdel.delivered p (List.mem_of_head? hp)
      have hmem : p ∈ m :: older := by
        rcases hstored p (isSome_of_delivered hpd) with rfl | hs
        · have hh := (htree_d.delivered_firstParent hlink.1).2
          omega
        · exact hline.stored p hs
      have hexecuted := hcommits.bExec_delivered htree
      have hheights : (c.blk p).height = (c.blk c.bExec).height := by
        have hlow := hg.height (hline.delivered htree hmem)
        rw [hline.executed]
        omega
      obtain rfl := hline.eq_of_height htree hmem (hline.mem_of_delivered hexecuted) hheights
      have hblk : ∀ x, (raised env d h).blk x = d.blk x := fun x => blk_raised env d h
      have hbexec : (raised env d h).bExec = c.bExec := (raised_spec env d h).2.1.trans hexec
      refine commit_of_parent ?_ ?_
      · rw [hblk, hbexec]
        exact hp
      · rw [hblk, hblk, hbexec]
        exact hbp

theorem set_ofSize {n i : Nat} (hi : i < n) (hsize : n + 63 < 2 ^ 32) :
    ∃ rids, (Bits.ofSize (BitVec.ofNat 32 n)).set i = some rids := by
  have hlength : (Bits.ofSize (BitVec.ofNat 32 n)).data.length = (n + 63) / 64 := by
    have hn : (BitVec.ofNat 32 n).toNat = n := by
      rw [BitVec.toNat_ofNat]
      exact Nat.mod_eq_of_lt (by omega)
    simp only [Bits.ofSize, List.length_replicate, ndata_eq, hn, Nat.mod_eq_of_lt hsize]
  unfold Bits.set
  rw [hlength, if_pos (by omega)]
  exact ⟨_, rfl⟩

theorem receiveVote_own (hd : (c.blk h).delivered = true) (hvoted : (c.blk h).voted = ∅)
    (hqc : (c.blk h).selfQc = some (QuorumCert.create c.config h))
    (hmajority : 0 < c.config.nmajority) (hid : c.id.val < c.config.nreplicas)
    (hsize : c.config.nreplicas + 63 < 2 ^ 32) :
    ∃ woken c', c.onReceiveVote ⟨c.id, h, PartCert.create c.privKey h⟩ = .ok (woken, c') ∧
      (c'.blk h).voted = {c.id} := by
  obtain ⟨rids, hrids⟩ := set_ofSize hid hsize
  obtain ⟨qc, hadd⟩ : ∃ qc, (QuorumCert.create c.config h).addPart c.id
      (PartCert.create c.privKey h) = .ok qc := by
    unfold QuorumCert.addPart QuorumCert.create PartCert.create
    rw [if_neg (fun hne => hne rfl), hrids]
    exact ⟨_, rfl⟩
  have hs := isSome_of_delivered hd
  have hcounted : ((counted c ⟨c.id, h, PartCert.create c.privKey h⟩ qc).blk h).voted =
      {c.id} := by
    rw [voted_counted c _ qc h hs, if_pos rfl, hvoted]
    rfl
  unfold HotStuffCore.onReceiveVote
  rw [if_pos hd]
  simp only [hvoted, Finset.card_empty, Finset.notMem_empty, if_false, hqc, Option.getD_some,
    if_neg (Nat.not_le.mpr hmajority), hadd, HotStuffCore.modifyBlk_modifyBlk]
  split
  · refine ⟨_, _, rfl, ?_⟩
    obtain ⟨woken, w, hfin⟩ := onQcFinish_eq
      (((counted c ⟨c.id, h, PartCert.create c.privKey h⟩ qc).emit (.quorum h qc)).updateHqc h qc) h
    show (((((counted c ⟨c.id, h, PartCert.create c.privKey h⟩ qc).emit
      (.quorum h qc)).updateHqc h qc).onQcFinish h).2.blk h).voted = _
    rw [hfin]
    show ((((counted c ⟨c.id, h, PartCert.create c.privKey h⟩ qc).emit
      (.quorum h qc)).updateHqc h qc).blk h).voted = _
    rw [blk_updateHqc]
    exact hcounted
  · exact ⟨_, _, rfl, hcounted⟩

/-- The block of the line that has just got `chainLength + 1` blocks above it is decided, so that
`b_exec` has moved up to it. -/
theorem Line.executed_next (hline : Line env c m older) (htree : TreeOk env c)
    (htree' : TreeOk env c') (hcommits : CommitOk env c) (hcommits' : CommitOk env c')
    (hprod : Produced env c c' h) (hlinked : (h :: m :: older).IsChain (Certifies c')) :
    (c'.blk c'.bExec).height = (m :: older).length - (chainLength env + 1) := by
  have hm : (c'.blk m).height = older.length := by
    rw [hprod.grows.height (hline.delivered htree List.mem_cons_self), hline.height htree]
  have hqcRef : (c'.blk h).qcRef = some m := (List.isChain_cons_cons.mp hlinked).1.2
  rw [List.length_cons]
  rcases hprod.bExec with hkept | ⟨t, href, hlen⟩
  · have hexec : (c'.blk c'.bExec).height = older.length - (chainLength env + 1) := by
      rw [hkept, hprod.grows.height (hcommits.bExec_delivered htree), hline.executed]
    by_contra hne
    have hlong : chainLength env < (m :: older).length := by
      rw [List.length_cons]
      omega
    obtain ⟨q, hq⟩ : ∃ q, (m :: older)[chainLength env]? = some q :=
      ⟨_, List.getElem?_eq_getElem hlong⟩
    have hheight := height_of_place (j := chainLength env + 1) htree' hlinked
      (by rw [List.getElem?_cons_succ]; exact hq)
    have hnext := (htree'.delivered_firstParent (List.isChain_cons_cons.mp hlinked).1.1).2
    have htaken : (h :: (m :: older).take (chainLength env + 1)).getLast? = some q := by
      have hcut : (m :: older).take (chainLength env + 1) ≠ [] := by simp
      rw [List.getLast?_cons_of_ne_nil hcut, List.getLast?_take]
      simp [hq]
    have hdec := decided_of_settled htree' hcommits' hprod.settled
      (by rw [← List.take_succ_cons]; exact hlinked.take _)
      (by rw [List.length_take]; exact min_eq_left hlong) htaken
    have hle := hcommits'.height_le_of_decided htree' hdec
    omega
  · obtain rfl := Option.some.inj (hqcRef.symm.trans href)
    omega

/-- What a proposal of the replica makes of its line. -/
structure Extended (env : Env K) (c c' : HotStuffCore K) (cmds : List Uint256) (h m : Uint256)
    (older : List Uint256) : Prop where
  line : Line env c' h (m :: older)
  grows : Grows c c'
  qcWaiting : c'.qcWaiting = ∅
  cmds : (c'.blk h).data.cmds = cmds
  parents : (c'.blk h).parents = [m]
  complete : Complete c' h → c'.config.nmajority ≤ 1

theorem Line.created (hline : Line env c m older) (htree : TreeOk env c) (hcerts : CertsOk c)
    (hdone : Complete c m) {data : BlockData K} (hps : data.parentHashes = [c.hqcTail])
    (hqc : data.qc = c.hqc.2) (hnone : c.storage (env.getHash data) = none) :
    Allowed env c (.create data) ∧ (createBlk env c data).tails = [env.getHash data] ∧
      (Grows c (createBlk env c data) →
        Certifies (createBlk env c data) (env.getHash data) m) := by
  obtain ⟨hhqc, htail, _⟩ := hline.heads htree hdone
  have hparents : ∀ p ∈ data.parentHashes, (c.blk p).delivered = true := by
    intro p hp
    rw [hps, htail, List.mem_singleton] at hp
    rw [hp]
    exact hline.delivered htree List.mem_cons_self
  have hhash : data.qc.objHash = c.hqc.1 := by rw [hqc, hcerts.hqc_hash]
  refine ⟨⟨hnone, hqc, ?_, hparents, ?_⟩, ?_, fun hg => ⟨?_, ?_⟩⟩
  · rw [hps]
    exact List.cons_ne_nil _ _
  · rw [hhash]
    exact hcerts.hqc_stored
  · simp [createBlk, HotStuffCore.insertTail, HotStuffCore.eraseTails, HotStuffCore.emit,
      hline.tails, hps, htail]
  · rw [firstParent_eq (by rw [blk_createBlk_self]), blk_createBlk_self, hps, htail]
    rfl
  · rw [blk_createBlk_self, hhash, hhqc]

/-- The block has been built, and `update` has run on it. -/
structure Ready (c u : HotStuffCore K) (data : BlockData K) (h : Uint256) : Prop where
  id : u.id = c.id
  config : u.config = c.config
  tails : u.tails = [h]
  vheight : u.vheight = c.vheight
  qcWaiting : u.qcWaiting = c.qcWaiting
  voted : ∀ x, x ≠ h → (u.blk x).voted = (c.blk x).voted
  stored : ∀ x, (u.storage x).isSome → x = h ∨ (c.storage x).isSome
  delivered : (u.blk h).delivered = true
  unvoted : (u.blk h).voted = ∅
  selfQc : (u.blk h).selfQc = some (QuorumCert.create u.config h)
  data : (u.blk h).data = data
  height : (u.blk h).height = c.vheight + 1

theorem Line.build (hline : Line env c m older) (htree : TreeOk env c) (hcerts : CertsOk c)
    (hcommits : CommitOk env c) (hdone : Complete c m) {data : BlockData K}
    (hps : data.parentHashes = [c.hqcTail]) (hqc : data.qc = c.hqc.2)
    (hnone : c.storage (env.getHash data) = none) :
    ∃ u, c.build env data = .ok u ∧ Ready c u data (env.getHash data) := by
  obtain ⟨hallow, htails_d, hlink⟩ := hline.created htree hcerts hdone hps hqc hnone
  have hbuild := build_fresh env hnone hallow.2.2.1 hallow.2.2.2.1 hallow.2.2.2.2
  have hg : Grows c (createBlk env c data) := grows_apply hallow
  have htree_d : TreeOk env (createBlk env c data) := htree.apply hallow
  have hself := blk_createBlk_self (c := c) env data
  have hstored : ∀ x, ((createBlk env c data).storage x).isSome →
      x = env.getHash data ∨ (c.storage x).isSome := by
    intro x hs
    rw [storage_createBlk] at hs
    split at hs
    · exact .inl ‹_›
    · exact .inr hs
  have hdel : ((createBlk env c data).blk (env.getHash data)).delivered = true := by rw [hself]
  obtain ⟨u, hup⟩ := hline.update htree hcommits hg htree_d (hcommits.apply htree hallow)
    (hlink hg) hstored rfl
  have hupdated := updated_of_update hdel hup
  have hfixed : u.id = c.id ∧ u.config = c.config :=
    Trail.invariant (I := fun e => e.id = c.id ∧ e.config = c.config) (update_ok hdel hup).1
      ⟨rfl, rfl⟩ (fun e _ _ he _ => ⟨(id_apply env e).trans he.1, (config_apply env e).trans he.2⟩)
  have hfield : ∀ {γ : Type _} (f : Block K → γ), (∀ b x, f { b with decision := x } = f b) →
      ∀ x, f (u.blk x) = f ((createBlk env c data).blk x) := by
    intro γ f hf x
    exact (hf _ _).symm.trans (congrArg f (hupdated.blk x))
  refine ⟨u, hbuild.trans hup, hfixed.1, hfixed.2, hupdated.tails.trans htails_d,
    hupdated.vheight, hupdated.qcWaiting, fun x hx => ?_, fun x hs => ?_, ?_, ?_, ?_, ?_, ?_⟩
  · rw [hfield Block.voted (fun _ _ => rfl), blk_createBlk_ne hx]
  · rw [hupdated.stored] at hs
    exact hstored x hs
  · rw [hfield Block.delivered (fun _ _ => rfl), hself]
  · rw [hfield Block.voted (fun _ _ => rfl), hself]
  · rw [hfield Block.selfQc (fun _ _ => rfl), hself, hfixed.2]
  · rw [hfield Block.data (fun _ _ => rfl), hself]
  · rw [hfield Block.height (fun _ _ => rfl), (htree_d.delivered_firstParent (hlink hg).1).2,
      hg.height (hline.delivered htree List.mem_cons_self), hline.height htree,
      (hline.heads htree hdone).2.2]

/-- `on_propose` does not throw once the last block of the line has its certificate, and the new
block is the next one of the line. -/
theorem Line.propose (hline : Line env c m older) (htree : TreeOk env c) (hcerts : CertsOk c)
    (hcommits : CommitOk env c) (htails : TailsOk env c) (hlevel : LevelOk c)
    (hmajority : 0 < c.config.nmajority) (hid : c.id.val < c.config.nreplicas)
    (hsize : c.config.nreplicas + 63 < 2 ^ 32) (hdone : Complete c m) (hcalm : c.qcWaiting = ∅)
    (hown : Unshared env c (c.newData cmds c.getParents [])) :
    ∃ c', c.onPropose env cmds c.getParents [] = .ok (false, c') ∧
      Extended env c (c'.announce (env.getHash (c.newData cmds c.getParents []))) cmds
        (env.getHash (c.newData cmds c.getParents [])) m older := by
  obtain ⟨hhqc, htail, _⟩ := hline.heads htree hdone
  have hparents : ∀ p ∈ c.getParents, (c.blk p).delivered = true := by
    intro p hp
    rw [HotStuffCore.getParents, htail, List.mem_singleton] at hp
    rw [hp]
    exact hline.delivered htree List.mem_cons_self
  have hstored : (c.storage c.hqc.2.objHash).isSome := by
    rw [hcerts.hqc_hash]
    exact hcerts.hqc_stored
  obtain ⟨u, hbuild, hready⟩ := hline.build htree hcerts hcommits hdone (by rfl) (by rfl)
    (hline.fresh htree hdone hown)
  generalize hh : env.getHash (c.newData cmds c.getParents []) = h at hready ⊢
  obtain ⟨woken, c', hvote, hvoted⟩ := receiveVote_own
    (c := (u.accept h).emit (.partCert h)) hready.delivered hready.unvoted hready.selfQc
    (show 0 < u.config.nmajority by rw [hready.config]; exact hmajority)
    (show u.id.val < u.config.nreplicas by rw [hready.id, hready.config]; exact hid)
    (show u.config.nreplicas + 63 < 2 ^ 32 by rw [hready.config]; exact hsize)
  have hres : c.onPropose env cmds c.getParents [] = .ok (woken, c') := by
    unfold HotStuffCore.onPropose
    rw [if_neg (by simp [HotStuffCore.getParents])]
    simp only [bind, Except.bind, hbuild, hh]
    rw [if_neg]
    · exact hvote
    · rw [hready.height, hready.vheight]
      exact Nat.not_succ_le_self _
  have hspec := onPropose_spec env cmds [] hparents hstored
  rw [hres, hh] at hspec
  obtain ⟨htrail, _, hwoken⟩ := hspec
  obtain rfl : woken = false := by
    cases woken with
    | false => rfl
    | true =>
        have hmem := hwoken rfl
        rw [hcalm] at hmem
        exact absurd hmem (Finset.notMem_empty h)
  have hprod := produced_of_propose htree hcerts hcommits htails hlevel hmajority hown.2 hres
  rw [hh] at hprod
  obtain ⟨htree', hcommits'⟩ : TreeOk env (c'.announce h) ∧ CommitOk env (c'.announce h) :=
    Trail.invariant (I := fun e => TreeOk env e ∧ CommitOk env e)
      ((htrail.mono (Q := fun _ => True) (fun _ _ => trivial)).trans
        (Trail.single (e := .announce h) trivial trivial))
      ⟨htree, hcommits⟩ (fun _ _ _ hinv he => ⟨hinv.1.apply he, hinv.2.apply hinv.1 he⟩)
  have hsame := receiveVote_same hvote
  obtain ⟨htails', _, hstored', hmore⟩ := receiveVote_keeps hvote
  have hconfig : (c'.announce h).config = c.config := hsame.config.trans hready.config
  have hlinked : (h :: m :: older).IsChain (Certifies (c'.announce h)) :=
    List.isChain_cons_cons.mpr ⟨⟨htail ▸ hprod.parent, hhqc ▸ hprod.qcRef⟩,
      hline.linked.imp (fun _ _ hbq => hbq.grows hprod.grows)⟩
  have hcard : ((c'.announce h).blk h).voted.card = 1 := by
    show (c'.blk h).voted.card = 1
    rw [hvoted, Finset.card_singleton]
  have hdata : (c'.blk h).data = c.newData cmds c.getParents [] :=
    (congrArg Node.data (hsame.node h)).trans hready.data
  refine ⟨c', hres, ⟨hlinked, ?_, fun x hs => ?_, htails'.trans hready.tails,
    fun _ => hprod.leads, fun hnil => absurd hnil (List.cons_ne_nil _ _), fun r hr => ?_,
    fun hone => ?_, ?_⟩, hprod.grows, ?_, ?_, ?_, fun hfull => ?_⟩
  · rw [List.getLast?_cons_cons]
    exact hline.root
  · have hs' : (u.storage x).isSome := (hstored' x).symm.trans hs
    rcases hready.stored x hs' with rfl | hold
    · exact List.mem_cons_self
    · exact List.mem_cons_of_mem _ (hline.stored x hold)
  · rw [hconfig] at hr
    have hne : env.genesisHash ≠ h := fun heq => hown.1 (hh.trans heq.symm)
    refine hmore env.genesisHash ?_
    show r ∈ (u.blk env.genesisHash).voted
    rw [hready.voted _ hne]
    exact hline.seated r hr
  · unfold Complete
    rw [hcard]
    exact hone
  · exact hline.executed_next htree htree' hcommits hcommits' hprod hlinked
  · show c'.qcWaiting = ∅
    have hnone : u.qcWaiting = ∅ := hready.qcWaiting.trans hcalm
    rcases receiveVote_wakes hvote with ⟨hkept, _⟩ | ⟨herase, _⟩
    · exact hkept.trans hnone
    · rw [herase]
      show u.qcWaiting.erase h = ∅
      rw [hnone, Finset.erase_empty]
  · show (c'.blk h).data.cmds = cmds
    rw [hdata]
    rfl
  · have hne : h ≠ env.genesisHash := fun heq => hown.1 (hh.trans heq)
    rw [(htree'.deliveredOk h hne (delivered_of_firstParent hprod.parent)).parents]
    show (c'.blk h).data.parentHashes = [m]
    rw [hdata, ← htail]
    rfl
  · unfold Complete at hfull
    rw [hcard] at hfull
    exact hfull

end proposing

end ArchipelagoHotStuff.Consensus.Lines
