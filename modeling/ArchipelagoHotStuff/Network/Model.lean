/- Module: ArchipelagoHotStuff/Network/Model
   source: hotstuff.cpp (message handlers, async_deliver_blk), entity.cpp (Block::verify)
   digest: A deployment of replicas, some of them Byzantine, and everything that can reach the
     correct ones in any order, any number of times or not at all. -/

import ArchipelagoHotStuff.Consensus.CommitLog
import ArchipelagoHotStuff.Consensus.VoteCount
import ArchipelagoHotStuff.Consensus.Voting
import ArchipelagoHotStuff.General.VoteLedger

set_option autoImplicit false
set_option relaxedAutoImplicit false

namespace ArchipelagoHotStuff.Network.Model

open Crypto.Wire Crypto.Certificates
open Consensus Consensus.State Consensus.Handlers Consensus.Effects Consensus.Tree
open Consensus.Ballots Consensus.Trails Consensus.Machine Consensus.Voting Consensus.CommitLog
open Consensus.Setup Consensus.VoteCount General.Transition General.Quorum General.VoteLedger

variable {K : Secp256k1}

/-- The build, the private key of each replica, the Byzantine replicas, those that abstain from
voting, and the parents and the certified block that each hash stands for: blocks of other
content do not occur, so that no two blocks collide. -/
structure Deployment (K : Secp256k1) where
  env : Env K
  keys : List K.PrivKey
  byzantine : Finset ReplicaID
  voteDisabled : ReplicaID → Bool
  named : Uint256 → Option (List Uint256 × Uint256)
  nonempty : keys ≠ []
  few : byzantine.card ≤ (keys.length - 1) / 3

/-- The state of every replica; that of a Byzantine one means nothing. -/
abbrev Replicas (K : Secp256k1) := ReplicaID → Replica K

namespace Deployment

variable (D : Deployment K)

def config : ReplicaConfig K := HotStuffCore.startConfig (D.keys.map K.getPubkey)

def key (r : ReplicaID) : K.PrivKey := (D.keys[r.val]?).getD (D.keys.head D.nonempty)

/-- The identifier belongs to a replica, and to one that follows the protocol. -/
def Correct (r : ReplicaID) : Prop := r.val < D.keys.length ∧ r ∉ D.byzantine

instance (r : ReplicaID) : Decidable (D.Correct r) := inferInstanceAs (Decidable (_ ∧ _))

/-- The block has the content that its hash stands for. -/
def Names (data : BlockData K) : Prop :=
  D.named (D.env.getHash data) = some (data.parentHashes, data.qc.objHash)

def start : Replicas K :=
  fun r => ⟨.start D.env D.config r (D.key r) (D.voteDisabled r), []⟩

/-- Nobody forges signatures: what is valid under the key of a correct replica it has signed. -/
def Genuine (s : Replicas K) (r : ReplicaID) (h : Uint256) (sig : K.Sig) : Prop :=
  D.Correct r → ∀ pubkey, D.config.getPubkey r = .ok pubkey → K.verify h pubkey sig = true →
    .partCert h ∈ (s r).core.trace

/-- `Block::verify` passes. -/
def Verifies (s : Replicas K) (qc : QuorumCert K) : Prop :=
  qc.objHash = D.env.genesisHash ∨
    (qc.verify D.config = .ok true ∧ ∀ x ∈ qc.sigs.entries, D.Genuine s x.1 qc.objHash x.2)

/-- What can happen to a correct replica.  Blocks come from Byzantine replicas or from one that
has created them; a block is delivered once its certificate is verified, its parents are delivered
and the certified block is fetched; votes are handled once they are verified. -/
def Admits (s : Replicas K) (r : ReplicaID) : Input K → Prop
  | .fetch data =>
      D.Names data ∧ data.qc.Wf ∧ (D.byzantine.Nonempty ∨ ∃ r' ∈ D.config.replicaMap.keys,
        D.Correct r' ∧ .created (D.env.getHash data) ∈ (s r').core.trace)
  | .deliver h =>
      let data := ((s r).core.blk h).data
      (∀ p ∈ data.parentHashes, ((s r).core.blk p).delivered = true) ∧
        ((s r).core.storage data.qc.objHash).isSome ∧ D.Verifies s data.qc
  | .propose cmds parents extra => D.Names ((s r).core.newData cmds parents extra)
  | .receiveVote vote =>
      vote.verify D.config = .ok true ∧ D.Genuine s vote.voter vote.blkHash vote.cert.sig
  | .receiveProposal _ | .wait _ | .resume => True

/-! Quantifiers over lists are decided along the list, not over all hashes or identifiers. -/

instance (data : BlockData K) : Decidable (D.Names data) := inferInstanceAs (Decidable (_ = _))

instance (s : Replicas K) (r : ReplicaID) (h : Uint256) (sig : K.Sig) :
    Decidable (D.Genuine s r h sig) :=
  match hkey : D.config.getPubkey r with
  | .error _ => isTrue (fun _ _ hp => by rw [hkey] at hp; cases hp)
  | .ok pubkey =>
      decidable_of_iff (D.Correct r → K.verify h pubkey sig = true →
        .partCert h ∈ (s r).core.trace) (by simp [Genuine, hkey])

instance (s : Replicas K) (qc : QuorumCert K) : Decidable (D.Verifies s qc) :=
  inferInstanceAs (Decidable (_ ∨ _))

instance (s : Replicas K) (r : ReplicaID) (i : Input K) : Decidable (D.Admits s r i) :=
  match i with
  | .fetch _ => @instDecidableAnd _ _ _ (@instDecidableAnd _ _ _
      (@instDecidableOr _ _ _ (List.decidableBEx _ _)))
  | .deliver _ => @instDecidableAnd _ _ (List.decidableBAll _ _) instDecidableAnd
  | .propose _ _ _ => inferInstanceAs (Decidable (D.Names _))
  | .receiveVote _ => inferInstanceAs (Decidable (_ ∧ D.Genuine _ _ _ _))
  | .receiveProposal _ | .wait _ | .resume => isTrue trivial

def advance (s : Replicas K) (a : ReplicaID × Input K) : Option (Replicas K) :=
  ((s a.1).step D.env a.2).map (Function.update s a.1)

def network : System (Replicas K) (ReplicaID × Input K) where
  init s := s = D.start
  step s a s' := D.Correct a.1 ∧ D.Admits s a.1 a.2 ∧ D.advance s a = some s'

def next : Replicas K → ReplicaID × Input K → Option (Replicas K) :=
  guarded (fun s a => D.Correct a.1 ∧ D.Admits s a.1 a.2) D.advance

/-! The forest of the named blocks and the quorums. -/

def forest : Forest Uint256 where
  root := D.env.genesisHash
  parent h := if h = D.env.genesisHash then none else (D.named h).bind (fun x => x.1.head?)
  qc h := if h = D.env.genesisHash then some D.env.genesisHash else (D.named h).map Prod.snd
  root_parent := if_pos rfl

theorem length_pos : 1 ≤ D.keys.length := List.length_pos_iff.mpr D.nonempty

def quorums : QuorumSystem ReplicaID :=
  thresholdSystem D.keys.length D.config.replicaMap.keys.toFinset D.byzantine D.length_pos
    (card_startConfig_le.trans (List.length_map _).le) D.few

variable {D} {s s' : Replicas K} {r : ReplicaID} {h : Uint256}

@[simp] theorem root_forest : D.forest.root = D.env.genesisHash := rfl

theorem parent_forest {x : List Uint256 × Uint256} (hne : h ≠ D.env.genesisHash)
    (hn : D.named h = some x) : D.forest.parent h = x.1.head? := by
  simp [forest, hne, hn]

theorem qc_forest {x : List Uint256 × Uint256} (hne : h ≠ D.env.genesisHash)
    (hn : D.named h = some x) : D.forest.qc h = some x.2 := by
  simp [forest, hne, hn]

theorem qc_root : D.forest.qc D.env.genesisHash = some D.env.genesisHash := if_pos rfl

theorem size_quorums : D.quorums.size = D.config.nmajority := by
  have hn : D.config.nmajority = (D.keys.map K.getPubkey).length -
      ((D.keys.map K.getPubkey).length - 1) / 3 := nmajority_startConfig
  rw [List.length_map] at hn
  exact hn.symm

theorem mem_members {pubkey : K.PubKey} (hkey : D.config.getPubkey r = .ok pubkey) :
    r ∈ D.quorums.members := by
  show r ∈ D.config.replicaMap.keys.toFinset
  rw [List.mem_toFinset, ← AList.mem_keys, ← AList.lookup_isSome]
  unfold ReplicaConfig.getPubkey at hkey
  split at hkey
  · cases hkey
  · rename_i hlookup
    rw [hlookup]
    rfl

theorem correct_of_mem (hr : r ∈ D.quorums.members) (hgood : r ∉ D.quorums.faulty) :
    D.Correct r := by
  refine ⟨?_, hgood⟩
  have hmem : r ∈ D.config.replicaMap := by
    rw [AList.mem_keys]
    exact List.mem_toFinset.mp hr
  have hlt := val_lt_of_mem_startConfig hmem
  rw [List.length_map] at hlt
  exact hlt

theorem getPubkey_correct (hr : D.Correct r) :
    D.config.getPubkey r = .ok (K.getPubkey (D.key r)) := by
  have hget := List.getElem?_eq_getElem hr.1
  refine getPubkey_startConfig ?_
  rw [List.getElem?_map, hget, key, hget]
  rfl

/-! Each replica on its own runs its machine. -/

theorem advance_eq {a : ReplicaID × Input K} (h : D.advance s a = some s') :
    (s a.1).step D.env a.2 = some (s' a.1) ∧ ∀ r, r ≠ a.1 → s' r = s r := by
  obtain ⟨r', hstep, rfl⟩ := Option.map_eq_some_iff.mp h
  refine ⟨?_, fun r hne => Function.update_of_ne hne _ _⟩
  rw [Function.update_self]
  exact hstep

theorem step_of_next {a : ReplicaID × Input K} (h : D.next s a = some s') :
    D.network.step s a s' := by
  obtain ⟨⟨hr, hadm⟩, hadv⟩ := guarded_eq_some h
  exact ⟨hr, hadm, hadv⟩

theorem reachable_of_run {inputs : List (ReplicaID × Input K)}
    (h : execute D.next inputs D.start = some s) : Reachable D.network s :=
  Reachable.trans (.init rfl) (steps_of_execute (fun _ _ _ hstep => step_of_next hstep) h)

/-- A run whose steps all pass a test is a run of the network restricted to what follows from
the test. -/
theorem reachable_of_guarded {ok ok' : Replicas K → ReplicaID × Input K → Prop}
    [∀ s a, Decidable (ok s a)] (himp : ∀ s a, ok s a → ok' s a)
    {inputs : List (ReplicaID × Input K)}
    (h : execute (guarded ok D.next) inputs D.start = some s) :
    Reachable (D.network.restrict ok') s := by
  refine Reachable.trans (.init rfl) (steps_of_execute (fun t a t' hstep => ?_) h)
  obtain ⟨hok, hnext⟩ := guarded_eq_some hstep
  exact ⟨himp t a hok, step_of_next hnext⟩

theorem replica_reachable (hs : Reachable D.network s) (r : ReplicaID) :
    Reachable (machine D.env D.config r (D.key r) (D.voteDisabled r)) (s r) := by
  refine hs.invariant (I := fun s => Reachable (machine D.env D.config r (D.key r)
    (D.voteDisabled r)) (s r)) ?_ ?_
  · rintro s rfl
    exact .init rfl
  · intro s a s' _ ih hstep
    obtain ⟨hself, hother⟩ := advance_eq hstep.2.2
    by_cases hr : r = a.1
    · subst hr
      exact .step ih hself
    · rw [hother r hr]
      exact ih

end Deployment

/-- What a replica keeps in order by itself. -/
structure LocalOk (env : Env K) (c : HotStuffCore K) : Prop where
  tree : TreeOk env c
  certs : CertsOk c
  voting : VotingOk c
  commits : CommitOk env c

theorem LocalOk.apply {env : Env K} {c : HotStuffCore K} {e : Effect K} (hok : LocalOk env c)
    (he : Allowed env c e) : LocalOk env (Effects.apply env c e) :=
  ⟨hok.tree.apply he, hok.certs.apply hok.tree he, hok.voting.apply he,
    hok.commits.apply hok.tree he⟩

variable {D : Deployment K} {s s' : Replicas K}

theorem localOk_of_reachable (hs : Reachable D.network s) (r : ReplicaID) :
    LocalOk D.env (s r).core := by
  have hr := Deployment.replica_reachable hs r
  have hok := replicaOk_of_reachable hr
  exact ⟨hok.tree, hok.certs, votingOk_of_reachable hr, commitOk_of_reachable hr⟩

theorem step_effects {P : Effect K → Prop} {a : ReplicaID × Input K} (hs : Reachable D.network s)
    (hP : Covers D.env (s a.1) P a.2) (hout : Outputs P) (hstep : D.network.step s a s') :
    Trail D.env P (s a.1).core (s' a.1).core ∧ ∀ r, r ≠ a.1 → s' r = s r := by
  obtain ⟨hself, hother⟩ := Deployment.advance_eq hstep.2.2
  have hok := replicaOk_of_reachable (Deployment.replica_reachable hs a.1)
  exact ⟨(step_trail hok.frames hok.certs hP hout hself).1, hother⟩

/-- What the effects that the input of a step covers preserve, the step preserves at every
replica. -/
theorem step_invariant {P : Effect K → Prop} {I : HotStuffCore K → Prop}
    {a : ReplicaID × Input K} (hs : Reachable D.network s)
    (hP : Covers D.env (s a.1) P a.2) (hout : Outputs P) (hstep : D.network.step s a s')
    (hI : ∀ r, D.Correct r → I (s r).core)
    (happly : ∀ c e, LocalOk D.env c → P e → I c → Allowed D.env c e →
      I (Effects.apply D.env c e)) :
    ∀ r, D.Correct r → I (s' r).core := by
  obtain ⟨htrail, hother⟩ := step_effects hs hP hout hstep
  have hacts : LocalOk D.env (s' a.1).core ∧ I (s' a.1).core := by
    refine Trail.invariant (I := fun d => LocalOk D.env d ∧ I d) htrail
      ⟨localOk_of_reachable hs a.1, hI a.1 hstep.1⟩ ?_
    intro c e hPe hinv he
    exact ⟨hinv.1.apply he, happly c e hinv.1 hPe hinv.2 he⟩
  intro r hr
  by_cases hra : r = a.1
  · exact hra ▸ hacts.2
  · rw [hother r hra]
    exact hI r hr

/-! Four replicas whose blocks are named by their first command, and the parts of their runs. -/

/-- A certificate that the given replicas sign. -/
def certOf (h : Uint256) (signers : List ReplicaID) : QuorumCert clearScheme :=
  signers.foldl (fun qc i =>
    (qc.addPart i (PartCert.create (show clearScheme.PrivKey from i.val) h)).toOption.getD qc)
    (QuorumCert.create peerConfig h)

def blockOf (h parent qc : Uint256) (signers : List ReplicaID) : BlockData clearScheme :=
  { parentHashes := [parent], cmds := [h], qc := certOf qc signers, extra := [] }

/-- Four replicas among which the given blocks occur. -/
def quartet (twoStep : Bool) (byzantine : Finset ReplicaID) (few : byzantine.card ≤ 1)
    (blocks : List (BlockData clearScheme)) : Deployment clearScheme where
  env := clearEnv twoStep
  keys := peerKeys
  byzantine
  voteDisabled _ := false
  named h := (blocks.find? (fun data => (clearEnv twoStep).getHash data = h)).map
    (fun data => (data.parentHashes, data.qc.objHash))
  nonempty := List.cons_ne_nil _ _
  few

theorem few_of_none : (∅ : Finset ReplicaID).card ≤ 1 := Nat.zero_le 1

theorem few_of_three : ({3} : Finset ReplicaID).card ≤ 1 := le_rfl

/-- A replica fetches and delivers a block. -/
def brings (r : ReplicaID) (data : BlockData clearScheme) :
    List (ReplicaID × Input clearScheme) :=
  [(r, .fetch data), (r, .deliver (data.cmds.headD 0))]

/-- A replica handles the proposal of a block that it has fetched and delivered. -/
def handles (r : ReplicaID) (data : BlockData clearScheme) :
    List (ReplicaID × Input clearScheme) :=
  brings r data ++ [(r, .receiveProposal ⟨3, data.cmds.headD 0⟩)]

/-- A replica receives the vote of another one. -/
def counts (r i : ReplicaID) (h : Uint256) : List (ReplicaID × Input clearScheme) :=
  [(r, .receiveVote ⟨i, h, PartCert.create (show clearScheme.PrivKey from i.val) h⟩)]

/-- A replica proposes on a parent and announces the new block. -/
def proposes (r : ReplicaID) (h parent : Uint256) : List (ReplicaID × Input clearScheme) :=
  [(r, .propose [h] [parent] []), (r, .resume)]

end ArchipelagoHotStuff.Network.Model
