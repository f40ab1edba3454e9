/- Module: ArchipelagoHotStuff/Liveness/Proposing
   source: consensus.cpp (on_propose, on_receive_proposal, on_receive_vote), liveness.h (PMHighTail)
   digest: A replica whose pacemaker keeps up with its votes never finds its own block too low;
     a certificate on a lower branch makes hqc_tail fall behind, and the next block is. -/

import ArchipelagoHotStuff.Consensus.Duplicates
import ArchipelagoHotStuff.Consensus.Levels
import ArchipelagoHotStuff.General.Sorting
import ArchipelagoHotStuff.Liveness.Policy

set_option autoImplicit false
set_option relaxedAutoImplicit false

namespace ArchipelagoHotStuff.Liveness.Proposing

open Crypto.Wire Crypto.Certificates
open Consensus.State Consensus.Handlers Consensus.Effects Consensus.Ballots Consensus.Trails
open Consensus.Tree hiding Node newEvents
open Consensus.Machine Consensus.HighTail Consensus.FailedProposals Consensus.Stages
open Consensus.Levels Consensus.Duplicates Consensus.VoteCount General.Transition General.Sorting
open Pacemaker Policy Network.Model Network.Refinement Network.Tails
open Network.Views (ViewOk)

variable {K : Secp256k1} {env : Env K} {c c' d : HotStuffCore K} {b h q : Uint256}

/-- The tail of the pacemaker is no lower than the block the replica voted for last. -/
def Level (c : HotStuffCore K) : Prop := c.vheight ≤ (c.blk c.hqcTail).height

/-- Among the block and the tails above it, one has at least the given height. -/
def Tops (c : HotStuffCore K) (q : Uint256) (height : Nat) : Prop :=
  height ≤ (c.blk q).height ∨
    ∃ t ∈ c.tails, c.checkAncestry q t = true ∧ height ≤ (c.blk t).height

/-- The undecided block that `update` on `b` finds certified, if it is higher than `hqc`. -/
def raisesTo (c : HotStuffCore K) (b : Uint256) : Option Uint256 :=
  (certified c b).filter (fun q => decide ((c.blk c.hqc.1).height < (c.blk q).height))

/-- The branch and the certificate of the block admit a vote for it, once `update` has raised the
lock. -/
def Safe (env : Env K) (c : HotStuffCore K) (b : Uint256) : Prop :=
  (raised env c b).qcAboveLock b = true ∨
    (raised env c b).checkAncestry (raised env c b).bLock b = true

/-- The message does not leave the tail of the pacemaker behind: a certificate that raises `hqc`
has a block above it as high as the replica has voted for, and a block that it votes for without
raising `hqc` follows `hqc`, or is no higher than the tail.  The latter it is where it wakes
somebody, who may propose before the tail is moved. -/
def KeepsUp (env : Env K) (c : HotStuffCore K) : Input K → Prop
  | .receiveVote vote =>
      vote.voter ∉ (c.blk vote.blkHash).voted →
        (c.blk vote.blkHash).voted.card + 1 = c.config.nmajority →
        (c.blk c.hqc.1).height < (c.blk vote.blkHash).height → Tops c vote.blkHash c.vheight
  | .receiveProposal prop =>
      match raisesTo c prop.blk with
      | some q => Tops c q (max c.vheight (c.blk prop.blk).height)
      | none =>
          c.vheight < (c.blk prop.blk).height → Safe env c prop.blk →
            (c.blk prop.blk).height ≤ (c.blk c.hqcTail).height ∨
              (c.checkAncestry c.hqc.1 prop.blk = true ∧
                ∀ q ∈ c.qcWaiting, (c.blk prop.blk).qcRef ≠ some q)
  | .fetch _ | .deliver _ | .propose _ _ _ | .wait _ | .resume => True

/-! Raising the certificate. -/

/-- The scan of `on_hqc_update` ends as high as the highest tail above the block. -/
theorem Tops.onHqcUpdate {height : Nat} {qc : QuorumCert K} (htops : Tops c q height) :
    height ≤ (c.blk (({ c with hqc := (q, qc) } : HotStuffCore K).onHqcUpdate).hqcTail).height := by
  have hanc : ∀ t, (show HotStuffCore K from { c with hqc := (q, qc) }).checkAncestry q t =
      c.checkAncestry q t := fun t => checkAncestry_congr (fun _ => rfl)
  obtain ⟨_, hle, hall⟩ := scan_spec (fun x => (c.blk x).height)
    (fun t => (show HotStuffCore K from { c with hqc := (q, qc) }).checkAncestry q t) c.tails q
  rcases htops with hself | ⟨t, ht, habove, hheight⟩
  · exact hself.trans hle
  · exact hheight.trans (hall t ht ((hanc t).trans habove))

theorem hqcTail_raiseLock (c : HotStuffCore K) (p : Uint256) :
    (c.raiseLock p).hqcTail = c.hqcTail := by
  unfold HotStuffCore.raiseLock
  split <;> rfl

theorem hqcTail_raised (env : Env K) (c : HotStuffCore K) (b : Uint256) :
    (raised env c b).hqcTail =
      ((certified c b).elim c (fun t => c.updateHqc t (c.blk b).data.qc)).hqcTail := by
  unfold raised
  cases lockable env c b with
  | none => rfl
  | some p => exact hqcTail_raiseLock _ p

theorem hqc_raised (env : Env K) (c : HotStuffCore K) (b : Uint256) :
    (raised env c b).hqc =
      ((certified c b).elim c (fun t => c.updateHqc t (c.blk b).data.qc)).hqc := by
  unfold raised
  cases lockable env c b with
  | none => rfl
  | some p => exact hqc_raiseLock _ p

theorem raised_of_none (env : Env K) (hnone : raisesTo c b = none) :
    (raised env c b).hqc = c.hqc ∧ (raised env c b).hqcTail = c.hqcTail := by
  rw [hqcTail_raised, hqc_raised]
  cases hcert : certified c b with
  | none => exact ⟨rfl, rfl⟩
  | some t =>
      rcases updateHqc_cases c t (c.blk b).data.qc with ⟨heq, _⟩ | ⟨hlt, _⟩
      · rw [Option.elim_some, heq]
        exact ⟨rfl, rfl⟩
      · rw [raisesTo, hcert, Option.filter_some, if_pos (decide_eq_true hlt)] at hnone
        cases hnone

theorem Tops.raised {height : Nat} (htops : Tops c q height) (hsome : raisesTo c b = some q) :
    height ≤ (c.blk (raised env c b).hqcTail).height := by
  obtain ⟨hcert, hlt⟩ := Option.filter_eq_some_iff.mp hsome
  rw [hqcTail_raised, hcert, Option.elim_some]
  rcases updateHqc_cases c q (c.blk b).data.qc with ⟨_, hle⟩ | ⟨_, heq⟩
  · exact absurd (of_decide_eq_true hlt) (Nat.not_lt.mpr hle)
  · rw [heq]
    exact htops.onHqcUpdate

theorem Tops.congr {height : Nat} (htops : Tops c q height)
    (hheight : ∀ x, (c'.blk x).height = (c.blk x).height)
    (hparents : ∀ x, (c'.blk x).parents = (c.blk x).parents) (htails : c'.tails = c.tails) :
    Tops c' q height := by
  have hwalk : ∀ floor fuel x, c'.walk floor fuel x = c.walk floor fuel x :=
    HotStuffCore.walk_congr hheight (fun x => by rw [hparents x])
  unfold Tops at htops ⊢
  simpa only [HotStuffCore.checkAncestry, HotStuffCore.descend, hheight, hwalk, htails]
    using htops

/-! The calls of the core. -/

theorem woken_receiveProposal {prop : Proposal} {opinion : Bool}
    (hres : c.onReceiveProposal env prop = .ok (opinion, true, c')) :
    ∃ q ∈ c.qcWaiting, (c.blk prop.blk).qcRef = some q := by
  obtain ⟨hd, c₁, c₂, w, hup, hvote, _⟩ := onReceiveProposal_ok hres
  obtain ⟨_, hdec, x, hregs⟩ := update_raised hup
  have hsame : (c₂.blk prop.blk).qcRef = (c.blk prop.blk).qcRef ∧
      c₂.qcWaiting = c.qcWaiting := by
    have href : (c₁.blk prop.blk).qcRef = (c.blk prop.blk).qcRef :=
      (hdec.qcRef prop.blk).trans (congrArg Block.qcRef (blk_raised env c prop.blk))
    have hwait : c₁.qcWaiting = c.qcWaiting :=
      (congrArg Registers.qcWaiting hregs).trans (raised_spec env c prop.blk).2.2.2.2.2
    rcases decideVote_cases hvote with rfl | ⟨rfl, _⟩ <;> exact ⟨href, hwait⟩
  unfold HotStuffCore.onReceiveProposal at hres
  rw [if_pos hd] at hres
  simp only [bind, Except.bind] at hres
  rw [hup] at hres
  dsimp only at hres
  rw [hvote] at hres
  dsimp only at hres
  cases hq : (c₂.blk prop.blk).qcRef with
  | none =>
      rw [hq] at hres
      cases hres
  | some q =>
      rw [hq] at hres
      refine ⟨q, ?_, hsame.1 ▸ hq⟩
      have hfin := (onQcFinish_trail env c₂ (P := fun _ => True) q trivial).2
      dsimp only at hres
      generalize c₂.onQcFinish q = res at hfin hres
      obtain ⟨woken, d⟩ := res
      cases hres
      rw [← hsame.2]
      exact hfin rfl

/-- A vote that is counted leaves the tail, or completes a certificate higher than `hqc`. -/
theorem receiveVote_cases {vote : Vote K} {woken : Bool}
    (hres : c.onReceiveVote vote = .ok (woken, c')) :
    (∀ x, (c'.blk x).height = (c.blk x).height) ∧ c'.vheight = c.vheight ∧
      (c'.hqcTail = c.hqcTail ∨
        vote.voter ∉ (c.blk vote.blkHash).voted ∧
          (c.blk vote.blkHash).voted.card + 1 = c.config.nmajority ∧
          (c.blk c.hqc.1).height < (c.blk vote.blkHash).height ∧
          ∀ height, Tops c vote.blkHash height → height ≤ (c.blk c'.hqcTail).height) := by
  unfold HotStuffCore.onReceiveVote at hres
  split at hres
  swap
  · cases hres
  dsimp only at hres
  split at hres
  · cases hres
    exact ⟨fun _ => rfl, rfl, .inl rfl⟩
  split at hres
  · cases hres
    exact ⟨fun _ => rfl, rfl, .inl rfl⟩
  rename_i hvoted
  split at hres
  · cases hres
  rename_i qc _
  rw [HotStuffCore.modifyBlk_modifyBlk] at hres
  dsimp only at hres
  generalize hc₁ : c.modifyBlk vote.blkHash (fun b =>
    { b with voted := insert vote.voter b.voted, selfQc := some qc }) = c₁ at hres
  have hheight : ∀ x, (c₁.blk x).height = (c.blk x).height := fun x => by
    rw [← hc₁]
    exact c.field_modifyBlk Block.height vote.blkHash x (fun _ => rfl)
  have hparents : ∀ x, (c₁.blk x).parents = (c.blk x).parents := fun x => by
    rw [← hc₁]
    exact c.field_modifyBlk Block.parents vote.blkHash x (fun _ => rfl)
  have hregs : registers c₁ = registers c := by
    rw [← hc₁]
    rfl
  split at hres
  swap
  · cases hres
    exact ⟨hheight, congrArg Registers.vheight hregs, .inl (congrArg Registers.hqcTail hregs)⟩
  rename_i hlast
  obtain ⟨woken', w, hfin⟩ := onQcFinish_eq
    ((c₁.emit (.quorum vote.blkHash qc)).updateHqc vote.blkHash qc) vote.blkHash
  rw [hfin] at hres
  cases hres
  have hhqc : c₁.hqc = c.hqc := congrArg Registers.hqc hregs
  have htail : c₁.hqcTail = c.hqcTail := congrArg Registers.hqcTail hregs
  have hvheight : c₁.vheight = c.vheight := congrArg Registers.vheight hregs
  rcases updateHqc_cases (c₁.emit (.quorum vote.blkHash qc)) vote.blkHash qc with
    ⟨heq, _⟩ | ⟨hlt, heq⟩
  · rw [heq]
    exact ⟨hheight, hvheight, .inl htail⟩
  · rw [heq]
    have hlt' : (c₁.blk c₁.hqc.1).height < (c₁.blk vote.blkHash).height := hlt
    rw [hheight, hheight, hhqc] at hlt'
    refine ⟨hheight, hvheight, .inr ⟨hvoted, hlast, hlt', fun height htops => ?_⟩⟩
    have htops' : Tops (c₁.emit (.quorum vote.blkHash qc)) vote.blkHash height :=
      htops.congr hheight hparents (congrArg Registers.tails hregs)
    rw [← hheight]
    exact htops'.onHqcUpdate

/-! Keeping up. -/

theorem height_le_noteProposal (c : HotStuffCore K) (b : Uint256) :
    (c.blk c.hqcTail).height ≤ (c.blk (c.noteProposal b).hqcTail).height := by
  unfold HotStuffCore.noteProposal
  split
  · rename_i hcond
    exact (of_decide_eq_true (Bool.and_eq_true_iff.mp hcond).2).le
  · exact le_rfl

theorem height_le_noted (hanc : c.checkAncestry c.hqc.1 b = true) :
    (c.blk b).height ≤ (c.blk (c.noteProposal b).hqcTail).height := by
  unfold HotStuffCore.noteProposal
  split
  · exact le_rfl
  · rename_i hcond
    rw [hanc, Bool.true_and, decide_eq_true_eq] at hcond
    exact Nat.le_of_not_lt hcond

theorem same_noteProposal (c : HotStuffCore K) (b : Uint256) :
    (c.noteProposal b).storage = c.storage ∧ (c.noteProposal b).vheight = c.vheight := by
  unfold HotStuffCore.noteProposal
  split <;> exact ⟨rfl, rfl⟩

theorem level_noteProposal (hlevel : Level c) (b : Uint256) : Level (c.noteProposal b) := by
  obtain ⟨hstorage, hvheight⟩ := same_noteProposal c b
  have hblk : ∀ x, (c.noteProposal b).blk x = c.blk x := fun x => by
    unfold HotStuffCore.blk
    rw [hstorage]
  unfold Level
  rw [hvheight, hblk]
  exact hlevel.trans (height_le_noteProposal c b)

theorem level_congr (hlevel : Level c) (hheight : ∀ x, (c'.blk x).height = (c.blk x).height)
    (hvheight : c'.vheight = c.vheight) (htail : c'.hqcTail = c.hqcTail) : Level c' := by
  unfold Level
  rw [hheight, hvheight, htail]
  exact hlevel

/-- A proposal that keeps up leaves the tail level, once its callback has run; if the callbacks of
waiters run before it, then already. -/
theorem level_receiveProposal {prop : Proposal} {opinion woken : Bool} (hlevel : Level c)
    (hkeeps : KeepsUp env c (.receiveProposal prop))
    (hres : c.onReceiveProposal env prop = .ok (opinion, woken, c')) :
    Level (c'.noteProposal prop.blk) ∧ (woken = true → Level c') := by
  obtain ⟨_, c₁, c₂, w, hup, hvote, rfl⟩ := onReceiveProposal_ok hres
  obtain ⟨hheight, hdec, x, hregs⟩ := update_raised hup
  have hblk : ∀ x, (raised env c prop.blk).blk x = c.blk x := fun x => blk_raised env c prop.blk
  have hvheight : c₁.vheight = c.vheight :=
    (congrArg Registers.vheight hregs).trans (raised_spec env c prop.blk).2.2.1
  have htail : c₁.hqcTail = (raised env c prop.blk).hqcTail := congrArg Registers.hqcTail hregs
  have hhqc : c₁.hqc = (raised env c prop.blk).hqc := congrArg Registers.hqc hregs
  -- Both claims follow where the tail is as high as the block already.
  have hdone : ∀ {d : HotStuffCore K}, Level d →
      Level ((waiting d w).noteProposal prop.blk) ∧ (woken = true → Level (waiting d w)) :=
    fun hd => ⟨level_noteProposal (c := waiting _ w) hd prop.blk, fun _ => hd⟩
  have hkept : ∀ {height : Nat}, height ≤ (c.blk (raised env c prop.blk).hqcTail).height →
      height ≤ (c₁.blk c₁.hqcTail).height := by
    intro height hle
    rw [hheight, htail]
    exact hle
  cases hraise : raisesTo c prop.blk with
  | some q =>
      simp only [KeepsUp, hraise] at hkeeps
      have hle := hkept (hkeeps.raised hraise)
      rcases decideVote_cases hvote with rfl | ⟨rfl, _⟩
      · refine hdone ?_
        unfold Level
        rw [hvheight]
        exact (le_max_left _ _).trans hle
      · refine hdone ?_
        show (c₁.blk prop.blk).height ≤ (c₁.blk c₁.hqcTail).height
        rw [hheight prop.blk]
        exact (le_max_right _ _).trans hle
  | none =>
      simp only [KeepsUp, hraise] at hkeeps
      obtain ⟨hsame, hsameTail⟩ := raised_of_none env hraise
      rcases decideVote_cases hvote with rfl | ⟨rfl, hhigh, hsafe⟩
      · exact hdone (level_congr hlevel hheight hvheight (htail.trans hsameTail))
      · rw [hvheight, hheight] at hhigh
        have hlock : c₁.bLock = (raised env c prop.blk).bLock := congrArg Registers.bLock hregs
        have hsafe' : Safe env c prop.blk := by
          refine hsafe.imp (fun hlive => ?_) (fun hanc => ?_)
          · unfold HotStuffCore.qcAboveLock at hlive ⊢
            rw [hdec.qcRef, hlock] at hlive
            simpa only [hdec.height] using hlive
          · rw [← hdec.checkAncestry, ← hlock]
            exact hanc
        rcases hkeeps hhigh hsafe' with hle | ⟨hanc, hnone⟩
        · refine hdone ?_
          show (c₁.blk prop.blk).height ≤ (c₁.blk c₁.hqcTail).height
          rw [hheight prop.blk]
          exact hkept (hsameTail ▸ hle)
        · refine ⟨?_, fun hwoken => ?_⟩
          · have hanc' : (waiting (c₁.accept prop.blk) w).checkAncestry
                (waiting (c₁.accept prop.blk) w).hqc.1 prop.blk = true := by
              have hraised : ∀ y z, (raised env c prop.blk).checkAncestry y z =
                  c.checkAncestry y z := fun y z => checkAncestry_congr hblk
              have hown : (waiting (c₁.accept prop.blk) w).checkAncestry c₁.hqc.1 prop.blk =
                  c₁.checkAncestry c₁.hqc.1 prop.blk := checkAncestry_congr (fun _ => rfl)
              exact hown.trans (by rw [hdec.checkAncestry, hraised, hhqc, hsame]; exact hanc)
            have hle := height_le_noted hanc'
            obtain ⟨hstorage, hv⟩ := same_noteProposal (waiting (c₁.accept prop.blk) w) prop.blk
            unfold Level
            rw [hv]
            have hsameBlk : ∀ x, ((waiting (c₁.accept prop.blk) w).noteProposal prop.blk).blk x =
                (waiting (c₁.accept prop.blk) w).blk x := fun x => by
              unfold HotStuffCore.blk
              rw [hstorage]
            rw [hsameBlk]
            exact hle
          · rw [hwoken] at hres
            obtain ⟨q, hq, href⟩ := woken_receiveProposal hres
            exact absurd href (hnone q hq)

theorem level_receiveVote {vote : Vote K} {woken : Bool} (hlevel : Level c)
    (hkeeps : KeepsUp env c (.receiveVote vote)) (hres : c.onReceiveVote vote = .ok (woken, c')) :
    Level c' := by
  obtain ⟨hheight, hvheight, htail | ⟨hvoted, hlast, hlt, hscan⟩⟩ := receiveVote_cases hres
  · exact level_congr hlevel hheight hvheight htail
  · unfold Level
    rw [hvheight, hheight]
    exact hscan _ (hkeeps hvoted hlast hlt)

theorem level_propose {cmds parents : List Uint256} {extra : List UInt8} {woken : Bool}
    (hres : c.onPropose env cmds parents extra = .ok (woken, c')) :
    Level (c'.announce (env.getHash (c.newData cmds parents extra))) := by
  unfold HotStuffCore.onPropose at hres
  split at hres
  · cases hres
  simp only [bind, Except.bind] at hres
  split at hres
  · cases hres
  rename_i d _
  split at hres
  · cases hres
  obtain ⟨hheight, hvheight, _⟩ := receiveVote_cases hres
  show c'.vheight ≤ (c'.blk _).height
  rw [hvheight, hheight]
  exact le_rfl

/-- A block built on a level tail is high enough. -/
theorem high_enough {cmds : List Uint256} {extra : List UInt8} (htree : TreeOk env c)
    (hcerts : CertsOk c) (hlevel : Level c) (hd : (c.blk c.hqcTail).delivered = true)
    (hown : Unshared env c (c.newData cmds c.getParents extra)) :
    c.onPropose env cmds c.getParents extra ≠ .error (.notHigherThanVheight, c') := by
  intro hres
  have hbuild := built_of_tooLow hres
  have hlow : (c'.blk (env.getHash (c.newData cmds c.getParents extra))).height ≤ c'.vheight := by
    unfold HotStuffCore.onPropose at hres
    simp only [bind, Except.bind, hbuild] at hres
    split at hres
    · cases hres
    split at hres
    · assumption
    · exact absurd rfl (onReceiveVote_exn hres)
  have hparents : ∀ p ∈ (c.newData cmds c.getParents extra).parentHashes,
      (c.blk p).delivered = true := by
    intro p hp
    rw [List.mem_singleton.mp hp]
    exact hd
  have hspec := build_spec env (List.cons_ne_nil _ _) hparents rfl
    (by rw [hcerts.hqc_hash]; exact hcerts.hqc_stored)
  rw [hbuild] at hspec
  obtain ⟨htrail, hbuilt⟩ := hspec
  have htree' := (trail_ok htrail htree hcerts).1
  obtain ⟨hps, _⟩ := data_of_proposes hown.2 hown.1 (htrail.mono (fun _ => proposes_of_builds))
    (isSome_of_delivered hbuilt.delivered)
  have hparent : firstParent c' (env.getHash (c.newData cmds c.getParents extra)) =
      some c.hqcTail := by
    rw [firstParent_eq hbuilt.delivered, (htree'.deliveredOk _ hown.1 hbuilt.delivered).parents,
      hps]
    rfl
  have hheight := (htree'.delivered_firstParent hparent).2
  rw [(grows_of_trail htrail).height hd] at hheight
  rw [hheight, hbuilt.vheight] at hlow
  exact absurd hlevel (Nat.not_le.mpr hlow)

theorem level_castVote (hlevel : Level c) (prop : Proposal) (opinion : Bool) :
    Level (c.castVote prop opinion) := by
  unfold HotStuffCore.castVote
  split <;> exact hlevel

theorem level_returns {r r' : Replica K} {i : Input K} (hlevel : Level r.core)
    (hd : (r.core.blk r.core.hqcTail).delivered = true) (hg : Grows r.core r'.core)
    (hcalm : ∀ h, .proposed h ∉ r.stack) (hcalm' : ∀ h, .proposed h ∉ r'.stack)
    (hkeeps : KeepsUp env r.core i) (hreturns : Returns env r i r') : Level r'.core := by
  -- Delivered blocks keep their height.
  have hsame : r'.core.vheight = r.core.vheight → r'.core.hqcTail = r.core.hqcTail →
      Level r'.core := by
    intro hvheight htail
    unfold Level
    rw [hvheight, htail, hg.height hd]
    exact hlevel
  cases hreturns with
  | fetch =>
      rename_i data
      have hregs := registers_addBlk r.core (env.getHash data) (.fetched data)
      exact hsame (congrArg Registers.vheight hregs) (congrArg Registers.hqcTail hregs)
  | deliver hs hres =>
      have hspec := onDeliverBlk_spec env hs
      rw [hres] at hspec
      rcases hspec with ⟨_, rfl⟩ | ⟨_, rfl⟩ <;> exact hsame rfl rfl
  | propose hall hres =>
      rename_i woken _
      cases woken with
      | true => exact absurd List.mem_cons_self (hcalm' _)
      | false => exact level_propose hres
  | receiveProposal hres =>
      rename_i prop opinion woken d
      obtain ⟨hnoted, hwoken⟩ := level_receiveProposal hlevel hkeeps hres
      cases woken with
      | true => exact hwoken rfl
      | false => exact level_castVote hnoted prop opinion
  | receiveVote hres => exact level_receiveVote hlevel hkeeps hres
  | wait =>
      rename_i h
      obtain ⟨w, hw⟩ := asyncQcFinish_eq r.core h
      show Level (r.core.asyncQcFinish h)
      rw [hw]
      exact hlevel
  | resume hstep =>
      rcases step_resume hstep with ⟨h, stack, heq, _⟩ | ⟨h, stack, _, rfl⟩ |
        ⟨prop, opinion, stack, _, rfl⟩
      · refine absurd ?_ (hcalm h)
        rw [heq]
        exact List.mem_cons_self
      · exact hlevel
      · exact level_castVote (level_noteProposal hlevel prop.blk) prop opinion

/-! The network. -/

/-- What a replica receives keeps its tail level. -/
def Keeps (D : Deployment K) (s : Nodes K) (a : ReplicaID × NodeInput K) : Prop :=
  match a.2 with
  | .message i => KeepsUp D.env (s a.1).core i
  | _ => True

/-- No block was too low so far, and none will be before the next message. -/
def HighEnough (n : Node K) : Prop :=
  .threw .notHigherThanVheight ∉ n.core.trace ∧ (n.halted = false → Level n.core)

section network

variable {D : Deployment K} {kind : Kind} {s s' : Nodes K} {a : ReplicaID × NodeInput K}
  {r : ReplicaID}

theorem halted_of_step {n n' : Node K} {i : NodeInput K} (h : n.step env kind i = some n') :
    n.halted = false := by
  cases hhalted : n.halted with
  | false => rfl
  | true => cases i <;> simp [Node.step, Node.idle, hhalted] at h

theorem keepsUp_of_calls {j : Input K} (hkeeps : Keeps D s a)
    (hcalls : Calls kind (s a.1) a.2 j) : KeepsUp D.env (s a.1).core j := by
  obtain ⟨r, i⟩ := a
  cases i with
  | message i =>
      obtain rfl := hcalls
      exact hkeeps
  | beat cmds =>
      obtain rfl := hcalls
      exact trivial
  | impeach | expire | elected cmds => exact hcalls.elim
  | run =>
      obtain ⟨task, _, hcalls⟩ := hcalls
      cases task with
      | handle pm =>
          obtain ⟨_, rfl⟩ := hcalls
          exact trivial
      | newConsensus x cmds =>
          obtain rfl := hcalls
          exact trivial
      | finishNew x h | hooks h =>
          obtain rfl := hcalls
          exact trivial
      | resume =>
          obtain rfl := hcalls
          exact trivial
      | _ => exact hcalls.elim

theorem unshared_of_names {data : BlockData K} (hroot : D.named D.env.genesisHash = none)
    (hview : ViewOk D c) (hnames : D.Names data) : Unshared D.env c data := by
  refine ⟨fun heq => ?_, fun hne hs => ?_⟩
  · have hnamed : D.named (D.env.getHash data) = some _ := hnames
    rw [heq, hroot] at hnamed
    cases hnamed
  · have hsame := ((hview.nodes _).named hne hs).symm.trans hnames
    exact Prod.mk.inj (Option.some.inj hsame)

theorem HighEnough.step (hroot : D.named D.env.genesisHash = none)
    (hs : Reachable (paceNetwork D kind) s) (hkeeps : Keeps D s a)
    (hstep : (paceNetwork D kind).step s a s') (hok : HighEnough (s a.1)) :
    HighEnough (s' a.1) := by
  obtain ⟨hreach, hinf⟩ := replicas_reachable hs
  obtain ⟨hreach', _⟩ := replicas_reachable (.step hs hstep)
  obtain ⟨hadm, hadv⟩ := hstep
  obtain ⟨hnode, _⟩ := advanceNode_eq hadv
  have hlevel := hok.2 (halted_of_step hnode)
  have hpace : PaceOk D (s a.1).replica := paceOk_of_reachable hreach a.1 hadm.1
  have hlocal : LocalOk D.env (s a.1).core := localOk_of_reachable hreach.of_restrict a.1
  have hstored : ((s a.1).core.storage (s a.1).core.hqc.2.objHash).isSome := by
    rw [hlocal.certs.hqc_hash]
    exact hlocal.certs.hqc_stored
  rcases stepped_step hnode with hsame | ⟨j, hcalls, hcore, hhalt⟩
  · unfold HighEnough Node.core
    rw [hsame]
    exact ⟨hok.1, fun _ => hlevel⟩
  have hgrows := grows_of_trail ((replicaOk_of_reachable
    (Deployment.replica_reachable hreach.of_restrict a.1)).step hcore).2
  rcases throws_or_returns hcore with ⟨x, d, hdef, hthrows, heq⟩ | hreturns
  · have htrail := hthrows.trail hdef hstored
    unfold HighEnough Node.core
    rw [heq] at hhalt ⊢
    refine ⟨fun hmem => ?_, fun hrun => ?_⟩
    · rcases List.mem_cons.mp hmem with hx | hold
      · obtain rfl := Event.threw.inj hx
        obtain ⟨cmds, parents, extra, rfl, hres⟩ := hthrows.tooLow
        -- The block is built on the tail, and its hash is not that of the genesis block.
        obtain ⟨hadmits, hhigh⟩ := highTail_of_calls (hinf a.1 hadm.1) hadm hcalls
          (isMessage_of_step hnode)
        obtain ⟨L, _, hj⟩ := joined_of_reachable hreach.of_restrict
        obtain rfl : parents = (s a.1).core.getParents := hhigh
        exact high_enough hlocal.tree hlocal.certs hlevel hpace.tail.delivered
          (unshared_of_names hroot (hj a.1 hadm.1).view hadmits) hres
      · exact hok.1 (threw_of_trail htrail hold)
    · rw [hhalt (failed_emit (grows_of_trail htrail).trace)] at hrun
      cases hrun
  · exact ⟨fun hmem => hok.1 (hreturns.threw hstored hmem),
      fun _ => level_returns hlevel hpace.tail.delivered hgrows hpace.calm
        (paceOk_of_reachable hreach' a.1 hadm.1).calm (keepsUp_of_calls hkeeps hcalls) hreturns⟩

theorem highEnough_of_reachable (hroot : D.named D.env.genesisHash = none)
    (hs : Reachable ((paceNetwork D kind).restrict (Keeps D)) s) :
    ∀ r, D.Correct r → HighEnough (s r) := by
  refine hs.invariant (I := fun s => ∀ r, D.Correct r → HighEnough (s r)) ?_ ?_
  · rintro s rfl r _
    exact ⟨List.not_mem_nil, fun _ => Nat.zero_le _⟩
  · rintro s a s' hs hok ⟨hkeeps, hstep⟩ r hr
    by_cases hra : r = a.1
    · subst hra
      exact (hok a.1 hr).step hroot hs.of_restrict hkeeps hstep
    · rw [(advanceNode_eq hstep.2).2 r hra]
      exact hok r hr

/-- Where every message keeps the tail level, no call of `on_propose` on `get_parents()` finds its
block too low, whatever happens to the proposers. -/
theorem proposals_high_enough (hroot : D.named D.env.genesisHash = none)
    (hs : Reachable ((paceNetwork D .roundRobin).restrict (Keeps D)) s) (hr : D.Correct r) :
    .threw .notHigherThanVheight ∉ (s r).core.trace ∧
      ((s r).halted = false → ∀ cmds, D.Names ((s r).core.newData cmds (s r).core.getParents []) →
        ∀ d, (s r).core.onPropose D.env cmds (s r).core.getParents [] ≠
          .error (.notHigherThanVheight, d)) := by
  obtain ⟨hthrew, hlevel⟩ := highEnough_of_reachable hroot hs r hr
  obtain ⟨hreach, _⟩ := replicas_reachable hs.of_restrict
  obtain ⟨L, _, hj⟩ := joined_of_reachable hreach.of_restrict
  have hpace : PaceOk D (s r).replica := paceOk_of_reachable hreach r hr
  have hlocal : LocalOk D.env (s r).core := localOk_of_reachable hreach.of_restrict r
  exact ⟨hthrew, fun hrun cmds hnames d => high_enough hlocal.tree hlocal.certs (hlevel hrun)
    hpace.tail.delivered (unshared_of_names hroot (hj r hr).view hnames)⟩

end network

/-! Four replicas, all correct.  Replica 0 proposes two blocks, the second of which carries the
certificate of the first.  Replica 1 complains about it and, being the next proposer, proposes
blocks of its own at once; then it receives those of replica 0 and proposes again. -/

def crossing : Deployment clearScheme :=
  quartet false ∅ few_of_none [blockOf 1 0 0 [], blockOf 2 1 1 [0, 2, 3], blockOf 11 0 0 [],
    blockOf 12 11 0 [], blockOf 13 12 0 [], blockOf 14 2 1 [0, 2, 3]]

instance (c : HotStuffCore K) (q : Uint256) (height : Nat) : Decidable (Tops c q height) :=
  @instDecidableOr _ _ _ (List.decidableBEx _ _)

instance (env : Env K) (c : HotStuffCore K) (b : Uint256) : Decidable (Safe env c b) :=
  inferInstanceAs (Decidable (_ ∨ _))

instance (c : HotStuffCore K) (b : Uint256) :
    Decidable (∀ q ∈ c.qcWaiting, (c.blk b).qcRef ≠ some q) :=
  Finset.decidableDforallFinset

instance (env : Env K) (c : HotStuffCore K) (i : Input K) : Decidable (KeepsUp env c i) :=
  match i with
  | .receiveVote _ => inferInstanceAs (Decidable (_ → _ → _ → Tops _ _ _))
  | .receiveProposal prop =>
      match hraise : raisesTo c prop.blk with
      | some q => decidable_of_iff (Tops c q (max c.vheight (c.blk prop.blk).height))
          (by simp only [KeepsUp, hraise])
      | none => decidable_of_iff (c.vheight < (c.blk prop.blk).height → Safe env c prop.blk →
          (c.blk prop.blk).height ≤ (c.blk c.hqcTail).height ∨
            (c.checkAncestry c.hqc.1 prop.blk = true ∧
              ∀ q ∈ c.qcWaiting, (c.blk prop.blk).qcRef ≠ some q))
          (by simp only [KeepsUp, hraise])
  | .fetch _ | .deliver _ | .propose _ _ _ | .wait _ | .resume => isTrue trivial

instance (D : Deployment K) (s : Nodes K) (a : ReplicaID × NodeInput K) : Decidable (Keeps D s a) :=
  match a with
  | (r, .message i) => inferInstanceAs (Decidable (KeepsUp D.env (s r).core i))
  | (_, .beat _) | (_, .impeach) | (_, .expire) | (_, .elected _) | (_, .run) => isTrue trivial

instance (x : Exn) (trace : List (Event K)) : Decidable (.threw x ∈ trace) :=
  decidableMem (fun y => match y with
    | .threw z => decidable_of_iff (z = x) (by simp)
    | .created _ | .hqcUpdate _ | .accept _ | .partCert _ | .quorum _ _ | .consensus _ | .decide _
    | .propose _ | .broadcast _ | .vote _ _ => isFalse (fun h => by cases h)) trace

/-- A replica fetches and delivers a block. -/
def obtains (r : ReplicaID) (data : BlockData clearScheme) :
    List (ReplicaID × NodeInput clearScheme) :=
  [(r, .message (.fetch data)), (r, .message (.deliver (data.cmds.headD 0)))]

/-- A replica handles a proposal, and its pacemaker is told. -/
def hears (r proposer : ReplicaID) (h : Uint256) : List (ReplicaID × NodeInput clearScheme) :=
  [(r, .message (.receiveProposal ⟨proposer, h⟩)), (r, .run)]

/-- A replica receives the vote of another one. -/
def tallies (r i : ReplicaID) (h : Uint256) : List (ReplicaID × NodeInput clearScheme) :=
  [(r, .message (.receiveVote ⟨i, h, PartCert.create (show clearScheme.PrivKey from i.val) h⟩))]

/-- A batch of one command is ready, and what follows of it is carried out. -/
def batch (r : ReplicaID) (h : Uint256) (tasks : Nat) :
    List (ReplicaID × NodeInput clearScheme) :=
  (r, .beat [h]) :: List.replicate tasks (r, .run)

/-- Replica 0 proposes a block, gathers votes for it and proposes the next one; meanwhile replica 1
takes over. -/
def rivals : List (ReplicaID × NodeInput clearScheme) :=
  batch 0 1 7 ++ obtains 2 (blockOf 1 0 0 []) ++ hears 2 0 1 ++ obtains 3 (blockOf 1 0 0 []) ++
    hears 3 0 1 ++ tallies 0 2 1 ++ tallies 0 3 1 ++ batch 0 2 7 ++ [(1, .impeach)]

/-- Replica 1 learns of the certificate of block 1 through block 2. -/
def learns : List (ReplicaID × NodeInput clearScheme) :=
  obtains 1 (blockOf 1 0 0 []) ++ obtains 1 (blockOf 2 1 1 [0, 2, 3]) ++ hears 1 0 2

theorem pace_reachable {D : Deployment clearScheme} {kind : Kind}
    {inputs : List (ReplicaID × NodeInput clearScheme)} {s : Nodes clearScheme}
    (h : execute (guarded (Admitted D kind) (advanceNode D kind)) inputs (startNodes D kind) =
      some s) : Reachable (paceNetwork D kind) s :=
  Reachable.trans (.init rfl) (steps_of_execute (fun _ _ _ hstep => guarded_eq_some hstep) h)

/-- Replica 1 proposes once before it learns of the certificate. -/
def kept : Nodes clearScheme :=
  (execute (guarded (Keeps crossing) (guarded (Admitted crossing .roundRobin)
    (advanceNode crossing .roundRobin))) (rivals ++ batch 1 11 3 ++ learns ++ batch 1 14 3)
    (startNodes crossing .roundRobin)).get (by decide +kernel)

theorem kept_reachable : Reachable ((paceNetwork crossing .roundRobin).restrict (Keeps crossing))
    kept := by
  refine Reachable.trans (.init rfl)
    (steps_of_execute (fun _ _ _ hstep => ?_) (Option.some_get _).symm)
  obtain ⟨hkeeps, hnext⟩ := guarded_eq_some hstep
  exact ⟨hkeeps, guarded_eq_some hnext⟩

theorem proposals_high_enough_kept : (kept 1).core.hqcTail = 14 ∧ (kept 1).core.vheight = 3 ∧
    .threw .notHigherThanVheight ∉ (kept 1).core.trace :=
  ⟨by decide +kernel, by decide +kernel,
    (proposals_high_enough (by decide +kernel) kept_reachable (by decide : crossing.Correct 1)).1⟩

/-- Replica 1 proposes three times before it learns of the certificate, and once afterwards. -/
def crossed : Nodes clearScheme :=
  (execute (guarded (Admitted crossing .roundRobin) (advanceNode crossing .roundRobin))
    (rivals ++ batch 1 11 3 ++ batch 1 12 3 ++ batch 1 13 3 ++ learns ++ batch 1 14 1)
    (startNodes crossing .roundRobin)).get (by decide +kernel)

/-- The certificate takes the tail down to block 2, below the block 13 that replica 1 has voted
for, and its next block is not higher. -/
theorem proposal_too_low : crossing.byzantine = ∅ ∧
    Reachable (paceNetwork crossing .roundRobin) crossed ∧ crossing.Correct 1 ∧
    (crossed 1).core.hqcTail = 2 ∧ (crossed 1).core.vheight = 3 ∧
    .threw .notHigherThanVheight ∈ (crossed 1).core.trace :=
  ⟨rfl, pace_reachable (Option.some_get _).symm, by decide, by decide +kernel⟩

end ArchipelagoHotStuff.Liveness.Proposing
