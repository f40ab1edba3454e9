/- Module: ArchipelagoHotStuff/Base/Orphans
   source: hotstuff.cpp (async_deliver_blk), consensus.cpp (on_deliver_blk), entity.cpp
     (Block::unserialize)
   digest: Delivery refuses a block or gives it the height above its first parent, unless a block
     without parents has come through verification. -/

import ArchipelagoHotStuff.Base.Promises
import ArchipelagoHotStuff.Consensus.Messages

set_option autoImplicit false
set_option relaxedAutoImplicit false

namespace ArchipelagoHotStuff.Base.Orphans

open Crypto.Wire Crypto.Certificates Consensus Consensus.State Consensus.Handlers
open Consensus.VoteCount General.Transition Delivery Promises
open Consensus.Machine hiding Input

variable {K : Secp256k1}

/-- The callback of `promise::all` in `async_deliver_blk`, on the result of the verification. -/
def deliver (env : Env K) (c : HotStuffCore K) (h : Uint256) (valid : Bool) : BoolResult K :=
  if valid then c.onDeliverBlk env h else .ok (false, c)

/-- The block has been refused: nothing else has changed. -/
structure Refused (h : Uint256) (c c' : HotStuffCore K) : Prop where
  delivered : (c'.blk h).delivered = (c.blk h).delivered
  others : ∀ k, k ≠ h → c'.storage k = c.storage k
  tails : c'.tails = c.tails
  hqc : c'.hqc = c.hqc
  bLock : c'.bLock = c.bLock
  bExec : c'.bExec = c.bExec

/-- The block has been delivered right above its first parent. -/
structure Delivered (h : Uint256) (c c' : HotStuffCore K) : Prop where
  undelivered : (c.blk h).delivered = false
  delivered : (c'.blk h).delivered = true
  height : ∃ p, (c'.blk h).parents.head? = some p ∧ p ≠ h ∧
    (c'.blk h).height = (c'.blk p).height + 1
  others : ∀ k, k ≠ h → c'.storage k = c.storage k

/-- What delivery may come to.  Reading the first of no parents is none of it. -/
def Proper (h : Uint256) (c : HotStuffCore K) : BoolResult K → Prop
  | .ok (true, c') => Delivered h c c'
  | .ok (false, c') => Refused h c c'
  | .error (e, c') => e ≠ .undefinedBehaviour ∧ Refused h c c'

section core

variable {env : Env K} {c : HotStuffCore K} {h : Uint256}

theorem Refused.refl (h : Uint256) (c : HotStuffCore K) : Refused h c c :=
  ⟨rfl, fun _ _ => rfl, rfl, rfl, rfl, rfl⟩

theorem storage_modifyBlk_ne {k : Uint256} (hne : k ≠ h) (f : Block K → Block K) :
    (c.modifyBlk h f).storage k = c.storage k :=
  Function.update_of_ne hne _ _

theorem refused_modifyBlk (hs : (c.storage h).isSome) {f : Block K → Block K}
    (hf : ∀ b, (f b).delivered = b.delivered) : Refused h c (c.modifyBlk h f) := by
  refine ⟨?_, fun k hk => storage_modifyBlk_ne hk f, rfl, rfl, rfl, rfl⟩
  rw [c.blk_modifyBlk_self hs, hf]

/-- `on_deliver_blk` does what it may on exactly the blocks that are delivered already or have a
parent. -/
theorem proper_onDeliverBlk_iff (env : Env K) (hs : (c.storage h).isSome) :
    Proper h c (c.onDeliverBlk env h) ↔
      (c.blk h).delivered = true ∨ (c.blk h).data.parentHashes ≠ [] := by
  unfold HotStuffCore.onDeliverBlk
  cases hd : (c.blk h).delivered with
  | true => exact ⟨fun _ => .inl rfl, fun _ => .refl h c⟩
  | false =>
      simp only [Bool.false_eq_true, if_false, false_or]
      generalize hps : (c.blk h).data.parentHashes.takeWhile (fun p => (c.blk p).delivered) = ps
      by_cases hlt : ps.length < (c.blk h).data.parentHashes.length
      · -- A parent is not delivered yet.
        rw [if_pos hlt]
        exact ⟨fun _ => List.ne_nil_of_length_pos (by omega),
          fun _ => ⟨nofun, refused_modifyBlk hs (fun _ => rfl)⟩⟩
      rw [if_neg hlt]
      cases ps with
      | nil =>
          refine ⟨fun hproper => absurd rfl hproper.1, fun hne => ?_⟩
          exact absurd (List.length_pos_of_ne_nil hne) hlt
      | cons p ps =>
          have hmem : p ∈ (c.blk h).data.parentHashes.takeWhile (fun p => (c.blk p).delivered) := by
            rw [hps]
            exact List.mem_cons_self
          have hparent : (c.blk p).delivered = true :=
            List.mem_takeWhile_imp (p := fun p => (c.blk p).delivered) hmem
          have hne : (c.blk h).data.parentHashes ≠ [] :=
            List.ne_nil_of_mem ((List.takeWhile_subset _) hmem)
          refine ⟨fun _ => hne, fun _ => ?_⟩
          dsimp only
          split
          · have hp : p ≠ h := by
              rintro rfl
              rw [hd] at hparent
              cases hparent
            refine ⟨hd, ?_, ⟨p, ?_, hp, ?_⟩, fun k hk => storage_modifyBlk_ne hk _⟩
            · exact congrArg Block.delivered (c.blk_modifyBlk_self hs _)
            · exact congrArg (fun b => b.parents.head?) (c.blk_modifyBlk_self hs _)
            · refine (congrArg Block.height (c.blk_modifyBlk_self hs _)).trans ?_
              exact congrArg (fun b : Block K => b.height + 1) (c.blk_modifyBlk_ne hp _).symm
          · exact ⟨nofun, refused_modifyBlk hs (fun _ => rfl)⟩

theorem proper_deliver_iff (env : Env K) (hs : (c.storage h).isSome) (valid : Bool) :
    Proper h c (deliver env c h valid) ↔
      (valid = true → (c.blk h).delivered = true ∨ (c.blk h).data.parentHashes ≠ []) := by
  cases valid with
  | false => exact ⟨fun _ => nofun, fun _ => .refl h c⟩
  | true =>
      rw [deliver, if_pos rfl, proper_onDeliverBlk_iff env hs]
      exact ⟨fun hp _ => hp, fun hp => hp rfl⟩

end core

section base

variable {env : Env K} {keys : List K.PrivKey} {id : ReplicaID} {key : K.PrivKey}
  {voteDisabled : Bool} {s s' : HotStuffBase K} {h : Uint256}

/-- Whenever all that the delivery of a block waits for is there, delivery comes to what it may. -/
def Safe (env : Env K) (s : HotStuffBase K) (h : Uint256) : Prop :=
  ∀ valid, s.ready h = some valid →
    Proper h s.replica.core (deliver env s.replica.core h valid)

theorem stored_of_ready (hok : TablesOk env s) {valid : Bool} (hready : s.ready h = some valid) :
    (s.replica.core.storage h).isSome := by
  have hwaits : Waits env s h (some valid) true [] :=
    hok.consistent h _ (ready_eq_some.mp hready)
  exact hwaits.fetched

/-- Delivery is safe in a reachable state unless a block without parents has passed verification
and waits for nothing more. -/
theorem safe_iff (hs : Reachable (base env keys id key voteDisabled) s) :
    Safe env s h ↔ (s.ready h = some true →
      s.delivered h = true ∨ (s.blk h).data.parentHashes ≠ []) := by
  have hstored {valid : Bool} : s.ready h = some valid → (s.replica.core.storage h).isSome :=
    stored_of_ready (tablesOk_of_base hs)
  constructor
  · intro hsafe hready
    exact (proper_deliver_iff env (hstored hready) true).mp (hsafe true hready) rfl
  · intro hparents valid hready
    refine (proper_deliver_iff env (hstored hready) valid).mpr (fun hvalid => ?_)
    exact hparents (hvalid ▸ hready)

/-- The step that runs the callback does what `deliver` does, with the exception in the trace. -/
theorem onReady_eq (hstep : s.step env (.onReady h) = some s') :
    ∃ valid, s.ready h = some valid ∧
      match deliver env s.replica.core h valid with
      | .ok (_, c) => s'.replica.core = c
      | .error (e, c) => s'.replica.core = c.emit (.threw e) := by
  have hmoved := moved_of_step hstep
  rcases hmoved with ⟨hlookup, rfl⟩ | ⟨hlookup, s₁, ⟨replica, hadv, rfl⟩, hend⟩
  · exact ⟨false, ready_eq_some.mpr hlookup, rfl⟩
  · refine ⟨true, ready_eq_some.mpr hlookup, ?_⟩
    rw [replica_ended hend, deliver, if_pos rfl]
    simp only [Replica.step] at hadv
    split at hadv
    · split at hadv
      · rename_i x heq
        rw [heq]
        unfold Replica.throw at hadv
        split at hadv
        · cases hadv
        · cases hadv
          rfl
      · rename_i b c heq
        rw [heq]
        cases hadv
        rfl
    · cases hadv

end base

/-! A block without parents, on a replica of four. -/

/-- Block 1 of replica 0 of four names no parent, and the genesis block in its certificate. -/
def orphan : BlockData clearScheme := ⟨[], [1], QuorumCert.create peerConfig 0, []⟩

def orphanBytes : DataStream :=
  List.replicate 4 0 ++ (1 :: List.replicate 3 0) ++ (1 :: List.replicate 31 0) ++
    List.replicate 32 0 ++ (4 :: List.replicate 3 0) ++ List.replicate 8 0 ++ List.replicate 4 0

/-- The replica that has got a block with a parent. -/
def parented : HotStuffBase clearScheme :=
  (execute (HotStuffBase.step (clearEnv false)) [.msgPropose 1 firstBlock, .onFetched 1]
    peerStart).get (by decide +kernel)

theorem safe_iff_parented : parented.ready 1 = some true ∧
    Safe (clearEnv false) parented 1 := by
  have hs : Reachable (base (clearEnv false) peerKeys 0 (0 : Nat) false) parented :=
    Reachable.trans (.init rfl)
      (steps_of_execute (fun _ _ _ hstep => hstep) (Option.some_get _).symm)
  exact ⟨by decide +kernel, (safe_iff hs).mpr (fun _ => .inr (by decide +kernel))⟩

/-- The replica that has got the block. -/
def orphaned : HotStuffBase clearScheme :=
  (execute (HotStuffBase.step (clearEnv false)) [.msgPropose 1 orphan, .onFetched 1]
    peerStart).get (by decide +kernel)

/-- The block is parsed and passes, and its delivery reads the first of no parents. -/
theorem orphan_unsafe : Messages.getFields orphanBytes = .ok (orphan, []) ∧
    Reachable (base (clearEnv false) peerKeys 0 (0 : Nat) false) orphaned ∧
    ¬ Safe (clearEnv false) orphaned 1 := by
  refine ⟨by rfl, Reachable.trans (.init rfl)
    (steps_of_execute (fun _ _ _ hstep => hstep) (Option.some_get _).symm), fun hsafe => ?_⟩
  have hready : orphaned.ready 1 = some true := by decide +kernel
  have hstored : (orphaned.replica.core.storage 1).isSome = true := by decide +kernel
  have hparent := (proper_deliver_iff (clearEnv false) hstored true).mp (hsafe true hready) rfl
  revert hparent
  decide +kernel

end ArchipelagoHotStuff.Base.Orphans
