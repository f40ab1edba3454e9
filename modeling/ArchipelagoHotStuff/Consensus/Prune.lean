/- Module: ArchipelagoHotStuff/Consensus/Prune
   source: consensus.cpp (prune), entity.h (try_release_blk)
   digest: Dropping the links of old blocks and the blocks themselves: the loop over the stack, that
     it ends, and what it leaves alone. -/

import ArchipelagoHotStuff.Consensus.Tree
import Mathlib.Algebra.Order.BigOperators.Group.List

set_option autoImplicit false
set_option relaxedAutoImplicit false

namespace ArchipelagoHotStuff.Consensus.State

open Crypto.Wire Crypto.Certificates

variable {K : Secp256k1}

/-- A block that `prune` has passed. -/
def Block.emptied (b : Block K) : Block K := { b with parents := [], qcRef := none }

namespace HotStuffCore

variable (c : HotStuffCore K)

/-- The block is `b0`, in a register, a tail, or waited for. -/
def Holds (env : Env K) (h : Uint256) : Prop :=
  h = env.genesisHash ∨ h = c.hqc.1 ∨ h = c.bLock ∨ h = c.bExec ∨ h = c.hqcTail ∨ h ∈ c.tails ∨
    h ∈ c.qcWaiting

instance (env : Env K) (h : Uint256) : Decidable (c.Holds env h) := by
  unfold Holds
  infer_instance

/-- Whether the core or a block of `keys` refers to a block. -/
def refers (env : Env K) (keys : List Uint256) (h : Uint256) : Bool :=
  decide (c.Holds env h) ||
    keys.any (fun x => decide (h ∈ (c.blk x).parents) || decide ((c.blk x).qcRef = some h))

/-- `try_release_blk`, called with a block on top of the stack: a count of two is the storage and
the stack.  `keys` are the keys of the storage; `held` says of which blocks somebody outside of
the core keeps a reference. -/
def tryReleaseBlk (env : Env K) (keys : List Uint256) (held : Uint256 → Bool) (h : Uint256) :
    HotStuffCore K :=
  if c.refers env keys h || held h then c
  else { c with storage := Function.update c.storage h none }

/-- The first loop of `prune`; nothing if it returns early. -/
def pruneStart : Nat → Uint256 → Option Uint256
  | 0, start => some start
  | staleness + 1, start => (c.blk start).parents.head?.bind (pruneStart staleness)

/-- One round of the second loop that pops a parent. -/
def popParent (h : Uint256) : HotStuffCore K :=
  c.modifyBlk h (fun b => { b with parents := b.parents.dropLast, qcRef := none })

/-- One round of the second loop of `prune`, with `blk` on top of the stack. -/
def pruneRound (env : Env K) (keys : List Uint256) (held : Uint256 → Bool) (blk : Uint256)
    (s : List Uint256) : HotStuffCore K × List Uint256 :=
  match (c.blk blk).parents.getLast? with
  | none => (c.tryReleaseBlk env keys held blk, s)
  | some p => (c.popParent blk, p :: blk :: s)

/-- The second loop of `prune`, for a number of rounds at most. -/
def pruneLoop (env : Env K) (keys : List Uint256) (held : Uint256 → Bool) (fuel : Nat)
    (c : HotStuffCore K) (s : List Uint256) : Option (HotStuffCore K) :=
  match s with
  | [] => some c
  | blk :: s =>
      match fuel with
      | 0 => none
      | fuel + 1 =>
          let r := c.pruneRound env keys held blk s
          pruneLoop env keys held fuel r.1 r.2

/-- `prune`, with a bound on the rounds of its second loop.  Its variable `start` refers to the
first block of the stack. -/
def prune (env : Env K) (keys : List Uint256) (held : Uint256 → Bool) (fuel staleness : Nat) :
    Option (HotStuffCore K) :=
  match c.pruneStart staleness c.bExec with
  | none => some c
  | some start =>
      pruneLoop env keys (fun h => held h || h == start) fuel
        (c.modifyBlk start (fun b => { b with qcRef := none })) [start]

end HotStuffCore

end ArchipelagoHotStuff.Consensus.State

namespace ArchipelagoHotStuff.Consensus.Prune

open Crypto.Wire Crypto.Certificates State

variable {K : Secp256k1} {env : Env K} {c d : HotStuffCore K} {keys s : List Uint256}
  {held : Uint256 → Bool} {fuel : Nat}

/-- The keys of the storage are all listed. -/
def Listed (keys : List Uint256) (c : HotStuffCore K) : Prop :=
  ∀ x, (c.storage x).isSome → x ∈ keys

def links (keys : List Uint256) (c : HotStuffCore K) : Nat :=
  (keys.map (fun x => (c.blk x).parents.length)).sum

theorem Listed.of_le (hkeys : Listed keys c) (hle : ∀ x, (d.storage x).isSome →
    (c.storage x).isSome) : Listed keys d :=
  fun x hx => hkeys x (hle x hx)

theorem isSome_tryRelease {h x : Uint256}
    (hx : ((c.tryReleaseBlk env keys held h).storage x).isSome) : (c.storage x).isSome := by
  unfold HotStuffCore.tryReleaseBlk at hx
  split at hx
  · exact hx
  · by_cases heq : x = h
    · simp [heq] at hx
    · simpa [heq] using hx

theorem links_tryRelease (env : Env K) (c : HotStuffCore K) (keys : List Uint256)
    (held : Uint256 → Bool) (h : Uint256) :
    links keys (c.tryReleaseBlk env keys held h) ≤ links keys c := by
  refine List.sum_le_sum (fun x _ => ?_)
  unfold HotStuffCore.tryReleaseBlk
  split
  · exact le_rfl
  · by_cases heq : x = h
    · simp [HotStuffCore.blk, heq, Block.absent, Block.fetched]
    · simp [HotStuffCore.blk, heq]

theorem isSome_of_parents {h p : Uint256} (hp : (c.blk h).parents.getLast? = some p) :
    (c.storage h).isSome := by
  cases hs : c.storage h with
  | some b => rfl
  | none =>
      rw [c.blk_of_none hs] at hp
      cases hp

theorem links_popParent {h p : Uint256} (hkeys : Listed keys c)
    (hp : (c.blk h).parents.getLast? = some p) : links keys (c.popParent h) < links keys c := by
  have hs := isSome_of_parents hp
  have hself : ((c.popParent h).blk h).parents = (c.blk h).parents.dropLast := by
    rw [HotStuffCore.popParent, c.blk_modifyBlk_self hs]
  have hpos : 0 < (c.blk h).parents.length :=
    List.length_pos_of_mem (List.mem_of_getLast? hp)
  refine List.sum_lt_sum _ _ (fun x _ => ?_) ⟨h, hkeys h hs, ?_⟩
  · by_cases hx : x = h
    · rw [hx, hself, List.length_dropLast]
      exact Nat.sub_le _ _
    · rw [HotStuffCore.popParent, c.blk_modifyBlk_ne hx]
  · rw [hself, List.length_dropLast]
    exact Nat.sub_lt hpos Nat.one_pos

@[simp] theorem pruneLoop_nil (env : Env K) (keys : List Uint256) (held : Uint256 → Bool)
    (fuel : Nat) (c : HotStuffCore K) :
    HotStuffCore.pruneLoop env keys held fuel c [] = some c := by
  unfold HotStuffCore.pruneLoop
  rfl

theorem pruneLoop_succ (blk : Uint256) :
    HotStuffCore.pruneLoop env keys held (fuel + 1) c (blk :: s) =
      HotStuffCore.pruneLoop env keys held fuel (c.pruneRound env keys held blk s).1
        (c.pruneRound env keys held blk s).2 := rfl

theorem links_pruneRound (env : Env K) (s : List Uint256) (held : Uint256 → Bool)
    (hkeys : Listed keys c) (blk : Uint256) :
    Listed keys (c.pruneRound env keys held blk s).1 ∧
      2 * links keys (c.pruneRound env keys held blk s).1 +
        (c.pruneRound env keys held blk s).2.length + 1 ≤ 2 * links keys c + s.length + 1 := by
  unfold HotStuffCore.pruneRound
  cases hp : (c.blk blk).parents.getLast? with
  | none =>
      have hle := links_tryRelease env c keys held blk
      exact ⟨hkeys.of_le (fun x => isSome_tryRelease), by dsimp only; omega⟩
  | some p =>
      have hlt := links_popParent hkeys hp
      refine ⟨hkeys.of_le (fun x hx => ?_), by simp only [List.length_cons]; omega⟩
      rwa [HotStuffCore.popParent, HotStuffCore.isSome_modifyBlk] at hx

theorem exists_pruneLoop (env : Env K) (s : List Uint256) (held : Uint256 → Bool)
    (hkeys : Listed keys c) (hfuel : 2 * links keys c + s.length ≤ fuel) :
    ∃ d, HotStuffCore.pruneLoop env keys held fuel c s = some d := by
  induction fuel generalizing c s with
  | zero =>
      obtain rfl : s = [] := List.length_eq_zero_iff.mp (by omega)
      exact ⟨c, pruneLoop_nil ..⟩
  | succ fuel ih =>
      cases s with
      | nil => exact ⟨c, pruneLoop_nil ..⟩
      | cons blk s =>
          obtain ⟨hlisted, hless⟩ := links_pruneRound env s held hkeys blk
          rw [List.length_cons] at hfuel
          rw [pruneLoop_succ]
          exact ih _ hlisted (by omega)

theorem pruneLoop_mono {fuel' : Nat} (hle : fuel ≤ fuel')
    (hloop : HotStuffCore.pruneLoop env keys held fuel c s = some d) :
    HotStuffCore.pruneLoop env keys held fuel' c s = some d := by
  induction fuel generalizing c s fuel' with
  | zero =>
      cases s with
      | nil => simpa using hloop
      | cons blk s => cases hloop
  | succ fuel ih =>
      cases s with
      | nil => simpa using hloop
      | cons blk s =>
          obtain ⟨k, rfl⟩ := Nat.exists_eq_add_of_le' hle
          rw [← Nat.add_assoc, pruneLoop_succ]
          exact ih (Nat.le_add_left fuel k) hloop

theorem pruneLoop_invariant {I : HotStuffCore K → List Uint256 → Prop}
    (hround : ∀ c blk s, I c (blk :: s) →
      I (c.pruneRound env keys held blk s).1 (c.pruneRound env keys held blk s).2)
    (hI : I c s) (hloop : HotStuffCore.pruneLoop env keys held fuel c s = some d) : I d [] := by
  induction fuel generalizing c s with
  | zero =>
      cases s with
      | nil =>
          cases (pruneLoop_nil ..).symm.trans hloop
          exact hI
      | cons blk s => cases hloop
  | succ fuel ih =>
      cases s with
      | nil =>
          cases (pruneLoop_nil ..).symm.trans hloop
          exact hI
      | cons blk s => exact ih (hround c blk s hI) hloop

theorem exists_prune (env : Env K) (held : Uint256 → Bool) (hkeys : Listed keys c)
    (staleness : Nat) :
    ∃ n d, ∀ fuel, n ≤ fuel → c.prune env keys held fuel staleness = some d := by
  unfold HotStuffCore.prune
  cases c.pruneStart staleness c.bExec with
  | none => exact ⟨0, c, fun _ _ => rfl⟩
  | some start =>
      have hlisted : Listed keys (c.modifyBlk start (fun b => { b with qcRef := none })) :=
        hkeys.of_le (fun x hx => by rwa [HotStuffCore.isSome_modifyBlk] at hx)
      obtain ⟨d, hd⟩ := exists_pruneLoop env [start]
        (fun h => held h || h == start) hlisted le_rfl
      exact ⟨_, d, fun fuel hle => pruneLoop_mono hle hd⟩

theorem prune_storage {fuel staleness : Nat}
    (hprune : c.prune env keys held fuel staleness = some d) :
    d = { c with storage := d.storage } := by
  unfold HotStuffCore.prune at hprune
  split at hprune
  · cases hprune
    rfl
  · refine pruneLoop_invariant (I := fun d _ => d = { c with storage := d.storage })
      (fun d blk s hd => ?_) rfl hprune
    rw [hd]
    unfold HotStuffCore.pruneRound HotStuffCore.tryReleaseBlk
    split
    · split <;> rfl
    · rfl

end ArchipelagoHotStuff.Consensus.Prune
