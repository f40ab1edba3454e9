/- Module: ArchipelagoHotStuff/Base/Requests
   source: hotstuff.cpp (req_blk_handler, resp_blk_handler, on_fetch_blk, async_fetch_blk),
     promise.hpp (promise::all)
   digest: The answers to requests for blocks, and the requests that are answered once all blocks
     are there. -/

import ArchipelagoHotStuff.Base.Wakeups
import ArchipelagoHotStuff.General.Join

set_option autoImplicit false
set_option relaxedAutoImplicit false

namespace ArchipelagoHotStuff.Base.Requests

open Crypto.Wire Crypto.Certificates Consensus Consensus.State Consensus.VoteCount
open General.Transition General.Join Delivery Promises Wakeups
open Consensus.Machine hiding Input

variable {K : Secp256k1}

abbrev PeerId := Uint256

/-- `promise::all`, on promises that have a value or wait for one. -/
def promiseAll (pms : List (Option Uint256)) : Except Exn (All Uint256) :=
  if pms.isEmpty then .error .mismatchingTypes
  else .ok ((All.pending pms.length).settle 0 pms)

/-- A `MsgReqBlock` and the promise of all its blocks.  `known` are those that were stored when it
came and `brought` all blocks that have come in a `MsgRespBlock` since. -/
structure Request where
  peer : PeerId
  blkHashes : List Uint256
  known : List Uint256
  brought : List Uint256
  join : Except Exn (All Uint256)

namespace Request

/-- The `MsgRespBlock`s that have been sent, with the hashes of their blocks. -/
def sent (r : Request) : List (PeerId × List (Option Uint256)) :=
  match r.join with
  | .error _ => []
  | .ok j => j.resolved.map (fun values => (r.peer, values))

def threw (r : Request) : Bool :=
  match r.join with
  | .error _ => true
  | .ok _ => false

/-- `req_blk_handler`, where `async_fetch_blk` gives a block that is stored at once. -/
def new (s : HotStuffBase K) (peer : PeerId) (blkHashes : List Uint256) : Request where
  peer := peer
  blkHashes := blkHashes
  known := blkHashes.filter s.fetched
  brought := []
  join := promiseAll (blkHashes.map (fun h => if s.fetched h then some h else none))

/-- A block comes in a `MsgRespBlock`, and the promise of its fetch is resolved if there is one. -/
def onFetch (waiting : Bool) (h : Uint256) (r : Request) : Request :=
  { r with
    brought := r.brought ++ [h]
    join :=
      if waiting then
        r.join.map (fun j => j.settle 0 (r.blkHashes.map (fun k => if k = h then some h else none)))
      else r.join }

def slot (r : Request) (h : Uint256) : Option Uint256 :=
  if h ∈ r.known ∨ h ∈ r.brought then some h else none

end Request

/-- A replica and the requests it has got. -/
structure Server (K : Secp256k1) where
  base : HotStuffBase K
  requests : List Request

namespace Server

def onFetchBlk (s : Server K) (h : Uint256) : Server K where
  base := s.base.onFetchBlk h
  requests := s.requests.map (Request.onFetch (decide (h ∈ s.base.blkFetchWaiting)) h)

/-- `resp_blk_handler`. -/
def respBlk (env : Env K) (s : Server K) (blks : List (BlockData K)) : Server K :=
  (blks.map env.getHash).foldl onFetchBlk { s with base := s.base.addBlks env blks }

/-- What an input does to the requests. -/
def react (env : Env K) (s : Server K) (peer : PeerId) : Input K → List Request
  | .msgReqBlock blkHashes => s.requests ++ [.new s.base peer blkHashes]
  | .msgRespBlock blks => (s.respBlk env blks).requests
  | _ => s.requests

/-- A step of the replica, on a message from a peer if it is one. -/
def step (env : Env K) (s : Server K) (input : PeerId × Input K) : Option (Server K) :=
  if s.requests.any Request.threw then none
  else (s.base.step env input.2).map (fun base => ⟨base, s.react env input.1 input.2⟩)

end Server

/-- A replica of a system with the given keys. -/
def server (env : Env K) (keys : List K.PrivKey) (id : ReplicaID) (key : K.PrivKey)
    (voteDisabled : Bool) : System (Server K) (PeerId × Input K) where
  init s := (base env keys id key voteDisabled).init s.base ∧ s.requests = []
  step s input s' := s.step env input = some s'

/-- The request has not thrown.  Its one answer, which consists of the listed blocks in order, is
sent by the time all of them are stored. -/
structure Served (s : HotStuffBase K) (r : Request) : Prop where
  handled : r.threw = false
  answers : r.sent = [] ∨ r.sent = [(r.peer, r.blkHashes.map some)]
  answered : (∀ h ∈ r.blkHashes, s.fetched h = true) →
    r.sent = [(r.peer, r.blkHashes.map some)]

/-- What holds of a request: the promise of all has the blocks that were stored or brought, and
the others are waited for. -/
structure Kept (s : HotStuffBase K) (r : Request) : Prop where
  empty : r.blkHashes = [] → r.join = .error .mismatchingTypes
  join : r.blkHashes ≠ [] →
    ∃ j : All Uint256, r.join = .ok j ∧ j.Ok ∧ j.results = r.blkHashes.map r.slot
  waits : ∀ h ∈ r.blkHashes, r.slot h = none → h ∈ s.blkFetchWaiting

section request

variable {env : Env K} {s s' : HotStuffBase K} {r : Request} {h k : Uint256}

theorem slot_eq_none : r.slot h = none ↔ ¬ (h ∈ r.known ∨ h ∈ r.brought) := by
  unfold Request.slot
  split
  · rename_i hslot
    exact ⟨nofun, fun hnot => absurd hslot hnot⟩
  · rename_i hslot
    exact ⟨fun _ => hslot, fun _ => rfl⟩

theorem map_slot_eq {hs : List Uint256} (hfull : ∀ h ∈ hs, r.slot h ≠ none) :
    hs.map r.slot = hs.map some := by
  refine List.map_congr_left (fun h hh => ?_)
  have hne := hfull h hh
  unfold Request.slot at hne ⊢
  split
  · rfl
  · rename_i hslot
    exact absurd (if_neg hslot) hne

/-- A request is served when its blocks have come in ways that the promises know of. -/
theorem Kept.settled_iff_known (hkept : Kept s r) : Served s r ↔
    r.blkHashes ≠ [] ∧ ((∀ h ∈ r.blkHashes, s.fetched h = true) →
      ∀ h ∈ r.blkHashes, h ∈ r.known ∨ h ∈ r.brought) := by
  by_cases hnil : r.blkHashes = []
  · refine ⟨fun hserved => ?_, fun hcond => absurd hnil hcond.1⟩
    have hthrew := hserved.handled
    rw [Request.threw, hkept.empty hnil] at hthrew
    cases hthrew
  obtain ⟨j, hjoin, hok, hresults⟩ := hkept.join hnil
  have hsent : r.sent = j.resolved.map (fun values => (r.peer, values)) := by
    rw [Request.sent, hjoin]
  have hfull : (∀ h ∈ r.blkHashes, h ∈ r.known ∨ h ∈ r.brought) ↔ none ∉ j.results := by
    rw [hresults, List.mem_map]
    constructor
    · rintro hall ⟨h, hh, hnone⟩
      exact slot_eq_none.mp hnone (hall h hh)
    · intro hnone h hh
      by_contra hslot
      exact hnone ⟨h, hh, slot_eq_none.mpr hslot⟩
  have hall : (∀ h ∈ r.blkHashes, h ∈ r.known ∨ h ∈ r.brought) →
      j.results = r.blkHashes.map some := by
    intro hall
    rw [hresults]
    exact map_slot_eq (fun h hh hnone => slot_eq_none.mp hnone (hall h hh))
  have hone : r.sent = [(r.peer, r.blkHashes.map some)] ↔
      ∀ h ∈ r.blkHashes, h ∈ r.known ∨ h ∈ r.brought := by
    rw [hfull, ← hok.full_iff, hsent]
    constructor
    · intro heq
      rcases hok.resolved_eq with hnone | hres
      · rw [hnone] at heq
        cases heq
      · exact hres
    · intro hres
      rw [hres, List.map_singleton, hall (hfull.mpr (hok.full_iff.mp hres))]
  refine ⟨fun hserved => ⟨hnil, fun hstored => hone.mp (hserved.answered hstored)⟩, ?_⟩
  rintro ⟨_, hcond⟩
  refine ⟨by rw [Request.threw, hjoin], ?_, fun hstored => hone.mpr (hcond hstored)⟩
  rcases hok.resolved_eq with hnone | hres
  · exact .inl (by rw [hsent, hnone, List.map_nil])
  · exact .inr (hone.mpr (hfull.mpr (hok.full_iff.mp hres)))

theorem Kept.mono (hkept : Kept s r) (hwaiting : s.blkFetchWaiting ⊆ s'.blkFetchWaiting) :
    Kept s' r :=
  ⟨hkept.empty, hkept.join, fun h hh hnone => hwaiting (hkept.waits h hh hnone)⟩

theorem slot_onFetch {waiting : Bool} :
    (r.onFetch waiting h).slot k = (r.slot k).or (if k = h then some h else none) := by
  have hbrought : k ∈ r.brought ++ [h] ↔ k ∈ r.brought ∨ k = h := by
    rw [List.mem_append, List.mem_singleton]
  simp only [Request.slot, Request.onFetch, hbrought, ← or_assoc]
  by_cases hslot : k ∈ r.known ∨ k ∈ r.brought
  · rw [if_pos (.inl hslot), if_pos hslot, Option.some_or]
  · rw [if_neg hslot, Option.none_or]
    by_cases heq : k = h
    · rw [if_pos (.inr heq), if_pos heq, heq]
    · rw [if_neg (not_or.mpr ⟨hslot, heq⟩), if_neg heq]

theorem Kept.onFetch (hkept : Kept s r) (h : Uint256) :
    Kept (s.onFetchBlk h) (r.onFetch (decide (h ∈ s.blkFetchWaiting)) h) := by
  refine ⟨fun hnil => ?_, fun hne => ?_, fun k hk hnone => ?_⟩
  · have herror := hkept.empty hnil
    unfold Request.onFetch
    dsimp only
    split
    · rw [herror]
      rfl
    · exact herror
  · obtain ⟨j, hjoin, hok, hresults⟩ := hkept.join hne
    by_cases hwaiting : h ∈ s.blkFetchWaiting
    · refine ⟨j.settle 0 (r.blkHashes.map (fun k => if k = h then some h else none)), ?_,
        hok.settle, ?_⟩
      · rw [Request.onFetch, decide_eq_true hwaiting, if_pos rfl, hjoin]
        rfl
      · rw [All.results_settle_zero (by rw [hresults, List.length_map, List.length_map]),
          hresults, List.zipWith_map, List.zipWith_self]
        exact (List.map_congr_left (fun k _ => slot_onFetch)).symm
    · refine ⟨j, ?_, hok, hresults.trans (List.map_congr_left (fun k hk => ?_))⟩
      · rw [Request.onFetch, decide_eq_false hwaiting]
        exact hjoin
      · -- Nobody waits for this block, so that its slots are full.
        rw [slot_onFetch]
        cases hslot : r.slot k with
        | some v => rw [Option.some_or]
        | none =>
            have hne : k ≠ h := by
              rintro rfl
              exact hwaiting (hkept.waits k hk hslot)
            rw [if_neg hne, Option.none_or]
  · rw [slot_onFetch, Option.or_eq_none_iff] at hnone
    have hne : k ≠ h := by
      rintro rfl
      exact absurd hnone.2 (by rw [if_pos rfl]; nofun)
    rw [blkFetchWaiting_onFetchBlk]
    exact Finset.mem_erase.mpr ⟨hne, hkept.waits k hk hnone.1⟩

theorem le_asyncFetchBlks (s : HotStuffBase K) (hs : List Uint256) :
    Le s (hs.foldl HotStuffBase.asyncFetchBlk s) :=
  List.foldlRecOn hs HotStuffBase.asyncFetchBlk (.refl s)
    (fun t ht h _ => ht.trans (le_asyncFetchBlk t h))

theorem mem_asyncFetchBlks {hs : List Uint256} (hmem : h ∈ hs) (hnone : s.fetched h = false) :
    h ∈ (hs.foldl HotStuffBase.asyncFetchBlk s).blkFetchWaiting := by
  induction hs generalizing s with
  | nil => cases hmem
  | cons k hs ih =>
      rcases List.mem_cons.mp hmem with rfl | hmem
      · exact (le_asyncFetchBlks _ hs).fetching (mem_asyncFetchBlk hnone)
      · refine ih hmem ?_
        unfold HotStuffBase.fetched
        rw [replica_asyncFetchBlk]
        exact hnone

theorem slot_new {peer : PeerId} {hs : List Uint256} (hmem : h ∈ hs) :
    (Request.new s peer hs).slot h = if s.fetched h then some h else none := by
  simp [Request.slot, Request.new, hmem]

theorem kept_new (s : HotStuffBase K) (peer : PeerId) (hs : List Uint256) :
    Kept (hs.foldl HotStuffBase.asyncFetchBlk s) (.new s peer hs) := by
  refine ⟨fun hnil => ?_, fun hne => ?_, fun h hh hnone => ?_⟩
  · obtain rfl : hs = [] := hnil
    rfl
  · generalize hpms : hs.map (fun h => if s.fetched h then some h else none) = pms
    have hpos : 0 < pms.length := by
      rw [← hpms, List.length_map]
      exact List.length_pos_of_ne_nil hne
    refine ⟨(All.pending pms.length).settle 0 pms, ?_, (All.ok_pending hpos).settle, ?_⟩
    · show promiseAll _ = _
      rw [hpms, promiseAll, if_neg]
      rw [List.isEmpty_iff]
      exact List.ne_nil_of_length_pos hpos
    · have hor : List.zipWith Option.or (List.replicate pms.length none) pms = pms := by
        refine List.ext_getElem (by simp) (fun n _ _ => by simp)
      rw [All.results_settle_zero List.length_replicate, All.pending, hor, ← hpms]
      exact List.map_congr_left (fun h hh => (slot_new hh).symm)
  · replace hh : h ∈ hs := hh
    rw [slot_new hh] at hnone
    cases hf : s.fetched h with
    | true =>
        rw [hf] at hnone
        cases hnone
    | false => exact mem_asyncFetchBlks hh hf

end request

/-! Every step. -/

section step

variable {env : Env K} {s s' : HotStuffBase K} {t t' : Server K} {peer : PeerId} {i : Input K}

theorem le_await (s : HotStuffBase K) (callback : Callback K) : Le s (s.await callback) := by
  unfold HotStuffBase.await
  split
  · exact .of_eq rfl rfl rfl
  · exact (le_asyncDeliverBlk s callback.blk).trans (.of_eq rfl rfl rfl)

theorem fetching_of_moved (hmoved : Moved env s i s') (hresp : ∀ blks, i ≠ .msgRespBlock blks) :
    s.blkFetchWaiting ⊆ s'.blkFetchWaiting := by
  have hadvance : ∀ {u u' : HotStuffBase K} {j : Consensus.Machine.Input K},
      Advanced env u j u' → u'.blkFetchWaiting = u.blkFetchWaiting := by
    rintro u u' j ⟨replica, _, rfl⟩
    rfl
  cases i with
  | msgPropose proposer data =>
      obtain ⟨_, rfl⟩ := hmoved
      exact (le_await (s.addBlks env [data]) _).fetching
  | msgVote vote =>
      obtain rfl := hmoved
      exact (le_await s _).fetching
  | msgReqBlock blkHashes =>
      obtain rfl := hmoved
      exact (le_asyncFetchBlks s blkHashes).fetching
  | msgRespBlock blks => exact absurd rfl (hresp blks)
  | onFetched h =>
      obtain ⟨_, rfl⟩ := hmoved
      exact (le_beginDelivery env s h).fetching
  | onVerified h =>
      obtain ⟨_, _, _, _, _, rfl⟩ := hmoved
      exact Finset.Subset.refl _
  | onReady h =>
      rcases hmoved with ⟨_, rfl⟩ | ⟨_, s₁, hadv, hend⟩
      · exact Finset.Subset.refl _
      · have hwaiting : s'.blkFetchWaiting = s₁.blkFetchWaiting := by
          rcases hend with ⟨_, rfl⟩ | ⟨_, _, rfl⟩ | ⟨_, _, rfl⟩ <;> rfl
        rw [hwaiting, hadvance hadv]
  | handle n =>
      obtain ⟨callback, _, hhandled⟩ := hmoved
      cases callback with
      | proposal prop => exact (hadvance hhandled).ge
      | vote vote =>
          rcases hhandled with rfl | ⟨_, hadv⟩
          · exact Finset.Subset.refl _
          · exact (hadvance hadv).ge
  | propose cmds parents extra => exact (hadvance hmoved).ge
  | wait h => exact (hadvance hmoved).ge
  | resume => exact (hadvance hmoved).ge

theorem base_onFetchBlks (t : Server K) (hs : List Uint256) :
    (hs.foldl Server.onFetchBlk t).base = hs.foldl HotStuffBase.onFetchBlk t.base := by
  induction hs generalizing t with
  | nil => rfl
  | cons h hs ih => exact ih (t.onFetchBlk h)

/-- All requests are as they should be. -/
def KeptAll (t : Server K) : Prop := ∀ r ∈ t.requests, Kept t.base r

theorem KeptAll.onFetchBlk (hkept : KeptAll t) (h : Uint256) : KeptAll (t.onFetchBlk h) := by
  intro r' hr'
  obtain ⟨r, hr, rfl⟩ := List.mem_map.mp hr'
  exact (hkept r hr).onFetch h

theorem KeptAll.step (hkept : KeptAll t) (hstep : t.step env (peer, i) = some t') :
    KeptAll t' := by
  unfold Server.step at hstep
  split at hstep
  · cases hstep
  obtain ⟨s', hbase, rfl⟩ := Option.map_eq_some_iff.mp hstep
  have hmoved := moved_of_step hbase
  have hmono : (∀ blks, i ≠ .msgRespBlock blks) → ∀ r ∈ t.requests, Kept s' r :=
    fun hresp r hr => (hkept r hr).mono (fetching_of_moved hmoved hresp)
  cases i with
  | msgReqBlock blkHashes =>
      intro r hr
      rcases List.mem_append.mp hr with hr | hr
      · exact hmono nofun r hr
      · obtain rfl := List.mem_singleton.mp hr
        obtain rfl := hmoved
        exact kept_new t.base peer blkHashes
  | msgRespBlock blks =>
      obtain ⟨_, rfl⟩ := hmoved
      have hadded : KeptAll { t with base := t.base.addBlks env blks } :=
        fun r hr => (hkept r hr).mono (Finset.Subset.refl _)
      have hall : KeptAll (t.respBlk env blks) :=
        List.foldlRecOn (motive := KeptAll) _ Server.onFetchBlk hadded
          (fun u hu h _ => hu.onFetchBlk h)
      intro r hr
      have hr' := hall r hr
      rwa [Server.respBlk, base_onFetchBlks] at hr'
  | msgPropose _ _ | msgVote _ | onFetched _ | onVerified _ | onReady _ | handle _
  | propose _ _ _ | wait _ | resume => exact hmono nofun

end step

/-! Every request, in every reachable state. -/

section server

variable {env : Env K} {keys : List K.PrivKey} {id : ReplicaID} {key : K.PrivKey}
  {voteDisabled : Bool} {s : Server K} {r : Request}

theorem keptAll_of_reachable (hs : Reachable (server env keys id key voteDisabled) s) :
    KeptAll s := by
  refine hs.invariant ?_ (fun s input s' _ hkept hstep => hkept.step hstep)
  rintro s ⟨_, hnone⟩ r hr
  rw [hnone] at hr
  cases hr

theorem base_reachable {okBase : HotStuffBase K → Input K → Prop}
    (hs : Reachable ((server env keys id key voteDisabled).restrict
      (fun s input => okBase s.base input.2)) s) :
    Reachable ((base env keys id key voteDisabled).restrict okBase) s.base := by
  induction hs with
  | init h => exact .init h.1
  | step _ hstep ih =>
      obtain ⟨hok, hstep⟩ := hstep
      unfold server Server.step at hstep
      dsimp only at hstep
      split at hstep
      · cases hstep
      obtain ⟨base', hbase, rfl⟩ := Option.map_eq_some_iff.mp hstep
      exact .step ih ⟨hok, hbase⟩

/-- In any reachable state a request is served if and only if it lists blocks and these, once all
are stored, were so when it came or have since come in a `MsgRespBlock`. -/
theorem served_iff (hs : Reachable (server env keys id key voteDisabled) s)
    (hr : r ∈ s.requests) : Served s.base r ↔
      r.blkHashes ≠ [] ∧ ((∀ h ∈ r.blkHashes, s.base.fetched h = true) →
        ∀ h ∈ r.blkHashes, h ∈ r.known ∨ h ∈ r.brought) :=
  (keptAll_of_reachable hs r hr).settled_iff_known

/-- As long as the blocks that somebody waits for come in a `MsgRespBlock` only, all requests that
list blocks are served. -/
theorem served_of_wakes (hs : Reachable ((server env keys id key voteDisabled).restrict
    (fun s input => Wakes env s.base input.2)) s) (hr : r ∈ s.requests)
    (hne : r.blkHashes ≠ []) : Served s.base r := by
  have hkept := keptAll_of_reachable hs.of_restrict r hr
  refine hkept.settled_iff_known.mpr ⟨hne, fun hstored h hh => ?_⟩
  by_contra hslot
  have hwaits := hkept.waits h hh (slot_eq_none.mpr hslot)
  have hnone := (awake_of_reachable (base_reachable hs)).fetching h hwaits
  rw [hstored h hh] at hnone
  cases hnone

end server

/-! Requests to replica 0 of four. -/

def after (inputs : List (PeerId × Input clearScheme)) : Option (Server clearScheme) :=
  execute (Server.step (clearEnv false)) inputs ⟨peerStart, []⟩

theorem reachable_after {inputs : List (PeerId × Input clearScheme)} {s : Server clearScheme}
    (hs : after inputs = some s) :
    Reachable (server (clearEnv false) peerKeys 0 (0 : Nat) false) s := by
  have hinit : Reachable (server (clearEnv false) peerKeys 0 (0 : Nat) false) ⟨peerStart, []⟩ :=
    .init ⟨rfl, rfl⟩
  exact hinit.trans (steps_of_execute (fun _ _ _ hstep => hstep) hs)

/-- Peer 7 has asked for block 1, the genesis block and block 1 again, and then block 1 came. -/
def answered : Server clearScheme :=
  (after [(7, .msgReqBlock [1, 0, 1]), (3, .msgRespBlock [firstBlock])]).get (by decide +kernel)

theorem served_iff_answered : ∃ r ∈ answered.requests, Served answered.base r ∧
    r.sent = [(7, [some 1, some 0, some 1])] := by
  have hmap : answered.requests.map (fun r => (r.blkHashes, r.sent)) =
      [([1, 0, 1], [(7, [some 1, some 0, some 1])])] := by decide +kernel
  have hhistory : answered.requests.map (fun r => (r.known, r.brought)) = [([0], [1])] := by
    decide +kernel
  obtain ⟨r, hone, hr⟩ := List.map_eq_singleton_iff.mp hmap
  obtain ⟨hhashes, hsent⟩ := Prod.mk.inj hr
  have hmem : r ∈ answered.requests := hone ▸ List.mem_singleton_self r
  refine ⟨r, hmem, (served_iff (reachable_after (Option.some_get _).symm) hmem).mpr ?_, hsent⟩
  rw [hone, List.map_singleton] at hhistory
  obtain ⟨hknown, hbrought⟩ := Prod.mk.inj (List.singleton_inj.mp hhistory)
  rw [hhashes, hknown, hbrought]
  exact ⟨List.cons_ne_nil _ _, fun _ => by simp⟩

/-- Peer 7 has asked for nothing. -/
def emptied : Server clearScheme :=
  (after [(7, .msgReqBlock [])]).get (by decide +kernel)

/-- Peer 7 has asked for block 1, and then replica 1 has proposed it. -/
def unanswered : Server clearScheme :=
  (after [(7, .msgReqBlock [1]), (3, .msgPropose 1 firstBlock)]).get (by decide +kernel)

/-- The first request throws, and the second is not answered although the block is there. -/
theorem request_unserved :
    (Reachable (server (clearEnv false) peerKeys 0 (0 : Nat) false) emptied ∧
      ∃ r ∈ emptied.requests, r.threw = true ∧ ¬ Served emptied.base r) ∧
    Reachable (server (clearEnv false) peerKeys 0 (0 : Nat) false) unanswered ∧
      ∃ r ∈ unanswered.requests, r.blkHashes = [1] ∧ unanswered.base.fetched 1 = true ∧
        r.sent = [] ∧ ¬ Served unanswered.base r := by
  have hthrew : emptied.requests.map Request.threw = [true] := by decide +kernel
  have hmap : unanswered.requests.map (fun r => (r.blkHashes, r.sent)) = [([1], [])] := by
    decide +kernel
  have hstored : unanswered.base.fetched 1 = true := by decide +kernel
  obtain ⟨r₁, hone₁, hr₁⟩ := List.map_eq_singleton_iff.mp hthrew
  obtain ⟨r₂, hone₂, hr₂⟩ := List.map_eq_singleton_iff.mp hmap
  obtain ⟨hhashes, hsent⟩ := Prod.mk.inj hr₂
  refine ⟨⟨reachable_after (Option.some_get _).symm, r₁, hone₁ ▸ List.mem_singleton_self r₁, hr₁,
    fun hserved => ?_⟩, reachable_after (Option.some_get _).symm, r₂,
    hone₂ ▸ List.mem_singleton_self r₂, hhashes, hstored, hsent, fun hserved => ?_⟩
  · have hnot := hserved.handled
    rw [hr₁] at hnot
    cases hnot
  · have hanswer := hserved.answered (by
      rw [hhashes]
      exact fun h hh => List.mem_singleton.mp hh ▸ hstored)
    rw [hsent] at hanswer
    cases hanswer

end ArchipelagoHotStuff.Base.Requests
