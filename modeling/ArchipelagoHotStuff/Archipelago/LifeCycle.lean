/- Module: ArchipelagoHotStuff/Archipelago/LifeCycle
   source: archipelago_client.cpp
   digest: What a client does with one command in a whole run, how many requests it keeps open and
     how many it makes. -/

import ArchipelagoHotStuff.Archipelago.Completions

set_option autoImplicit false
set_option relaxedAutoImplicit false

namespace ArchipelagoHotStuff.Archipelago.LifeCycle

open Crypto.Wire General.Sorting General.Transition
open Execution (DummyHash)
open Batches (plainHash)
open Quorums Completions

/-- The commands that `while (try_send());` sends, the latest first. -/
def sends (hash : DummyHash) : Nat → Client → List Uint256
  | 0, _ => []
  | fuel + 1, c =>
      match c.trySend hash with
      | none => []
      | some c' => sends hash fuel c' ++ [hash c.cid c.cnt]

/-- The client with which `client_ordering2_resp_cmd_handler` enters its loop. -/
def refilled (c : Client) (reply : Reply) : Option Client :=
  match c.waiting.lookup reply.cmdHash with
  | none => none
  | some req =>
      let req := { req with orderingRtt2 := req.orderingRtt2 + 1 }
      if req.orderingRtt2 ≠ c.nfaulty * 2 + 1 then none
      else
        some { c with
          waitingExec := emplace c.waitingExec reply.cmdHash req
          waiting := c.waiting.erase reply.cmdHash
          log := .complete reply.cmdHash :: .ordering2 reply :: c.log }

/-- The commands that are sent at what reaches the client. -/
def sentAt (hash : DummyHash) (fuel : Nat) (c : Client) : Input → List Uint256
  | .ordering2 reply =>
      match refilled c reply with
      | none => []
      | some d => sends hash fuel d
  | .ordering1 _ _ | .exec _ => []

/-- The client, its notes and all commands it has sent, the latest first. -/
structure Course where
  tally : Tally
  sent : List Uint256

def Course.client (s : Course) : Client := s.tally.client

def Course.notes (s : Course) : List Note := s.tally.notes

def Course.step (hash : DummyHash) (std : Sorter (id : Timestamp → Timestamp)) (fuel : Nat)
    (s : Course) (i : Input) : Option Course :=
  (s.tally.step hash std fuel i).map (fun t => ⟨t, sentAt hash fuel s.client i ++ s.sent⟩)

/-- The client of `Completions.tallies`, with the commands it sends. -/
def courses (hash : DummyHash) (std : Sorter (id : Timestamp → Timestamp))
    (nfaulty maxAsyncNum : Nat) (maxIterNum : Int) (cid : Fin (2 ^ 32)) : System Course Input where
  init s := ∃ fuel,
    Client.sendAll hash fuel (.start nfaulty maxAsyncNum maxIterNum cid) = some s.client ∧
    s.sent = sends hash fuel (.start nfaulty maxAsyncNum maxIterNum cid) ∧
    s.notes = s.client.log.map .event
  step s i s' := ∃ fuel, s.step hash std fuel i = some s'

def isBroadcast (h : Uint256) : Note → Bool
  | .event (.broadcast k _) => k == h
  | .event (.start _) | .event (.ordering1 _) | .event (.ordering2 _) | .event (.complete _)
  | .exec _ | .executed _ => false

def broadcasts (h : Uint256) (notes : List Note) : Nat := notes.countP (isBroadcast h)

/-- A command is counted as executed after it was counted as ordered. -/
def ExecutedLater (notes : List Note) : Prop :=
  ∀ after before h, notes = after ++ .executed h :: before → .event (.complete h) ∈ before

/-- The life of every command, and the bounds on the requests. A command enters `waiting` where
`started` counts it, and `waiting_exec` where `ordered` does. -/
structure Orderly (maxAsyncNum : Nat) (maxIterNum : Int) (s : Course) : Prop where
  broadcast : ∀ h, broadcasts h s.notes ≤ 1
  apart : ∀ h, (s.client.waiting.lookup h).isSome → s.client.waitingExec.lookup h = none
  entered : ∀ h, started h s.notes ≤ 1
  ordered : ∀ h, ordered h s.notes ≤ 1
  executed : ∀ h, executed h s.notes ≤ 1
  later : ExecutedLater s.notes
  size : s.client.waiting.entries.length ≤ maxAsyncNum
  budget : 0 ≤ maxIterNum → s.sent.length ≤ maxIterNum

/-- One broadcast is still to come for a request whose timestamps are not complete. -/
def outstanding (nfaulty : Nat) (waiting : Requests) (h : Uint256) : Nat :=
  match waiting.lookup h with
  | none => 0
  | some req => if req.orderingRtt1 < nfaulty * 2 + 1 then 1 else 0

/-- The commands of the counters below `n`, the latest first. -/
def commands (hash : DummyHash) (cid : Fin (2 ^ 32)) (n : Nat) : List Uint256 :=
  ((List.range n).map (fun k => hash cid (Fin.ofNat _ k))).reverse

/-- What holds of the client, its notes and the commands sent in the middle of a step as well. -/
structure CourseOk (hash : DummyHash) (maxAsyncNum : Nat) (maxIterNum : Int) (cid : Fin (2 ^ 32))
    (c : Client) (notes : List Note) (sent : List Uint256) : Prop where
  owner : c.cid = cid
  cap : c.maxAsyncNum = maxAsyncNum
  cnt : c.cnt = Fin.ofNat _ sent.length
  listed : sent = commands hash cid sent.length
  started : ∀ h, started h notes ≤ sent.count h
  broadcast : ∀ h,
    broadcasts h notes + outstanding c.nfaulty c.waiting h ≤ Completions.started h notes
  executing : ∀ h req, c.waitingExec.lookup h = some req → .event (.complete h) ∈ notes
  later : ExecutedLater notes
  size : c.waiting.entries.length ≤ maxAsyncNum
  budget : 0 ≤ maxIterNum → 0 ≤ c.maxIterNum ∧ sent.length + c.maxIterNum = maxIterNum

section maps

variable {m : Requests} {h : Uint256} {req : Request}

theorem length_keys (m : Requests) : m.keys.length = m.entries.length := List.length_map _

theorem length_insert_le : (m.insert h req).entries.length ≤ m.entries.length + 1 := by
  rw [← length_keys, ← length_keys, AList.keys_insert, List.length_cons]
  exact Nat.succ_le_succ List.length_erase_le

theorem length_insert {old : Request} (hold : m.lookup h = some old) :
    (m.insert h req).entries.length = m.entries.length := by
  have hmem : h ∈ m.keys := AList.mem_keys.mp (AList.lookup_isSome.mp (by rw [hold]; rfl))
  rw [← length_keys, ← length_keys, AList.keys_insert, List.length_cons,
    List.length_erase_of_mem hmem]
  exact Nat.succ_pred_eq_of_pos (List.length_pos_of_mem hmem)

theorem length_erase_le : (m.erase h).entries.length ≤ m.entries.length := by
  rw [← length_keys, ← length_keys, AList.keys_erase]
  exact List.length_erase_le

theorem length_emplace_le : (emplace m h req).entries.length ≤ m.entries.length + 1 := by
  unfold emplace
  split
  · exact length_insert_le
  · exact Nat.le_succ _

theorem outstanding_insert_ne {nfaulty : Nat} {k : Uint256} (hne : k ≠ h) :
    outstanding nfaulty (m.insert h req) k = outstanding nfaulty m k := by
  rw [outstanding, AList.lookup_insert_ne hne, outstanding]

theorem outstanding_le_one (nfaulty : Nat) : outstanding nfaulty m h ≤ 1 := by
  unfold outstanding
  split
  · exact Nat.zero_le _
  · split <;> omega

end maps

section steps

variable {hash : DummyHash} {std : Sorter (id : Timestamp → Timestamp)} {maxAsyncNum : Nat}
  {maxIterNum : Int} {cid : Fin (2 ^ 32)} {c c' : Client} {notes : List Note}
  {sent : List Uint256} {h : Uint256} {req : Request} {reply : Reply} {n : Note} {fuel : Nat}

theorem ExecutedLater.cons (hlater : ExecutedLater notes)
    (hnew : ∀ h, n = .executed h → .event (.complete h) ∈ notes) :
    ExecutedLater (n :: notes) := by
  intro after before h heq
  cases after with
  | nil =>
      obtain ⟨rfl, rfl⟩ := List.cons.inj heq
      exact hnew h rfl
  | cons _ after => exact hlater after before h (List.cons.inj heq).2

theorem broadcasts_cons_of_not (hnot : isBroadcast h n = false) :
    broadcasts h (n :: notes) = broadcasts h notes :=
  List.countP_cons_of_neg (by rw [hnot]; exact Bool.false_ne_true)

theorem broadcasts_cons_le (n : Note) : broadcasts h (n :: notes) ≤ broadcasts h notes + 1 := by
  rw [broadcasts, List.countP_cons]
  split <;> simp [broadcasts]

theorem commands_succ (hash : DummyHash) (cid : Fin (2 ^ 32)) (n : Nat) :
    commands hash cid (n + 1) = hash cid (Fin.ofNat _ n) :: commands hash cid n := by
  rw [commands, List.range_succ, List.map_append, List.reverse_append]
  rfl

theorem commands_nodup {k : Nat} (hfew : k < 2 ^ 32)
    (hapart : Set.InjOn (hash cid) {n | n.val < k}) : (commands hash cid k).Nodup := by
  rw [commands, List.nodup_reverse]
  refine List.Nodup.map_on (fun i hi j hj heq => ?_) List.nodup_range
  have hval : ∀ i ∈ List.range k, (Fin.ofNat (2 ^ 32) i).val = i := fun i hi => by
    rw [Fin.val_ofNat, Nat.mod_eq_of_lt ((List.mem_range.mp hi).trans hfew)]
  have hlt : ∀ i ∈ List.range k, (Fin.ofNat (2 ^ 32) i).val < k := fun i hi =>
    (hval i hi).trans_lt (List.mem_range.mp hi)
  have hsame := congrArg Fin.val (hapart (hlt i hi) (hlt j hj) heq)
  rwa [hval i hi, hval j hj] at hsame

theorem CourseOk.note (hok : CourseOk hash maxAsyncNum maxIterNum cid c notes sent)
    (hstart : ∀ h, n ≠ .event (.start h)) (hbroadcast : ∀ h, isBroadcast h n = false)
    (hexecuted : ∀ h, n = .executed h → .event (.complete h) ∈ notes) :
    CourseOk hash maxAsyncNum maxIterNum cid c (n :: notes) sent where
  owner := hok.owner
  cap := hok.cap
  cnt := hok.cnt
  listed := hok.listed
  started := fun h => (started_cons_ne (hstart h)).trans_le (hok.started h)
  broadcast := fun h => by
    rw [started_cons_ne (hstart h), broadcasts_cons_of_not (hbroadcast h)]
    exact hok.broadcast h
  executing := fun h req hreq => List.mem_cons_of_mem _ (hok.executing h req hreq)
  later := hok.later.cons hexecuted
  size := hok.size
  budget := hok.budget

theorem CourseOk.relog {log : List Event}
    (hok : CourseOk hash maxAsyncNum maxIterNum cid c notes sent) :
    CourseOk hash maxAsyncNum maxIterNum cid { c with log } notes sent :=
  ⟨hok.owner, hok.cap, hok.cnt, hok.listed, hok.started, hok.broadcast, hok.executing, hok.later,
    hok.size, hok.budget⟩

/-- A request that waits is replaced by one that has no broadcast outstanding that the old one had
not. -/
theorem CourseOk.replace (hok : CourseOk hash maxAsyncNum maxIterNum cid c notes sent)
    {old : Request} (hold : c.waiting.lookup h = some old)
    (hle : old.orderingRtt1 ≤ req.orderingRtt1) :
    CourseOk hash maxAsyncNum maxIterNum cid { c with waiting := c.waiting.insert h req }
      notes sent where
  owner := hok.owner
  cap := hok.cap
  cnt := hok.cnt
  listed := hok.listed
  started := hok.started
  broadcast := fun k => by
    refine (Nat.add_le_add_left ?_ _).trans (hok.broadcast k)
    by_cases hk : k = h
    · subst hk
      rw [outstanding, outstanding, AList.lookup_insert, hold]
      dsimp only
      split
      · rw [if_pos (by omega)]
      · exact Nat.zero_le _
    · exact (outstanding_insert_ne hk).le
  executing := hok.executing
  later := hok.later
  size := (length_insert hold).trans_le hok.size
  budget := hok.budget

theorem CourseOk.trySend (hok : CourseOk hash maxAsyncNum maxIterNum cid c notes sent)
    (hsend : c.trySend hash = some c') : ∃ es : List Event, c'.log = es ++ c.log ∧
      CourseOk hash maxAsyncNum maxIterNum cid c' (es.map .event ++ notes)
        (hash c.cid c.cnt :: sent) := by
  unfold Client.trySend at hsend
  dsimp only at hsend
  split at hsend
  swap
  · cases hsend
  rename_i hroom
  cases hsend
  have hcnt : c.cnt + 1 = Fin.ofNat _ (hash c.cid c.cnt :: sent).length := by
    rw [hok.cnt, List.length_cons]
    exact Fin.ext (by simp [Fin.val_add])
  have hsent : hash c.cid c.cnt :: sent =
      commands hash cid (hash c.cid c.cnt :: sent).length := by
    rw [List.length_cons, commands_succ, ← hok.listed, hok.owner, hok.cnt]
  have hsize : (emplace c.waiting (hash c.cid c.cnt) ⟨0, 0, 0, []⟩).entries.length ≤
      maxAsyncNum := length_emplace_le.trans (hok.cap ▸ hroom.1)
  have hbudget : 0 ≤ maxIterNum →
      0 ≤ (if 0 < c.maxIterNum then c.maxIterNum - 1 else c.maxIterNum) ∧
      ((hash c.cid c.cnt :: sent).length : Int) +
        (if 0 < c.maxIterNum then c.maxIterNum - 1 else c.maxIterNum) = maxIterNum := by
    intro hnonneg
    obtain ⟨hleft, hsum⟩ := hok.budget hnonneg
    have hpos : 0 < c.maxIterNum := lt_of_le_of_ne hleft (Ne.symm hroom.2)
    rw [if_pos hpos, List.length_cons]
    omega
  cases hlookup : c.waiting.lookup (hash c.cid c.cnt) with
  | some req =>
      refine ⟨[], by simp, hok.owner, hok.cap, hcnt, hsent, fun h => ?_, fun h => ?_,
        hok.executing, hok.later, hsize, hbudget⟩
      · exact (hok.started h).trans List.count_le_count_cons
      · have hsame : emplace c.waiting (hash c.cid c.cnt) ⟨0, 0, 0, []⟩ = c.waiting := by
          rw [emplace, hlookup]
        rw [hsame]
        exact hok.broadcast h
  | none =>
      have hinsert : emplace c.waiting (hash c.cid c.cnt) ⟨0, 0, 0, []⟩ =
          c.waiting.insert (hash c.cid c.cnt) ⟨0, 0, 0, []⟩ := by
        rw [emplace, hlookup]
      have hnotes := hok.later.cons (n := .event (.start (hash c.cid c.cnt)))
        (fun _ h => by cases h)
      refine ⟨[.start (hash c.cid c.cnt)], by simp, hok.owner, hok.cap, hcnt, hsent, fun h => ?_,
        fun h => ?_, fun h req hreq => List.mem_cons_of_mem _ (hok.executing h req hreq), hnotes,
        hsize, hbudget⟩
      · show List.count _ (_ :: notes) ≤ _
        rw [List.count_cons, List.count_cons]
        have hbefore := hok.started h
        unfold Completions.started at hbefore
        by_cases hh : hash c.cid c.cnt = h
        · simp only [hh, beq_self_eq_true, if_true]
          omega
        · rw [if_neg, if_neg]
          · exact hbefore
          · simpa using hh
          · simpa using hh
      · show broadcasts h (_ :: notes) + outstanding _ (emplace _ _ _) h ≤ _
        rw [hinsert, List.map_cons, List.map_nil, List.singleton_append,
          broadcasts_cons_of_not rfl]
        have hbefore := hok.broadcast h
        by_cases hh : h = hash c.cid c.cnt
        · subst hh
          have hone : outstanding c.nfaulty (c.waiting.insert (hash c.cid c.cnt) ⟨0, 0, 0, []⟩)
            (hash c.cid c.cnt) ≤ 1 := outstanding_le_one _
          rw [Completions.started, List.count_cons_self]
          exact Nat.add_le_add ((Nat.le_add_right _ _).trans hbefore) hone
        · rw [outstanding_insert_ne hh, started_cons_ne]
          · exact hbefore
          · rintro heq
            cases heq
            exact hh rfl

theorem CourseOk.sendAll (hok : CourseOk hash maxAsyncNum maxIterNum cid c notes sent)
    (hsend : Client.sendAll hash fuel c = some c') : ∃ es : List Event, c'.log = es ++ c.log ∧
      CourseOk hash maxAsyncNum maxIterNum cid c' (es.map .event ++ notes)
        (sends hash fuel c ++ sent) := by
  induction fuel generalizing c notes sent with
  | zero => cases hsend
  | succ fuel ih =>
      unfold Client.sendAll at hsend
      unfold sends
      cases hnext : c.trySend hash with
      | none =>
          rw [hnext] at hsend
          cases hsend
          exact ⟨[], rfl, hok⟩
      | some d =>
          rw [hnext] at hsend
          obtain ⟨es, hlog, hd⟩ := hok.trySend hnext
          obtain ⟨es', hlog', hc'⟩ := ih hd hsend
          refine ⟨es' ++ es, by rw [hlog', hlog, List.append_assoc], ?_⟩
          simpa only [List.map_append, List.append_assoc, List.singleton_append] using hc'

theorem CourseOk.ordering1 {t : Timestamp}
    (hok : CourseOk hash maxAsyncNum maxIterNum cid c notes sent)
    (hstep : c.onOrdering1Response std reply t = some c') : ∃ es : List Event,
      c'.log = es ++ c.log ∧
      CourseOk hash maxAsyncNum maxIterNum cid c' (es.map .event ++ notes) sent := by
  have hnoted : CourseOk hash maxAsyncNum maxIterNum cid c (.event (.ordering1 reply) :: notes)
      sent := hok.note nofun (fun _ => rfl) nofun
  rcases onOrdering1Response_cases hstep with ⟨_, rfl⟩ | ⟨req, timestamps, hreq, hcases⟩
  · exact ⟨[.ordering1 reply], rfl, hnoted.relog⟩
  · rcases hcases with ⟨_, rfl⟩ | ⟨hlast, median, rfl⟩
    · exact ⟨[.ordering1 reply], rfl, (hnoted.replace hreq (Nat.le_succ _)).relog⟩
    · have hle : req.orderingRtt1 ≤
          ({ req with orderingRtt1 := req.orderingRtt1 + 1, timestamps } : Request).orderingRtt1 :=
        Nat.le_succ _
      have hnext := hnoted.replace hreq hle
      refine ⟨[.broadcast reply.cmdHash median, .ordering1 reply], rfl, hok.owner, hok.cap,
        hok.cnt, hok.listed, hnext.started, fun h => ?_,
        fun h req hreq => List.mem_cons_of_mem _ (hnext.executing h req hreq),
        hnext.later.cons nofun, hnext.size, hok.budget⟩
      have hstarted : Completions.started h (.event (.broadcast reply.cmdHash median) ::
          .event (.ordering1 reply) :: notes) = Completions.started h notes := by
        rw [started_cons_ne (fun heq => by cases heq), started_cons_ne (fun heq => by cases heq)]
      have hbefore := hok.broadcast h
      show broadcasts h (_ :: _ :: notes) + outstanding c.nfaulty (c.waiting.insert _ _) h ≤
        Completions.started h (_ :: _ :: notes)
      rw [hstarted]
      by_cases hh : h = reply.cmdHash
      · -- The broadcast that was outstanding has been made.
        subst hh
        have hone : outstanding c.nfaulty c.waiting reply.cmdHash = 1 := by
          rw [outstanding, hreq]
          exact if_pos (by omega)
        have hzero : outstanding c.nfaulty (c.waiting.insert reply.cmdHash { req with
            orderingRtt1 := req.orderingRtt1 + 1, timestamps }) reply.cmdHash = 0 := by
          rw [outstanding, AList.lookup_insert]
          exact if_neg (by dsimp only; omega)
        have hmore : broadcasts reply.cmdHash (.event (.broadcast reply.cmdHash median) ::
            .event (.ordering1 reply) :: notes) ≤ broadcasts reply.cmdHash notes + 1 :=
          broadcasts_cons_le _
        rw [hzero]
        omega
      · have hother : isBroadcast h (.event (.broadcast reply.cmdHash median)) = false :=
          beq_eq_false_iff_ne.mpr (Ne.symm hh)
        rw [outstanding_insert_ne hh, broadcasts_cons_of_not hother, broadcasts_cons_of_not rfl]
        exact hbefore

theorem onOrdering2Response_refilled (hash : DummyHash) (fuel : Nat) (c : Client) (reply : Reply) :
    match refilled c reply with
    | some d => c.onOrdering2Response hash fuel reply = Client.sendAll hash fuel d
    | none => c.onOrdering2Response hash fuel reply =
          some { c with log := .ordering2 reply :: c.log } ∨
        ∃ req, c.waiting.lookup reply.cmdHash = some req ∧
          c.onOrdering2Response hash fuel reply = some { c with
            waiting := c.waiting.insert reply.cmdHash
              { req with orderingRtt2 := req.orderingRtt2 + 1 }
            log := .ordering2 reply :: c.log } := by
  unfold refilled Client.onOrdering2Response
  dsimp only
  cases hreq : c.waiting.lookup reply.cmdHash with
  | none => exact .inl rfl
  | some req =>
      dsimp only
      by_cases hmore : req.orderingRtt2 + 1 ≠ c.nfaulty * 2 + 1
      · rw [if_pos hmore, if_pos hmore]
        exact .inr ⟨req, rfl, rfl⟩
      · rw [if_neg hmore, if_neg hmore]

theorem CourseOk.refilled {d : Client}
    (hok : CourseOk hash maxAsyncNum maxIterNum cid c notes sent)
    (hd : LifeCycle.refilled c reply = some d) :
    d.log = [.complete reply.cmdHash, .ordering2 reply] ++ c.log ∧
    CourseOk hash maxAsyncNum maxIterNum cid d
      (.event (.complete reply.cmdHash) :: .event (.ordering2 reply) :: notes) sent := by
  have hnoted : CourseOk hash maxAsyncNum maxIterNum cid c
      (.event (.complete reply.cmdHash) :: .event (.ordering2 reply) :: notes) sent :=
    (hok.note (n := .event (.ordering2 reply)) nofun (fun _ => rfl) nofun).note nofun
      (fun _ => rfl) nofun
  unfold LifeCycle.refilled at hd
  split at hd
  · cases hd
  rename_i req hreq
  dsimp only at hd
  split at hd
  · cases hd
  cases hd
  refine ⟨rfl, hok.owner, hok.cap, hok.cnt, hok.listed, hnoted.started, fun h => ?_,
    fun h req' hreq' => ?_, hnoted.later, length_erase_le.trans hok.size, hok.budget⟩
  · refine (Nat.add_le_add_left ?_ _).trans (hnoted.broadcast h)
    by_cases hh : h = reply.cmdHash
    · subst hh
      rw [outstanding, AList.lookup_erase]
      exact Nat.zero_le _
    · rw [outstanding, AList.lookup_erase_ne hh, outstanding]
  · by_cases hh : h = reply.cmdHash
    · subst hh
      exact List.mem_cons_self
    · refine hnoted.executing h req' ?_
      dsimp only [emplace] at hreq'
      split at hreq'
      · rwa [AList.lookup_insert_ne hh] at hreq'
      · exact hreq'

theorem CourseOk.ordering2 (hok : CourseOk hash maxAsyncNum maxIterNum cid c notes sent)
    (hstep : c.onOrdering2Response hash fuel reply = some c') : ∃ es : List Event,
      c'.log = es ++ c.log ∧
      CourseOk hash maxAsyncNum maxIterNum cid c' (es.map .event ++ notes)
        (sentAt hash fuel c (.ordering2 reply) ++ sent) := by
  have hspec := onOrdering2Response_refilled hash fuel c reply
  cases hd : LifeCycle.refilled c reply with
  | some d =>
      rw [hd] at hspec
      have hsent : sentAt hash fuel c (.ordering2 reply) = sends hash fuel d := by
        simp only [sentAt, hd]
      obtain ⟨hlog, hdok⟩ := hok.refilled hd
      obtain ⟨es, hlog', hc'⟩ := hdok.sendAll (hspec.symm.trans hstep)
      refine ⟨es ++ [.complete reply.cmdHash, .ordering2 reply], ?_, ?_⟩
      · rw [hlog', hlog, List.append_assoc]
      · rw [hsent, List.map_append, List.append_assoc]
        exact hc'
  | none =>
      rw [hd] at hspec
      have hsent : sentAt hash fuel c (.ordering2 reply) = [] := by simp only [sentAt, hd]
      have hnoted : CourseOk hash maxAsyncNum maxIterNum cid c (.event (.ordering2 reply) :: notes)
          sent := hok.note nofun (fun _ => rfl) nofun
      rw [hsent]
      rcases hspec with hsame | ⟨req, hreq, hcount⟩
      · cases hsame.symm.trans hstep
        exact ⟨[.ordering2 reply], rfl, hnoted.relog⟩
      · cases hcount.symm.trans hstep
        have hle : req.orderingRtt1 ≤
            ({ req with orderingRtt2 := req.orderingRtt2 + 1 } : Request).orderingRtt1 := le_rfl
        have hnext := hnoted.replace hreq hle
        exact ⟨[.ordering2 reply], rfl, hnext.relog⟩

theorem CourseOk.exec (hok : CourseOk hash maxAsyncNum maxIterNum cid c notes sent) :
    CourseOk hash maxAsyncNum maxIterNum cid (c.onExecResponse h)
      (if counts c h then .executed h :: .exec h :: notes else .exec h :: notes) sent := by
  have hnoted : CourseOk hash maxAsyncNum maxIterNum cid c (.exec h :: notes) sent :=
    hok.note nofun (fun _ => rfl) nofun
  unfold Client.onExecResponse counts
  cases hreq : c.waitingExec.lookup h with
  | none => exact hnoted
  | some req =>
      rw [Option.any_some]
      dsimp only
      have hmem := hnoted.executing h req hreq
      by_cases hone : req.orderingRtt3 + 1 = 1
      · rw [if_neg (not_not.mpr hone), if_pos (beq_iff_eq.mpr hone)]
        have hcounted := hnoted.note (n := .executed h) nofun (fun _ => rfl)
          (fun k heq => by cases heq; exact hmem)
        refine { hcounted with executing := fun k req' hreq' => ?_ }
        by_cases hk : k = h
        · subst hk
          rw [AList.lookup_erase] at hreq'
          cases hreq'
        · rw [AList.lookup_erase_ne hk] at hreq'
          exact hcounted.executing k req' hreq'
      · rw [if_pos hone, if_neg (by simpa using hone)]
        refine { hnoted with executing := fun k req' hreq' => ?_ }
        by_cases hk : k = h
        · exact hk ▸ hmem
        · rw [AList.lookup_insert_ne hk] at hreq'
          exact hnoted.executing k req' hreq'

end steps

/-! Runs. -/

section runs

variable {hash : DummyHash} {std : Sorter (id : Timestamp → Timestamp)} {nfaulty maxAsyncNum : Nat}
  {maxIterNum : Int} {cid : Fin (2 ^ 32)} {s s' : Course} {fuel : Nat} {i : Input}

theorem CourseOk.start : CourseOk hash maxAsyncNum maxIterNum cid
    (.start nfaulty maxAsyncNum maxIterNum cid) [] [] where
  owner := rfl
  cap := rfl
  cnt := rfl
  listed := rfl
  started := fun _ => le_rfl
  broadcast := fun _ => le_rfl
  executing := nofun
  later := fun after _ _ heq => by cases after <;> cases heq
  size := Nat.zero_le _
  budget := fun hnonneg => ⟨hnonneg, zero_add _⟩

theorem CourseOk.step (hok : CourseOk hash maxAsyncNum maxIterNum cid s.client s.notes s.sent)
    (hstep : s.step hash std fuel i = some s') :
    CourseOk hash maxAsyncNum maxIterNum cid s'.client s'.notes s'.sent := by
  obtain ⟨t, ht, rfl⟩ := Option.map_eq_some_iff.mp hstep
  cases i with
  | ordering1 reply timestampUs =>
      obtain ⟨c, hc, rfl⟩ := Option.map_eq_some_iff.mp ht
      simp only [Client.step] at hc
      split at hc
      · obtain ⟨es, hlog, hnext⟩ := hok.ordering1 hc
        show CourseOk hash maxAsyncNum maxIterNum cid c (fresh s.client c ++ s.notes) s.sent
        rw [fresh_eq hlog]
        exact hnext
      · cases hc
  | ordering2 reply =>
      obtain ⟨c, hc, rfl⟩ := Option.map_eq_some_iff.mp ht
      simp only [Client.step] at hc
      split at hc
      · obtain ⟨es, hlog, hnext⟩ := hok.ordering2 hc
        show CourseOk hash maxAsyncNum maxIterNum cid c (fresh s.client c ++ s.notes) _
        rw [fresh_eq hlog]
        exact hnext
      · cases hc
  | exec k =>
      cases ht
      exact hok.exec

theorem courseOk_of_reachable
    (hr : Reachable (courses hash std nfaulty maxAsyncNum maxIterNum cid) s) :
    CourseOk hash maxAsyncNum maxIterNum cid s.client s.notes s.sent := by
  refine hr.invariant (I := fun s =>
    CourseOk hash maxAsyncNum maxIterNum cid s.client s.notes s.sent) ?_ ?_
  · rintro s ⟨fuel, hsend, hsent, hnotes⟩
    obtain ⟨es, hlog, hok⟩ := CourseOk.start.sendAll hsend
    have hes : s.client.log = es := hlog.trans (List.append_nil es)
    rw [hnotes, hsent, hes]
    simpa only [List.append_nil] using hok
  · rintro s i s' _ hok ⟨fuel, hstep⟩
    exact hok.step hstep

theorem tally_reachable
    (hr : Reachable (courses hash std nfaulty maxAsyncNum maxIterNum cid) s) :
    Reachable (tallies hash std nfaulty maxAsyncNum maxIterNum cid) s.tally := by
  induction hr with
  | init hinit =>
      obtain ⟨fuel, hsend, _, hnotes⟩ := hinit
      exact .init ⟨⟨fuel, hsend⟩, hnotes⟩
  | step _ hstep ih =>
      obtain ⟨fuel, hstep⟩ := hstep
      obtain ⟨t, ht, rfl⟩ := Option.map_eq_some_iff.mp hstep
      exact .step ih ⟨fuel, ht⟩

/-- With fewer than `2 ^ 32` commands, of which no two have one hash, the replies may come in any
order and as often as they like. -/
theorem life_cycle (hr : Reachable (courses hash std nfaulty maxAsyncNum maxIterNum cid) s)
    (hfew : s.sent.length < 2 ^ 32)
    (hapart : Set.InjOn (hash cid) {n | n.val < s.sent.length}) :
    Orderly maxAsyncNum maxIterNum s := by
  have hok := courseOk_of_reachable hr
  have hstarted : ∀ h, started h s.notes ≤ 1 := by
    intro h
    refine (hok.started h).trans (List.nodup_iff_count_le_one.mp ?_ h)
    rw [hok.listed]
    exact commands_nodup hfew hapart
  have hphase : ∀ h, Phase s.client h s.notes := (phase_reachable (tally_reachable hr)).2
  refine ⟨fun h => ?_, fun h hwaits => ?_, hstarted, fun h => ?_, fun h => ?_, hok.later, hok.size,
    fun hnonneg => ?_⟩
  · exact (Nat.le_add_right _ _).trans ((hok.broadcast h).trans (hstarted h))
  · cases hphase h with
    | unknown _ _ h3 | ordering _ _ _ h3 | finished _ _ _ h3 => exact h3
    | executing _ _ h2 =>
        rw [counters_eq_none.mp h2] at hwaits
        cases hwaits
    | repeated h1 => exact absurd (hstarted h) (by omega)
  · cases hphase h with
    | unknown _ _ _ h4 | ordering _ _ _ _ h4 => exact h4.trans_le (Nat.zero_le _)
    | executing _ _ _ _ _ _ h4 | finished _ _ _ _ h4 => exact h4.le
    | repeated h1 => exact absurd (hstarted h) (by omega)
  · cases hphase h with
    | unknown _ _ _ _ h5 | ordering _ _ _ _ _ h5 | executing _ _ _ _ _ _ _ h5 =>
        exact h5.trans_le (Nat.zero_le _)
    | finished _ _ _ _ _ h5 => exact h5.le
    | repeated h1 => exact absurd (hstarted h) (by omega)
  · obtain ⟨hleft, hsum⟩ := hok.budget hnonneg
    omega

/-- The client of four replicas that may make three requests, two at a time. -/
def threeClient : Client :=
  (Client.sendAll plainHash 3 (.start 1 2 3 0)).get (by decide +kernel)

def threeCourse : Course :=
  ⟨⟨threeClient, threeClient.log.map .event⟩, sends plainHash 3 (.start 1 2 3 0)⟩

/-- The first command has all its replies, one of each kind more than is waited for, and the third
is sent. -/
def servedCourse : Course :=
  (execute (Course.step plainHash (.insertion _) 2)
    [.ordering1 ⟨0, 2, plainHash 0 0⟩ 10, .ordering1 ⟨1, 2, plainHash 0 0⟩ 20,
      .ordering1 ⟨2, 2, plainHash 0 0⟩ 30, .ordering1 ⟨3, 2, plainHash 0 0⟩ 40,
      .ordering2 ⟨2, 6, plainHash 0 0⟩, .ordering2 ⟨1, 6, plainHash 0 0⟩,
      .ordering2 ⟨3, 6, plainHash 0 0⟩, .ordering2 ⟨0, 6, plainHash 0 0⟩,
      .exec (plainHash 0 0), .exec (plainHash 0 0)] threeCourse).get (by decide +kernel)

theorem life_cycle_served : servedCourse.sent = [plainHash 0 2, plainHash 0 1, plainHash 0 0] ∧
    broadcasts (plainHash 0 0) servedCourse.notes = 1 ∧
    executed (plainHash 0 0) servedCourse.notes = 1 ∧ Orderly 2 3 servedCourse := by
  have hsend : Client.sendAll plainHash 3 (.start 1 2 3 0) = some threeClient :=
    (Option.some_get _).symm
  have hstart : Reachable (courses plainHash (.insertion _) 1 2 3 0) threeCourse :=
    .init ⟨3, hsend, rfl, rfl⟩
  have hstep : ∀ s i s', Course.step plainHash (.insertion _) 2 s i = some s' →
      (courses plainHash (.insertion _) 1 2 3 0).step s i s' := fun _ _ _ hstep => ⟨2, hstep⟩
  have hr : Reachable (courses plainHash (.insertion _) 1 2 3 0) servedCourse :=
    hstart.trans (steps_of_execute hstep (Option.some_get _).symm)
  have hapart : Set.InjOn (plainHash 0) {n | n.val < servedCourse.sent.length} := by
    intro m _ n _ heq
    have hval := congrArg BitVec.toNat heq
    simp only [plainHash, BitVec.toNat_ofNat] at hval
    rw [Nat.mod_eq_of_lt (by omega), Nat.mod_eq_of_lt (by omega)] at hval
    exact Fin.ext (by simpa using hval)
  exact ⟨by decide +kernel, by decide +kernel, by decide +kernel,
    life_cycle hr (by decide +kernel) hapart⟩

end runs

end ArchipelagoHotStuff.Archipelago.LifeCycle
