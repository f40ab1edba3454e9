/- Module: ArchipelagoHotStuff/Archipelago/Quorums
   source: archipelago_client.cpp
   digest: The client of the ordering phase, the replies its counters count, and when these are of
     different replicas. -/

import ArchipelagoHotStuff.Archipelago.Median
import ArchipelagoHotStuff.Archipelago.Batches
import Mathlib.Data.List.AList

set_option autoImplicit false
set_option relaxedAutoImplicit false

namespace ArchipelagoHotStuff.Archipelago.Quorums

open Crypto.Wire General.Sorting General.Transition
open Execution (DummyHash)
open Batches (plainHash)

structure Request where
  orderingRtt1 : Nat
  orderingRtt2 : Nat
  orderingRtt3 : Nat
  timestamps : List Timestamp

/-- A map of requests by the hash of their command. -/
abbrev Requests := AList (fun _ : Uint256 => Request)

/-- A reply about a command: who has sent it, and how much had happened at the client by then.
The handlers see the hash only. -/
structure Reply where
  sender : ReplicaID
  sentAt : Nat
  cmdHash : Uint256
  deriving DecidableEq

/-- What happens at the client: a request is made, a `MsgOrdering1RespCmd` arrives, a
`MsgOrdering2ReqCmd` is broadcast, a `MsgOrdering2RespCmd` arrives, the ordering phase of a command
is complete. -/
inductive Event
  | start (cmdHash : Uint256)
  | ordering1 (reply : Reply)
  | broadcast (cmdHash : Uint256) (timestamp : Timestamp)
  | ordering2 (reply : Reply)
  | complete (cmdHash : Uint256)
  deriving DecidableEq

/-- The variables of the client; `log` lists what has happened, the latest first. -/
structure Client where
  nfaulty : Nat
  maxAsyncNum : Nat
  maxIterNum : Int
  cid : Fin (2 ^ 32)
  cnt : Fin (2 ^ 32)
  waiting : Requests
  waitingExec : Requests
  log : List Event

/-- `unordered_map::insert`, which keeps an element that is there. -/
def emplace (m : Requests) (h : Uint256) (req : Request) : Requests :=
  match m.lookup h with
  | none => m.insert h req
  | some _ => m

namespace Client

variable (c : Client)

def start (nfaulty maxAsyncNum : Nat) (maxIterNum : Int) (cid : Fin (2 ^ 32)) : Client :=
  { nfaulty, maxAsyncNum, maxIterNum, cid, cnt := 0, waiting := ∅, waitingExec := ∅, log := [] }

/-- `try_send`; nothing is sent where it returns `false`. -/
def trySend (hash : DummyHash) : Option Client :=
  if c.waiting.entries.length < c.maxAsyncNum ∧ c.maxIterNum ≠ 0 then
    let cmdHash := hash c.cid c.cnt
    some { c with
      cnt := c.cnt + 1
      maxIterNum := if 0 < c.maxIterNum then c.maxIterNum - 1 else c.maxIterNum
      waiting := emplace c.waiting cmdHash ⟨0, 0, 0, []⟩
      log := if c.waiting.lookup cmdHash = none then .start cmdHash :: c.log else c.log }
  else none

/-- `while (try_send());`, given up after so many rounds. -/
def sendAll (hash : DummyHash) : Nat → Client → Option Client
  | 0, _ => none
  | fuel + 1, c =>
      match c.trySend hash with
      | none => some c
      | some c' => sendAll hash fuel c'

/-- `client_ordering1_resp_cmd_handler`; there is no value to read beyond the timestamps. -/
def onOrdering1Response (std : Sorter (id : Timestamp → Timestamp)) (reply : Reply)
    (timestampUs : Timestamp) : Option Client :=
  let c := { c with log := .ordering1 reply :: c.log }
  match c.waiting.lookup reply.cmdHash with
  | none => some c
  | some req =>
      let rtt := req.orderingRtt1 + 1
      let timestamps := req.timestamps ++ [timestampUs]
      if rtt ≠ c.nfaulty * 2 + 1 then
        some { c with
          waiting := c.waiting.insert reply.cmdHash { req with orderingRtt1 := rtt, timestamps } }
      else
        let timestamps := std.sort timestamps
        match timestamps[c.nfaulty + 1]? with
        | none => none
        | some median =>
            some { c with
              waiting := c.waiting.insert reply.cmdHash { req with orderingRtt1 := rtt, timestamps }
              log := .broadcast reply.cmdHash median :: c.log }

/-- `client_ordering2_resp_cmd_handler`. -/
def onOrdering2Response (hash : DummyHash) (fuel : Nat) (reply : Reply) : Option Client :=
  let c := { c with log := .ordering2 reply :: c.log }
  match c.waiting.lookup reply.cmdHash with
  | none => some c
  | some req =>
      let req := { req with orderingRtt2 := req.orderingRtt2 + 1 }
      if req.orderingRtt2 ≠ c.nfaulty * 2 + 1 then
        some { c with waiting := c.waiting.insert reply.cmdHash req }
      else
        sendAll hash fuel { c with
          waitingExec := emplace c.waitingExec reply.cmdHash req
          waiting := c.waiting.erase reply.cmdHash
          log := .complete reply.cmdHash :: c.log }

/-- `client_ordering_exec_resp_handler`. -/
def onExecResponse (cmdHash : Uint256) : Client :=
  match c.waitingExec.lookup cmdHash with
  | none => c
  | some req =>
      let req := { req with orderingRtt3 := req.orderingRtt3 + 1 }
      if req.orderingRtt3 ≠ 1 then { c with waitingExec := c.waitingExec.insert cmdHash req }
      else { c with waitingExec := c.waitingExec.erase cmdHash }

end Client

/-- What reaches the client: a `MsgOrdering1RespCmd`, a `MsgOrdering2RespCmd`, a
`MsgConsensusRespClientCmd`. -/
inductive Input
  | ordering1 (reply : Reply) (timestampUs : Timestamp)
  | ordering2 (reply : Reply)
  | exec (cmdHash : Uint256)

/-- A reply arrives after it has been sent. -/
def Client.step (hash : DummyHash) (std : Sorter (id : Timestamp → Timestamp)) (fuel : Nat)
    (c : Client) : Input → Option Client
  | .ordering1 reply timestampUs =>
      if reply.sentAt ≤ c.log.length then c.onOrdering1Response std reply timestampUs else none
  | .ordering2 reply =>
      if reply.sentAt ≤ c.log.length then c.onOrdering2Response hash fuel reply else none
  | .exec cmdHash => some (c.onExecResponse cmdHash)

/-- The client under replies of anybody at any time, in runs whose loops end. -/
def client (hash : DummyHash) (std : Sorter (id : Timestamp → Timestamp))
    (nfaulty maxAsyncNum : Nat) (maxIterNum : Int) (cid : Fin (2 ^ 32)) : System Client Input where
  init c := ∃ fuel,
    Client.sendAll hash fuel (.start nfaulty maxAsyncNum maxIterNum cid) = some c
  step c i c' := ∃ fuel, c.step hash std fuel i = some c'

/-! What the client has heard of a command since it made the request. -/

/-- How much had happened when the timestamp of a command was broadcast. -/
def broadcastAt (h : Uint256) : List Event → Option Nat
  | [] => none
  | .start k :: log => if k = h then none else broadcastAt h log
  | .broadcast k _ :: log => if k = h then some log.length else broadcastAt h log
  | .ordering1 _ :: log | .ordering2 _ :: log | .complete _ :: log => broadcastAt h log

def ordering1From (h : Uint256) : List Event → List ReplicaID
  | [] => []
  | .start k :: log => if k = h then [] else ordering1From h log
  | .ordering1 reply :: log =>
      if reply.cmdHash = h then reply.sender :: ordering1From h log else ordering1From h log
  | .broadcast _ _ :: log | .ordering2 _ :: log | .complete _ :: log => ordering1From h log

/-- The senders of the ordering2 replies to a command that were sent after the first `n` events and
one more. -/
def ordering2From (h : Uint256) (n : Nat) : List Event → List ReplicaID
  | [] => []
  | .start k :: log => if k = h then [] else ordering2From h n log
  | .ordering2 reply :: log =>
      if reply.cmdHash = h ∧ n < reply.sentAt then reply.sender :: ordering2From h n log
      else ordering2From h n log
  | .broadcast _ _ :: log | .ordering1 _ :: log | .complete _ :: log => ordering2From h n log

/-- A timestamp is broadcast after ordering1 replies of `2 * nfaulty + 1` replicas, and the ordering
phase is complete after ordering2 replies of as many replicas that were sent after the broadcast. -/
structure QuorumsDistinct (nfaulty : Nat) (log : List Event) : Prop where
  broadcast : ∀ after before h v, log = after ++ .broadcast h v :: before →
    2 * nfaulty + 1 ≤ (ordering1From h before).toFinset.card
  complete : ∀ after before h, log = after ++ .complete h :: before →
    ∃ n, broadcastAt h before = some n ∧
      2 * nfaulty + 1 ≤ (ordering2From h n before).toFinset.card

/-- A reply that is counted is of a replica that has not been counted for the request yet, and an
ordering2 reply is an answer to the broadcast. -/
def Genuine (c : Client) : Input → Prop
  | .ordering1 reply _ =>
      match c.waiting.lookup reply.cmdHash with
      | none => True
      | some req => req.orderingRtt1 < 2 * c.nfaulty + 1 →
          reply.sender ∉ ordering1From reply.cmdHash c.log
  | .ordering2 reply =>
      match c.waiting.lookup reply.cmdHash, broadcastAt reply.cmdHash c.log with
      | none, _ => True
      | some _, none => False
      | some _, some n => n < reply.sentAt ∧ reply.sender ∉ ordering2From reply.cmdHash n c.log
  | .exec _ => True

/-- A request that waits: before the broadcast its first counter, and afterwards its second, counts
different replicas. -/
structure RequestOk (nfaulty : Nat) (log : List Event) (h : Uint256) (req : Request) : Prop where
  early : broadcastAt h log = none → req.orderingRtt1 = (ordering1From h log).length ∧
    (ordering1From h log).Nodup ∧ req.orderingRtt1 < 2 * nfaulty + 1 ∧ req.orderingRtt2 = 0 ∧
    ∀ n, ordering2From h n log = []
  sent : ∀ n, broadcastAt h log = some n → 2 * nfaulty + 1 ≤ req.orderingRtt1 ∧
    req.orderingRtt2 = (ordering2From h n log).length ∧ (ordering2From h n log).Nodup ∧
    req.orderingRtt2 < 2 * nfaulty + 1

structure ClientOk (c : Client) : Prop where
  requests : ∀ h req, c.waiting.lookup h = some req → RequestOk c.nfaulty c.log h req
  quorums : QuorumsDistinct c.nfaulty c.log

def Event.about : Event → Uint256
  | .start h | .broadcast h _ | .complete h => h
  | .ordering1 reply | .ordering2 reply => reply.cmdHash

section steps

variable {hash : DummyHash} {std : Sorter (id : Timestamp → Timestamp)} {nfaulty : Nat}
  {c c' : Client} {log : List Event} {e : Event} {h : Uint256} {req : Request} {reply : Reply}

theorem QuorumsDistinct.cons (hlog : QuorumsDistinct nfaulty log)
    (hbroadcast : ∀ h v, e = .broadcast h v →
      2 * nfaulty + 1 ≤ (ordering1From h log).toFinset.card)
    (hcomplete : ∀ h, e = .complete h → ∃ n, broadcastAt h log = some n ∧
      2 * nfaulty + 1 ≤ (ordering2From h n log).toFinset.card) :
    QuorumsDistinct nfaulty (e :: log) := by
  refine ⟨fun after before h v heq => ?_, fun after before h heq => ?_⟩
  · cases after with
    | nil =>
        obtain ⟨rfl, rfl⟩ := List.cons.inj heq
        exact hbroadcast h v rfl
    | cons _ after => exact hlog.broadcast after before h v (List.cons.inj heq).2
  · cases after with
    | nil =>
        obtain ⟨rfl, rfl⟩ := List.cons.inj heq
        exact hcomplete h rfl
    | cons _ after => exact hlog.complete after before h (List.cons.inj heq).2

/-- What has been heard of a command does not change with events about others. -/
theorem heard_cons (log : List Event) (hne : e.about ≠ h) :
    broadcastAt h (e :: log) = broadcastAt h log ∧
    ordering1From h (e :: log) = ordering1From h log ∧
    ∀ n, ordering2From h n (e :: log) = ordering2From h n log := by
  cases e with
  | start k => exact ⟨if_neg hne, if_neg hne, fun _ => if_neg hne⟩
  | ordering1 reply => exact ⟨rfl, if_neg hne, fun _ => rfl⟩
  | broadcast k v => exact ⟨if_neg hne, rfl, fun _ => rfl⟩
  | ordering2 reply => exact ⟨rfl, rfl, fun _ => if_neg (fun hand => hne hand.1)⟩
  | complete k => exact ⟨rfl, rfl, fun _ => rfl⟩

theorem RequestOk.cons_ne (hok : RequestOk nfaulty log h req) (hne : e.about ≠ h) :
    RequestOk nfaulty (e :: log) h req := by
  obtain ⟨hat, hfrom, hanswers⟩ := heard_cons log hne
  refine ⟨fun hnone => ?_, fun n hsome => ?_⟩
  · simp only [hfrom, hanswers]
    exact hok.early (hat.symm.trans hnone)
  · rw [hanswers]
    exact hok.sent n (hat.symm.trans hsome)

theorem RequestOk.append_ne {es : List Event} (hok : RequestOk nfaulty log h req)
    (hne : ∀ e ∈ es, e.about ≠ h) : RequestOk nfaulty (es ++ log) h req := by
  induction es with
  | nil => exact hok
  | cons e es ih =>
      exact (ih (fun e' he' => hne e' (List.mem_cons_of_mem _ he'))).cons_ne
        (hne e List.mem_cons_self)

theorem RequestOk.start : RequestOk nfaulty (.start h :: log) h ⟨0, 0, 0, []⟩ := by
  have hat : broadcastAt h (.start h :: log) = none := if_pos rfl
  have hfrom : ordering1From h (.start h :: log) = [] := if_pos rfl
  refine ⟨fun _ => ?_, fun n hsome => ?_⟩
  · rw [hfrom]
    exact ⟨rfl, .nil, Nat.succ_pos _, rfl, fun _ => if_pos rfl⟩
  · rw [hat] at hsome
    cases hsome

theorem ClientOk.update (hok : ClientOk c) (es : List Event) (habout : ∀ e ∈ es, e.about = h)
    (hreq : RequestOk c.nfaulty (es ++ c.log) h req) (k : Uint256) (r : Request)
    (hr : (c.waiting.insert h req).lookup k = some r) :
    RequestOk c.nfaulty (es ++ c.log) k r := by
  by_cases hk : k = h
  · subst hk
    rw [AList.lookup_insert] at hr
    cases hr
    exact hreq
  · rw [AList.lookup_insert_ne hk] at hr
    exact (hok.requests k r hr).append_ne (fun e he heq => hk (heq.symm.trans (habout e he)))

theorem ClientOk.trySend (hok : ClientOk c) (hsend : c.trySend hash = some c') : ClientOk c' := by
  unfold Client.trySend at hsend
  dsimp only at hsend
  split at hsend
  swap
  · cases hsend
  cases hsend
  cases hlookup : c.waiting.lookup (hash c.cid c.cnt) with
  | some req =>
      have hsame : emplace c.waiting (hash c.cid c.cnt) ⟨0, 0, 0, []⟩ = c.waiting := by
        unfold emplace
        rw [hlookup]
      rw [hsame]
      exact ⟨hok.requests, hok.quorums⟩
  | none =>
      have hinsert : emplace c.waiting (hash c.cid c.cnt) ⟨0, 0, 0, []⟩ =
          c.waiting.insert (hash c.cid c.cnt) ⟨0, 0, 0, []⟩ := by
        unfold emplace
        rw [hlookup]
      rw [hinsert]
      exact ⟨hok.update [.start _] (by simp [Event.about]) .start, hok.quorums.cons nofun nofun⟩

theorem ClientOk.sendAll {fuel : Nat} (hok : ClientOk c)
    (hsend : Client.sendAll hash fuel c = some c') : ClientOk c' := by
  induction fuel generalizing c with
  | zero => cases hsend
  | succ fuel ih =>
      unfold Client.sendAll at hsend
      split at hsend
      · cases hsend
        exact hok
      · rename_i hnext
        exact ih (hok.trySend hnext) hsend

theorem ClientOk.uncounted (hok : ClientOk c) (hnone : c.waiting.lookup e.about = none)
    (hbroadcast : ∀ h v, e ≠ .broadcast h v) (hcomplete : ∀ h, e ≠ .complete h) :
    ClientOk { c with log := e :: c.log } := by
  refine ⟨fun k r hr => (hok.requests k r hr).cons_ne (fun heq => ?_),
    hok.quorums.cons (fun h v heq => absurd heq (hbroadcast h v))
      (fun h heq => absurd heq (hcomplete h))⟩
  rw [heq] at hnone
  rw [show c.waiting.lookup k = some r from hr] at hnone
  cases hnone

/-- What a timestamp does: it is not waited for, it is counted, or it is the last one needed. -/
theorem onOrdering1Response_cases {t : Timestamp}
    (hstep : c.onOrdering1Response std reply t = some c') :
    (c.waiting.lookup reply.cmdHash = none ∧
        c' = { c with log := .ordering1 reply :: c.log }) ∨
      ∃ req timestamps, c.waiting.lookup reply.cmdHash = some req ∧
        ((req.orderingRtt1 + 1 ≠ c.nfaulty * 2 + 1 ∧
            c' = { c with
              waiting := c.waiting.insert reply.cmdHash
                { req with orderingRtt1 := req.orderingRtt1 + 1, timestamps }
              log := .ordering1 reply :: c.log }) ∨
          req.orderingRtt1 + 1 = c.nfaulty * 2 + 1 ∧ ∃ median,
            c' = { c with
              waiting := c.waiting.insert reply.cmdHash
                { req with orderingRtt1 := req.orderingRtt1 + 1, timestamps }
              log := .broadcast reply.cmdHash median :: .ordering1 reply :: c.log }) := by
  unfold Client.onOrdering1Response at hstep
  dsimp only at hstep
  split at hstep
  · rename_i hlookup
    cases hstep
    exact .inl ⟨hlookup, rfl⟩
  · rename_i req hlookup
    split at hstep
    · rename_i hmore
      cases hstep
      exact .inr ⟨req, _, hlookup, .inl ⟨hmore, rfl⟩⟩
    · rename_i henough
      split at hstep
      · cases hstep
      · cases hstep
        exact .inr ⟨req, _, hlookup, .inr ⟨not_not.mp henough, _, rfl⟩⟩

theorem onOrdering2Response_cases {fuel : Nat}
    (hstep : c.onOrdering2Response hash fuel reply = some c') :
    (c.waiting.lookup reply.cmdHash = none ∧
        c' = { c with log := .ordering2 reply :: c.log }) ∨
      ∃ req waitingExec, c.waiting.lookup reply.cmdHash = some req ∧
        ((req.orderingRtt2 + 1 ≠ c.nfaulty * 2 + 1 ∧
            c' = { c with
              waiting := c.waiting.insert reply.cmdHash
                { req with orderingRtt2 := req.orderingRtt2 + 1 }
              log := .ordering2 reply :: c.log }) ∨
          req.orderingRtt2 + 1 = c.nfaulty * 2 + 1 ∧
            Client.sendAll hash fuel { c with
              waitingExec
              waiting := c.waiting.erase reply.cmdHash
              log := .complete reply.cmdHash :: .ordering2 reply :: c.log } = some c') := by
  unfold Client.onOrdering2Response at hstep
  dsimp only at hstep
  split at hstep
  · rename_i hlookup
    cases hstep
    exact .inl ⟨hlookup, rfl⟩
  · rename_i req hlookup
    split at hstep
    · rename_i hmore
      cases hstep
      exact .inr ⟨req, c.waitingExec, hlookup, .inl ⟨hmore, rfl⟩⟩
    · rename_i henough
      exact .inr ⟨req, _, hlookup, .inr ⟨not_not.mp henough, hstep⟩⟩

theorem ClientOk.ordering1 {t : Timestamp} (hok : ClientOk c)
    (hfresh : Genuine c (.ordering1 reply t))
    (hstep : c.onOrdering1Response std reply t = some c') : ClientOk c' := by
  unfold Genuine at hfresh
  rcases onOrdering1Response_cases hstep with ⟨hlookup, rfl⟩ | ⟨req, _, hlookup, hcases⟩
  · exact hok.uncounted hlookup nofun nofun
  · dsimp only at hfresh
    rw [hlookup] at hfresh
    dsimp only at hfresh
    have hreq := hok.requests _ _ hlookup
    have hfrom : ordering1From reply.cmdHash (.ordering1 reply :: c.log) =
        reply.sender :: ordering1From reply.cmdHash c.log := if_pos rfl
    have hlog : QuorumsDistinct c.nfaulty (.ordering1 reply :: c.log) :=
      hok.quorums.cons nofun nofun
    rcases hcases with ⟨hmore, rfl⟩ | ⟨hlast, median, rfl⟩
    · refine ⟨hok.update [.ordering1 reply] (by simp [Event.about])
        ⟨fun hnone => ?_, fun n hsome => ?_⟩, hlog⟩
      · obtain ⟨hcount, hnodup, hlt, hrest⟩ := hreq.early hnone
        rw [List.cons_append, List.nil_append, hfrom]
        refine ⟨congrArg Nat.succ hcount, hnodup.cons (hfresh hlt), ?_, hrest⟩
        show req.orderingRtt1 + 1 < 2 * c.nfaulty + 1
        omega
      · obtain ⟨hle, hrest⟩ := hreq.sent n hsome
        exact ⟨hle.trans (Nat.le_succ _), hrest⟩
    · have hnone : broadcastAt reply.cmdHash c.log = none := by
        cases hsome : broadcastAt reply.cmdHash c.log with
        | none => rfl
        | some n =>
            have := (hreq.sent n hsome).1
            omega
      obtain ⟨hcount, hnodup, hlt, hzero, hnil⟩ := hreq.early hnone
      have hnodup' := hnodup.cons (hfresh hlt)
      have hat : broadcastAt reply.cmdHash
          (.broadcast reply.cmdHash median :: .ordering1 reply :: c.log) =
            some (c.log.length + 1) := if_pos rfl
      refine ⟨hok.update [.broadcast reply.cmdHash median, .ordering1 reply]
        (by simp [Event.about]) ⟨fun hno => ?_, fun n hsome => ?_⟩, hlog.cons ?_ nofun⟩
      · rw [List.cons_append, List.cons_append, List.nil_append, hat] at hno
        cases hno
      · refine ⟨?_, hzero.trans (congrArg List.length (hnil n)).symm, ?_, ?_⟩
        · show 2 * c.nfaulty + 1 ≤ req.orderingRtt1 + 1
          omega
        · show (ordering2From reply.cmdHash n c.log).Nodup
          rw [hnil n]
          exact .nil
        · show req.orderingRtt2 < 2 * c.nfaulty + 1
          omega
      · intro k v heq
        cases heq
        rw [hfrom, List.toFinset_card_of_nodup hnodup', List.length_cons, ← hcount]
        omega

theorem ClientOk.ordering2 {fuel : Nat} (hok : ClientOk c)
    (hfresh : Genuine c (.ordering2 reply))
    (hstep : c.onOrdering2Response hash fuel reply = some c') : ClientOk c' := by
  unfold Genuine at hfresh
  rcases onOrdering2Response_cases hstep with ⟨hlookup, rfl⟩ | ⟨req, _, hlookup, hcases⟩
  · exact hok.uncounted hlookup nofun nofun
  · dsimp only at hfresh
    rw [hlookup] at hfresh
    cases hat : broadcastAt reply.cmdHash c.log with
    | none =>
        rw [hat] at hfresh
        exact hfresh.elim
    | some n =>
        rw [hat] at hfresh
        obtain ⟨hanswer, hnew⟩ := hfresh
        obtain ⟨hle, hcount, hnodup, hlt⟩ := (hok.requests _ _ hlookup).sent n hat
        have hfrom : ordering2From reply.cmdHash n (.ordering2 reply :: c.log) =
            reply.sender :: ordering2From reply.cmdHash n c.log := if_pos ⟨rfl, hanswer⟩
        have hlog : QuorumsDistinct c.nfaulty (.ordering2 reply :: c.log) :=
          hok.quorums.cons nofun nofun
        have hnodup' := hnodup.cons hnew
        rcases hcases with ⟨hmore, rfl⟩ | ⟨hlast, hsend⟩
        · refine ⟨hok.update [.ordering2 reply] (by simp [Event.about])
            ⟨fun hnone => ?_, fun n' hsome => ?_⟩, hlog⟩
          · cases hat.symm.trans hnone
          · obtain rfl := Option.some.inj (hat.symm.trans hsome)
            rw [List.cons_append, List.nil_append, hfrom]
            refine ⟨hle, congrArg Nat.succ hcount, hnodup', ?_⟩
            show req.orderingRtt2 + 1 < 2 * c.nfaulty + 1
            omega
        · refine ClientOk.sendAll ⟨fun k r hr => ?_,
            hlog.cons (e := .complete reply.cmdHash) nofun ?_⟩ hsend
          · have hk : k ≠ reply.cmdHash := by
              rintro rfl
              rw [AList.lookup_erase] at hr
              cases hr
            rw [AList.lookup_erase_ne hk] at hr
            have hreq := (hok.requests k r hr).cons_ne (e := .ordering2 reply) (Ne.symm hk)
            exact hreq.cons_ne (e := .complete reply.cmdHash) (Ne.symm hk)
          · intro k heq
            cases heq
            refine ⟨n, hat, ?_⟩
            rw [hfrom, List.toFinset_card_of_nodup hnodup', List.length_cons, ← hcount]
            omega

theorem ClientOk.step {fuel : Nat} {i : Input} (hok : ClientOk c) (hfresh : Genuine c i)
    (hstep : c.step hash std fuel i = some c') : ClientOk c' := by
  cases i with
  | ordering1 reply t =>
      simp only [Client.step] at hstep
      split at hstep
      · exact hok.ordering1 hfresh hstep
      · cases hstep
  | ordering2 reply =>
      simp only [Client.step] at hstep
      split at hstep
      · exact hok.ordering2 hfresh hstep
      · cases hstep
  | exec h =>
      cases hstep
      unfold Client.onExecResponse
      split
      · exact hok
      · dsimp only
        split
        · exact ⟨hok.requests, hok.quorums⟩
        · exact ⟨hok.requests, hok.quorums⟩

theorem nfaulty_sendAll {fuel : Nat} (hsend : Client.sendAll hash fuel c = some c') :
    c'.nfaulty = c.nfaulty := by
  induction fuel generalizing c with
  | zero => cases hsend
  | succ fuel ih =>
      unfold Client.sendAll at hsend
      split at hsend
      · cases hsend
        rfl
      · rename_i d hnext
        refine (ih hsend).trans ?_
        unfold Client.trySend at hnext
        dsimp only at hnext
        split at hnext
        · cases hnext
          rfl
        · cases hnext

theorem nfaulty_step {fuel : Nat} {i : Input} (hstep : c.step hash std fuel i = some c') :
    c'.nfaulty = c.nfaulty := by
  cases i with
  | ordering1 reply t =>
      simp only [Client.step] at hstep
      split at hstep
      · rcases onOrdering1Response_cases hstep with
          ⟨_, rfl⟩ | ⟨_, _, _, ⟨_, rfl⟩ | ⟨_, _, rfl⟩⟩ <;> rfl
      · cases hstep
  | ordering2 reply =>
      simp only [Client.step] at hstep
      split at hstep
      · rcases onOrdering2Response_cases hstep with ⟨_, rfl⟩ | ⟨_, _, _, ⟨_, rfl⟩ | ⟨_, hsend⟩⟩
        · rfl
        · rfl
        · exact (nfaulty_sendAll hsend :)
      · cases hstep
  | exec h =>
      cases hstep
      unfold Client.onExecResponse
      dsimp only
      split
      · rfl
      · split <;> rfl

/-- As long as every reply that is counted is of a replica not counted yet, and every ordering2
reply that is counted answers the broadcast, quorums are of different replicas. -/
theorem quorums_distinct {maxAsyncNum : Nat} {maxIterNum : Int} {cid : Fin (2 ^ 32)}
    (hr : Reachable ((client hash std nfaulty maxAsyncNum maxIterNum cid).restrict Genuine) c) :
    QuorumsDistinct nfaulty c.log := by
  have hall : ClientOk c ∧ c.nfaulty = nfaulty := by
    refine hr.invariant (I := fun c => ClientOk c ∧ c.nfaulty = nfaulty) ?_ ?_
    · rintro c ⟨fuel, hsend⟩
      have hstart : ClientOk (.start nfaulty maxAsyncNum maxIterNum cid) := by
        refine ⟨fun h req hreq => ?_, fun after before h v heq => ?_, fun after before h heq => ?_⟩
        · cases hreq
        · cases after <;> cases heq
        · cases after <;> cases heq
      exact ⟨hstart.sendAll hsend, nfaulty_sendAll hsend⟩
    · rintro c i c' _ ⟨hok, hn⟩ ⟨hfresh, fuel, hstep⟩
      exact ⟨hok.step hfresh hstep, (nfaulty_step hstep).trans hn⟩
  rw [← hall.2]
  exact hall.1.quorums

instance (c : Client) (i : Input) : Decidable (Genuine c i) := by
  cases i with
  | ordering1 reply _ =>
      unfold Genuine
      dsimp only
      split <;> infer_instance
  | ordering2 reply =>
      unfold Genuine
      dsimp only
      split <;> infer_instance
  | exec _ => exact instDecidableTrue

/-- A client of four replicas that has made its first two requests. -/
def twoRequests : Client :=
  (Client.sendAll plainHash 3 (.start 1 2 2 0)).get (by decide +kernel)

def twoStep : Client → Input → Option Client := Client.step plainHash (.insertion _) 1

def twoClient : System Client Input := client plainHash (.insertion _) 1 2 2 0

private theorem twoClient_step {i : Input} (h : twoStep c i = some c') : twoClient.step c i c' :=
  ⟨1, h⟩

private theorem reachable_twoRequests : Reachable twoClient twoRequests :=
  .init ⟨3, (Option.some_get _).symm⟩

/-- Three replicas reply to the first command in both phases. -/
def servedClient : Client :=
  (execute (guarded Genuine twoStep) [.ordering1 ⟨0, 2, plainHash 0 0⟩ 10,
    .ordering1 ⟨1, 2, plainHash 0 0⟩ 20, .ordering1 ⟨2, 2, plainHash 0 0⟩ 30,
    .ordering2 ⟨2, 6, plainHash 0 0⟩, .ordering2 ⟨1, 6, plainHash 0 0⟩,
    .ordering2 ⟨3, 6, plainHash 0 0⟩] twoRequests).get (by decide +kernel)

theorem quorums_distinct_served :
    .complete (plainHash 0 0) ∈ servedClient.log ∧ QuorumsDistinct 1 servedClient.log := by
  have hr : Reachable (twoClient.restrict Genuine) servedClient :=
    Reachable.trans (.init ⟨3, (Option.some_get _).symm⟩)
      (steps_of_execute (fun _ _ _ h => (guarded_eq_some h).imp_right twoClient_step)
        (Option.some_get _).symm)
  exact ⟨by decide +kernel, quorums_distinct hr⟩

/-- Replica 3 replies three times to both commands, for the second one in the wrong phase. -/
def fooledClient : Client :=
  (execute twoStep [.ordering1 ⟨3, 2, plainHash 0 0⟩ 10, .ordering1 ⟨3, 2, plainHash 0 0⟩ 20,
    .ordering1 ⟨3, 2, plainHash 0 0⟩ 30, .ordering2 ⟨3, 2, plainHash 0 1⟩,
    .ordering2 ⟨3, 2, plainHash 0 1⟩, .ordering2 ⟨3, 2, plainHash 0 1⟩] twoRequests).get
      (by decide +kernel)

/-- The first command is broadcast and the ordering phase of the second complete, although only
one replica has replied and the second has not been broadcast. -/
theorem one_replica_suffices : Reachable twoClient fooledClient ∧
    fooledClient.log = [.complete (plainHash 0 1), .ordering2 ⟨3, 2, plainHash 0 1⟩,
      .ordering2 ⟨3, 2, plainHash 0 1⟩, .ordering2 ⟨3, 2, plainHash 0 1⟩,
      .broadcast (plainHash 0 0) 30, .ordering1 ⟨3, 2, plainHash 0 0⟩,
      .ordering1 ⟨3, 2, plainHash 0 0⟩, .ordering1 ⟨3, 2, plainHash 0 0⟩,
      .start (plainHash 0 1), .start (plainHash 0 0)] ∧
    ¬ QuorumsDistinct 1 fooledClient.log := by
  have hlog : fooledClient.log = [.complete (plainHash 0 1), .ordering2 ⟨3, 2, plainHash 0 1⟩,
      .ordering2 ⟨3, 2, plainHash 0 1⟩, .ordering2 ⟨3, 2, plainHash 0 1⟩,
      .broadcast (plainHash 0 0) 30, .ordering1 ⟨3, 2, plainHash 0 0⟩,
      .ordering1 ⟨3, 2, plainHash 0 0⟩, .ordering1 ⟨3, 2, plainHash 0 0⟩,
      .start (plainHash 0 1), .start (plainHash 0 0)] := by decide +kernel
  refine ⟨Reachable.trans reachable_twoRequests (steps_of_execute (fun _ _ _ h => twoClient_step h)
    (Option.some_get _).symm), hlog, fun hquorums => ?_⟩
  obtain ⟨n, hat, _⟩ := hquorums.complete [] _ _ hlog
  rw [show broadcastAt (plainHash 0 1) _ = none by decide +kernel] at hat
  cases hat

end steps

/-! What the client does with ordering1 replies is what it does when nothing else arrives. -/

def broadcastOf : Event → Option (Uint256 × Timestamp)
  | .broadcast h v => some (h, v)
  | .start _ | .ordering1 _ | .ordering2 _ | .complete _ => none

def Client.toMedian (c : Client) : Median.Client :=
  { nfaulty := c.nfaulty
    waiting := fun h =>
      (c.waiting.lookup h).map (fun req => ⟨req.orderingRtt1, req.timestamps⟩)
    sent := c.log.filterMap broadcastOf }

section median

variable {c : Client} {h : Uint256}

private theorem waiting_insert (req : Request) :
    (fun k => ((c.waiting.insert h req).lookup k).map
        (fun req => (⟨req.orderingRtt1, req.timestamps⟩ : Median.Request))) =
      Function.update c.toMedian.waiting h (some ⟨req.orderingRtt1, req.timestamps⟩) := by
  funext k
  by_cases hk : k = h
  · subst hk
    rw [AList.lookup_insert, Function.update_self]
    rfl
  · rw [AList.lookup_insert_ne hk, Function.update_of_ne hk]
    rfl

theorem toMedian_onOrdering1Response (std : Sorter (id : Timestamp → Timestamp)) (c : Client)
    (reply : Reply) (t : Timestamp) : (c.onOrdering1Response std reply t).map Client.toMedian =
      c.toMedian.onOrdering1Response std ⟨reply.cmdHash, t⟩ := by
  unfold Client.onOrdering1Response Median.Client.onOrdering1Response
  dsimp only
  cases hlookup : c.waiting.lookup reply.cmdHash with
  | none =>
      have hnone : c.toMedian.waiting reply.cmdHash = none := congrArg (Option.map _) hlookup
      rw [hnone]
      rfl
  | some req =>
      have hsome : c.toMedian.waiting reply.cmdHash =
          some ⟨req.orderingRtt1, req.timestamps⟩ := congrArg (Option.map _) hlookup
      rw [hsome]
      dsimp only
      have hn : c.toMedian.nfaulty = c.nfaulty := rfl
      rw [hn]
      by_cases hmore : req.orderingRtt1 + 1 ≠ c.nfaulty * 2 + 1
      · rw [if_pos hmore, if_pos hmore, Option.map_some]
        refine congrArg some (Median.Client.mk.injEq .. |>.mpr ⟨rfl, waiting_insert _, rfl⟩)
      · rw [if_neg hmore, if_neg hmore]
        cases (std.sort (req.timestamps ++ [t]))[c.nfaulty + 1]? with
        | none => rfl
        | some median =>
            refine congrArg some (Median.Client.mk.injEq .. |>.mpr ⟨rfl, waiting_insert _, rfl⟩)

end median

end ArchipelagoHotStuff.Archipelago.Quorums
