/- Module: ArchipelagoHotStuff/Archipelago/Ordering1
   source: archipelago_app.cpp (client_ordering1_request_cmd_handler and the handler of
     ordering1_queue), hotstuff.cpp (exec_ordering1 and the handler of ordering1)
   digest: The replica in the first phase of ordering, and how often it gives a command a
     timestamp. -/

import ArchipelagoHotStuff.Archipelago.Messages
import ArchipelagoHotStuff.General.Transition
import Mathlib.Data.List.AList

set_option autoImplicit false
set_option relaxedAutoImplicit false

namespace ArchipelagoHotStuff.Archipelago.Ordering1

open Crypto.Wire Crypto.Encoding Crypto.Compact General.Transition Messages

structure Ordering1Finality where
  cmdHash : Uint256
  timestamp : Uint256
  timestampUs : Timestamp
  sig : EcdsaSignature

/-- A `MsgOrdering1ReqCmd` that has arrived, and whether it has led to a call of
`exec_ordering1`. -/
structure Copy where
  cmdHash : Uint256
  called : Bool
  deriving DecidableEq

/-- What the first phase uses of `HotStuffApp`; commands and answers wait with the address of the
client.  `sent` lists what was handed to `send_msg`, `received` the copies that have arrived, both
the latest first. -/
structure HotStuffApp (sha : Sha) where
  clntBlkSize : Fin (2 ^ 32)
  batchReceived : AList (fun _ : Uint256 => Nat)
  ordering1 : List (Uint256 × Nat)
  ordering1Queue : List (Ordering1Finality × Nat)
  sent : List (Msg sha EcdsaSignature × Nat)
  received : List Copy

/-- A request arrives, the replica takes one from the queue and reads the clock, an answer is
sent. -/
inductive Input
  | request (serialized : DataStream) (addr : Nat)
  | assign (clock : Timestamp)
  | respond

namespace HotStuffApp

variable {sha : Sha} (app : HotStuffApp sha)

def start (clntBlkSize : Fin (2 ^ 32)) : HotStuffApp sha :=
  { clntBlkSize, batchReceived := ∅, ordering1 := [], ordering1Queue := [], sent := [],
    received := [] }

/-- The count of a command goes up by one.  It is an `int`, which has no value beyond 2^31 - 1. -/
def countUp (cmdHash : Uint256) : Option Nat :=
  match app.batchReceived.lookup cmdHash with
  | none => some 1
  | some n => if n + 1 < 2 ^ 31 then some (n + 1) else none

/-- `client_ordering1_request_cmd_handler`; nothing where it throws. -/
def onOrdering1Request (serialized : DataStream) (addr : Nat) : Option (HotStuffApp sha) :=
  match parseCmd sha serialized with
  | .error _ => none
  | .ok (cmd, _) =>
      (app.countUp cmd.hash).map (fun count =>
        let app := { app with batchReceived := app.batchReceived.insert cmd.hash count }
        if count < app.clntBlkSize.val then
          { app with received := ⟨cmd.hash, false⟩ :: app.received }
        else
          { app with
            ordering1 := app.ordering1 ++ [(cmd.hash, addr)]
            received := ⟨cmd.hash, true⟩ :: app.received })

/-- One round of the handler of `ordering1`.  The 32 bytes of the timestamp begin with those of
the clock, and all after them are zero. -/
def assign (S : Signing) (key : S.PrivKey) (clock : Timestamp) : Option (HotStuffApp sha) :=
  match app.ordering1 with
  | [] => none
  | (cmdHash, addr) :: rest =>
      let timestamp : Uint256 := BitVec.ofNat 256 clock.val
      some { app with
        ordering1 := rest
        ordering1Queue := app.ordering1Queue ++
          [(⟨cmdHash, timestamp, clock, (S.sign key timestamp).val⟩, addr)] }

def respond : Option (HotStuffApp sha) :=
  match app.ordering1Queue with
  | [] => none
  | (fin, addr) :: rest =>
      some { app with
        ordering1Queue := rest
        sent :=
          (.ordering1Resp fin.cmdHash fin.timestamp fin.timestampUs fin.sig, addr) :: app.sent }

end HotStuffApp

def HotStuffApp.step {sha : Sha} (S : Signing) (key : S.PrivKey) (app : HotStuffApp sha) :
    Input → Option (HotStuffApp sha)
  | .request serialized addr => app.onOrdering1Request serialized addr
  | .assign clock => app.assign S key clock
  | .respond => app.respond

def replica (sha : Sha) (S : Signing) (key : S.PrivKey) (clntBlkSize : Fin (2 ^ 32)) :
    System (HotStuffApp sha) Input where
  init app := app = .start clntBlkSize
  step app i app' := app.step S key i = some app'

def copies (h : Uint256) (received : List Copy) : Nat :=
  received.countP (fun c => decide (c.cmdHash = h))

def calls (h : Uint256) (received : List Copy) : Nat :=
  received.countP (fun c => decide (c.cmdHash = h) && c.called)

def Answers {sha : Sha} (h : Uint256) : Msg sha EcdsaSignature → Bool
  | .ordering1Resp cmdHash _ _ _ => decide (cmdHash = h)
  | .ordering1Req _ | .ordering2Req _ _ | .ordering2Resp _ _ _ | .consensusReq _ _ _ _ _ _ _ _
  | .consensusResp _ _ _ _ _ _ | .consensusRespClient _ _ => false

def answers {sha : Sha} (h : Uint256) (sent : List (Msg sha EcdsaSignature × Nat)) : Nat :=
  sent.countP (fun m => Answers h m.1)

/-- Each command leads to one call and one timestamp at most, and to a call exactly when the copy
that completes a batch arrives. -/
structure OneAnswer {sha : Sha} (app : HotStuffApp sha) : Prop where
  called : ∀ h, calls h app.received ≤ 1
  sent : ∀ h, answers h app.sent ≤ 1
  exactly : ∀ c before, c :: before <:+ app.received →
    (c.called = true ↔ copies c.cmdHash (c :: before) = app.clntBlkSize.val)

/-- The counts are those of the copies, a call is made from a full batch on, and every call is
queued, answered and waiting to be sent, or sent. -/
structure AppOk {sha : Sha} (app : HotStuffApp sha) : Prop where
  counted : ∀ h, (app.batchReceived.lookup h).getD 0 = copies h app.received
  decided : ∀ c before, c :: before <:+ app.received →
    (c.called = true ↔ app.clntBlkSize.val ≤ copies c.cmdHash (c :: before))
  conserved : ∀ h, calls h app.received = app.ordering1.countP (fun e => decide (e.1 = h)) +
    app.ordering1Queue.countP (fun e => decide (e.1.cmdHash = h)) + answers h app.sent

section log

variable {received : List Copy} {h : Uint256} {c : Copy} {k n : Nat}

theorem copies_cons (h : Uint256) (c : Copy) (received : List Copy) :
    copies h (c :: received) = copies h received + if c.cmdHash = h then 1 else 0 := by
  simp only [copies, List.countP_cons, decide_eq_true_eq]

theorem calls_cons (h : Uint256) (c : Copy) (received : List Copy) : calls h (c :: received) =
    calls h received + if c.cmdHash = h ∧ c.called = true then 1 else 0 := by
  simp only [calls, List.countP_cons, Bool.and_eq_true, decide_eq_true_eq]

theorem copies_le_of_suffix {l : List Copy} (hl : l <:+ received) :
    copies h l ≤ copies h received :=
  hl.sublist.countP_le

theorem exists_copy (hpos : 0 < n) (hn : n ≤ copies h received) :
    ∃ c before, c :: before <:+ received ∧ c.cmdHash = h ∧ copies h (c :: before) = n := by
  induction received with
  | nil =>
      have hzero : copies h [] = 0 := rfl
      omega
  | cons c received ih =>
      by_cases hle : n ≤ copies h received
      · obtain ⟨c', before, hsuffix, hc⟩ := ih hle
        exact ⟨c', before, hsuffix.trans (List.suffix_cons c received), hc⟩
      · have hcons := copies_cons h c received
        by_cases hc : c.cmdHash = h
        · rw [if_pos hc] at hcons
          exact ⟨c, received, List.suffix_rfl, hc, by omega⟩
        · rw [if_neg hc] at hcons
          omega

/-- If calls are made from the `k`th copy on, there are as many as copies from there on. -/
theorem calls_eq (hk : 1 ≤ k) (hdecided : ∀ c before, c :: before <:+ received →
    (c.called = true ↔ k ≤ copies c.cmdHash (c :: before))) :
    calls h received = copies h received - (k - 1) := by
  induction received with
  | nil => exact (Nat.zero_sub _).symm
  | cons c received ih =>
      have hrest := ih (fun c' before hsuffix =>
        hdecided c' before (hsuffix.trans (List.suffix_cons c received)))
      have hlast := hdecided c received List.suffix_rfl
      have hcons := copies_cons h c received
      by_cases hc : c.cmdHash = h
      · rw [hc] at hlast
        rw [if_pos hc] at hcons
        rw [calls_cons]
        by_cases hcalled : c.called = true
        · have hle := hlast.mp hcalled
          rw [if_pos ⟨hc, hcalled⟩]
          omega
        · have hlt : ¬ k ≤ copies h (c :: received) := fun hle => hcalled (hlast.mpr hle)
          rw [if_neg (fun hboth => hcalled hboth.2)]
          omega
      · rw [if_neg hc] at hcons
        rw [calls_cons, if_neg (fun hboth => hc hboth.1), hcons, hrest]
        rfl

end log

section step

variable {sha : Sha} {S : Signing} {key : S.PrivKey} {app app' : HotStuffApp sha}
  {clntBlkSize : Fin (2 ^ 32)}

theorem AppOk.start : AppOk (.start clntBlkSize : HotStuffApp sha) where
  counted _ := rfl
  decided _ _ hsuffix := absurd (List.suffix_nil.mp hsuffix) (List.cons_ne_nil _ _)
  conserved _ := rfl

/-- A request adds a copy, and a call if the count is that of a full batch. -/
theorem onOrdering1Request_cases {serialized : DataStream} {addr : Nat}
    (h : app.onOrdering1Request serialized addr = some app') :
    ∃ cmdHash, app' = { app with
      batchReceived := app.batchReceived.insert cmdHash
        ((app.batchReceived.lookup cmdHash).getD 0 + 1)
      ordering1 := app.ordering1 ++
        if app.clntBlkSize.val ≤ (app.batchReceived.lookup cmdHash).getD 0 + 1 then
          [(cmdHash, addr)] else []
      received := ⟨cmdHash, decide (app.clntBlkSize.val ≤
        (app.batchReceived.lookup cmdHash).getD 0 + 1)⟩ :: app.received } := by
  unfold HotStuffApp.onOrdering1Request at h
  split at h
  · cases h
  · rename_i cmd _ _
    obtain ⟨count, hcount, rfl⟩ := Option.map_eq_some_iff.mp h
    have heq : count = (app.batchReceived.lookup cmd.hash).getD 0 + 1 := by
      unfold HotStuffApp.countUp at hcount
      split at hcount
      · rename_i hnone
        cases hcount
        rw [hnone]
        rfl
      · rename_i n hn
        split at hcount
        · cases hcount
          rw [hn]
          rfl
        · cases hcount
    refine ⟨cmd.hash, ?_⟩
    dsimp only
    rw [← heq]
    by_cases hfull : app.clntBlkSize.val ≤ count
    · rw [if_neg (not_lt.mpr hfull), if_pos hfull, decide_eq_true hfull]
    · rw [if_pos (not_le.mp hfull), if_neg hfull, decide_eq_false hfull, List.append_nil]

theorem AppOk.request (hok : AppOk app) {serialized : DataStream} {addr : Nat}
    (h : app.onOrdering1Request serialized addr = some app') : AppOk app' := by
  obtain ⟨cmdHash, rfl⟩ := onOrdering1Request_cases h
  rw [hok.counted cmdHash]
  generalize hcalled : decide (app.clntBlkSize.val ≤ copies cmdHash app.received + 1) = called
  have hlast : copies cmdHash (⟨cmdHash, called⟩ :: app.received) =
      copies cmdHash app.received + 1 := by
    rw [copies_cons, if_pos rfl]
  refine ⟨fun x => ?_, fun c before hsuffix => ?_, fun x => ?_⟩
  · dsimp only
    by_cases hx : x = cmdHash
    · subst hx
      rw [AList.lookup_insert, hlast]
      rfl
    · rw [AList.lookup_insert_ne hx, hok.counted x, copies_cons,
        if_neg (fun heq => hx heq.symm)]
      rfl
  · rcases List.suffix_cons_iff.mp hsuffix with heq | hold
    · cases heq
      show called = true ↔ _ ≤ copies cmdHash (⟨cmdHash, called⟩ :: app.received)
      rw [hlast, ← hcalled, decide_eq_true_eq]
    · exact hok.decided c before hold
  · dsimp only
    rw [calls_cons, hok.conserved x, List.countP_append]
    by_cases hfull : app.clntBlkSize.val ≤ copies cmdHash app.received + 1
    · rw [decide_eq_true hfull] at hcalled
      rw [if_pos hfull, List.countP_singleton, ← hcalled]
      by_cases hx : cmdHash = x
      · simp only [hx, decide_true, and_self, if_true]
        omega
      · simp only [hx, decide_false, false_and, if_false, Bool.false_eq_true]
        omega
    · rw [decide_eq_false hfull] at hcalled
      rw [if_neg hfull, List.countP_nil, ← hcalled]
      simp only [Bool.false_eq_true, and_false, if_false]
      omega

theorem AppOk.assign (hok : AppOk app) {clock : Timestamp}
    (h : app.assign S key clock = some app') : AppOk app' := by
  unfold HotStuffApp.assign at h
  split at h
  · cases h
  · rename_i cmdHash addr rest hqueue
    cases h
    refine ⟨hok.counted, hok.decided, fun x => ?_⟩
    have hconserved := hok.conserved x
    rw [hqueue, List.countP_cons] at hconserved
    dsimp only at hconserved ⊢
    rw [hconserved, List.countP_append, List.countP_singleton]
    dsimp only
    omega

theorem AppOk.respond (hok : AppOk app) (h : app.respond = some app') : AppOk app' := by
  unfold HotStuffApp.respond at h
  split at h
  · cases h
  · rename_i fin addr rest hqueue
    cases h
    refine ⟨hok.counted, hok.decided, fun x => ?_⟩
    have hconserved := hok.conserved x
    rw [hqueue, List.countP_cons] at hconserved
    dsimp only at hconserved ⊢
    rw [hconserved]
    simp only [answers, List.countP_cons, Answers]
    omega

theorem AppOk.step (hok : AppOk app) {i : Input} (h : app.step S key i = some app') :
    AppOk app' := by
  cases i with
  | request serialized addr => exact hok.request h
  | assign clock => exact hok.assign h
  | respond => exact hok.respond h

theorem clntBlkSize_step {i : Input} (h : app.step S key i = some app') :
    app'.clntBlkSize = app.clntBlkSize := by
  cases i with
  | request serialized addr =>
      obtain ⟨_, rfl⟩ := onOrdering1Request_cases h
      rfl
  | assign clock =>
      simp only [HotStuffApp.step, HotStuffApp.assign] at h
      split at h
      · cases h
      · cases h
        rfl
  | respond =>
      simp only [HotStuffApp.step, HotStuffApp.respond] at h
      split at h
      · cases h
      · cases h
        rfl

/-- In every run, a command gets one answer, at the copy that completes its batch, if no more
copies arrive than a batch has, and not otherwise. -/
theorem one_answer_iff (hr : Reachable (replica sha S key clntBlkSize) app)
    (hk : 1 ≤ clntBlkSize.val) :
    OneAnswer app ↔ ∀ h, copies h app.received ≤ clntBlkSize.val := by
  have hok : AppOk app ∧ app.clntBlkSize = clntBlkSize := by
    refine hr.invariant (I := fun app => AppOk app ∧ app.clntBlkSize = clntBlkSize) ?_ ?_
    · rintro _ rfl
      exact ⟨.start, rfl⟩
    · intro s i s' _ hs hstep
      exact ⟨hs.1.step hstep, (clntBlkSize_step hstep).trans hs.2⟩
  obtain ⟨hok, rfl⟩ := hok
  constructor
  · intro hone h
    by_contra hmore
    -- the copy after the full batch is answered once more
    obtain ⟨c, before, hsuffix, rfl, hcount⟩ :=
      exists_copy (n := app.clntBlkSize.val + 1) (Nat.succ_pos _) (not_le.mp hmore)
    have hcalled := (hok.decided c before hsuffix).mpr (by omega)
    have hfull := (hone.exactly c before hsuffix).mp hcalled
    omega
  · intro hfew
    have hcalls : ∀ h, calls h app.received ≤ 1 := by
      intro h
      have heq := calls_eq (h := h) hk hok.decided
      have hle := hfew h
      omega
    refine ⟨hcalls, fun h => ?_, fun c before hsuffix => ?_⟩
    · have hconserved := hok.conserved h
      have hle := hcalls h
      omega
    · have hle := (copies_le_of_suffix (h := c.cmdHash) hsuffix).trans (hfew c.cmdHash)
      rw [hok.decided c before hsuffix]
      omega

end step

/-! Batches of two. -/

/-- The hash of a command is what is written of it. -/
def plainSha : Sha := fun bytes => BitVec.ofNat 256 (fromLE bytes)

def requestOf (cid : Fin (2 ^ 32)) : Input := .request (putCommand cid 0) cid.val

def twoCopies : System (HotStuffApp plainSha) Input := replica plainSha zeroSigning () 2

def runTwo (inputs : List Input) : Option (HotStuffApp plainSha) :=
  execute (HotStuffApp.step zeroSigning ()) inputs (.start 2)

theorem reachable_runTwo {inputs : List Input} {app : HotStuffApp plainSha}
    (h : runTwo inputs = some app) : Reachable twoCopies app :=
  Reachable.trans (.init rfl) (steps_of_execute (fun _ _ _ => id) h)

/-- Two clients send a batch each, in turns, and one of them is answered. -/
def answeredApp : HotStuffApp plainSha :=
  (runTwo [requestOf 1, requestOf 2, requestOf 1, requestOf 2, .assign 50, .respond]).get
    (by decide +kernel)

theorem one_answer_iff_answered : OneAnswer answeredApp := by
  have hlog : answeredApp.received = [⟨2, true⟩, ⟨1, true⟩, ⟨2, false⟩, ⟨1, false⟩] := by
    decide +kernel
  have hr : Reachable twoCopies answeredApp := reachable_runTwo (Option.some_get _).symm
  refine (one_answer_iff hr (by decide)).mpr (fun h => ?_)
  rw [hlog]
  simp only [copies_cons, show copies h [] = 0 from rfl]
  by_cases h1 : (1 : Uint256) = h
  · subst h1
    decide
  · rw [if_neg h1]
    have hbound : ∀ p : Prop, [Decidable p] → (if p then 1 else 0) ≤ 1 := by
      intro p _
      split <;> omega
    have h2 := hbound ((2 : Uint256) = h)
    show _ ≤ 2
    omega

/-- A third copy of the same command. -/
def repeatedApp : HotStuffApp plainSha :=
  (runTwo [requestOf 1, requestOf 1, requestOf 1, .assign 50, .assign 60, .respond, .respond]).get
    (by decide +kernel)

/-- The third copy leads to a second call and a second timestamp. -/
theorem third_copy_answered : Reachable twoCopies repeatedApp ∧ calls 1 repeatedApp.received = 2 ∧
    answers 1 repeatedApp.sent = 2 ∧ ¬ OneAnswer repeatedApp := by
  have hcalls : calls 1 repeatedApp.received = 2 := by decide +kernel
  refine ⟨reachable_runTwo (Option.some_get _).symm, hcalls, by decide +kernel, fun hone => ?_⟩
  have hle := hone.called 1
  omega

end ArchipelagoHotStuff.Archipelago.Ordering1
