/- Module: ArchipelagoHotStuff/Archipelago/Median
   source: archipelago_client.cpp (client_ordering1_resp_cmd_handler)
   digest: The timestamp a client picks from those of the replicas, and when it is the one of
     rank f + 1. -/

import ArchipelagoHotStuff.Crypto.Wire
import ArchipelagoHotStuff.General.Sorting
import ArchipelagoHotStuff.General.Transition
import Mathlib.Data.List.Induction
import Mathlib.Logic.Function.Basic

set_option autoImplicit false
set_option relaxedAutoImplicit false

namespace ArchipelagoHotStuff.Archipelago.Median

open Crypto.Wire General.Sorting General.Transition

/-- What the handler uses of a `Request`. -/
structure Request where
  orderingRtt1 : Nat
  timestamps : List Timestamp

/-- The client: the tolerated faults, the requests under way, and the `MsgOrdering2ReqCmd` sent
to all replicas so far, the latest first. -/
structure Client where
  nfaulty : Nat
  waiting : Uint256 → Option Request
  sent : List (Uint256 × Timestamp)

/-- A `MsgOrdering1RespCmd`. -/
structure Response where
  cmdHash : Uint256
  timestampUs : Timestamp

/-- A client that has sent some commands and received nothing. -/
def Client.start (nfaulty : Nat) (cmds : List Uint256) : Client :=
  { nfaulty, waiting := fun h => if h ∈ cmds then some ⟨0, []⟩ else none, sent := [] }

/-- `client_ordering1_resp_cmd_handler`; there is no value to read beyond the timestamps. -/
def Client.onOrdering1Response (std : Sorter (id : Timestamp → Timestamp)) (c : Client)
    (msg : Response) : Option Client :=
  match c.waiting msg.cmdHash with
  | none => some c
  | some req =>
      let rtt := req.orderingRtt1 + 1
      let timestamps := req.timestamps ++ [msg.timestampUs]
      if rtt ≠ c.nfaulty * 2 + 1 then
        some { c with waiting := Function.update c.waiting msg.cmdHash (some ⟨rtt, timestamps⟩) }
      else
        let timestamps := std.sort timestamps
        match timestamps[c.nfaulty + 1]? with
        | none => none
        | some median =>
            some { c with
              waiting := Function.update c.waiting msg.cmdHash (some ⟨rtt, timestamps⟩)
              sent := (msg.cmdHash, median) :: c.sent }

def Client.receive (std : Sorter (id : Timestamp → Timestamp)) (msgs : List Response)
    (c : Client) : Option Client :=
  execute (Client.onOrdering1Response std) msgs c

/-- The timestamps of the responses to a command, in order of arrival. -/
def responses (h : Uint256) (msgs : List Response) : List Timestamp :=
  (msgs.filter (fun m => m.cmdHash = h)).map Response.timestampUs

def Client.answers (c : Client) (h : Uint256) : List Timestamp :=
  (c.sent.filter (fun p => p.1 = h)).map Prod.snd

/-- One timestamp is broadcast for the command: the one of rank `nfaulty`, counted from zero, of
the first `2 * nfaulty + 1`.  It lies between timestamps of correct replicas whenever no more than
`nfaulty` of these are of faulty ones. -/
def MedianOk (std : Sorter (id : Timestamp → Timestamp)) (nfaulty : Nat)
    (cmds : List Uint256) (msgs : List Response) (h : Uint256) : Prop :=
  ∃ c v, (Client.start nfaulty cmds).receive std msgs = some c ∧ c.answers h = [v] ∧
    HasRank ((responses h msgs).take (2 * nfaulty + 1)) nfaulty v ∧
    ∀ good bad, ((responses h msgs).take (2 * nfaulty + 1)).Perm (good ++ bad) →
      bad.length ≤ nfaulty → (∃ g ∈ good, g ≤ v) ∧ ∃ g ∈ good, v ≤ g

section handler

variable {std : Sorter (id : Timestamp → Timestamp)} {nfaulty : Nat} {cmds : List Uint256}
  {msgs : List Response} {c c' : Client} {h : Uint256} {msg : Response}

/-- The state of one request after some responses: all of them counted and kept until there are
enough, and then the timestamp of rank `nfaulty + 1` broadcast. -/
structure RequestOk (nfaulty : Nat) (c : Client) (h : Uint256) (received : List Timestamp) :
    Prop where
  counted : ∃ req, c.waiting h = some req ∧ req.orderingRtt1 = received.length ∧
    (received.length < 2 * nfaulty + 1 → req.timestamps = received)
  early : received.length < 2 * nfaulty + 1 → c.answers h = []
  enough : 2 * nfaulty + 1 ≤ received.length →
    ∃ v, c.answers h = [v] ∧ HasRank (received.take (2 * nfaulty + 1)) (nfaulty + 1) v

private theorem RequestOk.of_ne {received : List Timestamp} (hok : RequestOk nfaulty c h received)
    (hwaiting : c'.waiting h = c.waiting h) (hanswers : c'.answers h = c.answers h) :
    RequestOk nfaulty c' h received := by
  refine ⟨?_, ?_, ?_⟩
  · rw [hwaiting]
    exact hok.counted
  · rw [hanswers]
    exact hok.early
  · rw [hanswers]
    exact hok.enough

theorem answers_cons_self (v : Timestamp) (w : Uint256 → Option Request) :
    ({ c with waiting := w, sent := (h, v) :: c.sent } : Client).answers h = v :: c.answers h := by
  simp [Client.answers]

theorem answers_cons_ne {k : Uint256} (hne : k ≠ h) (v : Timestamp)
    (w : Uint256 → Option Request) :
    ({ c with waiting := w, sent := (k, v) :: c.sent } : Client).answers h = c.answers h := by
  simp [Client.answers, hne]

/-- With at least one tolerated fault, a response is handled and keeps all requests in order. -/
theorem response_ok (std : Sorter (id : Timestamp → Timestamp)) (msg : Response)
    (hpos : 1 ≤ nfaulty) (hn : c.nfaulty = nfaulty)
    (hok : ∀ k ∈ cmds, RequestOk nfaulty c k (responses k msgs))
    (hnone : ∀ k, k ∉ cmds → c.waiting k = none) :
    ∃ c', c.onOrdering1Response std msg = some c' ∧ c'.nfaulty = nfaulty ∧
      (∀ k ∈ cmds, RequestOk nfaulty c' k (responses k (msgs ++ [msg]))) ∧
      ∀ k, k ∉ cmds → c'.waiting k = none := by
  subst hn
  have hresp : ∀ k, responses k (msgs ++ [msg]) =
      if msg.cmdHash = k then responses k msgs ++ [msg.timestampUs] else responses k msgs := by
    intro k
    unfold responses
    rw [List.filter_append, List.map_append]
    by_cases hk : msg.cmdHash = k
    · simp [hk]
    · simp [hk]
  by_cases hmem : msg.cmdHash ∈ cmds
  swap
  · have hw := hnone _ hmem
    refine ⟨c, ?_, rfl, fun k hk => ?_, hnone⟩
    · unfold Client.onOrdering1Response
      rw [hw]
    · have hne : msg.cmdHash ≠ k := fun heq => hmem (heq ▸ hk)
      rw [hresp, if_neg hne]
      exact hok k hk
  have hself := hok _ hmem
  obtain ⟨req, hw, hrtt, hts⟩ := hself.counted
  have hlength : (responses msg.cmdHash msgs ++ [msg.timestampUs]).length =
      (responses msg.cmdHash msgs).length + 1 := by simp
  unfold Client.onOrdering1Response
  rw [hw]
  dsimp only
  have hkeep : ∀ (w : Option Request) k, k ≠ msg.cmdHash →
      Function.update c.waiting msg.cmdHash w k = c.waiting k :=
    fun w k hne => Function.update_of_ne hne w c.waiting
  by_cases hlast : req.orderingRtt1 + 1 ≠ c.nfaulty * 2 + 1
  · rw [if_pos hlast]
    refine ⟨_, rfl, rfl, fun k hk => ?_, fun k hk => ?_⟩
    · by_cases hkm : msg.cmdHash = k
      · subst hkm
        rw [hresp, if_pos rfl]
        refine ⟨⟨_, Function.update_self _ _ _, ?_, fun hlt => ?_⟩, fun hlt => ?_, fun hge => ?_⟩
        · rw [hlength, hrtt]
        · rw [hts (by omega)]
        · exact hself.early (by omega)
        · obtain ⟨v, hv, hrank⟩ := hself.enough (by omega)
          refine ⟨v, hv, ?_⟩
          rw [List.take_append_of_le_length (by omega)]
          exact hrank
      · rw [hresp, if_neg hkm]
        exact (hok k hk).of_ne (hkeep _ k (fun heq => hkm heq.symm)) rfl
    · have hne : k ≠ msg.cmdHash := fun heq => hk (heq ▸ hmem)
      exact (hkeep _ k hne).trans (hnone k hk)
  · rw [if_neg hlast]
    have hall : (responses msg.cmdHash msgs).length = 2 * c.nfaulty := by
      have hcount := not_not.mp hlast
      omega
    have hts' : req.timestamps = responses msg.cmdHash msgs := hts (by omega)
    generalize hsorted : std.sort (req.timestamps ++ [msg.timestampUs]) = sorted
    have hperm : sorted.Perm (responses msg.cmdHash msgs ++ [msg.timestampUs]) := by
      rw [← hsorted, ← hts']
      exact std.perm _
    have hpair : sorted.Pairwise (· ≤ ·) := hsorted ▸ std.sorted _
    have hlt : c.nfaulty + 1 < sorted.length := by
      rw [hperm.length_eq, hlength, hall]
      omega
    have hget : sorted[c.nfaulty + 1]? = some sorted[c.nfaulty + 1] :=
      List.getElem?_eq_getElem hlt
    rw [hget]
    have hrank := (hasRank_of_sorted hpair hget).perm hperm
    refine ⟨_, rfl, rfl, fun k hk => ?_, fun k hk => ?_⟩
    · by_cases hkm : msg.cmdHash = k
      · subst hkm
        rw [hresp, if_pos rfl]
        refine ⟨⟨_, Function.update_self _ _ _, ?_, fun hless => ?_⟩, fun hless => ?_, fun _ => ?_⟩
        · rw [hlength, hrtt]
        · omega
        · omega
        · refine ⟨sorted[c.nfaulty + 1], ?_, ?_⟩
          · rw [answers_cons_self, hself.early (by omega)]
          · rw [List.take_of_length_le (by omega)]
            exact hrank
      · rw [hresp, if_neg hkm]
        exact (hok k hk).of_ne (hkeep _ k (fun heq => hkm heq.symm)) (answers_cons_ne hkm _ _)
    · have hne : k ≠ msg.cmdHash := fun heq => hk (heq ▸ hmem)
      exact (hkeep _ k hne).trans (hnone k hk)

theorem receive_ok (std : Sorter (id : Timestamp → Timestamp)) (hpos : 1 ≤ nfaulty)
    (cmds : List Uint256) (msgs : List Response) :
    ∃ c, (Client.start nfaulty cmds).receive std msgs = some c ∧ c.nfaulty = nfaulty ∧
      (∀ k ∈ cmds, RequestOk nfaulty c k (responses k msgs)) ∧
      ∀ k, k ∉ cmds → c.waiting k = none := by
  induction msgs using List.reverseRecOn with
  | nil =>
      refine ⟨_, rfl, rfl, fun k hk => ⟨⟨⟨0, []⟩, if_pos hk, rfl, fun _ => rfl⟩, fun _ => rfl,
        fun hge => ?_⟩, fun k hk => if_neg hk⟩
      exact absurd hge (Nat.not_succ_le_zero _)
  | append_singleton msgs msg ih =>
      obtain ⟨c, hrun, hn, hok, hnone⟩ := ih
      obtain ⟨c', hstep, hrest⟩ := response_ok std msg hpos hn hok hnone
      refine ⟨c', ?_, hrest⟩
      unfold Client.receive at hrun ⊢
      rw [execute_append, hrun]
      show (Client.onOrdering1Response std c msg).bind (execute _ []) = some c'
      rw [hstep]
      rfl

/-- Without tolerated faults, the first response to a command is one timestamp, and the handler
reads the second. -/
theorem receive_zero (hmem : h ∈ cmds) (hresp : responses h msgs ≠ []) :
    (Client.start 0 cmds).receive std msgs = none := by
  unfold Client.receive
  induction msgs with
  | nil => exact absurd rfl hresp
  | cons msg msgs ih =>
      by_cases hk : msg.cmdHash ∈ cmds
      · have hshort : (std.sort [msg.timestampUs])[1]? = none := by
          rw [List.getElem?_eq_none_iff, (std.perm _).length_eq]
          exact le_rfl
        have hstep : (Client.start 0 cmds).onOrdering1Response std msg = none := by
          unfold Client.onOrdering1Response Client.start
          simp [hk, hshort]
        unfold execute
        rw [hstep]
        rfl
      · have hstep : (Client.start 0 cmds).onOrdering1Response std msg =
            some (Client.start 0 cmds) := by
          unfold Client.onOrdering1Response Client.start
          simp [hk]
        have hne : msg.cmdHash ≠ h := fun heq => hk (heq ▸ hmem)
        have hrest : responses h (msg :: msgs) = responses h msgs := by
          simp [responses, hne]
        unfold execute
        rw [hstep]
        rw [hrest] at hresp
        exact ih hresp

/-- What is broadcast is the timestamp of rank `nfaulty` exactly if some fault is tolerated and
the timestamps of ranks `nfaulty` and `nfaulty + 1` agree. -/
theorem medianOk_iff (std : Sorter (id : Timestamp → Timestamp)) (hmem : h ∈ cmds)
    (hmany : 2 * nfaulty + 1 ≤ (responses h msgs).length) :
    MedianOk std nfaulty cmds msgs h ↔
      1 ≤ nfaulty ∧ ∃ v, HasRank ((responses h msgs).take (2 * nfaulty + 1)) nfaulty v ∧
        HasRank ((responses h msgs).take (2 * nfaulty + 1)) (nfaulty + 1) v := by
  constructor
  · rintro ⟨c, v, hrun, hanswer, hrank, _⟩
    have hpos : 1 ≤ nfaulty := by
      by_contra hzero
      obtain rfl : nfaulty = 0 := by omega
      have hne : responses h msgs ≠ [] := by
        intro hnil
        rw [hnil] at hmany
        exact absurd hmany (Nat.not_succ_le_zero _)
      rw [receive_zero hmem hne] at hrun
      cases hrun
    refine ⟨hpos, v, hrank, ?_⟩
    obtain ⟨c', hrun', _, hok, _⟩ := receive_ok std hpos cmds msgs
    obtain ⟨v', hanswer', hrank'⟩ := (hok h hmem).enough hmany
    rw [hrun] at hrun'
    cases hrun'
    rw [hanswer] at hanswer'
    cases hanswer'
    exact hrank'
  · rintro ⟨hpos, v, hrank, hrank'⟩
    obtain ⟨c, hrun, _, hok, _⟩ := receive_ok std hpos cmds msgs
    obtain ⟨w, hanswer, hw⟩ := (hok h hmem).enough hmany
    have hwv : w = v := hw.unique hrank'
    rw [hwv] at hanswer
    refine ⟨c, v, hrun, hanswer, hrank, fun good bad hperm hbad => ?_⟩
    exact hrank.between_good hperm hbad (List.length_take_of_le hmany)

/-- Two of three replicas agree. -/
theorem medianOk_agreeing :
    MedianOk (.insertion id) 1 [1] [⟨1, 10⟩, ⟨1, 20⟩, ⟨1, 20⟩] 1 := by
  refine (medianOk_iff (.insertion id) (List.mem_singleton.mpr rfl) (by decide)).mpr
    ⟨le_rfl, 20, ⟨?_, ?_, ?_⟩, ⟨?_, ?_, ?_⟩⟩ <;> decide

/-- Of the timestamps 10, 20 and 30 the last is broadcast, although the replica it is from may be
faulty; and without tolerated faults the handler reads out of bounds. -/
theorem third_timestamp_broadcast :
    ((Client.start 1 [1]).receive (.insertion id) [⟨1, 10⟩, ⟨1, 20⟩, ⟨1, 30⟩]).map
        (fun c => c.answers 1) = some [30] ∧
      ¬ MedianOk (.insertion id) 1 [1] [⟨1, 10⟩, ⟨1, 20⟩, ⟨1, 30⟩] 1 ∧
      ((Client.start 0 [1]).receive (.insertion id) [⟨1, 10⟩]).isNone = true := by
  have hanswer : ((Client.start 1 [1]).receive (.insertion id)
      [⟨1, 10⟩, ⟨1, 20⟩, ⟨1, 30⟩]).map (fun c => c.answers 1) = some [30] := by decide +kernel
  refine ⟨hanswer, ?_, by decide +kernel⟩
  rintro ⟨c, v, hrun, hv, _, hbetween⟩
  rw [hrun] at hanswer
  have hsame : [v] = [30] := hv.symm.trans (Option.some.inj hanswer)
  obtain rfl : v = 30 := List.singleton_inj.mp hsame
  have hsplit : (responses 1 [⟨1, 10⟩, ⟨1, 20⟩, ⟨1, 30⟩]).take (2 * 1 + 1) = [10, 20] ++ [30] := by
    simp [responses]
  obtain ⟨_, g, hg, hle⟩ := hbetween [10, 20] [30] (.of_eq hsplit) le_rfl
  rcases List.mem_pair.mp hg with rfl | rfl
  · exact absurd hle (by decide)
  · exact absurd hle (by decide)

end handler

end ArchipelagoHotStuff.Archipelago.Median
