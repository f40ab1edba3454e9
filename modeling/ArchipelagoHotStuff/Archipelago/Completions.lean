/- Module: ArchipelagoHotStuff/Archipelago/Completions
   source: archipelago_client.cpp
   digest: The execution replies of the client next to its ordering replies, and which commands it
     counts once in both phases. -/

import ArchipelagoHotStuff.Archipelago.Quorums

set_option autoImplicit false
set_option relaxedAutoImplicit false

namespace ArchipelagoHotStuff.Archipelago.Completions

open Crypto.Wire General.Sorting General.Transition
open Execution (DummyHash)
open Batches (plainHash)
open Quorums

/-- An event of the ordering phase, a `MsgConsensusRespClientCmd`, or the counting of a command as
executed. -/
inductive Note
  | event (e : Event)
  | exec (cmdHash : Uint256)
  | executed (cmdHash : Uint256)
  deriving DecidableEq

/-- The client and what has happened at it, the latest first. -/
structure Tally where
  client : Client
  notes : List Note

/-- Whether `client_ordering_exec_resp_handler` counts the reply. -/
def counts (c : Client) (cmdHash : Uint256) : Bool :=
  (c.waitingExec.lookup cmdHash).any (fun req => req.orderingRtt3 + 1 == 1)

def fresh (c c' : Client) : List Note :=
  (c'.log.take (c'.log.length - c.log.length)).map .event

def Tally.step (hash : DummyHash) (std : Sorter (id : Timestamp → Timestamp)) (fuel : Nat)
    (t : Tally) : Input → Option Tally
  | .exec cmdHash =>
      let notes := .exec cmdHash :: t.notes
      some
        { client := t.client.onExecResponse cmdHash
          notes := if counts t.client cmdHash then .executed cmdHash :: notes else notes }
  | .ordering1 reply timestampUs =>
      (t.client.step hash std fuel (.ordering1 reply timestampUs)).map
        (fun c => ⟨c, fresh t.client c ++ t.notes⟩)
  | .ordering2 reply =>
      (t.client.step hash std fuel (.ordering2 reply)).map
        (fun c => ⟨c, fresh t.client c ++ t.notes⟩)

/-- The client with its notes, under replies of anybody at any time. -/
def tallies (hash : DummyHash) (std : Sorter (id : Timestamp → Timestamp))
    (nfaulty maxAsyncNum : Nat) (maxIterNum : Int) (cid : Fin (2 ^ 32)) : System Tally Input where
  init t := (client hash std nfaulty maxAsyncNum maxIterNum cid).init t.client ∧
    t.notes = t.client.log.map .event
  step t i t' := ∃ fuel, t.step hash std fuel i = some t'

/-! What the notes say of a command. -/

def started (h : Uint256) (notes : List Note) : Nat := notes.count (.event (.start h))

def ordered (h : Uint256) (notes : List Note) : Nat := notes.count (.event (.complete h))

def executed (h : Uint256) (notes : List Note) : Nat := notes.count (.executed h)

/-- The number of ordering2 replies since the command was requested. -/
def answers (h : Uint256) : List Note → Nat
  | [] => 0
  | .event (.start k) :: notes => if k = h then 0 else answers h notes
  | .event (.ordering2 reply) :: notes =>
      if reply.cmdHash = h ∧ .event (.start h) ∈ notes then answers h notes + 1
      else answers h notes
  | .event (.ordering1 _) :: notes | .event (.broadcast _ _) :: notes
  | .event (.complete _) :: notes | .exec _ :: notes | .executed _ :: notes => answers h notes

/-- An execution reply has arrived after `2 * nfaulty + 1` ordering2 replies. -/
def ExecAfter (nfaulty : Nat) (h : Uint256) (notes : List Note) : Prop :=
  ∃ after before, notes = after ++ .exec h :: before ∧ 2 * nfaulty + 1 ≤ answers h before

/-- Counted once in each phase and in neither map. -/
structure Settled (t : Tally) (h : Uint256) : Prop where
  ordered : ordered h t.notes = 1
  executed : executed h t.notes = 1
  waiting : t.client.waiting.lookup h = none
  waitingExec : t.client.waitingExec.lookup h = none

/-- The second and third counter of a request that waits. -/
def counters (m : Requests) (h : Uint256) : Option (Nat × Nat) :=
  (m.lookup h).map (fun req => (req.orderingRtt2, req.orderingRtt3))

/-- How far a command is: not requested, waiting for ordering2 replies, waiting for an execution
reply, counted in both phases, or requested again. -/
inductive Phase (c : Client) (h : Uint256) (notes : List Note) : Prop
  | unknown : started h notes = 0 → counters c.waiting h = none →
      c.waitingExec.lookup h = none → ordered h notes = 0 → executed h notes = 0 →
      ¬ ExecAfter c.nfaulty h notes → answers h notes = 0 → Phase c h notes
  | ordering : started h notes = 1 → counters c.waiting h = some (answers h notes, 0) →
      answers h notes < 2 * c.nfaulty + 1 → c.waitingExec.lookup h = none →
      ordered h notes = 0 → executed h notes = 0 → ¬ ExecAfter c.nfaulty h notes →
      Phase c h notes
  | executing (req : Request) : started h notes = 1 → counters c.waiting h = none →
      2 * c.nfaulty + 1 ≤ answers h notes → c.waitingExec.lookup h = some req →
      req.orderingRtt3 = 0 → ordered h notes = 1 → executed h notes = 0 →
      ¬ ExecAfter c.nfaulty h notes → Phase c h notes
  | finished : started h notes = 1 → counters c.waiting h = none →
      2 * c.nfaulty + 1 ≤ answers h notes → c.waitingExec.lookup h = none →
      ordered h notes = 1 → executed h notes = 1 → ExecAfter c.nfaulty h notes → Phase c h notes
  | repeated : 2 ≤ started h notes → Phase c h notes

section steps

variable {hash : DummyHash} {std : Sorter (id : Timestamp → Timestamp)} {c c' : Client}
  {h k : Uint256} {notes notes' : List Note} {e : Event} {reply : Reply} {nfaulty : Nat}
  {m : Requests} {req : Request}

theorem counters_insert_ne (hne : h ≠ k) : counters (m.insert k req) h = counters m h := by
  rw [counters, AList.lookup_insert_ne hne, counters]

theorem counters_insert :
    counters (m.insert h req) h = some (req.orderingRtt2, req.orderingRtt3) := by
  rw [counters, AList.lookup_insert, Option.map_some]

theorem counters_eq_none : counters m h = none ↔ m.lookup h = none := by
  rw [counters, Option.map_eq_none_iff]

theorem started_cons_ne {n : Note} (hne : n ≠ .event (.start h)) :
    started h (n :: notes) = started h notes := List.count_cons_of_ne hne

theorem ordered_cons_ne {n : Note} (hne : n ≠ .event (.complete h)) :
    ordered h (n :: notes) = ordered h notes := List.count_cons_of_ne hne

theorem executed_cons_ne {n : Note} (hne : n ≠ .executed h) :
    executed h (n :: notes) = executed h notes := List.count_cons_of_ne hne

theorem started_cons_le (n : Note) : started h notes ≤ started h (n :: notes) :=
  List.count_le_count_cons

theorem answers_ordering2 : answers h (.event (.ordering2 reply) :: notes) =
    if reply.cmdHash = h ∧ .event (.start h) ∈ notes then answers h notes + 1
    else answers h notes := rfl

theorem execAfter_cons (n : Note) : ExecAfter nfaulty h (n :: notes) ↔
    (n = .exec h ∧ 2 * nfaulty + 1 ≤ answers h notes) ∨ ExecAfter nfaulty h notes := by
  constructor
  · rintro ⟨after, before, heq, hle⟩
    cases after with
    | nil =>
        obtain ⟨rfl, rfl⟩ := List.cons.inj heq
        exact .inl ⟨rfl, hle⟩
    | cons _ after => exact .inr ⟨after, before, (List.cons.inj heq).2, hle⟩
  · rintro (⟨rfl, hle⟩ | ⟨after, before, rfl, hle⟩)
    · exact ⟨[], notes, rfl, hle⟩
    · exact ⟨n :: after, before, rfl, hle⟩

theorem execAfter_cons_ne {n : Note} (hne : n ≠ .exec h) :
    ExecAfter nfaulty h (n :: notes) ↔ ExecAfter nfaulty h notes := by
  rw [execAfter_cons]
  constructor
  · rintro (⟨rfl, _⟩ | hold)
    · exact absurd rfl hne
    · exact hold
  · exact .inr

theorem not_execAfter_cons {n : Note} (hne : n ≠ .exec h) (hnot : ¬ ExecAfter nfaulty h notes) :
    ¬ ExecAfter nfaulty h (n :: notes) :=
  fun hafter => hnot ((execAfter_cons_ne hne).mp hafter)

theorem Phase.congr (hp : Phase c h notes) (hn : c'.nfaulty = c.nfaulty)
    (hwaiting : counters c'.waiting h = counters c.waiting h)
    (hexec : c'.waitingExec.lookup h = c.waitingExec.lookup h)
    (hstarted : started h notes' = started h notes) (hordered : ordered h notes' = ordered h notes)
    (hexecuted : executed h notes' = executed h notes)
    (hanswers : answers h notes' = answers h notes)
    (hafter : ExecAfter c.nfaulty h notes' ↔ ExecAfter c.nfaulty h notes) :
    Phase c' h notes' := by
  cases hp with
  | unknown h1 h2 h3 h4 h5 h6 h7 =>
      refine .unknown ?_ ?_ ?_ ?_ ?_ ?_ ?_
      all_goals simp only [*, not_false_eq_true]
  | ordering h1 h2 h3 h4 h5 h6 h7 =>
      refine .ordering ?_ ?_ ?_ ?_ ?_ ?_ ?_
      all_goals simp only [*, not_false_eq_true]
  | executing req h1 h2 h3 h4 h5 h6 h7 h8 =>
      refine .executing req ?_ ?_ ?_ ?_ ?_ ?_ ?_ ?_
      all_goals simp only [*, not_false_eq_true]
  | finished h1 h2 h3 h4 h5 h6 h7 =>
      refine .finished ?_ ?_ ?_ ?_ ?_ ?_ ?_
      all_goals simp only [*]
  | repeated h1 => exact .repeated (by omega)

theorem Phase.note {n : Note} (hp : Phase c h notes) (hn : c'.nfaulty = c.nfaulty)
    (hwaiting : counters c'.waiting h = counters c.waiting h)
    (hexec : c'.waitingExec.lookup h = c.waitingExec.lookup h)
    (hstart : n ≠ .event (.start h)) (hcomplete : n ≠ .event (.complete h))
    (hexecuted : n ≠ .executed h) (hexecNote : n ≠ .exec h)
    (hanswers : answers h (n :: notes) = answers h notes) : Phase c' h (n :: notes) :=
  hp.congr hn hwaiting hexec (started_cons_ne hstart) (ordered_cons_ne hcomplete)
    (executed_cons_ne hexecuted) hanswers (execAfter_cons_ne hexecNote)

theorem Phase.event_ne (hp : Phase c h notes) (hn : c'.nfaulty = c.nfaulty)
    (hwaiting : counters c'.waiting h = counters c.waiting h)
    (hexec : c'.waitingExec.lookup h = c.waitingExec.lookup h) (hne : e.about ≠ h) :
    Phase c' h (.event e :: notes) := by
  refine hp.note hn hwaiting hexec ?_ ?_ nofun nofun ?_
  · rintro heq
    cases heq
    exact hne rfl
  · rintro heq
    cases heq
    exact hne rfl
  · cases e with
    | start k => exact if_neg hne
    | ordering2 reply => exact if_neg (fun hand => hne hand.1)
    | ordering1 reply => rfl
    | broadcast k t => rfl
    | complete k => rfl

theorem Phase.ordering2_ignored (hp : Phase c reply.cmdHash notes)
    (hn : c'.nfaulty = c.nfaulty)
    (hwaiting : counters c'.waiting reply.cmdHash = counters c.waiting reply.cmdHash)
    (hexec : c'.waitingExec.lookup reply.cmdHash = c.waitingExec.lookup reply.cmdHash)
    (hnone : counters c.waiting reply.cmdHash = none) :
    Phase c' reply.cmdHash (.event (.ordering2 reply) :: notes) := by
  have hstarted : started reply.cmdHash (.event (.ordering2 reply) :: notes) =
      started reply.cmdHash notes := started_cons_ne (fun h => by cases h)
  have hordered : ordered reply.cmdHash (.event (.ordering2 reply) :: notes) =
      ordered reply.cmdHash notes := ordered_cons_ne (fun h => by cases h)
  have hexecuted : executed reply.cmdHash (.event (.ordering2 reply) :: notes) =
      executed reply.cmdHash notes := executed_cons_ne (fun h => by cases h)
  have hafter : ExecAfter c.nfaulty reply.cmdHash (.event (.ordering2 reply) :: notes) ↔
      ExecAfter c.nfaulty reply.cmdHash notes := execAfter_cons_ne (fun h => by cases h)
  have hanswers : answers reply.cmdHash notes ≤
      answers reply.cmdHash (.event (.ordering2 reply) :: notes) := by
    rw [answers_ordering2]
    split
    · exact Nat.le_succ _
    · exact le_rfl
  cases hp with
  | unknown h1 h2 h3 h4 h5 h6 h7 =>
      have hnot : .event (.start reply.cmdHash) ∉ notes := List.count_eq_zero.mp h1
      have hzero : answers reply.cmdHash (.event (.ordering2 reply) :: notes) = 0 := by
        rw [answers_ordering2, if_neg (fun hand => hnot hand.2), h7]
      refine .unknown ?_ ?_ ?_ ?_ ?_ ?_ hzero
      all_goals simp only [*, not_false_eq_true]
  | ordering h1 h2 _ _ _ _ _ =>
      rw [hnone] at h2
      cases h2
  | executing req h1 h2 h3 h4 h5 h6 h7 h8 =>
      refine .executing req ?_ ?_ (by rw [hn]; omega) ?_ ?_ ?_ ?_ ?_
      all_goals simp only [*, not_false_eq_true]
  | finished h1 h2 h3 h4 h5 h6 h7 =>
      refine .finished ?_ ?_ (by rw [hn]; omega) ?_ ?_ ?_ ?_
      all_goals simp only [*]
  | repeated h1 => exact .repeated (by omega)

theorem Phase.ordering2_counted (hp : Phase c reply.cmdHash notes)
    (hreq : c.waiting.lookup reply.cmdHash = some req)
    (hmore : req.orderingRtt2 + 1 ≠ c.nfaulty * 2 + 1) :
    Phase { c with
        waiting := c.waiting.insert reply.cmdHash
          { req with orderingRtt2 := req.orderingRtt2 + 1 }
        log := .ordering2 reply :: c.log } reply.cmdHash
      (.event (.ordering2 reply) :: notes) := by
  have hcounters : counters c.waiting reply.cmdHash =
      some (req.orderingRtt2, req.orderingRtt3) := by
    rw [counters, hreq, Option.map_some]
  cases hp with
  | ordering h1 h2 h3 h4 h5 h6 h7 =>
      rw [hcounters, Option.some.injEq, Prod.mk.injEq] at h2
      have hmem : Note.event (.start reply.cmdHash) ∈ notes :=
        List.count_pos_iff.mp (by rw [show notes.count _ = 1 from h1]; exact Nat.one_pos)
      have hanswers : answers reply.cmdHash (.event (.ordering2 reply) :: notes) =
          answers reply.cmdHash notes + 1 := by
        rw [answers_ordering2, if_pos ⟨rfl, hmem⟩]
      refine .ordering ?_ ?_ ?_ h4 ?_ ?_ ?_
      · rw [started_cons_ne (fun h => by cases h), h1]
      · rw [counters_insert, hanswers, h2.1, h2.2]
      · show answers _ _ < 2 * c.nfaulty + 1
        rw [hanswers]
        omega
      · rw [ordered_cons_ne (fun h => by cases h), h5]
      · rw [executed_cons_ne (fun h => by cases h), h6]
      · exact not_execAfter_cons (fun h => by cases h) h7
  | repeated h1 => exact .repeated (h1.trans (started_cons_le _))
  | unknown _ h2 | executing _ _ h2 | finished _ h2 =>
      rw [hcounters] at h2
      cases h2

theorem Phase.ordering2_last (hp : Phase c reply.cmdHash notes)
    (hreq : c.waiting.lookup reply.cmdHash = some req)
    (hlast : req.orderingRtt2 + 1 = c.nfaulty * 2 + 1) :
    Phase { c with
        waitingExec := emplace c.waitingExec reply.cmdHash
          { req with orderingRtt2 := req.orderingRtt2 + 1 }
        waiting := c.waiting.erase reply.cmdHash
        log := .complete reply.cmdHash :: .ordering2 reply :: c.log } reply.cmdHash
      (.event (.complete reply.cmdHash) :: .event (.ordering2 reply) :: notes) := by
  have hcounters : counters c.waiting reply.cmdHash =
      some (req.orderingRtt2, req.orderingRtt3) := by
    rw [counters, hreq, Option.map_some]
  cases hp with
  | ordering h1 h2 h3 h4 h5 h6 h7 =>
      rw [hcounters, Option.some.injEq, Prod.mk.injEq] at h2
      have hmem : Note.event (.start reply.cmdHash) ∈ notes :=
        List.count_pos_iff.mp (by rw [show notes.count _ = 1 from h1]; exact Nat.one_pos)
      have hanswers : answers reply.cmdHash
          (.event (.complete reply.cmdHash) :: .event (.ordering2 reply) :: notes) =
          answers reply.cmdHash notes + 1 := by
        rw [answers, answers_ordering2, if_pos ⟨rfl, hmem⟩]
      have hexec : emplace c.waitingExec reply.cmdHash
          { req with orderingRtt2 := req.orderingRtt2 + 1 } =
          c.waitingExec.insert reply.cmdHash { req with orderingRtt2 := req.orderingRtt2 + 1 } := by
        rw [emplace, h4]
      refine .executing { req with orderingRtt2 := req.orderingRtt2 + 1 } ?_ ?_ ?_ ?_ h2.2 ?_ ?_ ?_
      · rw [started_cons_ne (fun h => by cases h), started_cons_ne (fun h => by cases h), h1]
      · rw [counters_eq_none, AList.lookup_erase]
      · show 2 * c.nfaulty + 1 ≤ answers _ _
        rw [hanswers]
        omega
      · show AList.lookup _ (emplace c.waitingExec _ _) = _
        rw [hexec, AList.lookup_insert]
      · rw [ordered, List.count_cons_self]
        exact congrArg Nat.succ ((ordered_cons_ne (fun h => by cases h)).trans h5)
      · rw [executed_cons_ne (fun h => by cases h), executed_cons_ne (fun h => by cases h), h6]
      · exact not_execAfter_cons (fun h => by cases h)
          (not_execAfter_cons (fun h => by cases h) h7)
  | repeated h1 => exact .repeated ((h1.trans (started_cons_le _)).trans (started_cons_le _))
  | unknown _ h2 | executing _ _ h2 | finished _ h2 =>
      rw [hcounters] at h2
      cases h2

theorem Phase.start (hp : Phase c h notes) (hn : c'.nfaulty = c.nfaulty)
    (hnone : c.waiting.lookup h = none)
    (hwaiting : counters c'.waiting h = some (0, 0))
    (hexec : c'.waitingExec.lookup h = c.waitingExec.lookup h) :
    Phase c' h (.event (.start h) :: notes) := by
  have hstarted : started h (.event (.start h) :: notes) = started h notes + 1 :=
    List.count_cons_self
  have hanswers : answers h (.event (.start h) :: notes) = 0 := if_pos rfl
  cases hp with
  | unknown h1 _ h3 h4 h5 h6 _ =>
      refine .ordering ?_ ?_ ?_ (hexec.trans h3) ?_ ?_ ?_
      · rw [hstarted, h1]
      · rw [hwaiting, hanswers]
      · rw [hanswers]
        exact Nat.succ_pos _
      · rw [ordered_cons_ne (fun h => by cases h), h4]
      · rw [executed_cons_ne (fun h => by cases h), h5]
      · rw [hn]
        exact not_execAfter_cons (fun h => by cases h) h6
  | ordering _ h2 _ _ _ _ _ =>
      rw [counters_eq_none.mpr hnone] at h2
      cases h2
  | executing _ h1 | finished h1 | repeated h1 => exact .repeated (by omega)

theorem Phase.exec (hp : Phase c h notes) : Phase (c.onExecResponse h) h
    (if counts c h then .executed h :: .exec h :: notes else .exec h :: notes) := by
  have hstarted : started h (.exec h :: notes) = started h notes :=
    started_cons_ne (fun h => by cases h)
  have hordered : ordered h (.exec h :: notes) = ordered h notes :=
    ordered_cons_ne (fun h => by cases h)
  have hexecuted : executed h (.exec h :: notes) = executed h notes :=
    executed_cons_ne (fun h => by cases h)
  have hignored : c.waitingExec.lookup h = none →
      c.onExecResponse h = c ∧ counts c h = false := by
    intro hnone
    constructor
    · rw [Client.onExecResponse, hnone]
    · rw [counts, hnone, Option.any_none]
  have hearly : answers h notes < 2 * c.nfaulty + 1 → ¬ ExecAfter c.nfaulty h notes →
      ¬ ExecAfter c.nfaulty h (.exec h :: notes) := by
    intro hlt hnot hafter
    rcases (execAfter_cons _).mp hafter with ⟨_, hle⟩ | hold
    · omega
    · exact hnot hold
  cases hp with
  | unknown h1 h2 h3 h4 h5 h6 h7 =>
      obtain ⟨hsame, hnot⟩ := hignored h3
      rw [hsame, hnot, if_neg Bool.false_ne_true]
      exact .unknown (hstarted.trans h1) h2 h3 (hordered.trans h4) (hexecuted.trans h5)
        (hearly (by omega) h6) h7
  | ordering h1 h2 h3 h4 h5 h6 h7 =>
      obtain ⟨hsame, hnot⟩ := hignored h4
      rw [hsame, hnot, if_neg Bool.false_ne_true]
      exact .ordering (hstarted.trans h1) h2 h3 h4 (hordered.trans h5) (hexecuted.trans h6)
        (hearly h3 h7)
  | executing req h1 h2 h3 h4 h5 h6 h7 h8 =>
      have hcounts : counts c h = true := by
        rw [counts, h4, Option.any_some, h5]
        rfl
      have hstep : c.onExecResponse h = { c with waitingExec := c.waitingExec.erase h } := by
        rw [Client.onExecResponse, h4]
        simp [h5]
      rw [hcounts, hstep, if_pos rfl]
      refine .finished ?_ h2 h3 (AList.lookup_erase _ _) ?_ ?_ ?_
      · rw [started_cons_ne (fun h => by cases h), hstarted, h1]
      · rw [ordered_cons_ne (fun h => by cases h), hordered, h6]
      · rw [executed, List.count_cons_self]
        exact congrArg Nat.succ (hexecuted.trans h7)
      · rw [execAfter_cons_ne (fun h => by cases h), execAfter_cons]
        exact .inl ⟨rfl, h3⟩
  | finished h1 h2 h3 h4 h5 h6 h7 =>
      obtain ⟨hsame, hnot⟩ := hignored h4
      rw [hsame, hnot, if_neg Bool.false_ne_true]
      exact .finished (hstarted.trans h1) h2 h3 h4 (hordered.trans h5) (hexecuted.trans h6)
        ((execAfter_cons _).mpr (.inr h7))
  | repeated h1 =>
      refine .repeated ?_
      split
      · exact (h1.trans (started_cons_le _)).trans (started_cons_le _)
      · exact h1.trans (started_cons_le _)

/-! Whole steps. -/

/-- The events of a part of a step, and what they are worth for every command. -/
def Advances (c c' : Client) : Prop :=
  ∃ es : List Event, c'.log = es ++ c.log ∧
    ∀ h notes, Phase c h notes → Phase c' h (es.map .event ++ notes)

theorem Advances.refl (c : Client) : Advances c c := ⟨[], rfl, fun _ _ hp => hp⟩

theorem Advances.trans {c'' : Client} (hfirst : Advances c c') (hthen : Advances c' c'') :
    Advances c c'' := by
  obtain ⟨es, hlog, hes⟩ := hfirst
  obtain ⟨es', hlog', hes'⟩ := hthen
  refine ⟨es' ++ es, ?_, fun h notes hp => ?_⟩
  · rw [hlog', hlog, List.append_assoc]
  · rw [List.map_append, List.append_assoc]
    exact hes' h _ (hes h notes hp)

theorem advances_trySend (hsend : c.trySend hash = some c') : Advances c c' := by
  unfold Client.trySend at hsend
  dsimp only at hsend
  split at hsend
  swap
  · cases hsend
  cases hsend
  cases hlookup : c.waiting.lookup (hash c.cid c.cnt) with
  | some req =>
      refine ⟨[], ?_, fun h notes hp => hp.congr rfl ?_ rfl rfl rfl rfl rfl Iff.rfl⟩
      · simp
      · simp only [emplace, hlookup]
  | none =>
      refine ⟨[.start (hash c.cid c.cnt)], ?_, fun h notes hp => ?_⟩
      · simp
      · have hinsert : emplace c.waiting (hash c.cid c.cnt) ⟨0, 0, 0, []⟩ =
            c.waiting.insert (hash c.cid c.cnt) ⟨0, 0, 0, []⟩ := by
          rw [emplace, hlookup]
        by_cases hh : h = hash c.cid c.cnt
        · subst hh
          refine hp.start rfl hlookup ?_ rfl
          show counters (emplace c.waiting _ _) _ = _
          rw [hinsert, counters_insert]
        · refine hp.event_ne rfl ?_ rfl (fun heq => hh heq.symm)
          show counters (emplace c.waiting _ _) _ = _
          rw [hinsert, counters_insert_ne hh]

theorem advances_sendAll {fuel : Nat} (hsend : Client.sendAll hash fuel c = some c') :
    Advances c c' := by
  induction fuel generalizing c with
  | zero => cases hsend
  | succ fuel ih =>
      unfold Client.sendAll at hsend
      split at hsend
      · cases hsend
        exact .refl _
      · rename_i d hnext
        exact (advances_trySend hnext).trans (ih hsend)

theorem advances_ordering1 {t : Timestamp} (hstep : c.onOrdering1Response std reply t = some c') :
    Advances c c' := by
  have hquiet : ∀ c' : Client, c'.nfaulty = c.nfaulty →
      (∀ h, counters c'.waiting h = counters c.waiting h) →
      (∀ h, c'.waitingExec.lookup h = c.waitingExec.lookup h) → ∀ h notes, Phase c h notes →
      Phase c' h (.event (.ordering1 reply) :: notes) := fun c' hn hw he h notes hp =>
    hp.note hn (hw h) (he h) (fun h => by cases h) (fun h => by cases h) (fun h => by cases h)
      (fun h => by cases h) rfl
  rcases onOrdering1Response_cases hstep with ⟨_, rfl⟩ | ⟨req, timestamps, hreq, hcases⟩
  · exact ⟨[.ordering1 reply], rfl, hquiet _ rfl (fun _ => rfl) (fun _ => rfl)⟩
  · have hsame : ∀ h, counters (c.waiting.insert reply.cmdHash
        { req with orderingRtt1 := req.orderingRtt1 + 1, timestamps }) h =
          counters c.waiting h := by
      intro h
      by_cases hh : h = reply.cmdHash
      · subst hh
        rw [counters_insert, counters, hreq, Option.map_some]
      · exact counters_insert_ne hh
    rcases hcases with ⟨_, rfl⟩ | ⟨_, median, rfl⟩
    · exact ⟨[.ordering1 reply], rfl, hquiet _ rfl hsame (fun _ => rfl)⟩
    · refine ⟨[.broadcast reply.cmdHash median, .ordering1 reply], rfl, fun h notes hp => ?_⟩
      have hnext := hquiet { c with
        waiting := c.waiting.insert reply.cmdHash
          { req with orderingRtt1 := req.orderingRtt1 + 1, timestamps } } rfl hsame
        (fun _ => rfl) h notes hp
      exact hnext.note rfl rfl rfl (fun h => by cases h) (fun h => by cases h)
        (fun h => by cases h) (fun h => by cases h) rfl

theorem advances_ordering2 {fuel : Nat}
    (hstep : c.onOrdering2Response hash fuel reply = some c') : Advances c c' := by
  unfold Client.onOrdering2Response at hstep
  dsimp only at hstep
  split at hstep
  · rename_i hnone
    cases hstep
    refine ⟨[.ordering2 reply], rfl, fun h notes hp => ?_⟩
    by_cases hh : h = reply.cmdHash
    · subst hh
      exact hp.ordering2_ignored rfl rfl rfl (counters_eq_none.mpr hnone)
    · exact hp.event_ne rfl rfl rfl (fun heq => hh heq.symm)
  · rename_i req hreq
    split at hstep
    · rename_i hmore
      cases hstep
      refine ⟨[.ordering2 reply], rfl, fun h notes hp => ?_⟩
      by_cases hh : h = reply.cmdHash
      · subst hh
        exact hp.ordering2_counted hreq hmore
      · exact hp.event_ne rfl (counters_insert_ne hh) rfl (fun heq => hh heq.symm)
    · rename_i hlast
      refine Advances.trans ⟨[.complete reply.cmdHash, .ordering2 reply], rfl,
        fun h notes hp => ?_⟩ (advances_sendAll hstep)
      by_cases hh : h = reply.cmdHash
      · subst hh
        exact hp.ordering2_last hreq (not_not.mp hlast)
      · have hnext : Phase c h (.event (.ordering2 reply) :: notes) :=
          hp.event_ne rfl rfl rfl (fun heq => hh heq.symm)
        refine hnext.event_ne rfl ?_ ?_ (fun heq => hh heq.symm)
        · show (AList.lookup h (c.waiting.erase reply.cmdHash)).map _ = _
          rw [AList.lookup_erase_ne hh, counters]
        · show AList.lookup h (emplace c.waitingExec _ _) = _
          unfold emplace
          split
          · exact AList.lookup_insert_ne hh
          · rfl

theorem fresh_eq {es : List Event} (hlog : c'.log = es ++ c.log) :
    fresh c c' = es.map .event := by
  rw [fresh, hlog, List.length_append, Nat.add_sub_cancel, List.take_left]

theorem Phase.exec_ne (hp : Phase c h notes) (hne : h ≠ k) : Phase (c.onExecResponse k) h
    (if counts c k then .executed k :: .exec k :: notes else .exec k :: notes) := by
  have hlookup : (c.onExecResponse k).waitingExec.lookup h = c.waitingExec.lookup h := by
    unfold Client.onExecResponse
    split
    · rfl
    · dsimp only
      split
      · exact AList.lookup_insert_ne hne
      · exact AList.lookup_erase_ne hne
  have hsame : (c.onExecResponse k).nfaulty = c.nfaulty ∧
      (c.onExecResponse k).waiting = c.waiting := by
    unfold Client.onExecResponse
    split
    · exact ⟨rfl, rfl⟩
    · dsimp only
      split <;> exact ⟨rfl, rfl⟩
  have hexec : Phase (c.onExecResponse k) h (.exec k :: notes) := by
    refine hp.note hsame.1 (by rw [hsame.2]) hlookup (fun h => by cases h) (fun h => by cases h)
      (fun h => by cases h) (fun heq => ?_) rfl
    cases heq
    exact hne rfl
  split
  · refine hexec.note rfl rfl rfl (fun h => by cases h) (fun h => by cases h) (fun heq => ?_)
      (fun h => by cases h) rfl
    cases heq
    exact hne rfl
  · exact hexec

end steps

/-! Runs. -/

section runs

variable {hash : DummyHash} {std : Sorter (id : Timestamp → Timestamp)} {nfaulty maxAsyncNum : Nat}
  {maxIterNum : Int} {cid : Fin (2 ^ 32)} {t t' : Tally} {h : Uint256}

theorem phase_step {fuel : Nat} {i : Input} (hp : ∀ h, Phase t.client h t.notes)
    (hstep : t.step hash std fuel i = some t') : ∀ h, Phase t'.client h t'.notes := by
  have hadvance : ∀ c : Client, Advances t.client c →
      ∀ h, Phase c h (fresh t.client c ++ t.notes) := by
    rintro c ⟨es, hlog, hes⟩ h
    rw [fresh_eq hlog]
    exact hes h _ (hp h)
  cases i with
  | ordering1 reply timestampUs =>
      obtain ⟨c, hc, rfl⟩ := Option.map_eq_some_iff.mp hstep
      simp only [Client.step] at hc
      split at hc
      · exact hadvance c (advances_ordering1 hc)
      · cases hc
  | ordering2 reply =>
      obtain ⟨c, hc, rfl⟩ := Option.map_eq_some_iff.mp hstep
      simp only [Client.step] at hc
      split at hc
      · exact hadvance c (advances_ordering2 hc)
      · cases hc
  | exec k =>
      cases hstep
      intro h
      by_cases hh : h = k
      · subst hh
        exact (hp h).exec
      · exact (hp h).exec_ne hh

theorem phase_start (hsend : ∃ fuel, Client.sendAll hash fuel
    (.start nfaulty maxAsyncNum maxIterNum cid) = some t.client)
    (hnotes : t.notes = t.client.log.map .event) : ∀ h, Phase t.client h t.notes := by
  obtain ⟨fuel, hsend⟩ := hsend
  obtain ⟨es, hlog, hes⟩ := advances_sendAll hsend
  intro h
  have hfirst : Phase (.start nfaulty maxAsyncNum maxIterNum cid) h [] := by
    refine .unknown rfl rfl rfl rfl rfl ?_ rfl
    rintro ⟨after, before, heq, _⟩
    cases after <;> cases heq
  have hall := hes h [] hfirst
  rw [List.append_nil] at hall
  rw [hnotes, hlog]
  show Phase _ h ((es ++ []).map .event)
  rw [List.append_nil]
  exact hall

theorem phase_reachable (hr : Reachable (tallies hash std nfaulty maxAsyncNum maxIterNum cid) t) :
    t.client.nfaulty = nfaulty ∧ ∀ h, Phase t.client h t.notes := by
  refine hr.invariant
    (I := fun t => t.client.nfaulty = nfaulty ∧ ∀ h, Phase t.client h t.notes) ?_ ?_
  · rintro t ⟨⟨fuel, hsend⟩, hnotes⟩
    exact ⟨nfaulty_sendAll hsend, phase_start ⟨fuel, hsend⟩ hnotes⟩
  · rintro t i t' _ ⟨hn, hp⟩ ⟨fuel, hstep⟩
    refine ⟨?_, phase_step hp hstep⟩
    cases i with
    | exec k =>
        cases hstep
        have hexec : t.client.step hash std fuel (.exec k) = some (t.client.onExecResponse k) := rfl
        exact (nfaulty_step hexec).trans hn
    | ordering1 reply timestampUs =>
        obtain ⟨c, hc, rfl⟩ := Option.map_eq_some_iff.mp hstep
        exact (nfaulty_step hc).trans hn
    | ordering2 reply =>
        obtain ⟨c, hc, rfl⟩ := Option.map_eq_some_iff.mp hstep
        exact (nfaulty_step hc).trans hn

/-- A command that was requested once and has had ordering2 replies enough is counted once in each
phase, and is in neither map, exactly if an execution reply has arrived after those. -/
theorem settled_iff (hr : Reachable (tallies hash std nfaulty maxAsyncNum maxIterNum cid) t)
    (hstarted : started h t.notes = 1) (hanswers : 2 * nfaulty + 1 ≤ answers h t.notes) :
    Settled t h ↔ ExecAfter nfaulty h t.notes := by
  obtain ⟨rfl, hall⟩ := phase_reachable hr
  cases hall h with
  | executing req _ h2 h3 h4 _ h6 h7 h8 =>
      constructor
      · intro hsettled
        rw [hsettled.waitingExec] at h4
        cases h4
      · exact fun hafter => absurd hafter h8
  | finished _ h2 _ h4 h5 h6 h7 =>
      exact ⟨fun _ => h7, fun _ => ⟨h5, h6, counters_eq_none.mp h2, h4⟩⟩
  | unknown h1 | repeated h1 => omega
  | ordering _ _ h3 => omega

/-- The client of four replicas that has made two requests, with its notes. -/
def twoTally : Tally := ⟨twoRequests, twoRequests.log.map .event⟩

def tallyStep : Tally → Input → Option Tally := Tally.step plainHash (.insertion _) 1

theorem reachable_execute {is : List Input} (hrun : execute tallyStep is twoTally = some t) :
    Reachable (tallies plainHash (.insertion _) 1 2 2 0) t := by
  have hstep : ∀ t i t', tallyStep t i = some t' →
      (tallies plainHash (.insertion _) 1 2 2 0).step t i t' := fun _ _ _ hstep => ⟨1, hstep⟩
  have hsend : Client.sendAll plainHash 3 (.start 1 2 2 0) = some twoRequests :=
    (Option.some_get _).symm
  exact Reachable.trans (.init ⟨⟨3, hsend⟩, rfl⟩) (steps_of_execute hstep hrun)

/-- Ordering1 replies of three replicas to the first command and ordering2 replies of two. -/
def mostReplies : List Input :=
  [.ordering1 ⟨0, 2, plainHash 0 0⟩ 10, .ordering1 ⟨1, 2, plainHash 0 0⟩ 20,
    .ordering1 ⟨2, 2, plainHash 0 0⟩ 30, .ordering2 ⟨2, 6, plainHash 0 0⟩,
    .ordering2 ⟨1, 6, plainHash 0 0⟩]

/-- The execution reply comes last. -/
def settledTally : Tally :=
  (execute tallyStep (mostReplies ++ [.ordering2 ⟨3, 6, plainHash 0 0⟩, .exec (plainHash 0 0)])
    twoTally).get (by decide +kernel)

theorem settled_iff_settled :
    Settled settledTally (plainHash 0 0) ↔ ExecAfter 1 (plainHash 0 0) settledTally.notes :=
  settled_iff (reachable_execute (Option.some_get _).symm) (by decide +kernel) (by decide +kernel)

/-- The execution reply overtakes the last ordering2 reply. -/
def lostTally : Tally :=
  (execute tallyStep (mostReplies ++ [.exec (plainHash 0 0), .ordering2 ⟨3, 6, plainHash 0 0⟩])
    twoTally).get (by decide +kernel)

/-- All replies have arrived, and the command waits for an execution reply for ever. -/
theorem exec_reply_lost :
    Reachable (tallies plainHash (.insertion _) 1 2 2 0) lostTally ∧
      lostTally.notes = [.event (.complete (plainHash 0 0)),
        .event (.ordering2 ⟨3, 6, plainHash 0 0⟩), .exec (plainHash 0 0),
        .event (.ordering2 ⟨1, 6, plainHash 0 0⟩), .event (.ordering2 ⟨2, 6, plainHash 0 0⟩),
        .event (.broadcast (plainHash 0 0) 30), .event (.ordering1 ⟨2, 2, plainHash 0 0⟩),
        .event (.ordering1 ⟨1, 2, plainHash 0 0⟩), .event (.ordering1 ⟨0, 2, plainHash 0 0⟩),
        .event (.start (plainHash 0 1)), .event (.start (plainHash 0 0))] ∧
      executed (plainHash 0 0) lostTally.notes = 0 ∧
      (lostTally.client.waitingExec.lookup (plainHash 0 0)).isSome ∧
      ¬ Settled lostTally (plainHash 0 0) := by
  have hnone : executed (plainHash 0 0) lostTally.notes = 0 := by decide +kernel
  refine ⟨reachable_execute (Option.some_get _).symm, by decide +kernel, hnone,
    by decide +kernel, fun hsettled => ?_⟩
  have hone := hsettled.executed
  rw [hnone] at hone
  cases hone

end runs

end ArchipelagoHotStuff.Archipelago.Completions
