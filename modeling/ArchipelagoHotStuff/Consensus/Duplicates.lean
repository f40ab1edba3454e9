/- Module: ArchipelagoHotStuff/Consensus/Duplicates
   source: consensus.cpp (update, on_receive_proposal, on_receive_vote)
   digest: A message handled for the second time in a row changes nothing and shows nothing, as
     every early return of the first time is taken again. -/

import ArchipelagoHotStuff.Consensus.HighTail
import ArchipelagoHotStuff.Consensus.Stages

set_option autoImplicit false
set_option relaxedAutoImplicit false

namespace ArchipelagoHotStuff.Consensus.Duplicates

open Crypto.Wire Crypto.Certificates State Handlers Effects Consensus.Tree Trails Machine CommitLog
open HighTail Stages VoteCount General.Transition

variable {K : Secp256k1} {env : Env K} {c c' c₁ c₂ d : HotStuffCore K} {h : Uint256}
  {prop : Proposal} {opinion : Bool} {e : Exn}

/-- Callbacks that run while a message is handled and do not propose. -/
def Passive : Input K → Prop
  | .wait _ | .resume => True
  | .fetch _ | .deliver _ | .propose _ _ _ | .receiveProposal _ | .receiveVote _ => False

/-- A replica of which only the callbacks of the message at hand run. -/
def passive (env : Env K) : System (Replica K) (Input K) where
  init _ := True
  step r i r' := Passive i ∧ r.step env i = some r'

/-- The message is handled to its end, and no callback proposes. -/
def Handles (env : Env K) (r : Replica K) (i : Input K) (s : Replica K) : Prop :=
  ∃ r', r.step env i = some r' ∧ Steps (passive env) r' s ∧ s.stack = []

def waiting (c : HotStuffCore K) (w : Finset Uint256) : HotStuffCore K := { c with qcWaiting := w }

/-- Nothing has happened but that other blocks may be waited for: blocks, registers, tails and
the list of events are the same. -/
def Unmoved (c c' : HotStuffCore K) : Prop := ∃ w, c' = waiting c w

/-! Callbacks. -/

section callbacks

theorem asyncQcFinish_eq (c : HotStuffCore K) (h : Uint256) :
    ∃ w, c.asyncQcFinish h = waiting c w := by
  unfold HotStuffCore.asyncQcFinish
  split
  · exact ⟨c.qcWaiting, rfl⟩
  · exact ⟨insert h c.qcWaiting, rfl⟩

theorem onQcFinish_eq (c : HotStuffCore K) (h : Uint256) :
    ∃ woken w, c.onQcFinish h = (woken, waiting c w) := by
  unfold HotStuffCore.onQcFinish
  split
  · exact ⟨true, c.qcWaiting.erase h, rfl⟩
  · exact ⟨false, c.qcWaiting, rfl⟩

theorem noteProposal_waiting (c : HotStuffCore K) (w : Finset Uint256) (h : Uint256) :
    (waiting c w).noteProposal h = waiting (c.noteProposal h) w := by
  have hanc : (waiting c w).checkAncestry (waiting c w).hqc.1 h = c.checkAncestry c.hqc.1 h :=
    checkAncestry_congr (fun _ => rfl)
  unfold HotStuffCore.noteProposal
  rw [hanc]
  show (if c.checkAncestry c.hqc.1 h && decide ((c.blk c.hqcTail).height < (c.blk h).height) then
    ({ waiting c w with hqcTail := h } : HotStuffCore K) else waiting c w) = _
  split <;> rfl

theorem castVote_waiting (c : HotStuffCore K) (w : Finset Uint256) (prop : Proposal)
    (opinion : Bool) :
    (waiting c w).castVote prop opinion = waiting (c.castVote prop opinion) w := by
  unfold HotStuffCore.castVote
  show (if opinion && !c.voteDisabled then _ else _) = _
  split <;> rfl

theorem finish_waiting (c : HotStuffCore K) (w : Finset Uint256) (prop : Proposal)
    (opinion : Bool) : ((waiting c w).noteProposal prop.blk).castVote prop opinion =
      waiting ((c.noteProposal prop.blk).castVote prop opinion) w := by
  rw [noteProposal_waiting, castVote_waiting]

theorem passive_idle {s : Replica K} (hsteps : Steps (passive env) ⟨c, []⟩ s) :
    ∃ w, s = ⟨waiting c w, []⟩ := by
  refine Steps.invariant (I := fun s => ∃ w, s = ⟨waiting c w, []⟩) hsteps ⟨c.qcWaiting, rfl⟩ ?_
  rintro s i s' ⟨w, rfl⟩ ⟨hpassive, hstep⟩
  cases i with
  | wait k =>
      cases hstep
      obtain ⟨w', hw'⟩ := asyncQcFinish_eq (waiting c w) k
      exact ⟨w', by rw [hw']; rfl⟩
  | resume => cases hstep
  | _ => exact absurd hpassive id

/-- A proposal that has woken a waiter is handled to its end, or still waits for that. -/
theorem passive_received {s : Replica K}
    (hsteps : Steps (passive env) ⟨c, [.received prop opinion]⟩ s) :
    (∃ w, s = ⟨waiting c w, [.received prop opinion]⟩) ∨
      ∃ w, s = ⟨waiting ((c.noteProposal prop.blk).castVote prop opinion) w, []⟩ := by
  refine Steps.invariant (I := fun s => (∃ w, s = ⟨waiting c w, [.received prop opinion]⟩) ∨
    ∃ w, s = ⟨waiting ((c.noteProposal prop.blk).castVote prop opinion) w, []⟩) hsteps
    (.inl ⟨c.qcWaiting, rfl⟩) ?_
  rintro s i s' hs ⟨hpassive, hstep⟩
  cases i with
  | wait k =>
      cases hstep
      rcases hs with ⟨w, rfl⟩ | ⟨w, rfl⟩
      · obtain ⟨w', hw'⟩ := asyncQcFinish_eq (waiting c w) k
        exact .inl ⟨w', by rw [hw']; rfl⟩
      · obtain ⟨w', hw'⟩ :=
          asyncQcFinish_eq (waiting ((c.noteProposal prop.blk).castVote prop opinion) w) k
        exact .inr ⟨w', by rw [hw']; rfl⟩
  | resume =>
      rcases hs with ⟨w, rfl⟩ | ⟨w, rfl⟩
      · cases hstep
        exact .inr ⟨w, congrArg (Replica.mk · []) (finish_waiting c w prop opinion)⟩
      · cases hstep
  | _ => exact absurd hpassive id

end callbacks

/-! Handling a proposal. -/

theorem onReceiveProposal_ok {woken : Bool}
    (hres : c.onReceiveProposal env prop = .ok (opinion, woken, c')) :
    (c.blk prop.blk).delivered = true ∧ ∃ c₁ c₂ w, c.update env prop.blk = .ok c₁ ∧
      c₁.decideVote prop.blk = .ok (opinion, c₂) ∧ c' = waiting c₂ w := by
  unfold HotStuffCore.onReceiveProposal at hres
  split at hres
  swap
  · cases hres
  rename_i hd
  refine ⟨hd, ?_⟩
  simp only [bind, Except.bind] at hres
  cases hup : c.update env prop.blk with
  | error x =>
      rw [hup] at hres
      cases hres
  | ok c₁ =>
      rw [hup] at hres
      dsimp only at hres
      cases hvote : c₁.decideVote prop.blk with
      | error x =>
          rw [hvote] at hres
          cases hres
      | ok x =>
          obtain ⟨o, c₂⟩ := x
          rw [hvote] at hres
          dsimp only at hres
          cases hq : (c₂.blk prop.blk).qcRef with
          | none =>
              rw [hq] at hres
              cases hres
              exact ⟨c₁, c', c'.qcWaiting, rfl, hvote, rfl⟩
          | some q =>
              obtain ⟨woken', w, hfin⟩ := onQcFinish_eq c₂ q
              rw [hq] at hres
              dsimp only at hres
              rw [hfin] at hres
              cases hres
              exact ⟨c₁, c₂, w, rfl, hvote, rfl⟩

/-- A call of `on_receive_proposal` that throws has been refused, or `update` has thrown. -/
theorem onReceiveProposal_error (hres : c.onReceiveProposal env prop = .error (e, c'))
    (hdef : e ≠ .undefinedBehaviour) :
    ((c.blk prop.blk).delivered = false ∧ e = .blockNotDelivered ∧ c' = c) ∨
      ((c.blk prop.blk).delivered = true ∧ c.update env prop.blk = .error (e, c')) := by
  unfold HotStuffCore.onReceiveProposal at hres
  split at hres
  swap
  · rename_i hd
    cases hres
    exact .inl ⟨by simpa using hd, rfl, rfl⟩
  rename_i hd
  refine .inr ⟨hd, ?_⟩
  simp only [bind, Except.bind] at hres
  cases hup : c.update env prop.blk with
  | error x =>
      rw [hup] at hres
      cases hres
      rfl
  | ok c₁ =>
      rw [hup] at hres
      dsimp only at hres
      cases hvote : c₁.decideVote prop.blk with
      | error x =>
          rw [hvote] at hres
          cases hres
          unfold HotStuffCore.decideVote at hvote
          repeat' split at hvote
          all_goals cases hvote
          exact absurd rfl hdef
      | ok x =>
          obtain ⟨o, c₂⟩ := x
          rw [hvote] at hres
          dsimp only at hres
          split at hres <;> cases hres

/-- The opinion on a block does not change for the better. -/
theorem decideVote_again (hvote : c₁.decideVote h = .ok (opinion, c₂))
    (hsame : ∀ x, d.blk x = c₁.blk x) (hlock : d.bLock = c₁.bLock)
    (hheight : d.vheight = c₂.vheight) : d.decideVote h = .ok (false, d) := by
  have hwalk : ∀ floor, d.descend floor h = c₁.descend floor h := by
    intro floor
    unfold HotStuffCore.descend
    rw [hsame]
    exact HotStuffCore.walk_congr (fun x => by rw [hsame]) (fun x => by rw [hsame]) _ _ _
  have hlive : d.qcAboveLock h = c₁.qcAboveLock h := by
    simp only [HotStuffCore.qcAboveLock, hsame, hlock]
  have hdone : (d.blk h).height ≤ d.vheight → d.decideVote h = .ok (false, d) := by
    intro hlow
    unfold HotStuffCore.decideVote
    rw [if_pos hlow]
  unfold HotStuffCore.decideVote at hvote
  split at hvote
  · rename_i hlow
    cases hvote
    exact hdone (by rw [hsame, hheight]; exact hlow)
  split at hvote
  · cases hvote
    exact hdone (by rw [hsame, hheight]; exact le_rfl)
  rename_i hlow hoff
  split at hvote
  · cases hvote
  · rename_i queue b hdesc
    split at hvote
    · cases hvote
      exact hdone (by rw [hsame, hheight]; exact le_rfl)
    · rename_i hb
      cases hvote
      unfold HotStuffCore.decideVote
      rw [hlive, if_neg hoff, hwalk, hlock, hsame c₁.bLock, hdesc]
      simp [hb]

/-- The pacemaker has nothing to note about a block. -/
def Noted (c : HotStuffCore K) (h : Uint256) : Prop :=
  c.checkAncestry c.hqc.1 h = true → (c.blk h).height ≤ (c.blk c.hqcTail).height

theorem Noted.noteProposal (hn : Noted c h) : c.noteProposal h = c := by
  unfold HotStuffCore.noteProposal
  rw [if_neg]
  rw [Bool.and_eq_true, decide_eq_true_eq]
  exact fun hcond => Nat.not_lt.mpr (hn hcond.1) hcond.2

theorem noted_noteProposal (c : HotStuffCore K) (h : Uint256) : Noted (c.noteProposal h) h := by
  have hanc : ∀ d : HotStuffCore K, (∀ x, d.blk x = c.blk x) → d.hqc = c.hqc →
      d.checkAncestry d.hqc.1 h = c.checkAncestry c.hqc.1 h :=
    fun d hblk hhqc => by rw [hhqc, checkAncestry_congr hblk]
  unfold HotStuffCore.noteProposal
  cases hb : c.checkAncestry c.hqc.1 h && decide ((c.blk c.hqcTail).height < (c.blk h).height) with
  | false =>
      intro hcond
      rw [if_neg Bool.false_ne_true] at hcond ⊢
      rw [hcond, Bool.true_and, decide_eq_false_iff_not] at hb
      exact Nat.le_of_not_lt hb
  | true =>
      rw [if_pos rfl]
      exact fun _ => le_rfl

theorem Noted.congr (hn : Noted c h) (hblk : ∀ x, d.blk x = c.blk x) (hhqc : d.hqc = c.hqc)
    (htail : d.hqcTail = c.hqcTail) : Noted d h := by
  intro hcond
  rw [hhqc, checkAncestry_congr hblk] at hcond
  rw [hblk, hblk, htail]
  exact hn hcond

theorem finish_spec (c : HotStuffCore K) (prop : Proposal) (opinion : Bool) :
    ((c.noteProposal prop.blk).castVote prop opinion).storage = c.storage ∧
      ((c.noteProposal prop.blk).castVote prop opinion).hqc = c.hqc ∧
      ((c.noteProposal prop.blk).castVote prop opinion).bLock = c.bLock ∧
      ((c.noteProposal prop.blk).castVote prop opinion).bExec = c.bExec ∧
      ((c.noteProposal prop.blk).castVote prop opinion).vheight = c.vheight ∧
      Noted ((c.noteProposal prop.blk).castVote prop opinion) prop.blk := by
  have hcast : ∀ d : HotStuffCore K, (d.castVote prop opinion).storage = d.storage ∧
      registers (d.castVote prop opinion) = registers d := by
    intro d
    unfold HotStuffCore.castVote
    split <;> exact ⟨rfl, rfl⟩
  have hnote : (c.noteProposal prop.blk).storage = c.storage ∧
      (c.noteProposal prop.blk).hqc = c.hqc ∧ (c.noteProposal prop.blk).bLock = c.bLock ∧
      (c.noteProposal prop.blk).bExec = c.bExec ∧
      (c.noteProposal prop.blk).vheight = c.vheight := by
    unfold HotStuffCore.noteProposal
    split <;> exact ⟨rfl, rfl, rfl, rfl, rfl⟩
  have hnoted := noted_noteProposal c prop.blk
  generalize c.noteProposal prop.blk = d at hnote hnoted ⊢
  obtain ⟨hstorage, hregs⟩ := hcast d
  have hhqc : (d.castVote prop opinion).hqc = d.hqc := congrArg Registers.hqc hregs
  refine ⟨hstorage.trans hnote.1, hhqc.trans hnote.2.1,
    (congrArg Registers.bLock hregs).trans hnote.2.2.1,
    (congrArg Registers.bExec hregs).trans hnote.2.2.2.1,
    (congrArg Registers.vheight hregs).trans hnote.2.2.2.2,
    hnoted.congr (fun x => ?_) hhqc (congrArg Registers.hqcTail hregs)⟩
  unfold HotStuffCore.blk
  rw [hstorage]

/-! A proposal is handled to its end. -/

theorem handles_proposal {r s : Replica K} (hr : Handles env r (.receiveProposal prop) s) :
    r.stack = [] ∧
      ((∃ opinion woken c w, r.core.onReceiveProposal env prop = .ok (opinion, woken, c) ∧
        s = ⟨waiting ((c.noteProposal prop.blk).castVote prop opinion) w, []⟩) ∨
      ∃ e c w, r.core.onReceiveProposal env prop = .error (e, c) ∧ e ≠ .undefinedBehaviour ∧
        s = ⟨waiting (c.emit (.threw e)) w, []⟩) := by
  obtain ⟨r', hstep, hpassive, hidle⟩ := hr
  simp only [Replica.step] at hstep
  split at hstep
  swap
  · cases hstep
  rename_i hempty
  refine ⟨List.isEmpty_iff.mp hempty, ?_⟩
  cases hres : r.core.onReceiveProposal env prop with
  | error x =>
      obtain ⟨e, c⟩ := x
      rw [hres] at hstep
      simp only [Replica.throw] at hstep
      split at hstep
      · cases hstep
      · rename_i hdef
        cases hstep
        obtain ⟨w, rfl⟩ := passive_idle hpassive
        exact .inr ⟨e, c, w, rfl, hdef, rfl⟩
  | ok x =>
      obtain ⟨opinion, woken, c⟩ := x
      rw [hres] at hstep
      refine .inl ⟨opinion, woken, c, ?_⟩
      cases woken with
      | true =>
          cases hstep
          rcases passive_received hpassive with ⟨w, rfl⟩ | ⟨w, rfl⟩
          · cases hidle
          · exact ⟨w, rfl, rfl⟩
      | false =>
          cases hstep
          obtain ⟨w, rfl⟩ := passive_idle hpassive
          exact ⟨w, rfl, rfl⟩

theorem exists_handles {woken : Bool}
    (hres : c.onReceiveProposal env prop = .ok (opinion, woken, c')) :
    ∃ s, Handles env ⟨c, []⟩ (.receiveProposal prop) s := by
  cases woken with
  | true =>
      refine ⟨Replica.finishReceive c' prop opinion [], ⟨c', [.received prop opinion]⟩, ?_,
        .single ⟨.resume, trivial, rfl⟩, rfl⟩
      simp only [Replica.step, List.isEmpty_nil, if_true, hres]
  | false =>
      refine ⟨Replica.finishReceive c' prop opinion [], _, ?_, .refl, rfl⟩
      simp [Replica.step, hres]

theorem exists_handles_error (hres : c.onReceiveProposal env prop = .error (e, c'))
    (hdef : e ≠ .undefinedBehaviour) :
    ∃ s, Handles env ⟨c, []⟩ (.receiveProposal prop) s := by
  refine ⟨⟨c'.emit (.threw e), []⟩, _, ?_, .refl, rfl⟩
  simp [Replica.step, hres, Replica.throw, hdef]

theorem decideVote_spares (hvote : c₁.decideVote h = .ok (opinion, c₂)) :
    c₂.storage = c₁.storage ∧ c₂.hqc = c₁.hqc ∧ c₂.bLock = c₁.bLock := by
  unfold HotStuffCore.decideVote at hvote
  repeat' split at hvote
  all_goals cases hvote
  all_goals exact ⟨rfl, rfl, rfl⟩

theorem onReceiveProposal_again {woken : Bool} (htree : TreeOk env c) (hok : CommitOk env c)
    (hres : c.onReceiveProposal env prop = .ok (opinion, woken, c')) (w : Finset Uint256) :
    ∃ woken' w', (waiting ((c'.noteProposal prop.blk).castVote prop opinion) w).onReceiveProposal
        env prop = .ok (false, woken',
          waiting ((c'.noteProposal prop.blk).castVote prop opinion) w') ∧
      Noted (waiting ((c'.noteProposal prop.blk).castVote prop opinion) w) prop.blk := by
  obtain ⟨hd, c₁, c₂, w₀, hup, hvote, rfl⟩ := onReceiveProposal_ok hres
  obtain ⟨hsettled, htarget⟩ := settled_of_update htree hok hup
  have hd₁ := (grows_of_trail (update_ok hd hup).1).delivered hd
  obtain ⟨hstorage₂, hhqc₂, hlock₂⟩ := decideVote_spares hvote
  obtain ⟨hstorage, hhqc, hlock, _, hheight, hnoted⟩ :=
    finish_spec (waiting c₂ w₀) prop opinion
  generalize ((waiting c₂ w₀).noteProposal prop.blk).castVote prop opinion = d
    at hstorage hhqc hlock hheight hnoted ⊢
  have hblk : ∀ x, (waiting d w).blk x = c₁.blk x := by
    intro x
    show (d.storage x).getD _ = _
    rw [hstorage]
    show (c₂.storage x).getD _ = _
    rw [hstorage₂]
    rfl
  have hdec : Decides c₁ (waiting d w) :=
    ⟨fun x => by rw [hblk], fun x hx => by rw [hblk]; exact hx⟩
  have hlock' : (waiting d w).bLock = c₁.bLock := hlock.trans hlock₂
  have hup' := update_of_settled
    (hsettled.congr hdec (congrArg Prod.fst (hhqc.trans hhqc₂)) hlock')
    ((target_congr env hblk).trans htarget)
  have hvote' := decideVote_again hvote hblk hlock' hheight
  have hfin : ∀ q, ∃ woken' w', (waiting d w).onQcFinish q = (woken', waiting d w') := by
    intro q
    obtain ⟨woken', w', hq⟩ := onQcFinish_eq (waiting d w) q
    exact ⟨woken', w', hq⟩
  have hd' : ((waiting d w).blk prop.blk).delivered = true := by
    rw [hblk]
    exact hd₁
  have hnoted' : Noted (waiting d w) prop.blk := hnoted.congr (fun _ => rfl) rfl rfl
  generalize hA : waiting d w = A at hup' hvote' hfin hd' hnoted' ⊢
  unfold HotStuffCore.onReceiveProposal
  rw [if_pos hd']
  simp only [bind, Except.bind, hup', hvote']
  cases hq : (A.blk prop.blk).qcRef with
  | none => exact ⟨false, w, by rw [hA]; rfl, hnoted'⟩
  | some q =>
      obtain ⟨woken', w', hq'⟩ := hfin q
      refine ⟨woken', w', ?_, hnoted'⟩
      dsimp only
      rw [hq']
      rfl

theorem onReceiveProposal_error_again (hres : c.onReceiveProposal env prop = .error (e, c'))
    (hdef : e ≠ .undefinedBehaviour) (w : Finset Uint256) :
    (waiting (c'.emit (.threw e)) w).onReceiveProposal env prop =
      .error (e, waiting (c'.emit (.threw e)) w) := by
  have hblk : ∀ x, (waiting (c'.emit (.threw e)) w).blk x = c'.blk x := fun _ => rfl
  have hdec : Decides c' (waiting (c'.emit (.threw e)) w) := ⟨fun _ => rfl, fun _ => id⟩
  have hexec : (waiting (c'.emit (.threw e)) w).bExec = c'.bExec := rfl
  have hhqc : (waiting (c'.emit (.threw e)) w).hqc.1 = c'.hqc.1 := rfl
  have hlock : (waiting (c'.emit (.threw e)) w).bLock = c'.bLock := rfl
  generalize waiting (c'.emit (.threw e)) w = A at hblk hdec hexec hhqc hlock ⊢
  rcases onReceiveProposal_error hres hdef with ⟨hd, rfl, rfl⟩ | ⟨hd, hup⟩
  · unfold HotStuffCore.onReceiveProposal
    rw [hblk, hd]
    rfl
  · obtain ⟨hsettled, b, htarget, hcommit⟩ := update_error_again hup
    have hd' : (A.blk prop.blk).delivered = true := by
      rw [hblk]
      exact (grows_of_trail (update_error hd hup).1).delivered hd
    have hdesc : A.descend (A.blk A.bExec).height b = c'.descend (c'.blk c'.bExec).height b := by
      unfold HotStuffCore.descend
      rw [hexec, hblk, hblk]
      exact HotStuffCore.walk_congr (fun x => by rw [hblk]) (fun x => by rw [hblk]) _ _ _
    have hcommit' : A.commit b = .error (e, A) := by
      unfold HotStuffCore.commit
      rw [hdesc, hexec]
      rcases (commit_error hcommit).2 with ⟨hnone, rfl⟩ | ⟨queue, x, hsome, hne, rfl⟩
      · rw [hnone]
      · rw [hsome]
        simp [hne]
    have hup' : A.update env prop.blk = .error (e, A) := by
      rw [update_eq, target_congr env hblk, htarget, (hsettled.congr hdec hhqc hlock).raised]
      exact hcommit'
    unfold HotStuffCore.onReceiveProposal
    rw [if_pos hd']
    simp only [bind, Except.bind, hup']

/-! Handling a vote. -/

def after : BoolResult K → HotStuffCore K
  | .ok r => r.2
  | .error r => r.2

/-- A vote for a delivered block has been counted then, or has come too late. -/
theorem vote_counted (vote : Vote K) (hd : (c.blk vote.blkHash).delivered = true) :
    ((after (c.onReceiveVote vote)).blk vote.blkHash).delivered = true ∧
      ((after (c.onReceiveVote vote)).config.nmajority ≤
          ((after (c.onReceiveVote vote)).blk vote.blkHash).voted.card ∨
        vote.voter ∈ ((after (c.onReceiveVote vote)).blk vote.blkHash).voted) := by
  have hs := isSome_of_delivered hd
  unfold HotStuffCore.onReceiveVote
  rw [if_pos hd]
  dsimp only
  split
  · rename_i hmany
    exact ⟨hd, .inl hmany⟩
  split
  · rename_i hold
    exact ⟨hd, .inr hold⟩
  split
  · simp only [after, c.blk_modifyBlk_self hs]
    exact ⟨hd, .inr (Finset.mem_insert_self _ _)⟩
  · rename_i qc _
    rw [HotStuffCore.modifyBlk_modifyBlk]
    dsimp only
    split
    · obtain ⟨woken, w, hfin⟩ := onQcFinish_eq ((c.modifyBlk vote.blkHash (fun b =>
        { b with voted := insert vote.voter b.voted, selfQc := some qc })).emit
          (.quorum vote.blkHash qc) |>.updateHqc vote.blkHash qc) vote.blkHash
      rw [hfin]
      simp only [after]
      show (((HotStuffCore.updateHqc _ _ _).blk _).delivered = true) ∧
        (_ ≤ ((HotStuffCore.updateHqc _ _ _).blk _).voted.card ∨
          _ ∈ ((HotStuffCore.updateHqc _ _ _).blk _).voted)
      rw [blk_updateHqc, HotStuffCore.blk_emit, c.blk_modifyBlk_self hs]
      exact ⟨hd, .inr (Finset.mem_insert_self _ _)⟩
    · simp only [after, c.blk_modifyBlk_self hs]
      exact ⟨hd, .inr (Finset.mem_insert_self _ _)⟩

theorem onReceiveVote_counted {vote : Vote K} (hd : (c.blk vote.blkHash).delivered = true)
    (hcounted : c.config.nmajority ≤ (c.blk vote.blkHash).voted.card ∨
      vote.voter ∈ (c.blk vote.blkHash).voted) : c.onReceiveVote vote = .ok (false, c) := by
  unfold HotStuffCore.onReceiveVote
  rw [if_pos hd]
  dsimp only
  split
  · rfl
  · rename_i hfew
    rw [if_pos (hcounted.resolve_left hfew)]

theorem handles_vote {r s : Replica K} {vote : Vote K} (hr : Handles env r (.receiveVote vote) s) :
    r.stack = [] ∧ ∃ w,
      s = match r.core.onReceiveVote vote with
        | .ok (_, c) => ⟨waiting c w, []⟩
        | .error (e, c) => ⟨waiting (c.emit (.threw e)) w, []⟩ := by
  obtain ⟨r', hstep, hpassive, _⟩ := hr
  simp only [Replica.step] at hstep
  split at hstep
  swap
  · cases hstep
  rename_i hempty
  refine ⟨List.isEmpty_iff.mp hempty, ?_⟩
  cases hres : r.core.onReceiveVote vote with
  | error x =>
      obtain ⟨e, c⟩ := x
      rw [hres] at hstep
      simp only [Replica.throw] at hstep
      split at hstep
      · cases hstep
      · cases hstep
        exact passive_idle hpassive
  | ok x =>
      rw [hres] at hstep
      cases hstep
      exact passive_idle hpassive

/-! Twice in a row. -/

section twice

variable {config : ReplicaConfig K} {id : ReplicaID} {key : K.PrivKey} {voteDisabled : Bool}
  {r : Replica K}

/-- A proposal or a vote that has been handled, with callbacks that propose nothing, can be
handled again, and then nothing happens; if handling it has thrown, it throws again and nothing
else happens. -/
theorem duplicates_ignored (h : Reachable (machine env config id key voteDisabled) r) :
    (∀ prop s, Handles env r (.receiveProposal prop) s →
      (∃ s', Handles env s (.receiveProposal prop) s') ∧
      ∀ s', Handles env s (.receiveProposal prop) s' →
        match r.core.onReceiveProposal env prop with
        | .ok _ => Unmoved s.core s'.core
        | .error (e, _) => Unmoved (s.core.emit (.threw e)) s'.core) ∧
    ∀ vote s, Handles env r (.receiveVote vote) s →
      (∃ s', Handles env s (.receiveVote vote) s') ∧
      ∀ s', Handles env s (.receiveVote vote) s' →
        if (r.core.blk vote.blkHash).delivered then Unmoved s.core s'.core
        else Unmoved (s.core.emit (.threw .blockNotDelivered)) s'.core := by
  have htree := (replicaOk_of_reachable h).tree
  have hcommit := commitOk_of_reachable h
  refine ⟨fun prop s hs => ?_, fun vote s hs => ?_⟩
  · obtain ⟨_, ⟨opinion, woken, c, w, hres, rfl⟩ | ⟨e, c, w, hres, hdef, rfl⟩⟩ :=
      handles_proposal hs
    · obtain ⟨woken', w', hagain, hnoted⟩ := onReceiveProposal_again htree hcommit hres w
      refine ⟨exists_handles hagain, fun s' hs' => ?_⟩
      rw [hres]
      obtain ⟨_, ⟨opinion', _, c', w'', hres', rfl⟩ | ⟨_, _, _, hres', _⟩⟩ := handles_proposal hs'
      · rw [hagain] at hres'
        cases hres'
        refine ⟨w'', ?_⟩
        generalize (c.noteProposal prop.blk).castVote prop opinion = d at hnoted
        have hnoted' : Noted (waiting d w') prop.blk := hnoted.congr (fun _ => rfl) rfl rfl
        show waiting (((waiting d w').noteProposal prop.blk).castVote prop false) w'' = _
        rw [hnoted'.noteProposal]
        rfl
      · rw [hagain] at hres'
        cases hres'
    · have hagain := onReceiveProposal_error_again hres hdef w
      refine ⟨exists_handles_error hagain hdef, fun s' hs' => ?_⟩
      rw [hres]
      obtain ⟨_, ⟨_, _, _, _, hres', _⟩ | ⟨e', c', w', hres', _, rfl⟩⟩ := handles_proposal hs'
      · rw [hagain] at hres'
        cases hres'
      · rw [hagain] at hres'
        cases hres'
        exact ⟨w', rfl⟩
  · obtain ⟨_, w, hend⟩ := handles_vote hs
    cases hd : (r.core.blk vote.blkHash).delivered with
    | false =>
        -- The vote has been refused, and is refused again.
        have hrefused : ∀ c : HotStuffCore K, (c.blk vote.blkHash).delivered = false →
            c.onReceiveVote vote = .error (.blockNotDelivered, c) := by
          intro c hc
          unfold HotStuffCore.onReceiveVote
          rw [if_neg (by rw [hc]; exact Bool.false_ne_true)]
        have hidle : s.stack = [] ∧ (s.core.blk vote.blkHash).delivered = false := by
          rw [hrefused _ hd] at hend
          subst hend
          exact ⟨rfl, hd⟩
        have hagain := hrefused s.core hidle.2
        refine ⟨⟨⟨s.core.emit (.threw .blockNotDelivered), []⟩, _, ?_, .refl, rfl⟩,
          fun s' hs' => ?_⟩
        · simp [Replica.step, hagain, hidle.1, Replica.throw]
        · obtain ⟨_, w', hend'⟩ := handles_vote hs'
          rw [hagain] at hend'
          subst hend'
          exact ⟨w', rfl⟩
    | true =>
        obtain ⟨hd', hcounted⟩ := vote_counted vote hd
        have hagain : s.core.onReceiveVote vote = .ok (false, s.core) ∧ s.stack = [] := by
          cases hres : r.core.onReceiveVote vote with
          | ok x =>
              rw [hres] at hend hd' hcounted
              subst hend
              exact ⟨onReceiveVote_counted hd' hcounted, rfl⟩
          | error x =>
              rw [hres] at hend hd' hcounted
              subst hend
              exact ⟨onReceiveVote_counted hd' hcounted, rfl⟩
        refine ⟨⟨⟨s.core, []⟩, _, ?_, .refl, rfl⟩, fun s' hs' => ?_⟩
        · simp [Replica.step, hagain.1, hagain.2]
        · obtain ⟨_, w', hend'⟩ := handles_vote hs'
          rw [hagain.1] at hend'
          subst hend'
          exact ⟨w', rfl⟩

end twice

/-! A proposal that a replica votes for. -/

/-- Replica 0 of four with block 1 of replica 1 delivered, before and after the proposal. -/
def deliveredPeer : Replica clearScheme :=
  (execute (Replica.step (clearEnv false))
    [.fetch ⟨[0], [1], QuorumCert.create peerConfig 0, []⟩, .deliver 1]
    ⟨.start (clearEnv false) peerConfig 0 (0 : Nat) false, []⟩).get (by decide +kernel)

def firstProposal : Proposal := ⟨1, 1⟩

def votedPeer : Replica clearScheme :=
  (deliveredPeer.step (clearEnv false) (.receiveProposal firstProposal)).get (by decide +kernel)

theorem deliveredPeer_reachable :
    Reachable (machine (clearEnv false) peerConfig 0 (0 : Nat) false) deliveredPeer :=
  reachable_of_execute (Option.some_get _).symm

/-- The replica has voted, and hearing of the proposal again does nothing. -/
theorem duplicates_ignored_voted : .partCert 1 ∈ votedPeer.core.trace ∧
    ∃ s', Handles (clearEnv false) votedPeer (.receiveProposal firstProposal) s' ∧
      Unmoved votedPeer.core s'.core := by
  have hhandles : Handles (clearEnv false) deliveredPeer (.receiveProposal firstProposal)
      votedPeer :=
    ⟨votedPeer, (Option.some_get _).symm, .refl, List.isEmpty_iff.mp (by decide +kernel)⟩
  obtain ⟨⟨s', hs'⟩, hall⟩ :=
    (duplicates_ignored deliveredPeer_reachable).1 firstProposal votedPeer hhandles
  refine ⟨by decide +kernel, s', hs', ?_⟩
  have hreturns : (deliveredPeer.core.onReceiveProposal (clearEnv false) firstProposal).isOk =
      true := by decide +kernel
  have hend := hall s' hs'
  cases hres : deliveredPeer.core.onReceiveProposal (clearEnv false) firstProposal with
  | ok x =>
      rw [hres] at hend
      exact hend
  | error x =>
      rw [hres] at hreturns
      cases hreturns

end ArchipelagoHotStuff.Consensus.Duplicates
