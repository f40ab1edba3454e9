/- Module: ArchipelagoHotStuff/Consensus/Sending
   source: consensus.cpp (on_propose, on_receive_proposal)
   digest: What a replica sends: votes for proposals that it has handled, and blocks that it has
     announced. -/

import ArchipelagoHotStuff.Consensus.Machine

set_option autoImplicit false
set_option relaxedAutoImplicit false

namespace ArchipelagoHotStuff.Consensus.Sending

open State Handlers Effects Consensus.Tree Ballots Trails Machine Crypto.Certificates
open Crypto.Wire

variable {K : Secp256k1} {env : Env K} {c c' c'' : HotStuffCore K} {r r' : Replica K}
  {P : Effect K → Prop} {Q Q' : Proposal → Prop} {prop : Proposal} {opinion : Bool}

/-- An event by which something is sent. -/
def Sends : Event K → Prop
  | .broadcast _ | .vote _ _ => True
  | .created _ | .hqcUpdate _ | .accept _ | .partCert _ | .quorum _ _ | .consensus _ | .decide _
  | .propose _ | .threw _ => False

/-- The same replica, which has sent nothing more. -/
structure Silent (c c' : HotStuffCore K) : Prop where
  sameId : c'.id = c.id
  grows : c.trace ⊆ c'.trace
  sent : ∀ e, Sends e → e ∈ c'.trace → e ∈ c.trace

/-- Votes are for proposals with a property, which those on their way to a vote have too; what is
broadcast has been announced. -/
structure SendsOk (Q : Proposal → Prop) (r : Replica K) : Prop where
  cast : ∀ p vote, .vote p vote ∈ r.core.trace → Q ⟨p, vote.blkHash⟩
  pending : ∀ prop opinion, .received prop opinion ∈ r.stack → Q prop
  broadcast : ∀ prop, .broadcast prop ∈ r.core.trace → .propose prop.blk ∈ r.core.trace
  announced : ∀ h, .announced h ∈ r.stack → .propose h ∈ r.core.trace

theorem Silent.refl (c : HotStuffCore K) : Silent c c := ⟨rfl, fun _ => id, fun _ _ => id⟩

theorem Silent.trans (h : Silent c c') (h' : Silent c' c'') : Silent c c'' :=
  ⟨h'.sameId.trans h.sameId, fun _ he => h'.grows (h.grows he),
    fun e he hmem => h.sent e he (h'.sent e he hmem)⟩

theorem silent_cons {x : Event K} (hid : c'.id = c.id) (htrace : c'.trace = x :: c.trace)
    (hx : ¬ Sends x) : Silent c c' := by
  refine ⟨hid, fun y hy => ?_, fun y hsends hmem => ?_⟩
  · rw [htrace]
    exact List.mem_cons_of_mem _ hy
  · rw [htrace] at hmem
    refine (List.mem_cons.mp hmem).resolve_left (fun heq => ?_)
    exact hx (heq ▸ hsends)

theorem silent_apply (env : Env K) {e : Effect K} (hvote : ∀ last vote, e ≠ .sendVote last vote)
    (hbroadcast : ∀ h, e ≠ .broadcast h) : Silent c (apply env c e) := by
  refine ⟨id_apply env c, fun x hx => ?_, fun x hsends hmem => ?_⟩
  · rw [trace_eq]
    exact List.mem_append_right _ hx
  · rw [trace_eq] at hmem
    refine (List.mem_append.mp hmem).resolve_left (fun hnew => ?_)
    cases x with
    | broadcast prop =>
        rw [mem_newEvents id] at hnew
        cases e <;> simp only [eventOf, Option.some.injEq, reduceCtorEq] at hnew
        exact hbroadcast _ rfl
    | vote last vote =>
        rw [mem_newEvents id] at hnew
        cases e <;> simp only [eventOf, Option.some.injEq, reduceCtorEq] at hnew
        exact hvote _ _ rfl
    | _ => exact hsends

theorem silent_of_trail (htrail : Trail env P c c') (hvote : ∀ last vote, ¬ P (.sendVote last vote))
    (hbroadcast : ∀ h, ¬ P (.broadcast h)) : Silent c c' :=
  Trail.invariant (I := Silent c) htrail (.refl c) (fun _ _ he hd _ => hd.trans
    (silent_apply env (fun last vote heq => hvote last vote (heq ▸ he))
      (fun h heq => hbroadcast h (heq ▸ he))))

theorem silent_of_thrown (hthrown : Thrown env P r r')
    (hvote : ∀ last vote, ¬ P (.sendVote last vote)) (hbroadcast : ∀ h, ¬ P (.broadcast h)) :
    Silent r.core r'.core ∧ r'.stack = [] := by
  obtain ⟨e, c, htrail, _, rfl⟩ := hthrown
  exact ⟨(silent_of_trail htrail hvote hbroadcast).trans
    (silent_apply env (e := .throw e) nofun nofun), rfl⟩

namespace SendsOk

theorem mono (h : SendsOk Q r) (hQ : ∀ prop, Q prop → Q' prop) : SendsOk Q' r :=
  ⟨fun p vote hmem => hQ _ (h.cast p vote hmem),
    fun prop opinion hmem => hQ _ (h.pending prop opinion hmem), h.broadcast, h.announced⟩

/-- Calls that are left are no new ones, and neither is `on_propose` before it announces. -/
theorem of_silent (h : SendsOk Q r) (hs : Silent r.core r'.core)
    (hstack : ∀ f ∈ r'.stack, (∀ k, f ≠ .proposed k) → f ∈ r.stack) : SendsOk Q r' where
  cast p vote hmem := h.cast p vote (hs.sent _ trivial hmem)
  pending prop opinion hmem := h.pending prop opinion (hstack _ hmem nofun)
  broadcast prop hmem := hs.grows (h.broadcast prop (hs.sent _ trivial hmem))
  announced k hmem := hs.grows (h.announced k (hstack _ hmem nofun))

theorem of_silent_nil (h : SendsOk Q r) (hs : Silent r.core r'.core) (hnil : r'.stack = []) :
    SendsOk Q r' :=
  h.of_silent hs (fun f hmem => by rw [hnil] at hmem; cases hmem)

theorem announce {h : Uint256} {stack : List Frame} (hok : SendsOk Q r) (hs : Silent r.core c)
    (hstack : ∀ f ∈ stack, f ∈ r.stack) : SendsOk Q (Replica.announce c h stack) := by
  have hs' : Silent r.core (c.announce h) := hs.trans (silent_cons rfl rfl id)
  refine ⟨fun p vote hmem => hok.cast p vote (hs'.sent _ trivial hmem), fun prop opinion hmem => ?_,
    fun prop hmem => hs'.grows (hok.broadcast prop (hs'.sent _ trivial hmem)), fun k hmem => ?_⟩
  · exact hok.pending prop opinion (hstack _ ((List.mem_cons.mp hmem).resolve_left nofun))
  · rcases List.mem_cons.mp hmem with heq | hmem
    · cases heq
      exact List.mem_cons_self
    · exact hs'.grows (hok.announced k (hstack _ hmem))

/-- The end of `on_receive_proposal` casts the vote that its opinion calls for. -/
theorem finishReceive {stack : List Frame} (h : SendsOk Q r) (hs : Silent r.core c)
    (hstack : ∀ f ∈ stack, f ∈ r.stack) (hprop : Q prop) :
    SendsOk Q (Replica.finishReceive c prop opinion stack) := by
  have hnote : Silent c (c.noteProposal prop.blk) := by
    unfold HotStuffCore.noteProposal
    split
    · exact ⟨rfl, fun _ => id, fun _ _ => id⟩
    · exact .refl c
  have hs := hs.trans hnote
  have hstack' : ∀ f ∈ stack, (∀ k, f ≠ .proposed k) → f ∈ r.stack := fun f hmem _ => hstack f hmem
  unfold Replica.finishReceive HotStuffCore.castVote
  split
  · have hcert : Silent (c.noteProposal prop.blk)
        ((c.noteProposal prop.blk).emit (.partCert prop.blk)) := silent_cons rfl rfl id
    have hs := hs.trans hcert
    refine ⟨fun p vote hmem => ?_, fun prop' opinion' hmem => h.pending _ _ (hstack _ hmem),
      fun prop' hmem => ?_, fun k hmem => ?_⟩
    · rcases List.mem_cons.mp hmem with heq | hmem
      · cases heq
        exact hprop
      · exact h.cast p vote (hs.sent _ trivial hmem)
    · refine List.mem_cons_of_mem _ (hs.grows (h.broadcast prop' (hs.sent _ trivial ?_)))
      exact (List.mem_cons.mp hmem).resolve_left nofun
    · exact List.mem_cons_of_mem _ (hs.grows (h.announced k (hstack _ hmem)))
  · exact h.of_silent hs hstack'

theorem step {j : Input K} (h : SendsOk Q r) (hok : ReplicaOk env r)
    (hprop : ∀ prop, j = .receiveProposal prop → Q prop) (hstep : r.step env j = some r') :
    SendsOk Q r' := by
  have thrown : ∀ {P : Effect K → Prop}, Thrown env P r r' →
      (∀ last vote, ¬ P (.sendVote last vote)) → (∀ h, ¬ P (.broadcast h)) → SendsOk Q r' := by
    intro P hthrown hvote hbroadcast
    obtain ⟨hs, hnil⟩ := silent_of_thrown hthrown hvote hbroadcast
    exact h.of_silent_nil hs hnil
  cases j with
  | fetch data =>
      obtain ⟨_, rfl⟩ := step_fetch hstep
      exact h.of_silent_nil (silent_of_trail (P := fun e => e = .store data)
        (addBlk_trail (fun _ => rfl)) (fun _ _ heq => by cases heq) (fun _ heq => by cases heq)) rfl
  | deliver k =>
      obtain ⟨_, _, hthrown | ⟨c, htrail, rfl⟩⟩ := step_deliver hstep
      · exact thrown hthrown (fun _ _ => id) (fun _ => id)
      · exact h.of_silent_nil (silent_of_trail htrail (fun _ _ => id) (fun _ => id)) rfl
  | propose cmds parents extra =>
      obtain ⟨_, hthrown | ⟨c, htrail, _, ⟨_, rfl⟩ | rfl⟩⟩ :=
        step_propose (by rw [hok.certs.hqc_hash]; exact hok.certs.hqc_stored) hstep
      · exact thrown hthrown (fun _ _ => id) (fun _ => id)
      · refine h.of_silent (silent_of_trail htrail (fun _ _ => id) (fun _ => id))
          (fun f hmem hnew => ?_)
        exact (List.mem_cons.mp hmem).resolve_left (hnew _)
      · exact h.announce (silent_of_trail htrail (fun _ _ => id) (fun _ => id)) (fun _ => id)
  | receiveProposal prop =>
      obtain ⟨_, hthrown | ⟨c, opinion, _, htrail, _, rfl | rfl⟩⟩ := step_receiveProposal hstep
      · exact thrown hthrown (fun _ _ => id) (fun _ => id)
      · have hnil : SendsOk Q (⟨c, []⟩ : Replica K) :=
          h.of_silent_nil (silent_of_trail htrail (fun _ _ => id) (fun _ => id)) rfl
        refine ⟨hnil.cast, fun prop' opinion' hmem => ?_, hnil.broadcast, fun k hmem => ?_⟩
        · cases List.mem_singleton.mp hmem
          exact hprop prop rfl
        · cases List.mem_singleton.mp hmem
      · exact h.finishReceive (silent_of_trail htrail (fun _ _ => id) (fun _ => id))
          (fun _ hmem => by cases hmem) (hprop prop rfl)
  | receiveVote vote =>
      obtain ⟨_, hthrown | ⟨c, htrail, rfl⟩⟩ := step_receiveVote hstep
      · exact thrown hthrown (fun _ _ => id) (fun _ => id)
      · exact h.of_silent_nil (silent_of_trail htrail (fun _ _ => id) (fun _ => id)) rfl
  | wait k =>
      cases hstep
      have htrail : Trail env (fun e => e = .wait k) r.core (r.core.asyncQcFinish k) :=
        asyncQcFinish_trail rfl
      exact h.of_silent (silent_of_trail htrail (fun _ _ heq => by cases heq)
        (fun _ heq => by cases heq)) (fun _ hmem _ => hmem)
  | resume =>
      rcases step_resume hstep with ⟨k, stack, heq, rfl⟩ | ⟨k, stack, heq, rfl⟩ |
        ⟨prop, opinion, stack, heq, rfl⟩
      all_goals
        have hstack : ∀ f ∈ stack, f ∈ r.stack := fun f hmem =>
          heq ▸ List.mem_cons_of_mem _ hmem
      · exact h.announce (.refl _) hstack
      · refine ⟨fun p vote hmem => ?_, fun prop opinion hmem => h.pending _ _ (hstack _ hmem),
          fun prop hmem => ?_, fun k hmem => List.mem_cons_of_mem _ (h.announced k (hstack _ hmem))⟩
        · exact h.cast p vote ((List.mem_cons.mp hmem).resolve_left (fun heq => by cases heq))
        · refine List.mem_cons_of_mem _ ?_
          rcases List.mem_cons.mp hmem with hnew | hmem
          · cases hnew
            exact h.announced k (heq ▸ List.mem_cons_self)
          · exact h.broadcast prop hmem
      · exact h.finishReceive (.refl _) hstack (h.pending _ _ (heq ▸ List.mem_cons_self))

end SendsOk

theorem id_step {j : Input K} (hok : ReplicaOk env r) (hstep : r.step env j = some r') :
    r'.core.id = r.core.id :=
  Trail.invariant (I := fun d => d.id = r.core.id) (hok.step hstep).2 rfl
    (fun d _ _ hid _ => (id_apply env d).trans hid)

end ArchipelagoHotStuff.Consensus.Sending
