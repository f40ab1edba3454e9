/- Module: ArchipelagoHotStuff/Crypto/Pool
   source: task.h (VeriPool), crypto.h (Secp256k1VeriTask), crypto.cpp (verify), promise.hpp (all)
   digest: Verification by a pool of workers: whatever the order in which the tasks are done, the
     promise is resolved once, and when its value is that of the loop. -/

import ArchipelagoHotStuff.Crypto.Certificates
import ArchipelagoHotStuff.General.Join
import ArchipelagoHotStuff.General.Transition

set_option autoImplicit false
set_option relaxedAutoImplicit false

namespace ArchipelagoHotStuff.Crypto.Pool

open Wire Certificates Certificates.QuorumCert
open General.Join General.Transition

variable {K : Secp256k1}

/-- `Secp256k1VeriTask`. -/
structure VeriTask (K : Secp256k1) where
  msg : Uint256
  pubkey : K.PubKey
  sig : K.Sig

def VeriTask.verify (task : VeriTask K) : Bool := K.verify task.msg task.pubkey task.sig

/-- `VeriPool`: the tasks with an open promise, by their address, and where each of them is: in
the queue of the workers, with a worker, or done and in the queue of the main thread. -/
structure VeriPool (K : Secp256k1) where
  pms : AList (fun _ : Nat => VeriTask K)
  inQueue : List Nat
  working : List Nat
  outQueue : List (Nat × Bool)
  next : Nat

namespace VeriPool

def empty : VeriPool K := ⟨∅, [], [], [], 0⟩

/-- `VeriPool::verify`, with the address of the new task, which names its promise. -/
def verify (pool : VeriPool K) (task : VeriTask K) : VeriPool K × Nat :=
  ({ pool with
      pms := pool.pms.insert pool.next task
      inQueue := pool.inQueue ++ [pool.next]
      next := pool.next + 1 }, pool.next)

inductive Input (K : Secp256k1)
  | verify (task : VeriTask K)
  | dequeue (ptr : Nat)
  | enqueue (ptr : Nat)
  | resolve (ptr : Nat)

/-- One step of the pool: a new task, a worker that takes a task, a worker that is done with one,
or the handler of `out_queue`, which resolves the promise of a task.  Several workers make the
queues lose their order, so any task of a queue may be the next. -/
def step (pool : VeriPool K) : Input K → Option (VeriPool K × Option (Nat × Bool))
  | .verify task => some ((pool.verify task).1, none)
  | .dequeue ptr =>
      if ptr ∈ pool.inQueue then
        some ({ pool with
          inQueue := pool.inQueue.erase ptr
          working := ptr :: pool.working }, none)
      else none
  | .enqueue ptr =>
      if ptr ∈ pool.working then
        (pool.pms.lookup ptr).map (fun task =>
          ({ pool with
            working := pool.working.erase ptr
            outQueue := (ptr, task.verify) :: pool.outQueue }, none))
      else none
  | .resolve ptr =>
      (pool.outQueue.find? (fun done => done.1 = ptr)).map (fun done =>
        ({ pool with
          pms := pool.pms.erase ptr
          outQueue := pool.outQueue.erase done }, some done))

end VeriPool

/-- What `verify` has returned: a resolved promise, a promise that waits for tasks, or nothing,
because it threw. -/
inductive Answer
  | resolved (result : Bool)
  | all (vpm : List Nat) (join : All Bool)
  | threw (e : Exn)
  deriving DecidableEq

/-- The loop over the results; there is no value to cast in a slot that is empty. -/
def scan : List (Option Bool) → Option Bool
  | [] => some true
  | none :: _ => none
  | some false :: _ => some false
  | some true :: values => scan values

namespace Answer

def outcomes : Answer → List (Option Bool)
  | .resolved result => [some result]
  | .all _ join => join.resolved.map scan
  | .threw _ => []

def tasks : Answer → List Nat
  | .all vpm _ => vpm
  | _ => []

/-- The callback of the promise of a task, when a step resolves one. -/
def notify (answer : Answer) (out : Option (Nat × Bool)) : Answer :=
  match answer, out with
  | .all vpm join, some done =>
      match vpm.idxOf? done.1 with
      | some idx => .all vpm (join.fulfil idx done.2)
      | none => .all vpm join
  | answer, _ => answer

end Answer

/-- The task for an index of the bitmap, if the bit is set. -/
def taskAt (qc : QuorumCert K) (config : ReplicaConfig K) (i : Nat) :
    Except Exn (Option (VeriTask K)) :=
  match qc.rids.get i with
  | none => .error .undefinedBehaviour
  | some false => .ok none
  | some true =>
      match config.getPubkey (ReplicaID.ofIndex i) with
      | .error e => .error e
      | .ok pubkey =>
          match qc.sigs.lookup (ReplicaID.ofIndex i) with
          | none => .error .undefinedBehaviour
          | some sig => .ok (some ⟨qc.objHash, pubkey, sig⟩)

/-- The loop that gives the pool its tasks.  Those given before an exception stay there. -/
def submitFrom (qc : QuorumCert K) (config : ReplicaConfig K) :
    List Nat → VeriPool K → List Nat → VeriPool K × Except Exn (List Nat)
  | [], pool, vpm => (pool, .ok vpm)
  | i :: is, pool, vpm =>
      match taskAt qc config i with
      | .error e => (pool, .error e)
      | .ok none => submitFrom qc config is pool vpm
      | .ok (some task) =>
          submitFrom qc config is (pool.verify task).1 (vpm ++ [(pool.verify task).2])

/-- `verify` with a pool; `promise::all` throws when it is given no promise. -/
def verifyInPool (qc : QuorumCert K) (config : ReplicaConfig K) (pool : VeriPool K) :
    VeriPool K × Answer :=
  if qc.sigs.entries.length < config.nmajority then (pool, .resolved false)
  else
    match submitFrom qc config (List.range qc.rids.size) pool [] with
    | (pool, .error e) => (pool, .threw e)
    | (pool, .ok []) => (pool, .threw .mismatchingTypes)
    | (pool, .ok (ptr :: vpm)) => (pool, .all (ptr :: vpm) (.pending (vpm.length + 1)))

/-- The pool and the promise of one certificate; the pool is also given tasks of others. -/
def step (st : VeriPool K × Answer) (i : VeriPool.Input K) : Option (VeriPool K × Answer) :=
  (st.1.step i).map (fun moved => (moved.1, st.2.notify moved.2))

/-- The pool alone, from its construction. -/
def veriPool : System (VeriPool K) (VeriPool.Input K) where
  init pool := pool = .empty
  step pool i pool' := ∃ out, pool.step i = some (pool', out)

/-- The runs after one call of `verify` with a pool in some state. -/
def verification (qc : QuorumCert K) (config : ReplicaConfig K) (pool : VeriPool K) :
    System (VeriPool K × Answer) (VeriPool.Input K) where
  init st := st = verifyInPool qc config pool
  step st i st' := step st i = some st'

/-- What a call of `verify` with a pool comes to: an exception, or a promise that is resolved at
most once, with a result, once all of its tasks are done and not before, and that every run can
still bring there. -/
def Answers (qc : QuorumCert K) (config : ReplicaConfig K) (pool : VeriPool K) :
    Except Exn Bool → Prop
  | .error e => (verifyInPool qc config pool).2 = .threw e
  | .ok result => ∀ st, Reachable (verification qc config pool) st →
      (st.2.outcomes = [] ∨ st.2.outcomes = [some result]) ∧
      (st.2.outcomes = [some result] ↔ ∀ ptr ∈ st.2.tasks, ptr ∉ st.1.pms) ∧
      ∃ st', Steps (verification qc config pool) st st' ∧ st'.2.outcomes = [some result]

/-- The pooled verification comes to what the loop does. -/
def Agrees (qc : QuorumCert K) (config : ReplicaConfig K) (pool : VeriPool K) : Prop :=
  Answers qc config pool (qc.verify config)

/-! The pool. -/

/-- Every task is in exactly one place, and what is done has the result of its task. -/
structure PoolOk (pool : VeriPool K) : Prop where
  places : (pool.inQueue ++ pool.working ++ pool.outQueue.map Prod.fst).Perm pool.pms.keys
  fresh : ∀ ptr, ptr ∈ pool.pms → ptr < pool.next
  done : ∀ d ∈ pool.outQueue, ∃ task, pool.pms.lookup d.1 = some task ∧ d.2 = task.verify

variable {pool pool' : VeriPool K} {i : VeriPool.Input K} {out : Option (Nat × Bool)} {ptr : Nat}
  {task : VeriTask K}

theorem poolOk_empty : PoolOk (VeriPool.empty : VeriPool K) where
  places := List.Perm.refl _
  fresh _ hptr := absurd hptr (AList.notMem_empty _)
  done _ hd := by cases hd

theorem PoolOk.mem_places (hok : PoolOk pool) : ptr ∈ pool.pms ↔
    ptr ∈ pool.inQueue ∨ ptr ∈ pool.working ∨ ∃ r, (ptr, r) ∈ pool.outQueue := by
  rw [AList.mem_keys, ← hok.places.mem_iff]
  simp

theorem lookup_verify (hptr : ptr < pool.next) :
    (pool.verify task).1.pms.lookup ptr = pool.pms.lookup ptr := by
  have hne : ptr ≠ pool.next := by omega
  exact AList.lookup_insert_ne hne

theorem PoolOk.verify (hok : PoolOk pool) (task : VeriTask K) : PoolOk (pool.verify task).1 := by
  have hnew : pool.next ∉ pool.pms := fun hmem => Nat.lt_irrefl _ (hok.fresh _ hmem)
  refine ⟨?_, fun ptr hptr => ?_, fun d hd => ?_⟩
  · simp only [VeriPool.verify, AList.keys_insert]
    rw [List.erase_of_not_mem (fun hmem => hnew (AList.mem_keys.mpr hmem))]
    rw [List.append_assoc, List.append_assoc, List.singleton_append]
    refine List.perm_middle.trans (List.Perm.cons _ ?_)
    rw [← List.append_assoc]
    exact hok.places
  · rcases AList.mem_insert _ |>.mp hptr with rfl | hptr
    · exact Nat.lt_succ_self _
    · exact Nat.lt_succ_of_lt (hok.fresh ptr hptr)
  · obtain ⟨old, hold, hres⟩ := hok.done d hd
    have hlt := hok.fresh d.1 (AList.lookup_isSome.mp (Option.isSome_of_mem hold))
    exact ⟨old, (lookup_verify hlt).trans hold, hres⟩

/-- What a step can do to the tasks: one is added, one gets its promise resolved with its
result, or they stay. -/
inductive Moved (pool pool' : VeriPool K) (out : Option (Nat × Bool)) : Prop
  | added (task : VeriTask K) (hpool : pool' = (pool.verify task).1) (hout : out = none)
  | stayed (hpms : pool'.pms = pool.pms) (hnext : pool'.next = pool.next) (hout : out = none)
  | resolved (ptr : Nat) (task : VeriTask K) (htask : pool.pms.lookup ptr = some task)
      (hpms : pool'.pms = pool.pms.erase ptr) (hnext : pool'.next = pool.next)
      (hout : out = some (ptr, task.verify))

theorem moved_of_step (hok : PoolOk pool) (h : pool.step i = some (pool', out)) :
    PoolOk pool' ∧ Moved pool pool' out := by
  cases i with
  | verify task =>
      cases h
      exact ⟨hok.verify task, .added task rfl rfl⟩
  | dequeue ptr =>
      simp only [VeriPool.step] at h
      split at h
      · rename_i hmem
        cases h
        refine ⟨⟨?_, hok.fresh, hok.done⟩, .stayed rfl rfl rfl⟩
        refine List.Perm.trans (List.Perm.append_right _ ?_) hok.places
        exact List.perm_middle.trans ((List.perm_cons_erase hmem).symm.append_right _)
      · cases h
  | enqueue ptr =>
      simp only [VeriPool.step] at h
      split at h
      · rename_i hmem
        obtain ⟨task, htask, heq⟩ := Option.map_eq_some_iff.mp h
        cases heq
        refine ⟨⟨?_, hok.fresh, fun d hd => ?_⟩, .stayed rfl rfl rfl⟩
        · refine List.Perm.trans ?_ hok.places
          simp only [List.map_cons, List.append_assoc]
          refine List.Perm.append_left _ (List.perm_middle.trans ?_)
          exact (List.perm_cons_erase hmem).symm.append_right _
        · rcases List.mem_cons.mp hd with rfl | hd
          · exact ⟨task, htask, rfl⟩
          · exact hok.done d hd
      · cases h
  | resolve ptr =>
      simp only [VeriPool.step] at h
      obtain ⟨d, hfind, heq⟩ := Option.map_eq_some_iff.mp h
      cases heq
      have hd : d.1 = ptr := by simpa using List.find?_some hfind
      have hmem := List.mem_of_find?_eq_some hfind
      subst hd
      obtain ⟨task, htask, hres⟩ := hok.done d hmem
      have hkeys : (d.1 :: (pool.inQueue ++ pool.working ++
          (pool.outQueue.erase d).map Prod.fst)).Perm pool.pms.keys := by
        refine List.Perm.trans ?_ hok.places
        refine List.perm_middle.symm.trans (List.Perm.append_left _ ?_)
        exact ((List.perm_cons_erase hmem).map Prod.fst).symm
      refine ⟨⟨?_, fun ptr hptr => hok.fresh ptr (AList.mem_erase.mp hptr).2, fun d' hd' => ?_⟩,
        .resolved d.1 task htask rfl rfl (by rw [← hres])⟩
      · have herase := hkeys.erase d.1
        rw [List.erase_cons_head] at herase
        rw [AList.keys_erase]
        exact herase
      · obtain ⟨task', htask', hres'⟩ := hok.done d' (List.mem_of_mem_erase hd')
        refine ⟨task', ?_, hres'⟩
        have hne : d'.1 ≠ d.1 := by
          intro heq
          have hnodup := hkeys.nodup_iff.mpr pool.pms.keys_nodup
          refine (List.nodup_cons.mp hnodup).1 (List.mem_append_right _ ?_)
          rw [← heq]
          exact List.mem_map_of_mem hd'
        exact (AList.lookup_erase_ne hne).trans htask'

theorem poolOk_of_reachable (hr : Reachable veriPool pool) : PoolOk pool := by
  refine hr.invariant ?_ ?_
  · rintro pool rfl
    exact poolOk_empty
  · rintro pool i pool' _ hok ⟨out, hstep⟩
    exact (moved_of_step hok hstep).1

/-! A promise that waits for tasks. -/

/-- Each slot of a join is empty while its task is in the pool, and then has the result of the
task. -/
structure Waits (tasks : List (VeriTask K)) (pool : VeriPool K) (vpm : List Nat)
    (join : All Bool) : Prop where
  ok : join.Ok
  nodup : vpm.Nodup
  vpm_length : vpm.length = tasks.length
  results_length : join.results.length = tasks.length
  old : ∀ ptr ∈ vpm, ptr < pool.next
  slot : ∀ (idx : Nat) ptr task, vpm[idx]? = some ptr → tasks[idx]? = some task →
    (pool.pms.lookup ptr = some task ∧ join.results[idx]? = some none) ∨
    (ptr ∉ pool.pms ∧ join.results[idx]? = some (some task.verify))

variable {tasks : List (VeriTask K)} {vpm : List Nat} {join : All Bool} {idx : Nat}

theorem Waits.congr (hw : Waits tasks pool vpm join) (hnext : pool.next ≤ pool'.next)
    (hlookup : ∀ ptr ∈ vpm, pool'.pms.lookup ptr = pool.pms.lookup ptr) :
    Waits tasks pool' vpm join := by
  refine ⟨hw.ok, hw.nodup, hw.vpm_length, hw.results_length,
    fun ptr hptr => Nat.lt_of_lt_of_le (hw.old ptr hptr) hnext, ?_⟩
  intro idx ptr task hptr htask
  have heq := hlookup ptr (List.mem_of_getElem? hptr)
  rcases hw.slot idx ptr task hptr htask with ⟨hin, hslot⟩ | ⟨hout, hslot⟩
  · exact .inl ⟨heq.trans hin, hslot⟩
  · refine .inr ⟨?_, hslot⟩
    rw [← AList.lookup_eq_none] at hout ⊢
    exact heq.trans hout

theorem Waits.fulfil (hw : Waits tasks pool vpm join) (hptr : vpm[idx]? = some ptr)
    (hin : pool.pms.lookup ptr = some task) (hpms : pool'.pms = pool.pms.erase ptr)
    (hnext : pool'.next = pool.next) : Waits tasks pool' vpm (join.fulfil idx task.verify) := by
  have hidx : idx < tasks.length := by
    rw [← hw.vpm_length]
    exact (List.getElem?_eq_some_iff.mp hptr).1
  have hempty : tasks[idx]? = some task ∧ join.results[idx]? = some none := by
    have htask := List.getElem?_eq_getElem hidx
    rcases hw.slot idx ptr _ hptr htask with ⟨hin', hslot⟩ | ⟨hout, _⟩
    · rw [htask]
      exact ⟨hin'.symm.trans hin, hslot⟩
    · rw [AList.lookup_eq_none.mpr hout] at hin
      cases hin
  refine ⟨hw.ok.fulfil hempty.2, hw.nodup, hw.vpm_length,
    All.length_fulfil.trans hw.results_length, fun q hq => hnext ▸ hw.old q hq, ?_⟩
  intro k q t hq ht
  rw [hpms, All.get_fulfil (hw.results_length ▸ hidx)]
  by_cases hk : idx = k
  · subst hk
    rw [hptr] at hq
    cases hq
    rw [hempty.1] at ht
    cases ht
    exact .inr ⟨fun hmem => (AList.mem_erase.mp hmem).1 rfl, if_pos rfl⟩
  · have hne : q ≠ ptr := by
      rintro rfl
      obtain ⟨hlt, heq⟩ := List.getElem?_eq_some_iff.mp hptr
      obtain ⟨hlt', heq'⟩ := List.getElem?_eq_some_iff.mp hq
      exact hk ((hw.nodup.getElem_inj_iff).mp (heq.trans heq'.symm))
    rw [if_neg hk, AList.lookup_erase_ne hne, AList.mem_erase]
    rcases hw.slot k q t hq ht with hin | ⟨hout, hslot⟩
    · exact .inl hin
    · exact .inr ⟨fun hmem => hout hmem.2, hslot⟩

theorem Waits.step (hw : Waits tasks pool vpm join) (hmoved : Moved pool pool' out) :
    ∃ join', (Answer.all vpm join).notify out = .all vpm join' ∧
      Waits tasks pool' vpm join' := by
  cases hmoved with
  | added task hpool hout =>
      subst hpool hout
      exact ⟨join, rfl, hw.congr (Nat.le_succ _) (fun ptr hptr => lookup_verify (hw.old ptr hptr))⟩
  | stayed hpms hnext hout =>
      subst hout
      exact ⟨join, rfl, hw.congr (Nat.le_of_eq hnext.symm) (fun _ _ => by rw [hpms])⟩
  | resolved ptr task htask hpms hnext hout =>
      subst hout
      cases hidx : vpm.idxOf? ptr with
      | some idx =>
          refine ⟨join.fulfil idx task.verify, by simp only [Answer.notify, hidx],
            hw.fulfil ?_ htask hpms hnext⟩
          obtain ⟨hlt, hget, _⟩ := List.findIdx?_eq_some_iff_getElem.mp hidx
          rw [List.getElem?_eq_getElem hlt]
          simpa using hget
      | none =>
          refine ⟨join, by simp only [Answer.notify, hidx],
            hw.congr (Nat.le_of_eq hnext.symm) (fun q hq => ?_)⟩
          rw [hpms]
          refine AList.lookup_erase_ne ?_
          rintro rfl
          exact List.idxOf?_eq_none_iff.mp hidx hq

theorem scan_map (tasks : List (VeriTask K)) :
    scan (tasks.map (fun task => some task.verify)) = some (tasks.all VeriTask.verify) := by
  induction tasks with
  | nil => rfl
  | cons task tasks ih =>
      rw [List.map_cons, List.all_cons]
      cases task.verify with
      | false => rfl
      | true => exact ih

theorem Waits.filled_iff (hw : Waits tasks pool vpm join) :
    none ∉ join.results ↔ ∀ ptr ∈ vpm, ptr ∉ pool.pms := by
  constructor
  · intro hfilled ptr hptr
    obtain ⟨idx, hidx⟩ := List.getElem?_of_mem hptr
    have hlt : idx < tasks.length := by
      rw [← hw.vpm_length]
      exact (List.getElem?_eq_some_iff.mp hidx).1
    rcases hw.slot idx ptr _ hidx (List.getElem?_eq_getElem hlt) with ⟨_, hslot⟩ | ⟨hout, _⟩
    · exact absurd (List.mem_of_getElem? hslot) hfilled
    · exact hout
  · intro hdone hmem
    obtain ⟨idx, hidx⟩ := List.getElem?_of_mem hmem
    have hlt : idx < tasks.length := by
      rw [← hw.results_length]
      exact (List.getElem?_eq_some_iff.mp hidx).1
    have hlt' : idx < vpm.length := hw.vpm_length ▸ hlt
    rcases hw.slot idx _ _ (List.getElem?_eq_getElem hlt') (List.getElem?_eq_getElem hlt) with
      ⟨hin, _⟩ | ⟨_, hslot⟩
    · exact hdone _ (List.getElem_mem hlt') (AList.lookup_isSome.mp (Option.isSome_of_mem hin))
    · rw [hidx] at hslot
      cases hslot

theorem Waits.results_eq (hw : Waits tasks pool vpm join) (hfilled : none ∉ join.results) :
    join.results = tasks.map (fun task => some task.verify) := by
  refine List.ext_getElem? (fun idx => ?_)
  rw [List.getElem?_map]
  by_cases hlt : idx < tasks.length
  · have hlt' : idx < vpm.length := hw.vpm_length ▸ hlt
    have htask := List.getElem?_eq_getElem hlt
    rcases hw.slot idx _ _ (List.getElem?_eq_getElem hlt') htask with ⟨_, hslot⟩ | ⟨_, hslot⟩
    · exact absurd (List.mem_of_getElem? hslot) hfilled
    · rw [hslot, htask]
      rfl
  · have hlength := hw.results_length
    rw [List.getElem?_eq_none (by omega), List.getElem?_eq_none (by omega)]
    rfl

/-- The promise is resolved at most once, when all its tasks are done, with the conjunction of
their results. -/
theorem Waits.outcomes (hw : Waits tasks pool vpm join) :
    let outcomes := (Answer.all vpm join).outcomes
    (outcomes = [] ∨ outcomes = [some (tasks.all VeriTask.verify)]) ∧
      (outcomes = [some (tasks.all VeriTask.verify)] ↔ ∀ ptr ∈ vpm, ptr ∉ pool.pms) := by
  simp only [Answer.outcomes]
  rcases hw.ok.resolved_eq with hres | hres
  · have hopen : ¬ none ∉ join.results := by
      rw [← hw.ok.full_iff, hres]
      exact (List.cons_ne_nil _ _).symm
    rw [hw.filled_iff] at hopen
    rw [hres]
    exact ⟨.inl rfl, ⟨fun h => (List.cons_ne_nil _ _ h.symm).elim, fun h => absurd h hopen⟩⟩
  · have hfilled := hw.ok.full_iff.mp hres
    have hscan : join.resolved.map scan = [some (tasks.all VeriTask.verify)] := by
      rw [hres, List.map_singleton, hw.results_eq hfilled, scan_map]
    exact ⟨.inr hscan, ⟨fun _ => hw.filled_iff.mp hfilled, fun _ => hscan⟩⟩

/-! A run can always be completed. -/

variable {qc : QuorumCert K} {config : ReplicaConfig K} {pool₀ : VeriPool K}
  {st st' : VeriPool K × Answer}

theorem step_of_pool (h : pool.step i = some (pool', out)) {answer : Answer} :
    step (pool, answer) i = some (pool', answer.notify out) := by
  unfold step
  rw [h]
  rfl

theorem poolOk_of_steps (hok : PoolOk st.1) (hs : Steps (verification qc config pool₀) st st') :
    PoolOk st'.1 := by
  refine hs.invariant (I := fun st => PoolOk st.1) hok (fun st i st' hok hstep => ?_)
  obtain ⟨moved, hmoved, heq⟩ := Option.map_eq_some_iff.mp hstep
  subst heq
  exact (moved_of_step hok hmoved).1

theorem resolves_done {answer : Answer} {r : Bool} (hmem : (ptr, r) ∈ pool.outQueue) :
    ∃ st', Steps (verification qc config pool₀) (pool, answer) st' ∧
      st'.1.pms = pool.pms.erase ptr := by
  have hfind : (pool.outQueue.find? (fun d => d.1 = ptr)).isSome := by
    rw [List.find?_isSome]
    exact ⟨(ptr, r), hmem, by simp⟩
  obtain ⟨d, hd⟩ := Option.isSome_iff_exists.mp hfind
  have hstep : pool.step (.resolve ptr) =
      some ({ pool with
        pms := pool.pms.erase ptr
        outQueue := pool.outQueue.erase d }, some d) := by
    simp only [VeriPool.step, hd, Option.map_some]
  exact ⟨_, .single ⟨_, step_of_pool hstep⟩, rfl⟩

theorem resolves_working {answer : Answer} (hok : PoolOk pool) (hmem : ptr ∈ pool.working) :
    ∃ st', Steps (verification qc config pool₀) (pool, answer) st' ∧
      st'.1.pms = pool.pms.erase ptr := by
  have hin : ptr ∈ pool.pms := hok.mem_places.mpr (.inr (.inl hmem))
  obtain ⟨task, htask⟩ := Option.isSome_iff_exists.mp (AList.lookup_isSome.mpr hin)
  have hstep : pool.step (.enqueue ptr) =
      some ({ pool with
        working := pool.working.erase ptr
        outQueue := (ptr, task.verify) :: pool.outQueue }, none) := by
    simp only [VeriPool.step, if_pos hmem, htask, Option.map_some]
  obtain ⟨st', hs, hpms⟩ := resolves_done (List.mem_cons_self : (ptr, task.verify) ∈
    { pool with
      working := pool.working.erase ptr
      outQueue := (ptr, task.verify) :: pool.outQueue }.outQueue)
  exact ⟨st', .head ⟨_, step_of_pool hstep⟩ hs, hpms⟩

theorem resolves {answer : Answer} (hok : PoolOk pool) (hin : ptr ∈ pool.pms) :
    ∃ st', Steps (verification qc config pool₀) (pool, answer) st' ∧
      st'.1.pms = pool.pms.erase ptr := by
  rcases hok.mem_places.mp hin with hqueue | hworking | ⟨r, hdone⟩
  · have hstep : pool.step (.dequeue ptr) =
        some ({ pool with
          inQueue := pool.inQueue.erase ptr
          working := ptr :: pool.working }, none) := by
      simp only [VeriPool.step, if_pos hqueue]
    have hok' := (moved_of_step hok hstep).1
    obtain ⟨st', hs, hpms⟩ := resolves_working hok' List.mem_cons_self
    exact ⟨st', .head ⟨_, step_of_pool hstep⟩ hs, hpms⟩
  · exact resolves_working hok hworking
  · exact resolves_done hdone

theorem drains (qc : QuorumCert K) (config : ReplicaConfig K) (pool₀ : VeriPool K)
    (st : VeriPool K × Answer) (ptrs : List Nat) (hok : PoolOk st.1) :
    ∃ st', Steps (verification qc config pool₀) st st' ∧ (∀ ptr ∈ ptrs, ptr ∉ st'.1.pms) ∧
      ∀ ptr, ptr ∉ st.1.pms → ptr ∉ st'.1.pms := by
  induction ptrs generalizing st with
  | nil => exact ⟨st, .refl, fun _ hmem => absurd hmem List.not_mem_nil, fun _ => id⟩
  | cons p ptrs ih =>
      obtain ⟨st₁, hs₁, hp, hkeep⟩ : ∃ st₁, Steps (verification qc config pool₀) st st₁ ∧
          p ∉ st₁.1.pms ∧ ∀ ptr, ptr ∉ st.1.pms → ptr ∉ st₁.1.pms := by
        by_cases hin : p ∈ st.1.pms
        · obtain ⟨st₁, hs₁, hpms⟩ := resolves hok hin
          refine ⟨st₁, hs₁, ?_, fun ptr hout => ?_⟩ <;> rw [hpms, AList.mem_erase]
          · exact fun hmem => hmem.1 rfl
          · exact fun hmem => hout hmem.2
        · exact ⟨st, .refl, hin, fun _ => id⟩
      obtain ⟨st', hs, hrest, hkeep'⟩ := ih st₁ (poolOk_of_steps hok hs₁)
      refine ⟨st', hs₁.trans hs, fun ptr hptr => ?_, fun ptr h => hkeep' ptr (hkeep ptr h)⟩
      rcases List.mem_cons.mp hptr with rfl | hptr
      · exact hkeep' ptr hp
      · exact hrest ptr hptr

/-! What the pool is given. -/

theorem poolResults_cons {k : Nat} {is : List Nat} : qc.poolResults config (k :: is) =
    match taskAt qc config k with
    | .error e => .error e
    | .ok none => qc.poolResults config is
    | .ok (some task) => (qc.poolResults config is).map (fun rs => task.verify :: rs) := by
  simp only [poolResults, taskAt]
  cases qc.rids.get k with
  | none => rfl
  | some bit =>
      cases bit with
      | false => rfl
      | true =>
          simp only
          cases config.getPubkey (ReplicaID.ofIndex k) with
          | error e => rfl
          | ok pubkey => cases qc.sigs.lookup (ReplicaID.ofIndex k) <;> rfl

theorem submitFrom_spec (qc : QuorumCert K) (config : ReplicaConfig K) (is vpm : List Nat)
    (hok : PoolOk pool) :
    match qc.poolResults config is with
    | .error e => (submitFrom qc config is pool vpm).2 = .error e
    | .ok rs => ∃ (pool' : VeriPool K) (tasks : List (VeriTask K)),
        submitFrom qc config is pool vpm =
          (pool', .ok (vpm ++ List.range' pool.next tasks.length)) ∧
        tasks.map VeriTask.verify = rs ∧ PoolOk pool' ∧ pool'.next = pool.next + tasks.length ∧
        (∀ ptr < pool.next, pool'.pms.lookup ptr = pool.pms.lookup ptr) ∧
        ∀ (idx : Nat) task, tasks[idx]? = some task →
          pool'.pms.lookup (pool.next + idx) = some task := by
  induction is generalizing pool vpm with
  | nil => exact ⟨pool, [], by simp [submitFrom], rfl, hok, rfl, fun _ _ => rfl, by simp⟩
  | cons k is ih =>
      rw [poolResults_cons]
      simp only [submitFrom]
      cases taskAt qc config k with
      | error e => rfl
      | ok found =>
          cases found with
          | none => exact ih vpm hok
          | some task =>
              have hrest := ih (vpm ++ [(pool.verify task).2]) (hok.verify task)
              simp only
              revert hrest
              cases qc.poolResults config is with
              | error e => exact id
              | ok rs =>
                  rintro ⟨pool', tasks, heq, hmap, hok', hnext, hold, hnew⟩
                  have hnext₁ : (pool.verify task).1.next = pool.next + 1 := rfl
                  rw [hnext₁] at heq hnext hold hnew
                  refine ⟨pool', task :: tasks, ?_, by rw [List.map_cons, hmap], hok', ?_, ?_, ?_⟩
                  · rw [heq, List.length_cons, List.range'_succ, List.append_assoc]
                    rfl
                  · rw [hnext, List.length_cons]
                    omega
                  · intro ptr hptr
                    exact (hold ptr (by omega)).trans (lookup_verify hptr)
                  · rintro (_ | idx) t ht
                    · cases ht
                      exact (hold pool.next (by omega)).trans (AList.lookup_insert _)
                    · have := hnew idx t ht
                      rwa [Nat.add_right_comm] at this

/-! The loop and the tasks. -/

/-- A set bit of a replica that is not in the configuration. -/
def Unknown (qc : QuorumCert K) (config : ReplicaConfig K) (i : Nat) : Prop :=
  qc.rids.get i = some true ∧ ReplicaID.ofIndex i ∉ config.replicaMap

/-- A set bit of a configured replica whose signature is not valid. -/
def Invalid (qc : QuorumCert K) (config : ReplicaConfig K) (i : Nat) : Prop :=
  qc.rids.get i = some true ∧ ∃ pubkey sig, config.getPubkey (ReplicaID.ofIndex i) = .ok pubkey ∧
    qc.sigs.lookup (ReplicaID.ofIndex i) = some sig ∧ K.verify qc.objHash pubkey sig = false

/-- What an index of the bitmap of a well-formed certificate is to the loops. -/
inductive Found (qc : QuorumCert K) (config : ReplicaConfig K) (i : Nat) : Prop
  | skipped (htask : taskAt qc config i = .ok none) (hbit : qc.rids.get i = some false)
  | unknown (htask : taskAt qc config i = .error .ridNotFound) (hunknown : Unknown qc config i)
  | checked (task : VeriTask K) (htask : taskAt qc config i = .ok (some task))
      (hbit : qc.rids.get i = some true) (hknown : ¬ Unknown qc config i)
      (hinvalid : Invalid qc config i ↔ task.verify = false)

theorem found (config : ReplicaConfig K) (hwf : qc.Wf) {k : Nat} (hk : k < qc.rids.size) :
    Found qc config k := by
  obtain ⟨bit, hbit⟩ := hwf.readable k hk
  cases bit with
  | false => exact .skipped (by simp only [taskAt, hbit]) hbit
  | true =>
      have hmem : ReplicaID.ofIndex k ∈ qc.sigs := (hwf.mem_sigs _).mpr ⟨k, hk, hbit, rfl⟩
      obtain ⟨sig, hsig⟩ := Option.isSome_iff_exists.mp (AList.lookup_isSome.mpr hmem)
      cases hlookup : config.replicaMap.lookup (ReplicaID.ofIndex k) with
      | none =>
          refine .unknown ?_ ⟨hbit, AList.lookup_eq_none.mp hlookup⟩
          simp only [taskAt, hbit, ReplicaConfig.getPubkey, hlookup]
      | some pubkey =>
          have hkey : config.getPubkey (ReplicaID.ofIndex k) = .ok pubkey := by
            simp only [ReplicaConfig.getPubkey, hlookup]
          refine .checked ⟨qc.objHash, pubkey, sig⟩ ?_ hbit (fun h => ?_) ⟨?_, ?_⟩
          · simp only [taskAt, hbit, hkey, hsig]
          · exact h.2 (AList.lookup_isSome.mp (Option.isSome_of_mem hlookup))
          · rintro ⟨_, pubkey', sig', hkey', hsig', hfalse⟩
            rw [hkey] at hkey'
            rw [hsig] at hsig'
            cases hkey'
            cases hsig'
            exact hfalse
          · exact fun hfalse => ⟨hbit, pubkey, sig, hkey, hsig, hfalse⟩

theorem verifyFrom_cons (hwf : qc.Wf) {k : Nat} {is : List Nat} (hk : k < qc.rids.size) :
    qc.verifyFrom config (k :: is) =
      match taskAt qc config k with
      | .error e => .error e
      | .ok none => qc.verifyFrom config is
      | .ok (some task) => if task.verify then qc.verifyFrom config is else .ok false := by
  obtain ⟨bit, hbit⟩ := hwf.readable k hk
  simp only [verifyFrom, taskAt, hbit]
  cases bit with
  | false => rfl
  | true =>
      have hmem : ReplicaID.ofIndex k ∈ qc.sigs := (hwf.mem_sigs _).mpr ⟨k, hk, hbit, rfl⟩
      obtain ⟨sig, hsig⟩ := Option.isSome_iff_exists.mp (AList.lookup_isSome.mpr hmem)
      simp only [hsig]
      cases config.getPubkey (ReplicaID.ofIndex k) <;> rfl

section indices

variable {is : List Nat} (hwf : qc.Wf) (his : ∀ k ∈ is, k < qc.rids.size)

include hwf his

theorem poolResults_of_unknown {k : Nat} (hk : k ∈ is) (hunknown : Unknown qc config k) :
    qc.poolResults config is = .error .ridNotFound := by
  induction is with
  | nil => cases hk
  | cons j is ih =>
      have hrest (hne : k ≠ j) := ih (fun x hx => his x (List.mem_cons_of_mem _ hx))
        ((List.mem_cons.mp hk).resolve_left hne)
      rw [poolResults_cons]
      rcases found config hwf (his j List.mem_cons_self) with
        ⟨htask, hbit⟩ | ⟨htask, _⟩ | ⟨task, htask, _, hknown, _⟩
      · simp only [htask]
        refine hrest ?_
        rintro rfl
        rw [hunknown.1] at hbit
        cases hbit
      · simp only [htask]
      · simp only [htask]
        rw [hrest]
        · rfl
        · rintro rfl
          exact hknown hunknown

/-- With no unknown signer, the loop returns the conjunction of what the tasks return. -/
theorem results_of_known (hknown : ∀ k ∈ is, ¬ Unknown qc config k) :
    ∃ rs, qc.poolResults config is = .ok rs ∧ qc.verifyFrom config is = .ok (rs.all id) ∧
      (rs = [] ↔ ∀ k ∈ is, qc.rids.get k ≠ some true) := by
  induction is with
  | nil => exact ⟨[], rfl, rfl, by simp⟩
  | cons j is ih =>
      obtain ⟨rs, hpool, hloop, hnil⟩ := ih (fun x hx => his x (List.mem_cons_of_mem _ hx))
        (fun x hx => hknown x (List.mem_cons_of_mem _ hx))
      rw [poolResults_cons, verifyFrom_cons hwf (his j List.mem_cons_self), hpool, hloop]
      rcases found config hwf (his j List.mem_cons_self) with
        ⟨htask, hbit⟩ | ⟨htask, hunknown⟩ | ⟨task, htask, hbit, _, _⟩
      · rw [htask]
        refine ⟨rs, rfl, rfl, ?_⟩
        rw [List.forall_mem_cons, hbit, hnil]
        simp
      · exact absurd hunknown (hknown j List.mem_cons_self)
      · rw [htask]
        refine ⟨task.verify :: rs, rfl, ?_, ?_⟩
        · simp only [List.all_cons, id]
          cases task.verify <;> rfl
        · rw [List.forall_mem_cons, hbit]
          simp

/-- The loop stops at an invalid signature that no unknown signer comes before. -/
theorem verifyFrom_of_invalid (hsorted : is.Pairwise (· < ·)) {k : Nat} (hk : k ∈ is)
    (hinvalid : Invalid qc config k) (hbefore : ∀ x < k, ¬ Unknown qc config x) :
    qc.verifyFrom config is = .ok false := by
  induction is with
  | nil => cases hk
  | cons j is ih =>
      obtain ⟨hlt, hsorted⟩ := List.pairwise_cons.mp hsorted
      have hrest (hne : k ≠ j) := ih (fun x hx => his x (List.mem_cons_of_mem _ hx)) hsorted
        ((List.mem_cons.mp hk).resolve_left hne)
      rw [verifyFrom_cons hwf (his j List.mem_cons_self)]
      rcases found config hwf (his j List.mem_cons_self) with
        ⟨htask, hbit⟩ | ⟨htask, hunknown⟩ | ⟨task, htask, _, _, hiff⟩
      · simp only [htask]
        refine hrest ?_
        rintro rfl
        rw [hinvalid.1] at hbit
        cases hbit
      · rcases List.mem_cons.mp hk with rfl | hk
        · obtain ⟨_, pubkey, _, hkey, _⟩ := hinvalid
          rw [ReplicaConfig.getPubkey, AList.lookup_eq_none.mpr hunknown.2] at hkey
          cases hkey
        · exact absurd hunknown (hbefore j (hlt k hk))
      · simp only [htask]
        cases hres : task.verify with
        | false => rfl
        | true =>
            refine hrest ?_
            rintro rfl
            rw [hiff.mp hinvalid] at hres
            cases hres

/-- The loop throws when an unknown signer comes before every invalid signature. -/
theorem verifyFrom_of_unknown (hsorted : is.Pairwise (· < ·)) {k : Nat} (hk : k ∈ is)
    (hunknown : Unknown qc config k)
    (hbefore : ∀ j ∈ is, Invalid qc config j → ∃ x ∈ is, x < j ∧ Unknown qc config x) :
    qc.verifyFrom config is = .error .ridNotFound := by
  induction is with
  | nil => cases hk
  | cons j is ih =>
      obtain ⟨hlt, hsorted⟩ := List.pairwise_cons.mp hsorted
      have hrest (hknown : ¬ Unknown qc config j) :
          qc.verifyFrom config is = .error .ridNotFound := by
        refine ih (fun x hx => his x (List.mem_cons_of_mem _ hx)) hsorted ?_ ?_
        · refine (List.mem_cons.mp hk).resolve_left ?_
          rintro rfl
          exact hknown hunknown
        · intro i hi hinvalid
          obtain ⟨x, hx, hxi, hxu⟩ := hbefore i (List.mem_cons_of_mem _ hi) hinvalid
          refine ⟨x, (List.mem_cons.mp hx).resolve_left ?_, hxi, hxu⟩
          rintro rfl
          exact hknown hxu
      rw [verifyFrom_cons hwf (his j List.mem_cons_self)]
      rcases found config hwf (his j List.mem_cons_self) with
        ⟨htask, hbit⟩ | ⟨htask, _⟩ | ⟨task, htask, _, hknown, hiff⟩
      · simp only [htask]
        refine hrest (fun h => ?_)
        rw [h.1] at hbit
        cases hbit
      · simp only [htask]
      · simp only [htask]
        cases hres : task.verify with
        | true => exact hrest hknown
        | false =>
            obtain ⟨x, hx, hxj, _⟩ := hbefore j List.mem_cons_self (hiff.mpr hres)
            rcases List.mem_cons.mp hx with rfl | hx
            · exact absurd hxj (Nat.lt_irrefl x)
            · exact absurd (hlt x hx) (Nat.not_lt_of_lt hxj)

end indices

/-! Both overloads. -/

theorem answer_of_reachable {answer : Answer} (hstart : (verifyInPool qc config pool₀).2 = answer)
    (hstay : ∀ out, answer.notify out = answer)
    (hr : Reachable (verification qc config pool₀) st) : st.2 = answer := by
  refine hr.invariant (I := fun st => st.2 = answer) ?_ ?_
  · rintro st rfl
    exact hstart
  · intro st i st' _ hanswer hstep
    obtain ⟨moved, _, heq⟩ := Option.map_eq_some_iff.mp hstep
    subst heq
    exact (congrArg (Answer.notify · moved.2) hanswer).trans (hstay moved.2)

theorem waits_of_reachable {tasks : List (VeriTask K)} (hok : PoolOk pool)
    (hw : Waits tasks pool vpm join) (hstart : verifyInPool qc config pool₀ = (pool, .all vpm join))
    (hr : Reachable (verification qc config pool₀) st) :
    PoolOk st.1 ∧ ∃ join', st.2 = .all vpm join' ∧ Waits tasks st.1 vpm join' := by
  refine hr.invariant
    (I := fun st => PoolOk st.1 ∧ ∃ join', st.2 = .all vpm join' ∧ Waits tasks st.1 vpm join') ?_ ?_
  · rintro st rfl
    rw [hstart]
    exact ⟨hok, join, rfl, hw⟩
  · rintro ⟨pool, answer⟩ i st' _ ⟨hok, join', rfl, hw⟩ hstep
    obtain ⟨⟨pool', out⟩, hmoved, heq⟩ := Option.map_eq_some_iff.mp hstep
    subst heq
    obtain ⟨hok', hmoved⟩ := moved_of_step hok hmoved
    exact ⟨hok', hw.step hmoved⟩

theorem waits_pending {next : Nat} {tasks : List (VeriTask K)} (hpos : 0 < tasks.length)
    (hnext : pool.next = next + tasks.length)
    (hnew : ∀ (idx : Nat) task, tasks[idx]? = some task →
      pool.pms.lookup (next + idx) = some task) :
    Waits tasks pool (List.range' next tasks.length) (.pending tasks.length) := by
  refine ⟨All.ok_pending hpos, List.nodup_range', List.length_range', List.length_replicate,
    fun ptr hptr => ?_, fun idx ptr task hptr htask => .inl ⟨?_, ?_⟩⟩
  · have := (List.mem_range'_1.mp hptr).2
    omega
  · obtain ⟨hlt, heq⟩ := List.getElem?_eq_some_iff.mp hptr
    rw [List.getElem_range', Nat.one_mul] at heq
    rw [← heq]
    exact hnew idx task htask
  · have hlt := (List.getElem?_eq_some_iff.mp htask).1
    simp only [All.pending, List.getElem?_replicate, if_pos hlt]

theorem answers_tasks (hok : PoolOk pool) {r : Bool} {rs : List Bool}
    (hsize : ¬ qc.sigs.entries.length < config.nmajority)
    (hresults : qc.poolResults config (List.range qc.rids.size) = .ok (r :: rs)) :
    Answers qc config pool (.ok ((r :: rs).all id)) := by
  have hspec := submitFrom_spec qc config (List.range qc.rids.size) [] hok
  rw [hresults] at hspec
  obtain ⟨pool', tasks, heq, hmap, hok', hnext, _, hnew⟩ := hspec
  have hlength : tasks.length = rs.length + 1 := by
    rw [← List.length_map VeriTask.verify, hmap, List.length_cons]
  have hall : (r :: rs).all id = tasks.all VeriTask.verify := by
    rw [← hmap, List.all_map]
    rfl
  have hstart : verifyInPool qc config pool =
      (pool', .all (List.range' pool.next tasks.length) (.pending tasks.length)) := by
    rw [verifyInPool, if_neg hsize, heq, List.nil_append, hlength, List.range'_succ]
    simp only [List.length_range']
  have hw := waits_pending (by omega) hnext hnew
  rw [hall]
  rintro ⟨pool₁, answer⟩ hr
  obtain ⟨hok₁, join₁, heq₁, hw₁⟩ := waits_of_reachable hok' hw hstart hr
  cases heq₁
  obtain ⟨hresolved, hdone⟩ := hw₁.outcomes
  refine ⟨hresolved, hdone, ?_⟩
  obtain ⟨st', hs, hdrained, _⟩ := drains qc config pool (pool₁, .all _ join₁)
    (List.range' pool.next tasks.length) hok₁
  obtain ⟨_, join', heq', hw'⟩ := waits_of_reachable hok' hw hstart (hr.trans hs)
  refine ⟨st', hs, ?_⟩
  rw [heq']
  exact hw'.outcomes.2.mpr hdrained

/-- Whatever the order of the tasks, a call with a pool comes to the result of `verifyPooled`. -/
theorem answers_pooled (hok : PoolOk pool) : Answers qc config pool (qc.verifyPooled config) := by
  have hspec := submitFrom_spec qc config (List.range qc.rids.size) [] hok
  unfold verifyPooled
  split
  · rename_i hsize
    have hstart : verifyInPool qc config pool = (pool, .resolved false) := if_pos hsize
    intro st hr
    have hanswer := answer_of_reachable (congrArg Prod.snd hstart) (fun _ => rfl) hr
    rw [hanswer]
    exact ⟨.inr rfl, ⟨fun _ _ hmem => absurd hmem List.not_mem_nil, fun _ => rfl⟩, st, .refl,
      by rw [hanswer]; rfl⟩
  · rename_i hsize
    cases hresults : qc.poolResults config (List.range qc.rids.size) with
    | error e =>
        rw [hresults] at hspec
        change (verifyInPool qc config pool).2 = .threw e
        rw [verifyInPool, if_neg hsize]
        revert hspec
        generalize submitFrom qc config (List.range qc.rids.size) pool [] = submitted
        intro hspec
        obtain ⟨pool', res⟩ := submitted
        cases hspec
        rfl
    | ok rs =>
        cases rs with
        | nil =>
            rw [hresults] at hspec
            obtain ⟨pool', tasks, heq, hmap, _⟩ := hspec
            change (verifyInPool qc config pool).2 = .threw .mismatchingTypes
            rw [verifyInPool, if_neg hsize, heq, List.map_eq_nil_iff.mp hmap]
            rfl
        | cons r rs => exact answers_tasks hok hsize hresults

theorem Answers.unique {res res' : Except Exn Bool} (h : Answers qc config pool res)
    (h' : Answers qc config pool res') : res = res' := by
  have hthrew : ∀ {e result}, Answers qc config pool (.error e) →
      ¬ Answers qc config pool (.ok result) := by
    intro e result he hok
    obtain ⟨_, _, st, hs, hout⟩ := hok _ (.init rfl)
    rw [answer_of_reachable he (fun _ => rfl) ((Reachable.init rfl).trans hs)] at hout
    cases hout
  cases res with
  | error e =>
      cases res' with
      | error e' =>
          have heq : Answer.threw e = .threw e' := h.symm.trans h'
          cases heq
          rfl
      | ok result => exact absurd h' (hthrew h)
  | ok result =>
      cases res' with
      | error e => exact absurd h (hthrew h')
      | ok result' =>
          obtain ⟨_, _, st, hs, hout⟩ := h _ (.init rfl)
          obtain ⟨hor, _⟩ := h' st ((Reachable.init rfl).trans hs)
          rw [hout] at hor
          rcases hor with hor | hor
          · cases hor
          · cases hor
            rfl

/-- The certificate has too few signatures, or it has a signer, and an unknown signer, if there is
one, comes before every invalid signature. -/
def Settled (qc : QuorumCert K) (config : ReplicaConfig K) : Prop :=
  qc.sigs.entries.length < config.nmajority ∨
  (∃ i < qc.rids.size, qc.rids.get i = some true) ∧
    ∀ i < qc.rids.size, Invalid qc config i → ∀ k < qc.rids.size, Unknown qc config k →
      ∃ j < i, Unknown qc config j

theorem verify_eq_pooled_iff (hwf : qc.Wf) :
    qc.verify config = qc.verifyPooled config ↔ Settled qc config := by
  by_cases hsize : qc.sigs.entries.length < config.nmajority
  · rw [QuorumCert.verify, verifyPooled, if_pos hsize, if_pos hsize]
    exact ⟨fun _ => .inl hsize, fun _ => rfl⟩
  have his : ∀ k ∈ List.range qc.rids.size, k < qc.rids.size := fun _ => List.mem_range.mp
  rw [QuorumCert.verify, verifyPooled, if_neg hsize, if_neg hsize]
  by_cases hunknown : ∃ k < qc.rids.size, Unknown qc config k
  · -- Some signer is unknown: the pooled verification throws.
    obtain ⟨k, hk, hku⟩ := hunknown
    have hmem := List.mem_range.mpr hk
    rw [poolResults_of_unknown hwf his hmem hku]
    constructor
    · intro hloop
      refine .inr ⟨⟨k, hk, hku.1⟩, fun i hi hinvalid _ _ _ => ?_⟩
      by_contra hnone
      push Not at hnone
      rw [verifyFrom_of_invalid hwf his List.pairwise_lt_range (List.mem_range.mpr hi) hinvalid
        hnone] at hloop
      cases hloop
    · rintro (hless | ⟨_, hbefore⟩)
      · exact absurd hless hsize
      · refine verifyFrom_of_unknown hwf his List.pairwise_lt_range hmem hku ?_
        intro i hi hinvalid
        have hi := List.mem_range.mp hi
        obtain ⟨j, hji, hju⟩ := hbefore i hi hinvalid k hk hku
        exact ⟨j, List.mem_range.mpr (by omega), hji, hju⟩
  · -- All signers are known: only a certificate without any makes a difference.
    push Not at hunknown
    have hknown : ∀ k ∈ List.range qc.rids.size, ¬ Unknown qc config k :=
      fun k hk => hunknown k (List.mem_range.mp hk)
    obtain ⟨rs, hresults, hloop, hnil⟩ := results_of_known hwf his hknown
    rw [hresults, hloop]
    cases rs with
    | nil =>
        refine ⟨fun h => (nomatch h), ?_⟩
        rintro (hless | ⟨⟨i, hi, hbit⟩, _⟩)
        · exact absurd hless hsize
        · exact absurd hbit (hnil.mp rfl i (List.mem_range.mpr hi))
    | cons r rs =>
        refine ⟨fun _ => .inr ⟨?_, fun _ _ _ k hk hku => absurd hku (hunknown k hk)⟩,
          fun _ => rfl⟩
        by_contra hnone
        push Not at hnone
        exact absurd (hnil.mpr (fun k hk => hnone k (List.mem_range.mp hk))) (List.cons_ne_nil _ _)

/-- Exactly the settled certificates are verified alike with a pool and without. -/
theorem agrees_iff {s s' : DataStream} (hparse : QuorumCert.unserialize s = .ok (qc, s'))
    (hpool : Reachable veriPool pool) : Agrees qc config pool ↔ Settled qc config := by
  have hpooled : Answers qc config pool (qc.verifyPooled config) :=
    answers_pooled (poolOk_of_reachable hpool)
  rw [← verify_eq_pooled_iff (wf_of_unserialize hparse)]
  constructor
  · exact fun h => h.unique hpooled
  · intro heq
    rw [Agrees, heq]
    exact hpooled

/-- A pool that verifies the two signatures of another certificate: one is done, and a worker has
the other. -/
def busyPool : VeriPool clearScheme :=
  (execute (fun pool i => (pool.step i).map Prod.fst)
    [.verify ⟨7, (0 : Nat), ((0 : Nat), 7)⟩, .verify ⟨7, (1 : Nat), ((0 : Nat), 7)⟩, .dequeue 0,
      .enqueue 0, .dequeue 1] .empty).get (by decide +kernel)

theorem busyPool_reachable : Reachable veriPool busyPool := by
  refine Reachable.trans (.init rfl) (steps_of_execute (fun _ _ _ h => ?_) (Option.some_get _).symm)
  obtain ⟨⟨_, out⟩, hstep, rfl⟩ := Option.map_eq_some_iff.mp h
  exact ⟨out, hstep⟩

/-- All signers of the certificate are known. -/
theorem agrees_iff_three : Agrees threeCert fourConfig busyPool := by
  have hknown : ∀ k < threeCert.rids.size, ¬ Unknown threeCert fourConfig k := by
    unfold Unknown
    decide +kernel
  exact (agrees_iff threeBytes_parse busyPool_reachable).mpr (.inr
    ⟨⟨0, by decide +kernel, by decide +kernel⟩, fun _ _ _ k hk hunknown =>
      absurd hunknown (hknown k hk)⟩)

def soleConfig : ReplicaConfig clearScheme :=
  { ReplicaConfig.empty.addReplica 0 (0 : Nat) with nmajority := 1 }

/-- Two signers: a signature that is not valid for the replica, then one of a replica that is not
in the configuration. -/
def strangerBytes : DataStream :=
  List.replicate 32 0 ++ [2, 0, 0, 0] ++ (3 :: List.replicate 7 0) ++
    (1 :: List.replicate 63 0) ++ List.replicate 64 0

set_option maxRecDepth 2000 in
/-- The loop rejects the certificate, and the pooled verification throws. -/
theorem stranger_disagrees : ∃ qc : QuorumCert clearScheme,
    QuorumCert.unserialize strangerBytes = .ok (qc, []) ∧ qc.verify soleConfig = .ok false ∧
      (verifyInPool qc soleConfig .empty).2 = .threw .ridNotFound ∧
      ¬ Agrees qc soleConfig .empty := by
  refine ⟨⟨0, ⟨2, [3]⟩, AList.insert 1 ((0 : Nat), (0 : Uint256))
    (AList.insert 0 ((1 : Nat), (0 : Uint256)) ∅)⟩, by rfl, by rfl, by rfl, ?_⟩
  intro h
  have heq := h.unique (answers_pooled poolOk_empty)
  cases heq

end ArchipelagoHotStuff.Crypto.Pool
