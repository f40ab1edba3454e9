/- Module: ArchipelagoHotStuff/General/VoteLedger
   scope: general
   digest: Chained certificates over a forest: one certified node per height, and no certified
     node beside one that a linked chain of certificates has committed. -/

import ArchipelagoHotStuff.General.ParentTree
import ArchipelagoHotStuff.General.Quorum
import ArchipelagoHotStuff.General.Transition

set_option autoImplicit false
set_option relaxedAutoImplicit false

namespace ArchipelagoHotStuff.General.VoteLedger

open ParentTree Quorum Transition

universe u v

/-- A forest whose nodes carry a certificate for another node. -/
structure Forest (B : Type v) where
  root : B
  parent : B → Option B
  qc : B → Option B
  root_parent : parent root = none

variable {R : Type u} [DecidableEq R] {B : Type v}

section heights

variable (F : Forest B)

/-- The node is connected to the root. -/
def Forest.Rooted (b : B) : Prop := ∃ k, Depth F.parent F.root b k

/-- Distance from the root; zero for nodes that are not connected to it. -/
noncomputable def Forest.height (b : B) : Nat := by
  classical
  exact if h : F.Rooted b then h.choose else 0

variable {F}

theorem Forest.height_eq {b : B} {k : Nat} (h : Depth F.parent F.root b k) : F.height b = k := by
  have hr : F.Rooted b := ⟨k, h⟩
  rw [Forest.height, dif_pos hr]
  exact hr.choose_spec.unique F.root_parent h

theorem Forest.Rooted.depth {b : B} (h : F.Rooted b) :
    Depth F.parent F.root b (F.height b) := by
  obtain ⟨k, hk⟩ := h
  rw [height_eq hk]
  exact hk

@[simp] theorem Forest.height_root : F.height F.root = 0 := height_eq .root

theorem Forest.Rooted.eq_root {b : B} (h : F.Rooted b) (h0 : F.height b = 0) : b = F.root := by
  have hd := h.depth
  rw [h0] at hd
  exact hd.zero_eq

theorem Forest.Rooted.of_parent {b p : B} (hb : F.Rooted b) (hp : F.parent b = some p) :
    F.Rooted p ∧ F.height b = F.height p + 1 := by
  obtain ⟨k, hk⟩ := hb
  cases hk with
  | root => rw [F.root_parent] at hp; cases hp
  | child hq hk' =>
      rw [hp] at hq
      cases hq
      exact ⟨⟨_, hk'⟩, by rw [height_eq (.child hp hk'), height_eq hk']⟩

theorem Forest.Rooted.of_extends {a b : B} (hb : F.Rooted b) (h : Extends F.parent b a) :
    F.Rooted a ∧ F.height a ≤ F.height b ∧ (F.height a = F.height b → a = b) := by
  obtain ⟨i, hi, hle, heq⟩ := h.depth_le F.root_parent hb.depth
  rw [← height_eq hi] at hle heq
  exact ⟨⟨i, hi⟩, hle, heq⟩

end heights

/-! A ledger lists, newest first, which correct replica accepted which node. -/

/-- Acceptances in reverse order of time. -/
abbrev Ledger (R : Type u) (B : Type v) := List (R × B)

section certificates

variable (Q : QuorumSystem R)

/-- A quorum stands behind the node: its correct members have accepted it, the faulty ones
may vouch for anything. -/
def Certified (L : Ledger R B) (b : B) : Prop :=
  ∃ A, Q.IsQuorum A ∧ ∀ r ∈ A, r ∉ Q.faulty → (r, b) ∈ L

variable {Q} {L L' : Ledger R B} {b : B} {r : R}

theorem Certified.mono (h : Certified Q L b) (hsub : L ⊆ L') : Certified Q L' b := by
  obtain ⟨A, hA, hall⟩ := h
  exact ⟨A, hA, fun r hr hgood => hsub (hall r hr hgood)⟩

theorem Certified.exists_mem (h : Certified Q L b) : ∃ r, r ∉ Q.faulty ∧ (r, b) ∈ L := by
  obtain ⟨A, hA, hall⟩ := h
  obtain ⟨r, hr, hgood⟩ := hA.exists_correct
  exact ⟨r, hgood, hall r hr hgood⟩

theorem Certified.common {c : B} (h : Certified Q L b) (h' : Certified Q L' c) :
    ∃ r, r ∉ Q.faulty ∧ (r, b) ∈ L ∧ (r, c) ∈ L' := by
  obtain ⟨A, hA, hall⟩ := h
  obtain ⟨A', hA', hall'⟩ := h'
  obtain ⟨r, hr, hr', hgood⟩ := hA.exists_common hA'
  exact ⟨r, hgood, hall r hr hgood, hall' r hr' hgood⟩

end certificates

section rules

variable (F : Forest B) (Q : QuorumSystem R)

/-- What a correct replica makes sure of before it accepts a node: the node is a proper part of
the tree, higher than all it accepted before, and its certificate names the root or a node that
is certified by now. -/
structure Admissible (L : Ledger R B) (r : R) (b : B) : Prop where
  correct : r ∉ Q.faulty
  rooted : F.Rooted b
  proper : b ≠ F.root
  higher : ∀ v, (r, v) ∈ L → F.height v < F.height b
  justified : ∃ u, F.qc b = some u ∧ (u = F.root ∨ Certified Q L u)

/-- Ledgers that grow by admissible acceptances only. -/
inductive Valid : Ledger R B → Prop
  | nil : Valid []
  | cons {L : Ledger R B} {r : R} {b : B} : Valid L → Admissible F Q L r b → Valid ((r, b) :: L)

/-- The transition system of ledgers. -/
def ledgers : System (Ledger R B) (R × B) where
  init L := L = []
  step L e L' := Admissible F Q L e.1 e.2 ∧ L' = e :: L

variable {F Q} {L : Ledger R B} {b t u v w : B} {r : R} {k : Nat}

theorem valid_of_reachable (h : Reachable (ledgers F Q) L) : Valid F Q L := by
  induction h with
  | init h =>
      subst h
      exact .nil
  | step _ hs ih =>
      obtain ⟨hadm, rfl⟩ := hs
      exact .cons ih hadm

theorem Valid.of_suffix {M : Ledger R B} (h : Valid F Q L) (hs : M <:+ L) : Valid F Q M := by
  induction h with
  | nil => rw [List.suffix_nil.mp hs]; exact .nil
  | cons hL hadm ih =>
      rcases List.suffix_cons_iff.mp hs with rfl | hs
      · exact .cons hL hadm
      · exact ih hs

theorem Valid.admissible (h : Valid F Q L) (hmem : (r, b) ∈ L) :
    ∃ M, ((r, b) :: M) <:+ L ∧ Admissible F Q M r b := by
  obtain ⟨N, M, rfl⟩ := List.append_of_mem hmem
  have hsuf : ((r, b) :: M) <:+ N ++ (r, b) :: M := List.suffix_append _ _
  cases h.of_suffix hsuf with
  | cons _ hadm => exact ⟨M, hsuf, hadm⟩

/-- Of two nodes one replica accepted, the higher one was accepted later. -/
theorem Valid.older {M : Ledger R B} (h : Valid F Q L) (hw : ((r, w) :: M) <:+ L)
    (hv : (r, v) ∈ L) (hlt : F.height v < F.height w) : (r, v) ∈ M := by
  induction h with
  | nil => cases hv
  | @cons L' r' b' hL hadm ih =>
      rcases List.suffix_cons_iff.mp hw with heq | hold
      · cases heq
        rcases List.mem_cons.mp hv with heq | hv'
        · cases heq
          exact absurd hlt (lt_irrefl _)
        · exact hv'
      · rcases List.mem_cons.mp hv with heq | hv'
        · cases heq
          have := hadm.higher w (hold.subset List.mem_cons_self)
          omega
        · exact ih hold hv'

/-- A replica accepts at most one node of each height. -/
theorem Valid.eq_of_height (h : Valid F Q L) (hv : (r, v) ∈ L) (hw : (r, w) ∈ L)
    (heq : F.height v = F.height w) : v = w := by
  induction h with
  | nil => cases hv
  | cons hL hadm ih =>
      rcases List.mem_cons.mp hv with hv' | hv' <;> rcases List.mem_cons.mp hw with hw' | hw'
      · cases hv'
        cases hw'
        rfl
      · cases hv'
        have := hadm.higher w hw'
        omega
      · cases hw'
        have := hadm.higher v hv'
        omega
      · exact ih hv' hw'

theorem Valid.certified_rooted (h : Valid F Q L) (hc : Certified Q L b) :
    F.Rooted b ∧ b ≠ F.root := by
  obtain ⟨r, _, hr⟩ := hc.exists_mem
  obtain ⟨M, _, hadm⟩ := h.admissible hr
  exact ⟨hadm.rooted, hadm.proper⟩

theorem Valid.certified_pos (h : Valid F Q L) (hc : Certified Q L b) : 0 < F.height b := by
  obtain ⟨hr, hne⟩ := h.certified_rooted hc
  exact Nat.pos_of_ne_zero (fun h0 => hne (hr.eq_root h0))

/-- At most one node of each height is ever certified. -/
theorem Valid.certified_unique (h : Valid F Q L) (hv : Certified Q L v) (hw : Certified Q L w)
    (heq : F.height v = F.height w) : v = w := by
  obtain ⟨r, _, hrv, hrw⟩ := hv.common hw
  exact h.eq_of_height hrv hrw heq

/-- Every accepted node has an acceptance before which no replica had accepted it. -/
theorem Valid.first_acceptance (h : Valid F Q L) (hmem : ∃ r, (r, w) ∈ L) :
    ∃ r M, ((r, w) :: M) <:+ L ∧ Admissible F Q M r w ∧ ∀ r', (r', w) ∉ M := by
  induction h with
  | nil =>
      obtain ⟨r, hr⟩ := hmem
      cases hr
  | @cons L r b hL hadm ih =>
      by_cases hold : ∃ r', (r', w) ∈ L
      · obtain ⟨r', M, hsuf, hadm', hnew⟩ := ih hold
        exact ⟨r', M, hsuf.trans (List.suffix_cons _ _), hadm', hnew⟩
      · obtain ⟨r', hr'⟩ := hmem
        rcases List.mem_cons.mp hr' with heq | hr'
        · cases heq
          exact ⟨r, L, List.suffix_rfl, hadm, fun r'' hr'' => hold ⟨r'', hr''⟩⟩
        · exact absurd ⟨r', hr'⟩ hold

theorem Valid.certified_justified (h : Valid F Q L) (hw : Certified Q L w) :
    ∃ u, F.qc w = some u ∧ (u = F.root ∨ Certified Q L u) := by
  obtain ⟨r, _, hr⟩ := hw.exists_mem
  obtain ⟨M, hsuf, hadm⟩ := h.admissible hr
  obtain ⟨u, hu, hroot | hcert⟩ := hadm.justified
  · exact ⟨u, hu, .inl hroot⟩
  · exact ⟨u, hu, .inr (hcert.mono ((List.suffix_cons _ _).trans hsuf).subset)⟩

/-- A certified node is higher than the node its own certificate is for. -/
theorem Valid.certified_qc_lt (h : Valid F Q L) (hw : Certified Q L w) (hu : F.qc w = some u) :
    F.height u < F.height w := by
  obtain ⟨s, _, hs⟩ := hw.exists_mem
  obtain ⟨r, M, hsuf, hadm, hnew⟩ := h.first_acceptance ⟨s, hs⟩
  obtain ⟨u', hu', hroot | hcert⟩ := hadm.justified
  · rw [hu] at hu'
    cases hu'
    rw [hroot, Forest.height_root]
    exact h.certified_pos hw
  · rw [hu] at hu'
    cases hu'
    -- Someone behind both certificates accepted `u` at a time when nobody had accepted `w`.
    obtain ⟨r', _, hru, hrw⟩ := hcert.common hw
    have hM : M <:+ L := (List.suffix_cons _ _).trans hsuf
    by_contra hle
    rcases Nat.lt_or_eq_of_le (Nat.le_of_not_lt hle) with hlt | heq
    · obtain ⟨N, hN, _⟩ := (h.of_suffix hM).admissible hru
      have hold := h.older (hN.trans hM) hrw hlt
      exact hnew r' (((List.suffix_cons _ _).trans hN).subset hold)
    · have hsame := h.eq_of_height hrw (hM.subset hru) heq
      exact hnew r' (hsame ▸ hru)

end rules

/-! Locking: a node is committed once a certified node reaches it by enough direct links, and
every later certified node then lies above it. -/

/-- `t` reaches `b` by `k` links, each of which is both the parent and the certificate. -/
inductive Linked (F : Forest B) : Nat → B → B → Prop
  | zero (b : B) : Linked F 0 b b
  | succ {k : Nat} {t p b : B} : F.parent t = some p → F.qc t = some p → Linked F k p b →
      Linked F (k + 1) t b

/-- The lock a replica holds when it accepts `w`: it is no lower than what the replica helped to
link, and `w` is above it or above a higher certified node. -/
def LockRule (F : Forest B) (Q : QuorumSystem R) (k : Nat) (L : Ledger R B) (r : R) (w : B) :
    Prop :=
  ∃ c, (c = F.root ∨ Certified Q L c) ∧
    (∀ v b, (r, v) ∈ L → Linked F k v b → F.height b ≤ F.height c) ∧
    (Extends F.parent w c ∨
      ∃ u, F.qc w = some u ∧ F.height c < F.height u ∧ Extends F.parent w u)

/-- Ledgers all of whose acceptances keep the lock rule. -/
def lockedLedgers (F : Forest B) (Q : QuorumSystem R) (k : Nat) : System (Ledger R B) (R × B) :=
  (ledgers F Q).restrict (fun L e => LockRule F Q k L e.1 e.2)

/-- `b` is the root, or a certified node reaches it by `k` links. -/
def Committed (F : Forest B) (Q : QuorumSystem R) (k : Nat) (L : Ledger R B) (b : B) : Prop :=
  b = F.root ∨ ∃ t, Certified Q L t ∧ Linked F k t b

section locking

variable {F : Forest B} {Q : QuorumSystem R} {L L' : Ledger R B} {b b' t u w : B} {r : R}
  {k : Nat}

theorem valid_of_locked (h : Reachable (lockedLedgers F Q k) L) : Valid F Q L :=
  valid_of_reachable h.of_restrict

theorem lockRule_of_locked (h : Reachable (lockedLedgers F Q k) L) {M : Ledger R B}
    (hs : ((r, w) :: M) <:+ L) : LockRule F Q k M r w := by
  induction h with
  | init h =>
      have hnil : _ = ([] : Ledger R B) := h
      rw [hnil] at hs
      exact absurd (List.suffix_nil.mp hs) (List.cons_ne_nil _ _)
  | step _ hstep ih =>
      obtain ⟨hrule, _, rfl⟩ := hstep
      rcases List.suffix_cons_iff.mp hs with heq | hs
      · cases heq
        exact hrule
      · exact ih hs

theorem Linked.rooted (h : Linked F k t b) (ht : F.Rooted t) :
    F.Rooted b ∧ F.height t = F.height b + k := by
  induction h with
  | zero b => exact ⟨ht, rfl⟩
  | succ hp _ _ ih =>
      obtain ⟨hpr, hph⟩ := ht.of_parent hp
      obtain ⟨hbr, hbh⟩ := ih hpr
      exact ⟨hbr, by omega⟩

theorem Linked.extends (h : Linked F k t b) : Extends F.parent t b := by
  induction h with
  | zero b => exact .refl b
  | succ hp _ _ ih => exact .step hp ih

theorem Linked.certified (h : Linked F k t b) (hL : Valid F Q L) (ht : Certified Q L t) :
    b = F.root ∨ Certified Q L b := by
  induction h with
  | zero b => exact .inr ht
  | succ hp hq hlink ih =>
      obtain ⟨u, hu, hroot | hcert⟩ := hL.certified_justified ht
      · rw [hq] at hu
        cases hu
        cases hlink with
        | zero _ => exact .inl hroot
        | succ hp' _ _ =>
            rw [hroot, F.root_parent] at hp'
            cases hp'
      · rw [hq] at hu
        cases hu
        exact ih hcert

/-- A certified node as high as some node of a chain of links is on that chain. -/
theorem Linked.extends_of_height_le (h : Linked F k t b) (hL : Valid F Q L)
    (ht : Certified Q L t) (hw : Certified Q L w) (hlow : F.height b ≤ F.height w)
    (hhigh : F.height w ≤ F.height t) : Extends F.parent w b := by
  induction h with
  | zero b =>
      rw [hL.certified_unique hw ht (by omega)]
      exact .refl b
  | @succ k t p b hp hq hlink ih =>
      obtain ⟨hpr, hph⟩ := (hL.certified_rooted ht).1.of_parent hp
      rcases Nat.lt_or_eq_of_le hhigh with hlt | heq
      · obtain ⟨u, hu, hroot | hcert⟩ := hL.certified_justified ht
        · rw [hq] at hu
          cases hu
          have hpos := hL.certified_pos hw
          rw [hroot, Forest.height_root] at hph
          omega
        · rw [hq] at hu
          cases hu
          exact ih hcert hlow (by omega)
      · rw [hL.certified_unique hw ht heq]
        exact .step hp hlink.extends

/-- Safety: a certified node at least as high as a committed one lies above it. -/
theorem extends_of_linked (h : Reachable (lockedLedgers F Q k) L) (ht : Certified Q L t)
    (hlink : Linked F k t b) {M : Ledger R B} (hM : M <:+ L) (hw : Certified Q M w)
    (hle : F.height b ≤ F.height w) : Extends F.parent w b := by
  have hL := valid_of_locked h
  -- Both the lock and the certificate a node is accepted under are older than the acceptance.
  induction hlen : M.length using Nat.strong_induction_on generalizing M w with
  | _ n ih =>
      have hwL : Certified Q L w := hw.mono hM.subset
      by_cases hhigh : F.height w ≤ F.height t
      · exact hlink.extends_of_height_le hL ht hwL hle hhigh
      obtain ⟨r, _, hrt, hrw⟩ := ht.common hw
      obtain ⟨N, hN, hadm⟩ := (hL.of_suffix hM).admissible hrw
      have hNM : N <:+ M := (List.suffix_cons _ _).trans hN
      have hshort : N.length < n := by
        have := hN.length_le
        simp only [List.length_cons] at this
        omega
      have hrtN : (r, t) ∈ N := hL.older (hN.trans hM) hrt (by omega)
      obtain ⟨c, hc, hheld, hrule⟩ := lockRule_of_locked h (hN.trans hM)
      have hbc : F.height b ≤ F.height c := hheld t b hrtN hlink
      rcases hrule with hwc | ⟨u, hu, hcu, hwu⟩
      · rcases hc with hroot | hcert
        · rw [hroot, Forest.height_root] at hbc
          have hbroot : b = F.root :=
            (hlink.rooted (hL.certified_rooted ht).1).1.eq_root (by omega)
          rw [hbroot, ← hroot]
          exact hwc
        · exact hwc.trans (ih N.length hshort (hNM.trans hM) hcert hbc rfl)
      · obtain ⟨u', hu', hroot | hcert⟩ := hadm.justified
        · rw [hu] at hu'
          cases hu'
          rw [hroot, Forest.height_root] at hcu
          omega
        · rw [hu] at hu'
          cases hu'
          exact hwu.trans (ih N.length hshort (hNM.trans hM) hcert (by omega) rfl)

theorem Committed.mono (h : Committed F Q k L b) (hsub : L ⊆ L') : Committed F Q k L' b := by
  rcases h with hroot | ⟨t, ht, hlink⟩
  · exact .inl hroot
  · exact .inr ⟨t, ht.mono hsub, hlink⟩

theorem Linked.root_of_height (h : Linked F k t b) (hL : Valid F Q L) (ht : Certified Q L t)
    (hle : F.height b ≤ 0) : b = F.root :=
  (h.rooted (hL.certified_rooted ht).1).1.eq_root (Nat.le_zero.mp hle)

/-- What is certified, or the root itself, lies above a committed node that is not higher. -/
theorem Committed.extends_of_backed (h : Reachable (lockedLedgers F Q k) L)
    (hb : Committed F Q k L b) (hw : w = F.root ∨ Certified Q L w) (hle : F.height b ≤ F.height w) :
    Extends F.parent w b := by
  have hL := valid_of_locked h
  rcases hb with hroot | ⟨t, ht, hlink⟩
  · rw [hroot]
    rcases hw with hw | hcert
    · rw [hw]
      exact .refl _
    · obtain ⟨j, hj⟩ := (hL.certified_rooted hcert).1
      exact hj.extends_root
  · rcases hw with hw | hcert
    · rw [hw, Forest.height_root] at hle
      rw [hw, hlink.root_of_height hL ht hle]
      exact .refl _
    · exact extends_of_linked h ht hlink List.suffix_rfl hcert hle

theorem Committed.extends_of_height_le (h : Reachable (lockedLedgers F Q k) L)
    (hb : Committed F Q k L b) (hb' : Committed F Q k L b')
    (hle : F.height b ≤ F.height b') : Extends F.parent b' b := by
  refine hb.extends_of_backed h ?_ hle
  rcases hb' with hroot | ⟨t', ht', hlink'⟩
  · exact .inl hroot
  · exact hlink'.certified (valid_of_locked h) ht'

/-- Committed nodes lie on one branch. -/
theorem committed_comparable (h : Reachable (lockedLedgers F Q k) L)
    (hb : Committed F Q k L b) (hb' : Committed F Q k L b') :
    Extends F.parent b b' ∨ Extends F.parent b' b := by
  rcases Nat.le_total (F.height b) (F.height b') with hle | hle
  · exact .inr (hb.extends_of_height_le h hb' hle)
  · exact .inl (hb'.extends_of_height_le h hb hle)

end locking

end ArchipelagoHotStuff.General.VoteLedger
