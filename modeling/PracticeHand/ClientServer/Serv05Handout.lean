import Mathlib.Algebra.BigOperators.Fin
import PracticeHand.ClientServer.Serv05

/-!
# Every connection goes to one idle child

What the parent believes about a child, its status, is compared with where the
child's work is: a descriptor on its way to the child, a request that the child
is serving, or a byte on its way back.
-/

namespace PracticeHand
namespace Serv05

open Concurrency

variable {n : Nat}

def ChildPc.idle : ChildPc -> Bool
  | .starting | .readFd => true
  | _ => false

def ChildPc.serving : ChildPc -> Nat
  | .webChild _ | .close _ | .write => 1
  | _ => 0

def Server.load (s : Server n) (i : Fin n) : Nat :=
  (s.passed i).length + (s.child i).serving + s.ready i

/-- Whether child `i` is marked as busy and the descriptor still to be passed. -/
def ParentPc.owed : ParentPc n -> Fin n -> Nat
  | .writeFd j _ _ _, i => if i = j then 1 else 0
  | _, _ => 0

def ParentPc.hand : ParentPc n -> List Fd
  | .find connfd _ _ => [connfd]
  | .writeFd _ connfd _ _ => [connfd]
  | _ => []

/-- Whether the accepted connection has still to be counted for a child. -/
def ParentPc.uncounted : ParentPc n -> Nat
  | .find _ _ _ => 1
  | _ => 0

/-- Whether the parent listens, or will accept because it has listened. -/
def ParentPc.offering : ParentPc n -> Bool
  | .select listenfd => listenfd
  | .isset rset _ => rset.listenfd
  | .accept _ _ | .find _ _ _ => true
  | _ => false

def ParentPc.Unforked : ParentPc n -> Fin n -> Prop
  | .prefork k, i => k ≤ i
  | _, _ => False

def available (childStatus : Fin n -> Nat) : Nat :=
  countWhere (fun st => st = 0) childStatus

section Onward

variable (next : Nat) (rset : Rset n) (nsel : Int)

@[elab_as_elim]
theorem onward_of {motive : ParentPc n -> Prop} (htop : motive .top)
    (hscan : forall nsel, motive (.scan next rset nsel)) :
    motive (ParentPc.onward next rset nsel) := by
  unfold ParentPc.onward
  split
  · exact htop
  · exact hscan (nsel - 1)

@[simp] theorem owed_onward (i : Fin n) :
    (ParentPc.onward next rset nsel).owed i = 0 :=
  onward_of next rset nsel rfl (fun _ => rfl)

@[simp] theorem hand_onward : (ParentPc.onward next rset nsel).hand = [] :=
  onward_of next rset nsel rfl (fun _ => rfl)

@[simp] theorem uncounted_onward :
    (ParentPc.onward next rset nsel).uncounted = 0 :=
  onward_of next rset nsel rfl (fun _ => rfl)

@[simp] theorem offering_onward :
    (ParentPc.onward next rset nsel).offering = false :=
  onward_of next rset nsel rfl (fun _ => rfl)

@[simp] theorem hasQuit_onward :
    (ParentPc.onward next rset nsel).hasQuit = false :=
  onward_of next rset nsel rfl (fun _ => rfl)

@[simp] theorem unforked_onward (i : Fin n) :
    ¬ (ParentPc.onward next rset nsel).Unforked i :=
  onward_of next rset nsel id (fun _ => id)

end Onward

theorem firstAvailable_some {childStatus : Fin n -> Nat} {i : Fin n}
    (h : firstAvailable childStatus = some i) : childStatus i = 0 := by
  simpa using List.find?_some h

theorem firstAvailable_none {childStatus : Fin n -> Nat}
    (h : firstAvailable childStatus = none) : available childStatus = 0 := by
  apply countWhere_eq_zero.mpr
  intro i
  have hi := List.find?_eq_none.mp h i (List.mem_finRange i)
  simpa using hi

/-!
## The books of the parent and of each child
-/

/-- The status of a child is its work, with what the parent owes it. -/
structure Balanced (s : Server n) (i : Fin n) : Prop where
  status : s.load i + s.parent.owed i = s.childStatus i
  bound : s.childStatus i ≤ 1
  -- a child is not running before it is forked, and does not die
  forked : s.child i = .unborn <-> s.parent.Unforked i
  alive : s.child i ≠ .dead

structure Offers (s : Server n) : Prop where
  navail : s.navail = available s.childStatus
  offering : s.parent.offering = true -> 0 < s.navail
  preforking : forall i, s.parent.Unforked i -> s.childStatus i = 0
  running : s.parent.hasQuit = false

structure Logged (s : Server n) : Prop where
  accepted : s.accepted = s.handed.map Prod.snd ++ s.parent.hand
  counted : (Finset.univ.sum s.childCount) + s.parent.uncounted = s.accepted.length
  handed : forall i, s.handed.filter (fun r => r.1 = i) =
    s.received.filter (fun r => r.1 = i) ++ (s.passed i).map (fun connfd => (i, connfd))

section Steps

variable {s s' : Server n} {p : ParentPc n} {i : Fin n}

theorem Balanced.elsewhere (h : Balanced s i) (hpassed : s'.passed i = s.passed i)
    (hchild : s'.child i = s.child i) (hready : s'.ready i = s.ready i)
    (hstatus : s'.childStatus i = s.childStatus i)
    (howed : s'.parent.owed i = s.parent.owed i)
    (hforked : s'.parent.Unforked i <-> s.parent.Unforked i) : Balanced s' i where
  status := by
    rw [howed, hstatus, Server.load, hpassed, hchild, hready]
    exact h.status
  bound := by
    rw [hstatus]
    exact h.bound
  forked := by
    rw [hchild, hforked]
    exact h.forked
  alive := by
    rw [hchild]
    exact h.alive

theorem Balanced.prefork {k : Nat} (h : Balanced s i) (hp : s.parent = .prefork k)
    (hzero : s.parent.Unforked i -> s.childStatus i = 0) (hk : k < n) : Balanced { s with
      child := Function.update s.child ⟨k, hk⟩ .starting
      childStatus := Function.update s.childStatus ⟨k, hk⟩ 0
      parent := .prefork (k + 1) } i := by
  have hstatus := h.status
  have hforked := h.forked
  rw [hp] at hstatus hforked hzero
  by_cases hik : i = ⟨k, hk⟩
  · subst hik
    have hunborn := hforked.mpr (le_refl k)
    have hnone := hzero (le_refl k)
    exact {
      status := by
        simp only [Server.load, hunborn, hnone, ChildPc.serving, ParentPc.owed] at hstatus
        simp only [Server.load, Function.update_self, ChildPc.serving, ParentPc.owed]
        exact hstatus
      bound := by simp
      forked := by simp [ParentPc.Unforked]
      alive := by simp }
  · have hne : (i : Nat) ≠ k := fun heq => hik (Fin.ext heq)
    refine h.elsewhere rfl (Function.update_of_ne hik _ _) rfl
      (Function.update_of_ne hik _ _) ?_ ?_
    · rw [hp]
      rfl
    · rw [hp]
      simp only [ParentPc.Unforked]
      lia

theorem Balanced.found {j : Fin n} {connfd : Fd} {rset : Rset n} {nsel : Int}
    (h : Balanced s i) (hp : s.parent = .find connfd rset nsel)
    (hfirst : firstAvailable s.childStatus = some j) : Balanced { s with
      childStatus := Function.update s.childStatus j 1
      childCount := Function.update s.childCount j (s.childCount j + 1)
      navail := s.navail - 1
      parent := .writeFd j connfd rset nsel } i := by
  have hstatus := h.status
  have hforked := h.forked
  rw [hp] at hstatus hforked
  by_cases hij : i = j
  · subst hij
    exact {
      status := by
        rw [firstAvailable_some hfirst] at hstatus
        simp only [ParentPc.owed, Function.update_self, if_pos, Server.load] at hstatus ⊢
        lia
      bound := by simp
      forked := hforked
      alive := h.alive }
  · refine h.elsewhere rfl rfl rfl (Function.update_of_ne hij _ _) ?_ ?_
    · rw [hp]
      simp [ParentPc.owed, hij]
    · rw [hp]
      rfl

theorem Balanced.writeFd {j : Fin n} {connfd : Fd} {rset : Rset n} {nsel : Int}
    (h : Balanced s i) (hp : s.parent = .writeFd j connfd rset nsel) :
    Balanced { s with
      passed := Function.update s.passed j (s.passed j ++ [connfd])
      handed := s.handed ++ [(j, connfd)]
      parent := ParentPc.onward 0 rset nsel } i := by
  have hstatus := h.status
  have hforked := h.forked
  rw [hp] at hstatus hforked
  by_cases hij : i = j
  · subst hij
    exact {
      status := by
        simp only [ParentPc.owed, if_pos, Server.load] at hstatus
        simp only [owed_onward, Server.load, Function.update_self,
          List.length_append, List.length_singleton]
        lia
      bound := h.bound
      forked := hforked.trans (iff_of_false id (unforked_onward _ _ _ i))
      alive := h.alive }
  · refine h.elsewhere (Function.update_of_ne hij _ _) rfl rfl rfl ?_ ?_
    · rw [hp, owed_onward]
      simp [ParentPc.owed, hij]
    · rw [hp]
      exact iff_of_false (unforked_onward _ _ _ i) id

/-- A ready byte is the whole work of its child, so the status drops to 0. -/
theorem Balanced.read {k : Nat} {rset : Rset n} {nsel : Int}
    (h : Balanced s i) (hp : s.parent = .scan k rset nsel) (hk : k < n)
    (hready : 0 < s.ready ⟨k, hk⟩) : Balanced { s with
      ready := Function.update s.ready ⟨k, hk⟩ (s.ready ⟨k, hk⟩ - 1)
      childStatus := Function.update s.childStatus ⟨k, hk⟩ 0
      navail := s.navail + 1
      parent := ParentPc.onward (k + 1) rset nsel } i := by
  have hstatus := h.status
  have hbound := h.bound
  have hforked := h.forked
  rw [hp] at hstatus hforked
  by_cases hik : i = ⟨k, hk⟩
  · subst hik
    exact {
      status := by
        simp only [ParentPc.owed, Server.load] at hstatus
        simp only [owed_onward, Server.load, Function.update_self]
        lia
      bound := by simp
      forked := hforked.trans (iff_of_false id (unforked_onward _ _ _ _))
      alive := h.alive }
  · refine h.elsewhere rfl rfl (Function.update_of_ne hik _ _)
      (Function.update_of_ne hik _ _) ?_ ?_
    · rw [hp, owed_onward]
      rfl
    · rw [hp]
      exact iff_of_false (unforked_onward _ _ _ i) id

theorem Balanced.parentMove (h : Balanced s i) (hp : s.parent = p)
    (hzero : s.parent.Unforked i -> s.childStatus i = 0)
    (hrunning : s'.parent.hasQuit = false) (hmove : ParentMove s p s') :
    Balanced s' i := by
  cases hmove with
  | prefork hk => exact h.prefork hp hzero hk
  | preforked hk =>
      refine h.elsewhere rfl rfl rfl rfl ?_ ?_
      · rw [hp]
        rfl
      · rw [hp]
        simp only [ParentPc.Unforked]
        lia
  | found hfirst => exact h.found hp hfirst
  | writeFd _ => exact h.writeFd hp
  | read hk _ hready => exact h.read hp hk hready
  | brokenPipe _ => cases hrunning
  | _ =>
      refine h.elsewhere rfl rfl rfl rfl ?_ ?_
      · rw [hp]
        rfl
      · rw [hp]
        rfl

theorem Balanced.childMove {j : Fin n} {l : ChildPc} (h : Balanced s i)
    (hl : s.child j = l) (hmove : ChildMove s j l s') : Balanced s' i := by
  have hstatus := h.status
  have hforked := h.forked
  by_cases hij : i = j
  · subst hij
    have hnot : ¬ s.parent.Unforked i := by
      rw [← hforked, hl]
      cases hmove <;> simp
    simp only [Server.load, hl] at hstatus
    cases hmove with
    | readFd hpassed =>
        simp only [hpassed, List.length_cons, ChildPc.serving] at hstatus
        refine ⟨?_, h.bound, ?_, by simp⟩
        · simp only [Server.load, Function.update_self, ChildPc.serving]
          lia
        · simpa using hnot
    | started | webChild | close =>
        refine ⟨?_, h.bound, ?_, by simp⟩
        · simpa only [Server.load, Function.update_self, ChildPc.serving] using hstatus
        · simpa using hnot
    | write =>
        simp only [ChildPc.serving] at hstatus
        refine ⟨?_, h.bound, ?_, by simp⟩
        · simp only [Server.load, Function.update_self, ChildPc.serving]
          lia
        · simpa using hnot
  · cases hmove with
    | readFd _ =>
        exact h.elsewhere (Function.update_of_ne hij _ _)
          (Function.update_of_ne hij _ _) rfl rfl rfl Iff.rfl
    | started | webChild | close =>
        exact h.elsewhere rfl (Function.update_of_ne hij _ _) rfl rfl rfl Iff.rfl
    | write =>
        exact h.elsewhere rfl (Function.update_of_ne hij _ _)
          (Function.update_of_ne hij _ _) rfl rfl Iff.rfl

theorem available_update (childStatus : Fin n -> Nat) (i : Fin n) (st : Nat) :
    available (Function.update childStatus i st) +
        (decide (childStatus i = 0)).toNat =
      available childStatus + (decide (st = 0)).toNat :=
  countWhere_update (fun st => decide (st = 0)) childStatus i st

theorem Offers.elsewhere (h : Offers s) (hnavail : s'.navail = s.navail)
    (hstatus : s'.childStatus = s.childStatus) (hparent : s'.parent = s.parent) :
    Offers s' where
  navail := by
    rw [hnavail, hstatus]
    exact h.navail
  offering := by
    rw [hparent, hnavail]
    exact h.offering
  preforking := by
    rw [hparent, hstatus]
    exact h.preforking
  running := by
    rw [hparent]
    exact h.running

theorem Offers.parentMove (h : Offers s) (hbalanced : forall i, Balanced s i)
    (hp : s.parent = p) (hmove : ParentMove s p s') : Offers s' := by
  have hnavail := h.navail
  have hoffering := h.offering
  have hpreforking := h.preforking
  rw [hp] at hoffering hpreforking
  cases hmove with
  | @prefork k hk =>
      have hzero := hpreforking ⟨k, hk⟩ (le_refl k)
      have hsame : Function.update s.childStatus ⟨k, hk⟩ 0 = s.childStatus := by
        rw [← hzero]
        exact Function.update_eq_self _ _
      rw [hsame]
      exact ⟨hnavail, hoffering, fun i hi => hpreforking i (Nat.le_of_succ_le hi), rfl⟩
  | preforked _ | scanned _ => exact ⟨hnavail, nofun, nofun, rfl⟩
  | top =>
      refine ⟨hnavail, ?_, nofun, rfl⟩
      intro hlisten
      simpa [ParentPc.offering] using hlisten
  | select _ =>
      refine ⟨hnavail, ?_, nofun, rfl⟩
      intro hlisten
      simp only [ParentPc.offering, Server.readable, Bool.and_eq_true] at hlisten
      exact hoffering hlisten.1
  | listening hlisten => exact ⟨hnavail, fun _ => hoffering hlisten, nofun, rfl⟩
  | notListening _ | skip _ _ => exact ⟨hnavail, nofun, nofun, rfl⟩
  | accept _ => exact ⟨hnavail, hoffering, nofun, rfl⟩
  | noneFound hnone =>
      -- the parent only listens while a child is available, and no other step
      -- of the parent stands between the test of `navail` and the search
      have hpos := hoffering rfl
      rw [hnavail, firstAvailable_none hnone] at hpos
      exact absurd hpos (lt_irrefl 0)
  | @found connfd rset nsel j hfirst =>
      refine ⟨?_, nofun, nofun, rfl⟩
      have hupdate := available_update s.childStatus j 1
      simp only [firstAvailable_some hfirst, decide_true, Bool.toNat_true] at hupdate
      simp at hupdate
      dsimp only
      lia
  | brokenPipe hdead => exact absurd hdead (hbalanced _).alive
  | writeFd _ =>
      exact ⟨hnavail, by simp, fun i hi => (unforked_onward _ _ _ i hi).elim, by simp⟩
  | @read k rset nsel hk hset hready =>
      refine ⟨?_, by simp, fun i hi => (unforked_onward _ _ _ i hi).elim, by simp⟩
      have hbusy : s.childStatus ⟨k, hk⟩ ≠ 0 := by
        have hstatus := (hbalanced ⟨k, hk⟩).status
        simp only [Server.load] at hstatus
        lia
      have hupdate := available_update s.childStatus ⟨k, hk⟩ 0
      simp [hbusy] at hupdate
      dsimp only
      lia
  | readEof _ _ hdead => exact absurd hdead (hbalanced _).alive

theorem sum_increment (count : Fin n -> Nat) (i : Fin n) :
    Finset.univ.sum (Function.update count i (count i + 1)) =
      Finset.univ.sum count + 1 := by
  rw [Finset.sum_update_of_mem (Finset.mem_univ i),
    ← Finset.add_sum_erase Finset.univ count (Finset.mem_univ i),
    Finset.sdiff_singleton_eq_erase]
  lia

theorem Logged.parentMove (h : Logged s) (hp : s.parent = p)
    (hrunning : s'.parent.hasQuit = false) (hmove : ParentMove s p s') :
    Logged s' := by
  have haccepted := h.accepted
  have hcounted := h.counted
  rw [hp] at haccepted hcounted
  cases hmove with
  | accept _ =>
      refine ⟨?_, ?_, h.handed⟩
      · simpa [ParentPc.hand] using haccepted
      · simpa [ParentPc.uncounted] using hcounted
  | found _ =>
      refine ⟨haccepted, ?_, h.handed⟩
      simpa [ParentPc.uncounted, sum_increment] using hcounted
  | @writeFd j connfd rset nsel _ =>
      refine ⟨?_, ?_, ?_⟩
      · rw [hand_onward, haccepted]
        simp [ParentPc.hand]
      · rw [uncounted_onward]
        exact hcounted
      · intro i
        have hhanded := h.handed i
        by_cases hij : i = j
        · subst hij
          simp [hhanded]
        · simp [hhanded, hij, Ne.symm hij]
  | read _ _ _ =>
      refine ⟨?_, ?_, h.handed⟩
      · rw [hand_onward]
        exact haccepted
      · rw [uncounted_onward]
        exact hcounted
  | noneFound _ | brokenPipe _ => cases hrunning
  | _ => exact ⟨haccepted, hcounted, h.handed⟩

theorem Logged.childMove {j : Fin n} {l : ChildPc} (h : Logged s)
    (hmove : ChildMove s j l s') : Logged s' := by
  cases hmove with
  | @readFd connfd rest hpassed =>
      refine ⟨h.accepted, h.counted, ?_⟩
      intro i
      have hhanded := h.handed i
      by_cases hij : i = j
      · subst hij
        simp [hhanded, hpassed]
      · simp [hhanded, hij, Ne.symm hij]
  | _ => exact ⟨h.accepted, h.counted, h.handed⟩

end Steps

/-!
## Every run without a death
-/

structure HandoutInv (s : Server n) : Prop where
  balanced : forall i, Balanced s i
  offers : Offers s
  logged : Logged s

theorem handoutInv_initial : HandoutInv (Server.initial : Server n) where
  balanced := by
    intro i
    exact ⟨rfl, Nat.zero_le 1, iff_of_true rfl (Nat.zero_le _), by simp [Server.initial]⟩
  offers := by
    refine ⟨?_, nofun, fun _ _ => rfl, rfl⟩
    have hall : available (fun _ : Fin n => 0) = n := by
      simp [available, countWhere]
    change (n : Int) = available (fun _ : Fin n => 0)
    rw [hall]
  logged := by
    refine ⟨rfl, ?_, fun _ => rfl⟩
    simp [Server.initial, ParentPc.uncounted]

theorem HandoutInv.parentMove {s s' : Server n} (h : HandoutInv s)
    (hmove : ParentMove s s.parent s') : HandoutInv s' := by
  have hoffers := h.offers.parentMove h.balanced rfl hmove
  exact {
    balanced := fun i => (h.balanced i).parentMove rfl (h.offers.preforking i)
      hoffers.running hmove
    offers := hoffers
    logged := h.logged.parentMove rfl hoffers.running hmove }

theorem HandoutInv.childMove {s s' : Server n} {i : Fin n} (h : HandoutInv s)
    (hmove : ChildMove s i (s.child i) s') : HandoutInv s' := by
  have hoffers : Offers s' := by
    generalize s.child i = l at hmove
    cases hmove <;> exact h.offers.elsewhere rfl rfl rfl
  exact {
    balanced := fun j => (h.balanced j).childMove rfl hmove
    offers := hoffers
    logged := h.logged.childMove hmove }

theorem handoutInv_step {s s' : Server n} {a : Action n} (h : HandoutInv s)
    (hok : NoDeath s a) (hstep : step s a = some s') : HandoutInv s' := by
  unfold step at hstep
  rw [h.offers.running] at hstep
  cases a with
  | connect connfd =>
      cases hstep
      exact ⟨fun i => (h.balanced i).elsewhere rfl rfl rfl rfl rfl Iff.rfl,
        h.offers.elsewhere rfl rfl rfl,
        h.logged.accepted, h.logged.counted, h.logged.handed⟩
  | parent => exact h.parentMove (parentMove_of_step hstep)
  | child i => exact h.childMove (childMove_of_step hstep)
  | die i => exact hok.elim

theorem reachable_handoutInv {s : Server n}
    (h : (serv05 n).ReachableUnder NoDeath s) : HandoutInv s := by
  apply System.ReachableUnder.invariant _ _ h
  · intro s hs
    rw [hs]
    exact handoutInv_initial
  · intro s s' a hs hok hstep
    exact handoutInv_step hs hok hstep

theorem Balanced.idle_of_load {s : Server n} {i : Fin n} (h : Balanced s i)
    (hforked : ¬ s.parent.Unforked i) (hload : s.load i = 0) :
    (s.child i).idle = true ∧ s.passed i = [] ∧ s.ready i = 0 := by
  have hborn := mt h.forked.mp hforked
  have halive := h.alive
  unfold Server.load at hload
  have hserving : (s.child i).serving = 0 := by lia
  refine ⟨?_, List.length_eq_zero_iff.mp (by lia), by lia⟩
  generalize s.child i = l at hborn halive hserving
  cases l with
  | starting | readFd => rfl
  | unborn => exact absurd rfl hborn
  | webChild | close | write => cases hserving
  | dead => exact absurd rfl halive

/-- At the top of its loop the parent knows which children are free, and it
passes a descriptor only to such a child. -/
theorem serv05_one_idle_child {s : Server n}
    (hreach : (serv05 n).ReachableUnder NoDeath s) :
    (s.parent = .top ->
      s.navail = available s.childStatus ∧
      (forall i,
        (s.childStatus i = 0 ∧
          (s.child i).idle = true ∧ s.passed i = [] ∧ s.ready i = 0) ∨
        (s.childStatus i = 1 ∧
          (s.passed i).length + (s.child i).serving + s.ready i = 1)) ∧
      Finset.univ.sum s.childCount = s.accepted.length) ∧
    (forall i connfd rset nsel, s.parent = .writeFd i connfd rset nsel ->
      (s.child i).idle = true ∧ s.passed i = [] ∧ s.ready i = 0) ∧
    (forall why, s.parent ≠ .quit why) ∧
    s.accepted = s.handed.map Prod.snd ++ s.parent.hand ∧
    (forall i, s.handed.filter (fun r => r.1 = i) =
      s.received.filter (fun r => r.1 = i) ++
        (s.passed i).map (fun connfd => (i, connfd))) := by
  have hinv := reachable_handoutInv hreach
  refine ⟨?_, ?_, ?_, hinv.logged.accepted, hinv.logged.handed⟩
  · intro htop
    refine ⟨hinv.offers.navail, ?_, ?_⟩
    · intro i
      have hstatus := (hinv.balanced i).status
      have hbound := (hinv.balanced i).bound
      rw [htop] at hstatus
      change s.load i = s.childStatus i at hstatus
      by_cases hfree : s.childStatus i = 0
      · refine Or.inl ⟨hfree, (hinv.balanced i).idle_of_load ?_ (hstatus.trans hfree)⟩
        rw [htop]
        exact id
      · have hbusy : s.childStatus i = 1 := by lia
        exact Or.inr ⟨hbusy, hstatus.trans hbusy⟩
    · have hcounted := hinv.logged.counted
      rw [htop] at hcounted
      exact hcounted
  · intro i connfd rset nsel hwrite
    have hstatus := (hinv.balanced i).status
    have hbound := (hinv.balanced i).bound
    rw [hwrite] at hstatus
    simp only [ParentPc.owed, if_pos] at hstatus
    refine (hinv.balanced i).idle_of_load ?_ (by lia)
    rw [hwrite]
    exact id
  · intro why hquit
    have hrunning := hinv.offers.running
    rw [hquit] at hrunning
    cases hrunning

/-- Two connections are passed to the children `i` and `j`, and a third one arrives; `i` is
done with its connection and `j` is not. -/
def serveTwo (i j : Fin n) : List (Action n) :=
  List.replicate 3 .parent ++ [.connect 7, .connect 8] ++ List.replicate 12 .parent ++
    List.replicate 5 (.child i) ++ [.child j, .child j, .connect 9] ++
    List.replicate 4 .parent

theorem serv05_one_idle_child_two :
    exists s : Server 2, s.parent = .top ∧ s.accepted = [7, 8] ∧
      s.childStatus 0 = 0 ∧ (s.child 0).idle = true ∧ s.childStatus 1 = 1 ∧
      s.navail = available s.childStatus ∧
      Finset.univ.sum s.childCount = s.accepted.length := by
  have hrun : exists s, (serv05 2).ReachableUnder NoDeath s ∧
      (s.parent = .top ∧ s.accepted = [7, 8] ∧ s.childStatus 0 = 0 ∧ s.childStatus 1 = 1) :=
    System.reachableUnder_of_execUnder (s := Server.initial) (serveTwo 0 1) rfl (by decide)
  rcases hrun with ⟨s, hreach, htop, haccepted, hfree, hbusy⟩
  rcases (serv05_one_idle_child hreach).1 htop with ⟨hnavail, hchildren, hcount⟩
  refine ⟨s, htop, haccepted, hfree, ?_, hbusy, hnavail, hcount⟩
  rcases hchildren 0 with hidle | hserves
  · exact hidle.2.1
  · rw [hserves.1] at hfree
    cases hfree

end Serv05
end PracticeHand
