import PracticeHand.Concurrency.Threads

/-!
# Mutex ownership and sleepers

Two facts about every program over the machine, each from a check of the
program alone.  If an annotation says which mutexes are held at a location and
every instruction respects it, a mutex is owned by a thread exactly when the
thread is at a location that holds it.  If an annotation says where a thread
sleeps, a sleeping thread is there.
-/

namespace PracticeHand
namespace Concurrency

variable {thread mutex cond mem choice : Type} {loc : thread -> Type}

/-- The annotation `held` agrees with what the instruction at `l` does. -/
def Instr.Respects {loc : Type} (held : loc -> mutex -> Prop) (l : loc) :
    Instr mutex cond mem choice loc -> Prop
  | .lock m next => forall m', held next m' <-> m' = m ∨ held l m'
  | .unlock m next => forall m', held next m' <-> m' ≠ m ∧ held l m'
  | .wait _ m next => forall m', held next m' <-> m' ≠ m ∧ held l m'
  | .act f => forall s c s' next w, f s c = some (s', next, w) ->
      forall m', held next m' <-> held l m'

def Instr.SyncRespects {loc : Type} (held : loc -> mutex -> Prop) (l : loc) :
    Instr mutex cond mem choice loc -> Prop
  | .act _ => True
  | i => i.Respects held l

theorem Instr.respects_of_sync {loc : Type} {held : loc -> mutex -> Prop}
    {l : loc} {i : Instr mutex cond mem choice loc}
    (hsync : i.SyncRespects held l)
    (hact : forall s c s' next w, i.Acts s c s' next w ->
      forall m, held next m <-> held l m) :
    i.Respects held l := by
  cases i with
  | lock | unlock | wait => exact hsync
  | act f => exact hact

def Owned (held : (t : thread) -> loc t -> mutex -> Prop)
    (c : Threads thread mutex cond loc) : Prop :=
  forall m t, c.owner m = some t <-> held t (c.loc t) m

/-- A sleeper of a condition variable is at a location where that is annotated. -/
def SleepsAt (sleeps : (t : thread) -> loc t -> cond -> Prop)
    (c : Threads thread mutex cond loc) : Prop :=
  forall t k, c.asleep t = some k -> sleeps t (c.loc t) k

section Mutexes

variable {held : (t : thread) -> loc t -> mutex -> Prop}
variable {c : Threads thread mutex cond loc}

theorem Owned.unique (h : Owned held c) {m : mutex} {t u : thread}
    (ht : held t (c.loc t) m) (hu : held u (c.loc u) m) : t = u := by
  have hto := (h m t).mpr ht
  have huo := (h m u).mpr hu
  rw [hto] at huo
  exact Option.some.inj huo

variable [DecidableEq thread]

theorem Owned.keep (h : Owned held c) {t : thread} {next : loc t}
    (hnext : forall m', held t next m' <-> held t (c.loc t) m')
    (asleep : thread -> Option cond) :
    Owned held { c with loc := Function.update c.loc t next, asleep := asleep } := by
  intro m' u
  dsimp only
  by_cases hu : u = t
  · subst hu
    rw [Function.update_self, hnext]
    exact h m' u
  · rw [Function.update_of_ne hu]
    exact h m' u

variable [DecidableEq mutex]

theorem Owned.acquire (h : Owned held c) {m : mutex} {t : thread}
    {next : loc t} (hfree : c.owner m = none)
    (hnext : forall m', held t next m' <-> m' = m ∨ held t (c.loc t) m') :
    Owned held { c with
      owner := Function.update c.owner m (some t)
      loc := Function.update c.loc t next } := by
  intro m' u
  dsimp only
  by_cases hu : u = t
  · subst hu
    rw [Function.update_self, hnext]
    by_cases hm : m' = m
    · subst hm
      simp
    · rw [Function.update_of_ne hm, h m' u]
      simp [hm]
  · rw [Function.update_of_ne hu]
    by_cases hm : m' = m
    · subst hm
      have hfree' : ¬ held u (c.loc u) m' := by
        rw [← h m' u, hfree]
        simp
      simp [hfree', Ne.symm hu]
    · rw [Function.update_of_ne hm, h m' u]

theorem Owned.release (h : Owned held c) {m : mutex} {t : thread}
    {next : loc t} (hown : c.owner m = some t)
    (hnext : forall m', held t next m' <-> m' ≠ m ∧ held t (c.loc t) m')
    (asleep : thread -> Option cond) :
    Owned held
      { owner := Function.update c.owner m none
        loc := Function.update c.loc t next
        asleep := asleep } := by
  intro m' u
  dsimp only
  by_cases hu : u = t
  · subst hu
    rw [Function.update_self, hnext]
    by_cases hm : m' = m
    · subst hm
      simp
    · rw [Function.update_of_ne hm, h m' u]
      simp [hm]
  · rw [Function.update_of_ne hu]
    by_cases hm : m' = m
    · subst hm
      have hother : ¬ held u (c.loc u) m' := by
        intro hheld
        exact hu (h.unique hheld ((h m' t).mp hown))
      simp [hother]
    · rw [Function.update_of_ne hm, h m' u]

variable [Fintype thread] [DecidableEq cond]
variable {prog : Program thread mutex cond mem choice loc}
variable {s s' : mem} {c' : Threads thread mutex cond loc}
variable {e : Event thread choice}

theorem Owned.fires
    (hprog : forall t l, (prog t l).Respects (held t) l)
    (h : Owned held c) (hfire : Fires prog s c e s' c') : Owned held c' := by
  cases hfire with
  | @lock t _ _ m next _ hinstr hfree =>
      have hres := hprog t (c.loc t)
      rw [hinstr] at hres
      exact h.acquire hfree hres
  | @unlock t _ _ m next _ hinstr hown =>
      have hres := hprog t (c.loc t)
      rw [hinstr] at hres
      exact h.release hown hres c.asleep
  | @wait t _ _ k m next _ hinstr hown =>
      have hres := hprog t (c.loc t)
      rw [hinstr] at hres
      exact h.release hown hres _
  | @act t ch _ _ next w asleep _ hacts _ =>
      have hres := hprog t (c.loc t)
      cases hinstr : prog t (c.loc t) with
      | act f =>
          rw [hinstr] at hres hacts
          exact h.keep (hres s ch s' next w hacts) asleep
      | lock | unlock | wait =>
          rw [hinstr] at hacts
          exact hacts.elim
  | spurious _ => exact h

end Mutexes

section Sleepers

variable [DecidableEq thread] [Fintype thread] [DecidableEq cond]

theorem Wake.apply_sub {w : Wake cond} {woken : Option thread}
    {asleep asleep' : thread -> Option cond}
    (h : w.apply woken asleep = some asleep') {t : thread} {k : cond}
    (ht : asleep' t = some k) : asleep t = some k := by
  cases w with
  | nobody =>
      cases woken with
      | none =>
          cases h
          exact ht
      | some u => cases h
  | signal j =>
      cases woken with
      | none =>
          simp only [apply] at h
          split at h
          · cases h
            exact ht
          · cases h
      | some u =>
          simp only [apply] at h
          split at h
          · cases h
            exact (some_of_update_none ht).2
          · cases h
  | broadcast j =>
      cases woken with
      | none =>
          cases h
          by_cases hj : asleep t = some j
          · simp [hj] at ht
          · simpa [hj] using ht
      | some u => cases h

theorem Wake.apply_nobody {woken : Option thread} {asleep asleep' : thread -> Option cond}
    (h : (Wake.nobody).apply woken asleep = some asleep') : asleep' = asleep := by
  cases woken with
  | none => exact (Option.some.inj h).symm
  | some u => cases h

theorem Wake.apply_signal {k : cond} {woken : Option thread}
    {asleep asleep' : thread -> Option cond}
    (h : (Wake.signal k).apply woken asleep = some asleep') :
    (exists u, asleep u = some k ∧ asleep' = Function.update asleep u none) ∨
      ((forall u, asleep u ≠ some k) ∧ asleep' = asleep) := by
  cases woken with
  | none =>
      simp only [apply] at h
      split at h
      · rename_i hnone
        cases h
        exact Or.inr ⟨hnone, rfl⟩
      · cases h
  | some u =>
      simp only [apply] at h
      split at h
      · rename_i hu
        cases h
        exact Or.inl ⟨u, hu, rfl⟩
      · cases h

variable [DecidableEq mutex]
variable {sleeps : (t : thread) -> loc t -> cond -> Prop}
variable {prog : Program thread mutex cond mem choice loc}
variable {s s' : mem} {c c' : Threads thread mutex cond loc}
variable {e : Event thread choice}

theorem SleepsAt.fires
    (hprog : forall t l k m next, prog t l = .wait k m next -> sleeps t next k)
    (h : SleepsAt sleeps c) (hfire : Fires prog s c e s' c') :
    SleepsAt sleeps c' := by
  intro u k hu
  cases hfire with
  | @lock t _ _ _ next hawake _ _ | @unlock t _ _ _ next hawake _ _ =>
      dsimp only at hu
      have hut : u ≠ t := by
        intro hut
        rw [hut, hawake] at hu
        cases hu
      simpa [Function.update_of_ne hut] using h u k hu
  | @wait t _ _ j m next hawake hinstr _ =>
      by_cases hut : u = t
      · subst hut
        have hkj : j = k := by simpa using hu
        subst hkj
        simpa using hprog u _ _ m next hinstr
      · simp only [Function.update_of_ne hut] at hu ⊢
        exact h u k hu
  | @act t _ _ _ next _ asleep hawake _ hwake =>
      have hold := Wake.apply_sub hwake hu
      have hut : u ≠ t := by
        intro hut
        rw [hut, hawake] at hold
        cases hold
      simpa [Function.update_of_ne hut] using h u k hold
  | spurious => exact h u k (some_of_update_none hu).2

end Sleepers

end Concurrency
end PracticeHand
