import Mathlib.Data.Fintype.Basic
import Millionws.Transition

/-!
# Systems side by side

A family of systems that share nothing, of which one takes a step at a time. Whatever the order of
their steps, each of them has a run of its own, and runs of the members can be put together in any
order: `run_actsOf` and `exists_run_interleave`.

## Main definitions

* `Transition.interleave` — the family as one system
* `Transition.actsOf` — what one member does in a run of the family

## Main results

* `Transition.run_actsOf` — a run of the family is a run of each member
* `Transition.exists_run_interleave` — and runs of the members are a run of the family
-/

namespace Transition

variable {ι σ α : Type} [DecidableEq ι] {step : ι → σ → α → Option σ}

/-- One step of one member. -/
def interleave (step : ι → σ → α → Option σ) : (ι → σ) → ι × α → Option (ι → σ) :=
  fun s a => (step a.1 (s a.1) a.2).map (Function.update s a.1)

/-- The actions of member `i`. -/
def actsOf (i : ι) (acts : List (ι × α)) : List α :=
  acts.filterMap fun a => if a.1 = i then some a.2 else none

theorem interleave_eq_some {s t : ι → σ} {i : ι} {a : α} :
    interleave step s (i, a) = some t ↔
      ∃ u, step i (s i) a = some u ∧ Function.update s i u = t := Option.map_eq_some_iff

@[simp] theorem actsOf_nil (i : ι) : actsOf i ([] : List (ι × α)) = [] := rfl

theorem actsOf_cons_self (i : ι) (a : α) (acts : List (ι × α)) :
    actsOf i ((i, a) :: acts) = a :: actsOf i acts := by
  simp [actsOf]

theorem actsOf_cons_of_ne {i j : ι} (h : j ≠ i) (a : α) (acts : List (ι × α)) :
    actsOf i ((j, a) :: acts) = actsOf i acts := by
  simp [actsOf, h]

theorem actsOf_append (i : ι) (as bs : List (ι × α)) :
    actsOf i (as ++ bs) = actsOf i as ++ actsOf i bs := List.filterMap_append

theorem actsOf_map_self (i : ι) (as : List α) : actsOf i (as.map (i, ·)) = as := by
  induction as with
  | nil => rfl
  | cons a as ih => rw [List.map_cons, actsOf_cons_self, ih]

theorem actsOf_map_of_ne {i j : ι} (h : j ≠ i) (as : List α) : actsOf i (as.map (j, ·)) = [] := by
  induction as with
  | nil => rfl
  | cons a as ih => rw [List.map_cons, actsOf_cons_of_ne h, ih]

/-- **Every member has a run of its own.** -/
theorem run_actsOf {s t : ι → σ} {acts : List (ι × α)}
    (h : run (interleave step) s acts = some t) (i : ι) :
    run (step i) (s i) (actsOf i acts) = some (t i) := by
  induction acts generalizing s with
  | nil => exact congrArg some (congrFun (Option.some.inj h) i)
  | cons act acts ih =>
    obtain ⟨j, a⟩ := act
    obtain ⟨u, hu, hrest⟩ := run_cons_eq_some.mp h
    obtain ⟨x, hx, rfl⟩ := interleave_eq_some.mp hu
    have hrun := ih hrest
    rcases eq_or_ne j i with rfl | hj
    · rw [Function.update_self] at hrun
      rw [actsOf_cons_self]
      exact run_cons_eq_some.mpr ⟨x, hx, hrun⟩
    · rw [Function.update_of_ne hj.symm] at hrun
      rwa [actsOf_cons_of_ne hj]

theorem Reachable.of_interleave {s t : ι → σ} (h : Reachable (interleave step) s t) (i : ι) :
    Reachable (step i) (s i) (t i) := by
  obtain ⟨acts, hacts⟩ := h
  exact ⟨_, run_actsOf hacts i⟩

/-- One member runs and the others stand still. -/
theorem run_map_interleave {s : ι → σ} {i : ι} {as : List α} {u : σ}
    (h : run (step i) (s i) as = some u) :
    run (interleave step) s (as.map (i, ·)) = some (Function.update s i u) := by
  induction as generalizing s with
  | nil =>
    obtain rfl := Option.some.inj h
    rw [Function.update_eq_self]
    rfl
  | cons a as ih =>
    obtain ⟨x, hx, hrest⟩ := run_cons_eq_some.mp h
    refine run_cons_eq_some.mpr ⟨_, interleave_eq_some.mpr ⟨x, hx, rfl⟩, ?_⟩
    have hrun : run (step i) (Function.update s i x i) as = some u := by
      rwa [Function.update_self]
    exact (ih hrun).trans (by rw [Function.update_idem])

/-- **Runs of the members are a run of the family**, one after the other for instance. -/
theorem exists_run_interleave [Fintype ι] {s t : ι → σ} {as : ι → List α}
    (h : ∀ i, run (step i) (s i) (as i) = some (t i)) :
    ∃ acts, run (interleave step) s acts = some t ∧ ∀ i, actsOf i acts = as i := by
  -- by induction on the members that have run
  have hsome (l : List ι) (hl : l.Nodup) : ∃ acts,
      run (interleave step) s acts = some (fun i => if i ∈ l then t i else s i) ∧
      ∀ i, actsOf i acts = if i ∈ l then as i else [] := by
    induction l with
    | nil => exact ⟨[], by simp, by simp⟩
    | cons j l ih =>
      obtain ⟨hj, hl⟩ := List.nodup_cons.mp hl
      obtain ⟨acts, hrun, hacts⟩ := ih hl
      have hnext : run (step j) (if j ∈ l then t j else s j) (as j) = some (t j) := by
        rw [if_neg hj]
        exact h j
      refine ⟨acts ++ (as j).map (j, ·), ?_, ?_⟩
      · refine run_append_eq_some.mpr ⟨_, hrun, (run_map_interleave hnext).trans ?_⟩
        refine congrArg some (funext fun i => ?_)
        rcases eq_or_ne i j with rfl | hi
        · simp
        · simp [hi]
      · intro i
        rw [actsOf_append, hacts]
        rcases eq_or_ne i j with rfl | hi
        · simp [hj, actsOf_map_self]
        · simp [hi, actsOf_map_of_ne hi.symm]
  obtain ⟨acts, hrun, hacts⟩ := hsome Finset.univ.toList (Finset.nodup_toList _)
  refine ⟨acts, ?_, fun i => ?_⟩
  · simpa using hrun
  · simpa using hacts i

end Transition
