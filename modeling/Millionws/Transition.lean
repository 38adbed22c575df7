import Mathlib.Data.Option.Basic
import Mathlib.Algebra.Ring.Int.Defs
import Mathlib.Data.List.Induction
import Mathlib.Algebra.BigOperators.Group.List.Basic

/-!
# Runs of a partial transition function

A system is a step function `σ → α → Option σ`: from a state, an action either leads to exactly
one next state or is not enabled. Interleavings are lists of actions, and a property of every
interleaving is a property of every list on which `run` succeeds.

Nothing here knows what the states are. A module about a concrete system proves what *one* step
does and applies a rule of this module; the inductions over runs are here.

## Main definitions

* `Transition.run` — a list of actions, one after another
* `Transition.Reachable` — some list leads there
* `Transition.trace` — what a run does, as the labels of its steps
* `Transition.withMonitor` — the same system, observed by a monitor that never blocks it

## Main results

* `Transition.run_invariant`, `Transition.run_invariant_of_forall` — an invariant of the step, or of
  the steps by some of the actions, is an invariant of the run
* `Transition.run_history` — and so is one that speaks of the actions taken
* `Transition.Reachable.simulation` — a projection that turns steps into runs turns runs into runs
* `Transition.run_trace`, `Transition.run_trace_of_invariant` — a system that takes the labelled
  steps runs along
* `Transition.run_budget` — a potential bounds a cost summed over the run
* `Transition.run_withMonitor` — observing a system does not change its runs
* `Transition.run_label_withMonitor` — a projection takes the monitor along
-/

namespace Transition

variable {σ τ α β μ ν : Type}

/-- The state after the actions, taken one after another; `none` once one is not enabled. -/
def run (step : σ → α → Option σ) : σ → List α → Option σ
  | s, [] => some s
  | s, a :: as => (step s a).bind fun t => run step t as

/-- `t` is reached from `s` by some list of actions. -/
def Reachable (step : σ → α → Option σ) (s t : σ) : Prop := ∃ as, run step s as = some t

variable {step : σ → α → Option σ}

@[simp] theorem run_nil (s : σ) : run step s [] = some s := rfl

theorem run_cons (s : σ) (a : α) (as : List α) :
    run step s (a :: as) = (step s a).bind fun t => run step t as := rfl

theorem run_cons_eq_some {s u : σ} {a : α} {as : List α} :
    run step s (a :: as) = some u ↔ ∃ t, step s a = some t ∧ run step t as = some u := by
  rw [run_cons, Option.bind_eq_some_iff]

theorem run_append (s : σ) (as bs : List α) :
    run step s (as ++ bs) = (run step s as).bind fun t => run step t bs := by
  induction as generalizing s with
  | nil => rfl
  | cons a as ih =>
    rw [List.cons_append, run_cons, run_cons, Option.bind_assoc]
    exact congrArg _ (funext fun t => ih t)

theorem run_append_eq_some {s u : σ} {as bs : List α} :
    run step s (as ++ bs) = some u ↔ ∃ t, run step s as = some t ∧ run step t bs = some u := by
  rw [run_append, Option.bind_eq_some_iff]

theorem Reachable.refl (s : σ) : Reachable step s s := ⟨[], rfl⟩

theorem Reachable.trans {s t u : σ} (h : Reachable step s t) (h' : Reachable step t u) :
    Reachable step s u := by
  obtain ⟨as, has⟩ := h
  obtain ⟨bs, hbs⟩ := h'
  exact ⟨as ++ bs, run_append_eq_some.mpr ⟨t, has, hbs⟩⟩

/-! ### Invariants -/

/-- **The invariant rule for some of the actions.** What the steps by actions in `Q` preserve, a
run of such actions preserves. -/
theorem run_invariant_of_forall {P : σ → Prop} {Q : α → Prop}
    (hstep : ∀ s a t, Q a → P s → step s a = some t → P t)
    {s t : σ} {as : List α} (has : ∀ a ∈ as, Q a) (hs : P s) (h : run step s as = some t) :
    P t := by
  induction as generalizing s with
  | nil => exact Option.some.inj h ▸ hs
  | cons a as ih =>
    obtain ⟨u, hu, hrest⟩ := run_cons_eq_some.mp h
    exact ih (fun b hb => has b (List.mem_cons_of_mem a hb))
      (hstep s a u (has a List.mem_cons_self) hs hu) hrest

/-- **The invariant rule.** What one step preserves, a run preserves. -/
theorem run_invariant {P : σ → Prop} (hstep : ∀ s a t, P s → step s a = some t → P t)
    {s t : σ} {as : List α} (hs : P s) (h : run step s as = some t) : P t :=
  run_invariant_of_forall (Q := fun _ => True) (fun s a t _ => hstep s a t)
    (fun _ _ => trivial) hs h

theorem Reachable.invariant {P : σ → Prop} (hstep : ∀ s a t, P s → step s a = some t → P t)
    {s t : σ} (hs : P s) (h : Reachable step s t) : P t := by
  obtain ⟨as, has⟩ := h
  exact run_invariant hstep hs has

/-- **The history rule.** An invariant that speaks of the actions taken so far. -/
theorem run_history {P : List α → σ → Prop} {s : σ} (hnil : P [] s)
    (hstep : ∀ as t a u, P as t → step t a = some u → P (as ++ [a]) u)
    {t : σ} {as : List α} (h : run step s as = some t) : P as t := by
  induction as using List.reverseRecOn generalizing t with
  | nil => exact Option.some.inj h ▸ hnil
  | append_singleton as a ih =>
    obtain ⟨u, hu, hlast⟩ := run_append_eq_some.mp h
    obtain ⟨v, hv, hend⟩ := run_cons_eq_some.mp hlast
    exact Option.some.inj hend ▸ hstep as u a v (ih hu) hv

/-! ### Simulation -/

/-- **The simulation rule.** If every step of one system projects to a run of another, possibly
an empty one, then every state the first reaches projects to one the second reaches. -/
theorem Reachable.simulation {step' : τ → β → Option τ} (proj : σ → τ)
    (hstep : ∀ s a t, step s a = some t → Reachable step' (proj s) (proj t))
    {s t : σ} (h : Reachable step s t) : Reachable step' (proj s) (proj t) := by
  obtain ⟨as, has⟩ := h
  induction as generalizing s with
  | nil => exact Option.some.inj has ▸ Reachable.refl _
  | cons a as ih =>
    obtain ⟨u, hu, hrest⟩ := run_cons_eq_some.mp has
    exact (hstep s a u hu).trans (ih hrest)

/-- The labels of the steps of a run, in order; a step without a label leaves no trace. -/
def trace (step : σ → α → Option σ) (label : σ → α → Option β) : σ → List α → List β
  | _, [] => []
  | s, a :: as => (label s a).toList ++ (step s a).elim [] fun t => trace step label t as

theorem mem_trace {label : σ → α → Option β} {s t : σ} {as : List α} {b : β}
    (h : run step s as = some t) (hb : b ∈ trace step label s as) :
    ∃ u, ∃ a ∈ as, ∃ v, step u a = some v ∧ label u a = some b := by
  induction as generalizing s with
  | nil => cases hb
  | cons a as ih =>
    obtain ⟨u, hu, hrest⟩ := run_cons_eq_some.mp h
    rw [trace, hu, Option.elim_some] at hb
    rcases List.mem_append.mp hb with hb | hb
    · exact ⟨s, a, List.mem_cons_self, u, hu, Option.mem_toList.mp hb⟩
    · obtain ⟨v, a', ha', hstep⟩ := ih hrest hb
      exact ⟨v, a', List.mem_cons_of_mem a ha', hstep⟩

/-- **The stuttering rule.** If every step from a state that satisfies an invariant projects to the
step that its label names, or to none if it has no label, then every run projects to the run along
its trace. -/
theorem run_trace_of_invariant {step' : τ → β → Option τ} {P : σ → Prop} (proj : σ → τ)
    {label : σ → α → Option β} (hinv : ∀ s a t, P s → step s a = some t → P t)
    (hstep : ∀ s a t, P s → step s a = some t →
      run step' (proj s) (label s a).toList = some (proj t))
    {s t : σ} {as : List α} (hs : P s) (h : run step s as = some t) :
    run step' (proj s) (trace step label s as) = some (proj t) := by
  induction as generalizing s with
  | nil => exact congrArg _ (congrArg proj (Option.some.inj h))
  | cons a as ih =>
    obtain ⟨u, hu, hrest⟩ := run_cons_eq_some.mp h
    rw [trace, hu]
    exact run_append_eq_some.mpr ⟨proj u, hstep s a u hs hu, ih (hinv s a u hs hu) hrest⟩

theorem run_trace {step' : τ → β → Option τ} (proj : σ → τ) {label : σ → α → Option β}
    (hstep : ∀ s a t, step s a = some t →
      run step' (proj s) (label s a).toList = some (proj t))
    {s t : σ} {as : List α} (h : run step s as = some t) :
    run step' (proj s) (trace step label s as) = some (proj t) :=
  run_trace_of_invariant (P := fun _ => True) proj (fun _ _ _ _ _ => trivial)
    (fun s a t _ => hstep s a t) trivial h

/-! ### Budgets -/

/-- **The budget rule.** If every step pays for its cost out of a potential that only some
actions refill, the cost of a run is at most the potential at its start and what was refilled. -/
theorem run_budget (φ : σ → ℤ) (cost gain : α → ℤ)
    (hstep : ∀ s a t, step s a = some t → φ t + cost a ≤ φ s + gain a)
    {s t : σ} {as : List α} (h : run step s as = some t) :
    φ t + (as.map cost).sum ≤ φ s + (as.map gain).sum := by
  induction as generalizing s with
  | nil =>
    obtain rfl := Option.some.inj h
    simp
  | cons a as ih =>
    obtain ⟨u, hu, hrest⟩ := run_cons_eq_some.mp h
    have hhead := hstep s a u hu
    have htail := ih hrest
    rw [List.map_cons, List.sum_cons, List.map_cons, List.sum_cons]
    omega

/-! ### Monitors

A ghost state that watches a system: it sees every step, and no step depends on it. -/

/-- The system with a monitor beside it. -/
def withMonitor (step : σ → α → Option σ) (watch : μ → σ → α → μ) :
    σ × μ → α → Option (σ × μ) :=
  fun s a => (step s.1 a).map fun t => (t, watch s.2 s.1 a)

theorem withMonitor_eq_some {watch : μ → σ → α → μ} {s t : σ × μ} {a : α} :
    withMonitor step watch s a = some t ↔
      step s.1 a = some t.1 ∧ t.2 = watch s.2 s.1 a := by
  rw [withMonitor, Option.map_eq_some_iff]
  constructor
  · rintro ⟨u, hu, rfl⟩
    exact ⟨hu, rfl⟩
  · rintro ⟨hu, hm⟩
    exact ⟨t.1, hu, by rw [← hm]⟩

/-- **Watching changes nothing.** Every run of a system is a run beside any monitor. -/
theorem run_withMonitor (watch : μ → σ → α → μ) {s t : σ} {as : List α} (m : μ)
    (h : run step s as = some t) : ∃ m', run (withMonitor step watch) (s, m) as = some (t, m') := by
  induction as generalizing s m with
  | nil => exact ⟨m, by rw [run_nil, Option.some.inj h]⟩
  | cons a as ih =>
    obtain ⟨u, hu, hrest⟩ := run_cons_eq_some.mp h
    obtain ⟨m', hm'⟩ := ih (watch m s a) hrest
    exact ⟨m', run_cons_eq_some.mpr ⟨(u, watch m s a), withMonitor_eq_some.mpr ⟨hu, rfl⟩, hm'⟩⟩

/-- Nor its trace. -/
theorem trace_withMonitor {watch : μ → σ → α → μ} (label : σ → α → Option β) (s : σ) (m : μ)
    (as : List α) :
    trace (withMonitor step watch) (fun p => label p.1) (s, m) as = trace step label s as := by
  induction as generalizing s m with
  | nil => rfl
  | cons a as ih =>
    rw [trace, trace, withMonitor]
    cases step s a with
    | none => rfl
    | some t => exact congrArg _ (ih t _)

/-- And the monitor's own run is one of the system. -/
theorem run_of_run_withMonitor {watch : μ → σ → α → μ} {s t : σ × μ} {as : List α}
    (h : run (withMonitor step watch) s as = some t) : run step s.1 as = some t.1 := by
  induction as generalizing s with
  | nil => exact congrArg _ (congrArg Prod.fst (Option.some.inj h))
  | cons a as ih =>
    obtain ⟨u, hu, hrest⟩ := run_cons_eq_some.mp h
    exact run_cons_eq_some.mpr ⟨u.1, (withMonitor_eq_some.mp hu).1, ih hrest⟩

/-- **A step beside its monitor projects** where the step does, if the monitor sees what the label
names and nothing else. -/
theorem run_label_withMonitor {step' : τ → β → Option τ}
    {watch' : ν → τ → β → ν} {label : Option β} {proj : σ → τ} {view : μ → ν} {p q : σ × μ}
    (hstep : run step' (proj p.1) label.toList = some (proj q.1))
    (hview : view q.2 = label.elim (view p.2) (watch' (view p.2) (proj p.1))) :
    run (withMonitor step' watch') (proj p.1, view p.2) label.toList =
      some (proj q.1, view q.2) := by
  rw [hview]
  cases label with
  | none => exact congrArg some (Prod.ext (Option.some.inj hstep) rfl)
  | some b =>
    obtain ⟨t, ht, hend⟩ := run_cons_eq_some.mp hstep
    obtain rfl := Option.some.inj hend
    exact run_cons_eq_some.mpr ⟨_, withMonitor_eq_some.mpr ⟨ht, rfl⟩, rfl⟩

end Transition
