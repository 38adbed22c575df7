import Millionws.DialAccounting

/-!
# The dial loop

`dialLoop` wakes every 10 ms and starts dials until its budget for the tick is spent, the target
is reached or all slots are taken. The check against the target reads two atomic counters one
after the other, and between any two steps of the loop any dial goroutine and any `OnClose`
callback may move; so the loop is a program counter over `Shared`, and an interleaving is a list
of actions, its own and those of the others.

## Rate

`perTick` is `rate / 100` but at least one, so the loop never stands still and a rate below 100 is
not kept: 100 ticks of one dial each are 100 dials a second. `rate_kept_iff` says that these are
the only rates it does not keep.

## What is deliberately absent

The loop counts `next` in an `int`; it is a natural number here, and the two agree until `next`
overflows. What happens when the context is cancelled while a tick is waiting too is left open,
as `select` leaves it open.

## Main definitions

* `DialConfig` — what `dialLoop` is called with
* `LoopPc`, `DialLoop`, `DialLoop.step` — the loop, interleaved with everything else

## Main results

* `DialLoop.reachable_shared` — every run of the loop is a run of the shared state
* `DialLoop.starts_le` — a window of ticks starts at most `perTick` dials for each
* `DialLoop.rate_kept_iff` — so the rate is kept exactly from 100 on, or when there is no target
-/

namespace Millionws

open Transition

/-! ### The loop -/

/-- The arguments of `dialLoop` that the loop itself reads. -/
structure DialConfig where
  urls : List String
  /-- `strings.Split` never returns an empty slice. -/
  urls_ne : urls ≠ []
  target : ℤ
  rate : ℤ
  inflight : ℕ

/-- `perTick := max(rate/100, 1)`; division in Go truncates towards zero. -/
def DialConfig.perTick (cfg : DialConfig) : ℕ := (max (cfg.rate.tdiv 100) 1).toNat

/-- `urls[next%len(urls)]`. -/
def DialConfig.url (cfg : DialConfig) (next : ℕ) : String :=
  cfg.urls.get ⟨next % cfg.urls.length, Nat.mod_lt _ (List.length_pos_iff.mpr cfg.urls_ne)⟩

/-- Where `dialLoop` is. -/
inductive LoopPc where
  /-- In the `select` on `ctx.Done()` and `tick.C`. -/
  | waiting
  /-- At the condition `i < perTick`, and then at `active.Load()`. -/
  | checking (i : ℕ)
  /-- `active.Load()` returned `a`; next is `pending.Load()`. -/
  | loaded (i : ℕ) (a : ℤ)
  /-- The target is not reached; next is the `select` on `sem`. -/
  | acquiring (i : ℕ)
  | stopped
  deriving DecidableEq

/-- The loop's variables beside the state it shares. -/
structure DialLoop where
  pc : LoopPc
  next : ℕ
  shared : Shared

/-- Whose turn it is. -/
inductive LoopAct where
  | tick
  | done
  /-- The next step of the loop itself. -/
  | loop
  /-- A step of a dial goroutine or of `OnClose`. -/
  | env (a : Act)
  deriving DecidableEq

namespace DialLoop

/-- Nothing dialed, waiting for the first tick. -/
def start (capacity : ℕ) : DialLoop := ⟨.waiting, 0, Shared.init capacity⟩

/-- The next step of the loop itself. -/
def loop (cfg : DialConfig) (s : DialLoop) : Option DialLoop :=
  match s.pc with
  | .checking i =>
    if i < cfg.perTick then some { s with pc := .loaded i s.shared.active }
    else some { s with pc := .waiting }
  | .loaded i a =>
    if a + s.shared.pending ≥ cfg.target then some { s with pc := .waiting }
    else some { s with pc := .acquiring i }
  | .acquiring i =>
    match s.shared.step cfg.inflight (.start (cfg.url s.next)) with
    | some shared => some ⟨.checking (i + 1), s.next + 1, shared⟩
    -- `i = perTick` and then `i++`
    | none => some { s with pc := .checking (cfg.perTick + 1) }
  | _ => none

/-- One step of anyone. -/
def step (cfg : DialConfig) (s : DialLoop) : LoopAct → Option DialLoop
  | .tick => if s.pc = .waiting then some { s with pc := .checking 0 } else none
  | .done => if s.pc = .waiting then some { s with pc := .stopped } else none
  | .loop => s.loop cfg
  | .env a =>
    if a.isStart then none
    else (s.shared.step cfg.inflight a).map fun shared => { s with shared := shared }

variable {cfg : DialConfig}

theorem step_tick_eq_some {s t : DialLoop} :
    s.step cfg .tick = some t ↔ s.pc = .waiting ∧ t = { s with pc := .checking 0 } := by
  rw [step]
  split_ifs with h <;> simp [h, eq_comm]

theorem step_done_eq_some {s t : DialLoop} :
    s.step cfg .done = some t ↔ s.pc = .waiting ∧ t = { s with pc := .stopped } := by
  rw [step]
  split_ifs with h <;> simp [h, eq_comm]

theorem step_env_eq_some {s t : DialLoop} {a : Act} :
    s.step cfg (.env a) = some t ↔
      a.isStart = false ∧
        ∃ u, s.shared.step cfg.inflight a = some u ∧ t = { s with shared := u } := by
  rw [step]
  split_ifs with h
  · simp [h]
  · simp [h, eq_comm]

/-- **What the loop can do.** It reads a counter, gives the tick up or starts a dial. -/
theorem loop_cases {s t : DialLoop} (h : s.loop cfg = some t) :
    (∃ i, s.pc = .checking i ∧ i < cfg.perTick ∧ t = { s with pc := .loaded i s.shared.active }) ∨
    (∃ i, s.pc = .checking i ∧ cfg.perTick ≤ i ∧ t = { s with pc := .waiting }) ∨
    (∃ i a, s.pc = .loaded i a ∧ cfg.target ≤ a + s.shared.pending ∧
      t = { s with pc := .waiting }) ∨
    (∃ i a, s.pc = .loaded i a ∧ a + s.shared.pending < cfg.target ∧
      t = { s with pc := .acquiring i }) ∨
    (∃ i u, s.pc = .acquiring i ∧ s.shared.step cfg.inflight (.start (cfg.url s.next)) = some u ∧
      t = ⟨.checking (i + 1), s.next + 1, u⟩) ∨
    (∃ i, s.pc = .acquiring i ∧ cfg.inflight ≤ s.shared.sem ∧
      t = { s with pc := .checking (cfg.perTick + 1) }) := by
  rw [loop] at h
  cases hpc : s.pc with
  | checking i =>
    rw [hpc] at h
    rcases Nat.lt_or_ge i cfg.perTick with hi | hi
    · simp only [if_pos hi, Option.some.injEq] at h
      exact Or.inl ⟨i, rfl, hi, h.symm⟩
    · simp only [if_neg (Nat.not_lt.mpr hi), Option.some.injEq] at h
      exact Or.inr (Or.inl ⟨i, rfl, hi, h.symm⟩)
  | loaded i a =>
    rw [hpc] at h
    rcases lt_or_ge (a + s.shared.pending) cfg.target with ha | ha
    · simp only [if_neg (Int.not_le.mpr ha), Option.some.injEq] at h
      exact Or.inr (Or.inr (Or.inr (Or.inl ⟨i, a, rfl, ha, h.symm⟩)))
    · simp only [if_pos ha, Option.some.injEq] at h
      exact Or.inr (Or.inr (Or.inl ⟨i, a, rfl, ha, h.symm⟩))
  | acquiring i =>
    rw [hpc] at h
    cases hstart : s.shared.step cfg.inflight (.start (cfg.url s.next)) with
    | some u =>
      simp only [hstart, Option.some.injEq] at h
      exact Or.inr (Or.inr (Or.inr (Or.inr (Or.inl ⟨i, u, rfl, rfl, h.symm⟩))))
    | none =>
      have hfull : cfg.inflight ≤ s.shared.sem := by
        by_contra hfree
        rw [Shared.step_start_eq_some.mpr ⟨Nat.not_le.mp hfree, rfl⟩] at hstart
        cases hstart
      simp only [hstart, Option.some.injEq] at h
      exact Or.inr (Or.inr (Or.inr (Or.inr (Or.inr ⟨i, rfl, hfull, h.symm⟩))))
  | waiting => rw [hpc] at h; cases h
  | stopped => rw [hpc] at h; cases h

/-! ### The shared state underneath -/

/-- One step of anyone is at most one step of the shared state. -/
theorem step_shared {s t : DialLoop} {a : LoopAct} (h : s.step cfg a = some t) :
    Reachable (Shared.step cfg.inflight) s.shared t.shared := by
  have hone {a : Act} {u : Shared} (hu : s.shared.step cfg.inflight a = some u) :
      Reachable (Shared.step cfg.inflight) s.shared u := ⟨[a], by rw [run_cons, hu]; rfl⟩
  cases a with
  | tick =>
    obtain ⟨-, rfl⟩ := step_tick_eq_some.mp h
    exact Reachable.refl _
  | done =>
    obtain ⟨-, rfl⟩ := step_done_eq_some.mp h
    exact Reachable.refl _
  | loop =>
    obtain ⟨i, -, -, rfl⟩ | ⟨i, -, -, rfl⟩ | ⟨i, a, -, -, rfl⟩ | ⟨i, a, -, -, rfl⟩ |
      ⟨i, u, -, hu, rfl⟩ | ⟨i, -, -, rfl⟩ := loop_cases h
    case inr.inr.inr.inr.inl => exact hone hu
    all_goals exact Reachable.refl _
  | env a =>
    obtain ⟨-, u, hu, rfl⟩ := step_env_eq_some.mp h
    exact hone hu

/-- **Refinement.** What the loop and everyone else do to the shared state is a run of the shared
state, so that all of `accounting` holds beside the loop. -/
theorem reachable_shared {capacity : ℕ} {s : DialLoop}
    (h : Reachable (step cfg) (start capacity) s) :
    Reachable (Shared.step cfg.inflight) (Shared.init capacity) s.shared :=
  Reachable.simulation shared (fun _ _ _ => step_shared) h

/-! ### How many dials a tick starts -/

/-- The dials that the current tick may still start. -/
def budget (cfg : DialConfig) (s : DialLoop) : ℤ :=
  match s.pc with
  | .checking i => max (cfg.perTick - i) 0
  | .loaded i _ => max (cfg.perTick - i) 1
  | .acquiring i => max (cfg.perTick - i) 1
  | _ => 0

theorem budget_nonneg (cfg : DialConfig) (s : DialLoop) : 0 ≤ s.budget cfg := by
  rw [budget]
  split <;> omega

/-- A tick adds `perTick` to the budget, and a dial is paid for out of it. -/
theorem budget_step {s t : DialLoop} {a : LoopAct} (h : s.step cfg a = some t) :
    t.budget cfg + t.shared.dials.length + 0 ≤
      s.budget cfg + s.shared.dials.length + if a = .tick then (cfg.perTick : ℤ) else 0 := by
  cases a with
  | tick =>
    obtain ⟨hpc, rfl⟩ := step_tick_eq_some.mp h
    simp only [budget, hpc, if_true]
    omega
  | done =>
    obtain ⟨hpc, rfl⟩ := step_done_eq_some.mp h
    simp [budget, hpc]
  | loop =>
    obtain ⟨i, hpc, hi, rfl⟩ | ⟨i, hpc, -, rfl⟩ | ⟨i, a, hpc, -, rfl⟩ | ⟨i, a, hpc, -, rfl⟩ |
      ⟨i, u, hpc, hu, rfl⟩ | ⟨i, hpc, -, rfl⟩ := loop_cases h
    case inr.inr.inr.inr.inl =>
      obtain ⟨-, rfl⟩ := Shared.step_start_eq_some.mp hu
      simp only [budget, hpc, List.length_append, List.length_singleton, reduceCtorEq, if_false]
      omega
    all_goals
      simp only [budget, hpc, reduceCtorEq, if_false]
      omega
  | env a =>
    obtain ⟨ha, u, hu, rfl⟩ := step_env_eq_some.mp h
    simp [budget, Shared.length_dials_of_step hu ha]

/-- What one kind of action costs a run. -/
theorem sum_map_ite (b : LoopAct) (c : ℤ) (as : List LoopAct) :
    (as.map fun a => if a = b then c else 0).sum = c * as.count b := by
  simp [List.sum_map_ite_eq]
  ring

/-- **At most `perTick` dials for each tick**, in any window that begins with one. -/
theorem starts_le {s t : DialLoop} {seg : List LoopAct}
    (h : run (step cfg) s (.tick :: seg) = some t) :
    t.shared.dials.length ≤
      s.shared.dials.length + cfg.perTick * (LoopAct.tick :: seg).count .tick := by
  obtain ⟨u, htick, -⟩ := run_cons_eq_some.mp h
  have hstart : s.budget cfg = 0 := by rw [budget, (step_tick_eq_some.mp htick).1]
  have hbudget := run_budget (fun s => s.budget cfg + s.shared.dials.length) (fun _ => 0)
    (fun a => if a = .tick then (cfg.perTick : ℤ) else 0) (fun _ _ _ => budget_step) h
  rw [sum_map_ite, hstart, List.map_const', List.sum_replicate, nsmul_zero] at hbudget
  have hend := t.budget_nonneg cfg
  zify
  omega

/-! ### The rate -/

/-- In every window of 100 ticks, at most `rate` dials are started. -/
def RateKept (cfg : DialConfig) (capacity : ℕ) : Prop :=
  ∀ s t seg, Reachable (step cfg) (start capacity) s →
    run (step cfg) s (.tick :: seg) = some t → (LoopAct.tick :: seg).count .tick = 100 →
    (t.shared.dials.length : ℤ) ≤ s.shared.dials.length + cfg.rate

/-- From 100 on, 100 ticks' worth of the truncated quotient is no more than the rate. -/
theorem rateKept_of_le_rate (h : 100 ≤ cfg.rate) (capacity : ℕ) : RateKept cfg capacity := by
  intro s t seg _ hrun hcount
  have hle := starts_le hrun
  have hper : (cfg.perTick * 100 : ℤ) ≤ cfg.rate := by
    rw [DialConfig.perTick, Int.tdiv_eq_ediv_of_nonneg (by omega)]
    omega
  rw [hcount] at hle
  zify at hle
  omega

/-- Nothing has been dialed, and the loop is not about to dial. -/
structure Untouched (s : DialLoop) : Prop where
  shared : s.shared.dials = [] ∧ s.shared.active = 0 ∧ s.shared.pending = 0
  pc : ∀ i, s.pc ≠ .acquiring i
  loaded : ∀ i a, s.pc = .loaded i a → a = 0

/-- Without a target there is nothing to dial. -/
theorem Untouched.step {s t : DialLoop} {a : LoopAct} (h : Untouched s) (htarget : cfg.target ≤ 0)
    (ht : s.step cfg a = some t) : Untouched t := by
  obtain ⟨⟨hdials, hactive, hpending⟩, hpc, hloaded⟩ := h
  cases a with
  | tick =>
    obtain ⟨-, rfl⟩ := step_tick_eq_some.mp ht
    exact ⟨⟨hdials, hactive, hpending⟩, by simp, by simp⟩
  | done =>
    obtain ⟨-, rfl⟩ := step_done_eq_some.mp ht
    exact ⟨⟨hdials, hactive, hpending⟩, by simp, by simp⟩
  | loop =>
    obtain ⟨i, -, -, rfl⟩ | ⟨i, -, -, rfl⟩ | ⟨i, a, -, -, rfl⟩ | ⟨i, a, hl, hlt, rfl⟩ |
      ⟨i, u, ha, -, -⟩ | ⟨i, ha, -, -⟩ := loop_cases ht
    · exact ⟨⟨hdials, hactive, hpending⟩, by simp, by simp [hactive]⟩
    · exact ⟨⟨hdials, hactive, hpending⟩, by simp, by simp⟩
    · exact ⟨⟨hdials, hactive, hpending⟩, by simp, by simp⟩
    · have := hloaded i a hl
      omega
    · exact absurd ha (hpc i)
    · exact absurd ha (hpc i)
  | env a =>
    obtain ⟨ha, u, hu, -⟩ := step_env_eq_some.mp ht
    obtain ⟨d, g, -, hg, -⟩ := Shared.step_cases hu ha
    simp [hdials] at hg

theorem untouched_start (capacity : ℕ) : Untouched (start capacity) :=
  ⟨⟨rfl, rfl, rfl⟩, by simp [start], by simp [start]⟩

theorem rateKept_of_target_le_zero (hrate : 1 ≤ cfg.rate) (htarget : cfg.target ≤ 0)
    (capacity : ℕ) : RateKept cfg capacity := by
  intro s t seg hs hrun _
  have ht : Untouched t :=
    (hs.trans ⟨_, hrun⟩).invariant (fun _ _ _ h => h.step htarget) (untouched_start capacity)
  rw [ht.shared.1, List.length_nil]
  omega

/-- Nothing is going on between two ticks. -/
structure Idle (s : DialLoop) : Prop where
  pc : s.pc = .waiting
  active : s.shared.active = 0
  pending : s.shared.pending = 0
  sem : s.shared.sem = 0

/-- One tick with a dial that fails at once. -/
def failingTick (d : ℕ) : List LoopAct :=
  [.tick, .loop, .loop, .loop, .env (.fail d), .env (.release d), .env (.finish d), .loop]

/-- At a rate below 100 a tick starts one dial all the same. -/
theorem Idle.failingTick {s : DialLoop} (h : Idle s) (hper : cfg.perTick = 1)
    (htarget : 1 ≤ cfg.target) (hinflight : 1 ≤ cfg.inflight) :
    ∃ t, run (step cfg) s (failingTick s.shared.dials.length) = some t ∧ Idle t ∧
      t.shared.dials.length = s.shared.dials.length + 1 := by
  obtain ⟨pc, next, reg, active, pending, sem, dials⟩ := s
  obtain ⟨rfl, rfl, rfl, rfl⟩ := h
  have htarget' : ¬ cfg.target ≤ 0 := by omega
  refine ⟨⟨.waiting, next + 1, reg, 0, 0, 0, dials ++ [⟨cfg.url next, .finished, .noConn⟩]⟩, ?_,
    ⟨rfl, rfl, rfl, rfl⟩, List.length_append⟩
  simp [DialLoop.failingTick, run, step, loop, Shared.step, Shared.onDial, Shared.put, Act.isStart,
    hper, htarget', show 0 < cfg.inflight by omega]

/-- And so does every tick after it. -/
theorem Idle.failingTicks {s : DialLoop} (h : Idle s) (hper : cfg.perTick = 1)
    (htarget : 1 ≤ cfg.target) (hinflight : 1 ≤ cfg.inflight) (k : ℕ) :
    ∃ t seg, run (step cfg) s (.tick :: seg) = some t ∧
      (LoopAct.tick :: seg).count .tick = k + 1 ∧ Idle t ∧
      t.shared.dials.length = s.shared.dials.length + (k + 1) := by
  induction k with
  | zero =>
    obtain ⟨t, ht, hidle, hlen⟩ := h.failingTick hper htarget hinflight
    exact ⟨t, _, ht, rfl, hidle, hlen⟩
  | succ k ih =>
    obtain ⟨t, seg, ht, hcount, hidle, hlen⟩ := ih
    obtain ⟨u, hu, hidle', hlen'⟩ := hidle.failingTick hper htarget hinflight
    refine ⟨u, seg ++ DialLoop.failingTick t.shared.dials.length, ?_, ?_, hidle', by omega⟩
    · exact run_append_eq_some.mpr ⟨t, ht, hu⟩
    · rw [← List.cons_append, List.count_append, hcount]
      rfl

theorem not_rateKept (hrate : 1 ≤ cfg.rate) (hlt : cfg.rate < 100) (htarget : 1 ≤ cfg.target)
    (hinflight : 1 ≤ cfg.inflight) (capacity : ℕ) : ¬ RateKept cfg capacity := by
  intro h
  have hper : cfg.perTick = 1 := by
    rw [DialConfig.perTick, Int.tdiv_eq_ediv_of_nonneg (by omega)]
    omega
  have hidle : Idle (start capacity) := ⟨rfl, rfl, rfl, rfl⟩
  obtain ⟨t, seg, ht, hcount, -, hlen⟩ := hidle.failingTicks hper htarget hinflight 99
  have hle := h _ t seg (Reachable.refl _) ht hcount
  omega

/-- **Exactly which rates are kept.** The flag is a maximum over every second of every run if and
only if it is at least 100, or there is no target to dial for. -/
theorem rate_kept_iff (cfg : DialConfig) (hrate : 1 ≤ cfg.rate) (hinflight : 1 ≤ cfg.inflight)
    (capacity : ℕ) : RateKept cfg capacity ↔ 100 ≤ cfg.rate ∨ cfg.target ≤ 0 := by
  constructor
  · intro h
    by_contra hcond
    exact not_rateKept hrate (by omega) (by omega) hinflight capacity h
  · rintro (h | h)
    · exact rateKept_of_le_rate h capacity
    · exact rateKept_of_target_le_zero hrate h capacity

/-- The defaults: 10,000 connections, 1,000 dials per second, 200 at once. -/
theorem rate_kept_default :
    RateKept ⟨["ws://localhost:8080/ws"], by decide, 10000, 1000, 200⟩ 10000 :=
  (rate_kept_iff _ (by decide) (by decide) _).mpr (Or.inl (by decide))

/-- 50 dials per second towards a single connection: a server that refuses every dial sees 100 of
them in a second. -/
theorem rate_fifty_not_kept : ¬ ∀ (cfg : DialConfig) (capacity : ℕ), 1 ≤ cfg.rate →
    1 ≤ cfg.inflight → RateKept cfg capacity := by
  intro h
  have hkept := h ⟨["ws://localhost:8080/ws"], by decide, 1, 50, 1⟩ 1 (by decide) (by decide)
  exact not_rateKept (by decide) (by decide) (by decide) (by decide) 1 hkept

end DialLoop

end Millionws
