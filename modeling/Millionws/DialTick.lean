import Millionws.DialLoop

/-!
# What one tick starts

The inner loop of `dialLoop` ends in one of three ways: the budget of the tick is spent, the
counters reach the target, or no slot is free, in which case the loop variable is overwritten. All
three compare with numbers that the loop itself moves by one for each dial, so while nobody else
moves them the loop starts as many dials as the tightest of the three allows.

`next` goes up by one for each dial and is never reset. So over any number of ticks the dials go
round the list of URLs, and no entry of it is ever two dials ahead of another, which matters
because a client address has a limited number of ports for each of them.

## What may happen during a tick

The goroutines and callbacks move the counters when a dial is counted, gives its slot back or is
finished, and when a close is counted. Their other steps leave the counters alone and may come in
between: `Act.quiet`.

## Main definitions

* `Act.quiet`, `LoopAct.quiet` — the steps during which the counters stand
* `DialLoop.InTick` — where the inner loop is after `m` dials
* `DialLoop.watchEntries` — a monitor: the entries of the list that dials were started to

## Main results

* `DialLoop.InTick.step` — the invariant of the inner loop
* `DialLoop.stepsLeft_step` — why it ends
* `tick_starts` — how many dials a tick starts and to which URLs, and that the entries stay balanced
-/

namespace Millionws

open Transition CyclicWalk

/-! ### The others -/

/-- The steps of a dial or of `OnClose` that leave the counters and the slots alone. -/
def Act.quiet : Act → Bool
  | .fail _ | .connect _ | .add _ | .closeRemove _ => true
  | _ => false

/-- Nobody but the loop moves a counter, and the loop does not begin another tick. -/
def LoopAct.quiet : LoopAct → Bool
  | .loop => true
  | .env a => a.quiet
  | _ => false

theorem Shared.step_quiet {inflight : ℕ} {s t : Shared} {a : Act}
    (h : Shared.step inflight s a = some t) (ha : a.quiet = true) :
    t.active = s.active ∧ t.pending = s.pending ∧ t.sem = s.sem := by
  cases a with
  | fail d | connect d | add d | closeRemove d =>
    obtain ⟨g, -, -, rfl⟩ := onDial_eq_some.mp h
    exact ⟨rfl, rfl, rfl⟩
  | start _ | count _ | release _ | finish _ | closeCount _ => cases ha

namespace DialLoop

variable {cfg : DialConfig}

/-! ### The inner loop -/

/-- The dials that the tightest of the three limits allows in a tick that begins in `s`. -/
def tickStarts (cfg : DialConfig) (s : DialLoop) : ℤ :=
  max 0 (min cfg.perTick (min (cfg.target - s.shared.active - s.shared.pending)
    (cfg.inflight - s.shared.sem)))

/-- Where the loop is after `m` dials of a tick that began in `s₀`. -/
def TickPc (cfg : DialConfig) (s₀ : DialLoop) (m : ℕ) : LoopPc → Prop
  | .checking i => i = m ∨ cfg.perTick < i ∧ s₀.tickStarts cfg ≤ m
  | .loaded i a => i = m ∧ m < cfg.perTick ∧ a = s₀.shared.active
  | .acquiring i => i = m ∧ m < cfg.perTick ∧
      (m : ℤ) < cfg.target - s₀.shared.active - s₀.shared.pending
  | .waiting => s₀.tickStarts cfg ≤ m
  | .stopped => False

/-- The tick that began in `s₀` has started `m` dials. -/
structure InTick (cfg : DialConfig) (s₀ : DialLoop) (m : ℕ) (s : DialLoop) : Prop where
  active : s.shared.active = s₀.shared.active
  pending : s.shared.pending = s₀.shared.pending + m
  sem : s.shared.sem = s₀.shared.sem + m
  next : s.next = s₀.next + m
  urls : s.shared.dials.map Dial.url =
    s₀.shared.dials.map Dial.url ++ (List.range m).map fun j => cfg.url (s₀.next + j)
  /-- No more than the limits allow. -/
  le : (m : ℤ) ≤ s₀.tickStarts cfg
  pc : TickPc cfg s₀ m s.pc

theorem InTick.start (s₀ : DialLoop) : InTick cfg s₀ 0 { s₀ with pc := .checking 0 } :=
  ⟨rfl, by simp, rfl, rfl, by simp, by rw [tickStarts]; omega, Or.inl rfl⟩

/-- The loop itself: a dial is one more of those the limits allow, and the tick is given up only
when there are no more. -/
theorem InTick.loop {s₀ s t : DialLoop} {m : ℕ} (h : InTick cfg s₀ m s)
    (ht : s.loop cfg = some t) : ∃ m', InTick cfg s₀ m' t := by
  obtain ⟨hactive, hpending, hsem, hnext, hurls, hle, hpc⟩ := h
  obtain ⟨i, hi, hlt, rfl⟩ | ⟨i, hi, hge, rfl⟩ | ⟨i, a, hi, hge, rfl⟩ | ⟨i, a, hi, hlt, rfl⟩ |
    ⟨i, u, hi, hu, rfl⟩ | ⟨i, hi, hfull, rfl⟩ := loop_cases ht
  · rw [hi, TickPc] at hpc
    exact ⟨m, hactive, hpending, hsem, hnext, hurls, hle, by omega, by omega, hactive⟩
  · -- the budget is spent
    rw [hi, TickPc] at hpc
    refine ⟨m, hactive, hpending, hsem, hnext, hurls, hle, ?_⟩
    rw [TickPc]
    rw [tickStarts] at hpc ⊢
    omega
  · -- the target is reached
    rw [hi, TickPc] at hpc
    refine ⟨m, hactive, hpending, hsem, hnext, hurls, hle, ?_⟩
    rw [TickPc, tickStarts]
    omega
  · rw [hi, TickPc] at hpc
    exact ⟨m, hactive, hpending, hsem, hnext, hurls, hle, by omega, by omega, by omega⟩
  · rw [hi, TickPc] at hpc
    obtain ⟨hfree, rfl⟩ := Shared.step_start_eq_some.mp hu
    refine ⟨m + 1, hactive, ?_, ?_, ?_, ?_, ?_, ?_⟩
    · simp only [hpending]
      push_cast
      omega
    · simp only [hsem]
      omega
    · simp only [hnext]
      omega
    · rw [List.map_append, hurls, List.range_succ, List.map_append, List.append_assoc, hnext]
      rfl
    · rw [tickStarts]
      push_cast
      omega
    · exact Or.inl (by omega)
  · -- no slot is free
    refine ⟨m, hactive, hpending, hsem, hnext, hurls, hle, Or.inr ⟨Nat.lt_succ_self _, ?_⟩⟩
    rw [tickStarts]
    omega

/-- **One step** of a tick, by the loop or by another who leaves the counters alone. -/
theorem InTick.step {s₀ s t : DialLoop} {a : LoopAct} (ha : a.quiet = true)
    (h : ∃ m, InTick cfg s₀ m s) (ht : s.step cfg a = some t) : ∃ m, InTick cfg s₀ m t := by
  obtain ⟨m, h⟩ := h
  cases a with
  | tick | done => cases ha
  | loop => exact h.loop ht
  | env a =>
    obtain ⟨hstart, u, hu, rfl⟩ := step_env_eq_some.mp ht
    obtain ⟨hactive, hpending, hsem⟩ := Shared.step_quiet hu ha
    exact ⟨m, hactive.trans h.active, hpending.trans h.pending, hsem.trans h.sem, h.next,
      (Shared.map_url_of_step hu hstart).trans h.urls, h.le, h.pc⟩

/-- A tick that is over has started what the limits allow. -/
theorem InTick.eq_tickStarts {s₀ s : DialLoop} {m : ℕ} (h : InTick cfg s₀ m s)
    (hpc : s.pc = .waiting) : (m : ℤ) = s₀.tickStarts cfg := by
  have hge := h.pc
  rw [hpc, TickPc] at hge
  exact le_antisymm h.le hge

/-! ### Why it ends -/

/-- The steps of the loop that the current tick has left, at most. -/
def stepsLeft (cfg : DialConfig) (s : DialLoop) : ℤ :=
  match s.pc with
  | .checking i => 3 * max (cfg.perTick - i) 0 + 1
  | .loaded i _ => 3 * max (cfg.perTick - i) 1
  | .acquiring i => 3 * max (cfg.perTick - i) 1 - 1
  | _ => 0

theorem stepsLeft_nonneg (cfg : DialConfig) (s : DialLoop) : 0 ≤ s.stepsLeft cfg := by
  rw [stepsLeft]
  split <;> omega

/-- Every step of the loop is one of those. -/
theorem stepsLeft_step {s t : DialLoop} {a : LoopAct} (h : s.step cfg a = some t) :
    t.stepsLeft cfg + (if a = .loop then 1 else 0) ≤
      s.stepsLeft cfg + if a = .tick then 3 * (cfg.perTick : ℤ) + 1 else 0 := by
  cases a with
  | tick =>
    obtain ⟨hpc, rfl⟩ := step_tick_eq_some.mp h
    simp only [stepsLeft, hpc, if_true, reduceCtorEq, if_false]
    omega
  | done =>
    obtain ⟨hpc, rfl⟩ := step_done_eq_some.mp h
    simp [stepsLeft, hpc]
  | loop =>
    obtain ⟨i, hi, hlt, rfl⟩ | ⟨i, hi, -, rfl⟩ | ⟨i, a, hi, -, rfl⟩ | ⟨i, a, hi, -, rfl⟩ |
      ⟨i, u, hi, hu, rfl⟩ | ⟨i, hi, -, rfl⟩ := loop_cases h
    all_goals
      simp only [stepsLeft, hi, if_true, reduceCtorEq, if_false]
      omega
  | env a =>
    obtain ⟨-, u, -, rfl⟩ := step_env_eq_some.mp h
    simp [stepsLeft]

/-- The loop is never stuck in a tick. -/
theorem loop_isSome {s : DialLoop} (hwaiting : s.pc ≠ .waiting) (hstopped : s.pc ≠ .stopped) :
    ∃ t, s.step cfg .loop = some t := by
  rw [step, loop]
  cases hpc : s.pc with
  | checking i =>
    simp only
    split_ifs <;> exact ⟨_, rfl⟩
  | loaded i a =>
    simp only
    split_ifs <;> exact ⟨_, rfl⟩
  | acquiring i =>
    simp only
    cases s.shared.step cfg.inflight (.start (cfg.url s.next)) <;> exact ⟨_, rfl⟩
  | waiting => exact absurd hpc hwaiting
  | stopped => exact absurd hpc hstopped

/-- A tick takes the loop three steps for each dial of its budget and one more, at most. -/
theorem count_loop_le {s t : DialLoop} {acts : List LoopAct} (hacts : ∀ a ∈ acts, a.quiet = true)
    (h : run (step cfg) s (.tick :: acts) = some t) :
    acts.count .loop ≤ 3 * cfg.perTick + 1 := by
  obtain ⟨u, htick, hrest⟩ := run_cons_eq_some.mp h
  have hticks : ∀ a ∈ acts, (if a = .tick then 3 * (cfg.perTick : ℤ) + 1 else 0) = 0 := by
    intro a ha
    refine if_neg ?_
    rintro rfl
    cases hacts _ ha
  have hbudget := run_budget (stepsLeft cfg) (fun a => if a = .loop then 1 else 0)
    (fun a => if a = .tick then 3 * (cfg.perTick : ℤ) + 1 else 0)
    (fun _ _ _ => stepsLeft_step) hrest
  rw [sum_map_ite, one_mul, List.map_congr_left hticks, List.map_const', List.sum_replicate,
    nsmul_zero] at hbudget
  have hend := t.stepsLeft_nonneg cfg
  have hstart : u.stepsLeft cfg = 3 * cfg.perTick + 1 := by
    obtain ⟨-, rfl⟩ := step_tick_eq_some.mp htick
    simp only [stepsLeft]
    omega
  omega

/-! ### The entries of the list -/

/-- The monitor: for each dial, the entry of the list that it was started to. -/
def watchEntries (cfg : DialConfig) (entries : List ℕ) (s : DialLoop) : LoopAct → List ℕ
  | .loop =>
    match s.pc with
    | .acquiring _ =>
      if (s.shared.step cfg.inflight (.start (cfg.url s.next))).isSome then
        entries ++ [s.next % cfg.urls.length]
      else entries
    | _ => entries
  | _ => entries

/-- The entries are a walk round the list, and the dials have their URLs. -/
structure Balanced (cfg : DialConfig) (s : DialLoop) (entries : List ℕ) : Prop where
  eq_walk : entries = walk (List.range cfg.urls.length) 0 s.next
  urls : s.shared.dials.map (fun g => some g.url) = entries.map fun e => cfg.urls[e]?

/-- **One step of anyone.** Only a dial of the loop goes on in the walk. -/
theorem Balanced.step {p q : DialLoop × List ℕ} {a : LoopAct} (h : Balanced cfg p.1 p.2)
    (hq : withMonitor (step cfg) (watchEntries cfg) p a = some q) : Balanced cfg q.1 q.2 := by
  obtain ⟨s, entries⟩ := p
  obtain ⟨t, entries'⟩ := q
  obtain ⟨ht, hwatch⟩ := withMonitor_eq_some.mp hq
  simp only at ht hwatch h
  subst hwatch
  cases a with
  | tick =>
    obtain ⟨-, rfl⟩ := step_tick_eq_some.mp ht
    exact ⟨h.eq_walk, h.urls⟩
  | done =>
    obtain ⟨-, rfl⟩ := step_done_eq_some.mp ht
    exact ⟨h.eq_walk, h.urls⟩
  | loop =>
    obtain ⟨i, hi, -, rfl⟩ | ⟨i, hi, -, rfl⟩ | ⟨i, a, hi, -, rfl⟩ | ⟨i, a, hi, -, rfl⟩ |
      ⟨i, u, hi, hu, rfl⟩ | ⟨i, hi, hfull, rfl⟩ := loop_cases ht
    case inr.inr.inr.inr.inl =>
      have hlt : s.next % cfg.urls.length < cfg.urls.length :=
        Nat.mod_lt _ (List.length_pos_iff.mpr cfg.urls_ne)
      have hentries : watchEntries cfg entries s .loop =
          entries ++ [s.next % cfg.urls.length] := by
        simp only [watchEntries, hi, hu, Option.isSome_some, if_true]
      obtain ⟨-, rfl⟩ := Shared.step_start_eq_some.mp hu
      rw [hentries]
      constructor
      · rw [walk_succ, ← h.eq_walk, Nat.zero_add, List.length_range, List.getElem?_range hlt]
        rfl
      · simp only [List.map_append, h.urls, List.map_cons, List.map_nil, DialConfig.url,
          List.get_eq_getElem, List.getElem?_eq_getElem hlt]
    case inr.inr.inr.inr.inr =>
      have hentries : watchEntries cfg entries s .loop = entries := by
        have hnone : s.shared.step cfg.inflight (.start (cfg.url s.next)) = none := by
          simp [Shared.step, Nat.not_lt.mpr hfull]
        simp [watchEntries, hi, hnone]
      rw [hentries]
      exact ⟨h.eq_walk, h.urls⟩
    all_goals
      rw [watchEntries, hi]
      exact ⟨h.eq_walk, h.urls⟩
  | env a =>
    obtain ⟨hstart, u, hu, rfl⟩ := step_env_eq_some.mp ht
    refine ⟨h.eq_walk, ?_⟩
    have hmap (v : Shared) :
        v.dials.map (fun g => some g.url) = (v.dials.map Dial.url).map some := by
      rw [List.map_map]
      rfl
    rw [hmap, Shared.map_url_of_step hu hstart, ← hmap]
    exact h.urls

/-- No entry is two dials ahead of another. -/
theorem Balanced.count_le {s : DialLoop} {entries : List ℕ} (h : Balanced cfg s entries) {e f : ℕ}
    (he : e < cfg.urls.length) (hf : f < cfg.urls.length) :
    entries.count e ≤ entries.count f + 1 := by
  have hcount {e : ℕ} (he : e < cfg.urls.length) :=
    count_walk List.nodup_range (List.getElem?_range he) 0 s.next
  rw [h.eq_walk, hcount he, hcount hf]
  split_ifs <;> omega

end DialLoop

open DialLoop

/-- **What a tick starts.** While nobody else moves the counters, a tick takes the loop a bounded
number of steps and is never stuck; and when it is over the loop has started as many dials as the
tightest of budget, target and slots allowed, to the entries of the list that were next. So in
every run, whatever dials and closes do and when, no entry is two dials ahead of another. -/
theorem tick_starts (cfg : DialConfig) (capacity : ℕ) :
    (∀ s acts t, s.pc = .waiting → (∀ a ∈ acts, a.quiet = true) →
      run (step cfg) s (.tick :: acts) = some t →
      acts.count .loop ≤ 3 * cfg.perTick + 1 ∧
      (t.pc ≠ .waiting → ∃ u, t.step cfg .loop = some u) ∧
      (t.pc = .waiting → ∃ n : ℕ,
        (n : ℤ) = max 0 (min (cfg.perTick : ℤ)
          (min (cfg.target - s.shared.active - s.shared.pending) (cfg.inflight - s.shared.sem))) ∧
        t.next = s.next + n ∧
        t.shared.dials.map Dial.url =
          s.shared.dials.map Dial.url ++ (List.range n).map fun j => cfg.url (s.next + j))) ∧
    ∀ acts s entries,
      run (withMonitor (step cfg) (watchEntries cfg)) (start capacity, []) acts =
        some (s, entries) →
      s.shared.dials.map (fun g => some g.url) = entries.map (fun e => cfg.urls[e]?) ∧
      ∀ e f, e < cfg.urls.length → f < cfg.urls.length →
        entries.count e ≤ entries.count f + 1 := by
  constructor
  · intro s acts t hs hacts hrun
    have hend : ∃ m, InTick cfg s m t := by
      obtain ⟨u, htick, hrest⟩ := run_cons_eq_some.mp hrun
      obtain ⟨-, rfl⟩ := step_tick_eq_some.mp htick
      exact run_invariant_of_forall (fun _ _ _ ha h ht => InTick.step ha h ht) hacts
        ⟨0, InTick.start s⟩ hrest
    obtain ⟨m, hm⟩ := hend
    refine ⟨count_loop_le hacts hrun, ?_, ?_⟩
    · intro hwaiting
      refine loop_isSome hwaiting ?_
      intro hstopped
      have hpc := hm.pc
      rw [hstopped, TickPc] at hpc
      exact hpc
    · intro hwaiting
      exact ⟨m, hm.eq_tickStarts hwaiting, hm.next, hm.urls⟩
  · intro acts s entries hrun
    have hbalanced : Balanced cfg s entries :=
      run_invariant (P := fun p => Balanced cfg p.1 p.2) (fun _ _ _ h ht => h.step ht)
        ⟨rfl, rfl⟩ hrun
    exact ⟨hbalanced.urls, fun e f he hf => hbalanced.count_le he hf⟩

/-- Two entries, three dials per tick, and two slots. -/
def twoEntries : DialConfig := ⟨["ws://a", "ws://b"], by decide, 10, 300, 2⟩

/-- Two dials are started, and the third finds no slot. -/
theorem tick_starts_two_slots : ∃ t,
    run (step twoEntries) (start 8) (.tick :: List.replicate 10 .loop) = some t ∧
    t.next = 2 ∧ t.shared.dials.map Dial.url = ["ws://a", "ws://b"] := by
  have hrun : (run (step twoEntries) (start 8) (.tick :: List.replicate 10 .loop)).any
      (fun t => t.pc = .waiting) = true := by decide
  obtain ⟨t, ht, hwaiting⟩ := (Option.any_eq_true _ _).mp hrun
  obtain ⟨-, -, hend⟩ := (tick_starts twoEntries 8).1 (start 8) _ t rfl (by decide) ht
  obtain ⟨n, hn, hnext, hurls⟩ := hend (of_decide_eq_true hwaiting)
  have htwo : (n : ℤ) = 2 := hn.trans (by decide)
  obtain rfl : n = 2 := by exact_mod_cast htwo
  exact ⟨t, ht, hnext, hurls⟩

end Millionws
