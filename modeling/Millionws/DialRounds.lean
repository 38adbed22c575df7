import Mathlib.Data.Nat.Size
import Mathlib.Logic.Function.Iterate
import Millionws.DialCap
import Millionws.DialTick

/-!
# How the dial loop recovers

Whatever has happened to the connections, `dialLoop` goes on dialing until the target is reached
again. How fast, is a matter of the flags, and of when the dials are done.

A round is a tick in which nothing fails and nothing closes: it begins with nothing part-way, the
inner loop and the dials it starts take their steps in any order, and all of them are through before
the next round. What came before the first round is arbitrary.

The dials of a tick need not wait for the end of the inner loop, and one that is counted in between
is in `active` and in `pending` at once. So the loop may take itself to be nearer to the target than
it is and give the tick up, but never before half of what is missing has been dialed; and of those
that are through it may miss some, which is a torn check. Both are part of `rounds_heal`.

The argument for the first is a sum that no step of a round changes, `Healing.sum`: a dial that was
started and is not counted yet will be counted, so the connections counted and to be counted exceed
the dials by a constant.

## Main definitions

* `Act.faultless` — the steps of a dial that succeeds
* `DialLoop.Round`, `DialLoop.Rounds` — ticks without a fault, beside the monitor of the two reads
* `stillMissing` — what a round may leave missing, at most

## Main results

* `Shared.Healing.step` — the sum, one step at a time
* `DialLoop.InRound.step` — the invariant of a round
* `DialLoop.exists_round` — a round is always possible
* `rounds_heal` — how many connections there are after `k` rounds
-/

namespace Millionws

open Transition

/-- The steps of a dial that succeeds. -/
def Act.faultless : Act → Bool
  | .connect _ | .add _ | .count _ | .release _ | .finish _ => true
  | _ => false

/-- The loop, and dials that succeed. -/
def LoopAct.faultless : LoopAct → Bool
  | .loop => true
  | .env a => a.faultless
  | _ => false

/-- A dial that has not failed, with a connection that nobody has closed, or one that is through. -/
def Dial.fresh (g : Dial) : Bool :=
  match g.pc, g.close with
  | .finished, close => close ≠ .removed
  | .dialing, .noConn => true
  | .dialing, _ => false
  | _, .opened => true
  | _, _ => false

/-- The steps a dial has left. -/
def Dial.left (g : Dial) : ℕ :=
  match g.pc with
  | .dialing => 5
  | .dialed => 4
  | .added => 3
  | .leaving => 2
  | .released => 1
  | .finished => 0

namespace Shared

/-- Dials that are not counted yet will be, so that nothing changes what is counted and to be
counted less the dials. -/
structure Healing (inflight : ℕ) (n : ℤ) (s : Shared) : Prop where
  inv : s.Inv inflight
  fresh : ∀ g ∈ s.dials, g.fresh = true
  sum : s.active + (s.tally fun g => !g.settled) = s.dials.length + n

theorem Quiet.healing {inflight : ℕ} {s : Shared} (h : s.Quiet) (hinv : s.Inv inflight) :
    Healing inflight (s.active - s.dials.length) s where
  inv := hinv
  fresh := by
    rintro ⟨url, pc, close⟩ hg
    obtain ⟨rfl, hclose⟩ := h _ hg
    exact decide_eq_true hclose
  sum := by
    rw [h.tally_eq_zero fun _ _ _ => rfl, Nat.cast_zero]
    omega

/-- With nothing part-way the counters are exact. -/
theorem Quiet.exact {inflight : ℕ} {s : Shared} (h : s.Quiet) (hinv : s.Inv inflight) :
    s.active = s.reg.len ∧ s.pending = 0 ∧ s.sem = 0 := by
  refine ⟨?_, ?_, ?_⟩
  · rw [hinv.active, h.tally_eq_zero fun _ _ _ => rfl,
      h.tally_eq_zero fun _ _ hclose => decide_eq_false hclose]
    omega
  · rw [hinv.pending, h.tally_eq_zero fun _ _ _ => rfl, Nat.cast_zero]
  · rw [hinv.sem, h.tally_eq_zero fun _ _ _ => rfl]

/-- And everything claimed is stored. -/
theorem Quiet.claimed_eq {s : Shared} (h : s.Quiet) : s.claimed = s.reg.len := by
  rw [claimed, h.tally_eq_zero fun _ _ _ => rfl, Nat.add_zero]

theorem Healing.opened {inflight d : ℕ} {n : ℤ} {s : Shared} {g : Dial}
    (h : Healing inflight n s) (hg : s.dials[d]? = some g) (hdialing : g.pc ≠ .dialing)
    (hfinished : g.pc ≠ .finished) : g.close = .opened := by
  have hfresh := h.fresh g (List.mem_of_getElem? hg)
  obtain ⟨url, pc, close⟩ := g
  cases pc <;> cases close <;> simp_all [Dial.fresh]

/-- One dial moves on. -/
theorem Healing.update {inflight d : ℕ} {n : ℤ} {s t : Shared} {a : Act} {g g' : Dial}
    (h : Healing inflight n s) (hstep : step inflight s a = some t) (hg : s.dials[d]? = some g)
    (ht : t.dials = s.dials.set d g') (hfresh : g'.fresh = true)
    (hsum : t.active + (!g'.settled).toNat = s.active + (!g.settled).toNat) :
    Healing inflight n t := by
  have hcount := Population.countP_set hg g' fun g => !g.settled
  have hs := h.sum
  refine ⟨h.inv.step hstep, ?_, ?_⟩
  · rw [ht]
    exact Population.forall_mem_set h.fresh hfresh
  · simp only [tally, ht, List.length_set] at *
    omega

/-- **One step** of a dial that succeeds, or of the loop that starts one. -/
theorem Healing.step {inflight : ℕ} {n : ℤ} {s t : Shared} {a : Act} (h : Healing inflight n s)
    (ha : a.faultless = true ∨ a.isStart = true) (ht : step inflight s a = some t) :
    Healing inflight n t := by
  cases a with
  | start url =>
    obtain ⟨hsem, rfl⟩ := step_start_eq_some.mp ht
    have hs := h.sum
    refine ⟨h.inv.step ht, ?_, ?_⟩
    · intro g hg
      rcases List.mem_append.mp hg with hg | hg
      · exact h.fresh g hg
      · rw [List.mem_singleton.mp hg]
        rfl
    · simp [tally, Dial.settled] at hs ⊢
      omega
  | connect d =>
    obtain ⟨⟨url, pc, close⟩, hg, hpc, rfl⟩ := onDial_eq_some.mp ht
    obtain rfl : pc = .dialing := by simpa using hpc
    exact h.update ht hg rfl rfl rfl
  | add d =>
    obtain ⟨⟨url, pc, close⟩, hg, hpc, rfl⟩ := onDial_eq_some.mp ht
    obtain rfl : pc = .dialed := by simpa using hpc
    obtain rfl : close = .opened := h.opened hg (by simp) (by simp)
    -- nobody has closed the connection, so `add` takes it
    have hd : s.reg.life d = .absent := by
      rw [h.inv.life, hg]
      rfl
    have hadd := (s.reg.inv.life_add d).1
    rw [hd] at hadd
    have htrue : (s.reg.add d).1 = true := hadd
    refine h.update ht hg rfl ?_ ?_ <;> rw [htrue] <;> rfl
  | count d =>
    obtain ⟨⟨url, pc, close⟩, hg, hpc, rfl⟩ := onDial_eq_some.mp ht
    obtain rfl : pc = .added := by simpa using hpc
    obtain rfl : close = .opened := h.opened hg (by simp) (by simp)
    exact h.update ht hg rfl rfl (by simp [Dial.settled])
  | release d =>
    obtain ⟨⟨url, pc, close⟩, hg, hpc, rfl⟩ := onDial_eq_some.mp ht
    obtain ⟨rfl, -⟩ : pc = .leaving ∧ 0 < s.sem := by simpa using hpc
    obtain rfl : close = .opened := h.opened hg (by simp) (by simp)
    exact h.update ht hg rfl rfl rfl
  | finish d =>
    obtain ⟨⟨url, pc, close⟩, hg, hpc, rfl⟩ := onDial_eq_some.mp ht
    obtain rfl : pc = .released := by simpa using hpc
    obtain rfl : close = .opened := h.opened hg (by simp) (by simp)
    exact h.update ht hg rfl rfl rfl
  | fail d | closeRemove d | closeCount d => rcases ha with ha | ha <;> cases ha

/-- Nobody but the loop takes a slot or begins a dial. -/
theorem pending_le_of_step {inflight : ℕ} {s t : Shared} {a : Act}
    (h : step inflight s a = some t) (ha : a.isStart = false) :
    t.pending ≤ s.pending ∧ t.sem ≤ s.sem := by
  cases a with
  | start url => cases ha
  | release d =>
    obtain ⟨g, -, -, rfl⟩ := onDial_eq_some.mp h
    exact ⟨le_rfl, Nat.sub_le _ _⟩
  | finish d =>
    obtain ⟨g, -, -, rfl⟩ := onDial_eq_some.mp h
    exact ⟨Int.sub_le_self _ Int.one_nonneg, le_rfl⟩
  | fail d | connect d | add d | count d | closeRemove d | closeCount d =>
    obtain ⟨g, -, -, rfl⟩ := onDial_eq_some.mp h
    exact ⟨le_rfl, le_rfl⟩

/-- The steps that all dials have left. -/
def work (s : Shared) : ℕ := (s.dials.map Dial.left).sum

theorem Healing.quiet {inflight : ℕ} {n : ℤ} {s : Shared} (h : Healing inflight n s)
    (hfinished : ∀ g ∈ s.dials, g.pc = .finished) : s.Quiet := by
  intro g hg
  have hfresh := h.fresh g hg
  rw [Dial.fresh, hfinished g hg] at hfresh
  exact ⟨hfinished g hg, of_decide_eq_true hfresh⟩

/-- A dial that is not through can go on. -/
theorem Healing.exists_step {inflight d : ℕ} {n : ℤ} {s : Shared} {g : Dial}
    (h : Healing inflight n s) (hg : s.dials[d]? = some g) (hpc : g.pc ≠ .finished) :
    ∃ (a : Act) (t : Shared), a.faultless = true ∧ a.isStart = false ∧
      Shared.step inflight s a = some t ∧ t.work < s.work := by
  have hless {t : Shared} {g' : Dial} (ht : t.dials = s.dials.set d g') (hleft : g'.left < g.left) :
      t.work < s.work := by
    have hsum := Population.sum_map_set hg g' Dial.left
    rw [work, work, ht]
    omega
  have hstep {ready : Dial → Bool} {next : Dial → Shared} (hready : ready g = true) :
      s.onDial d ready next = some (next g) := onDial_eq_some.mpr ⟨g, hg, hready, rfl⟩
  cases hp : g.pc with
  | dialing =>
    refine ⟨.connect d, _, rfl, rfl, hstep (by simp [hp]), hless rfl ?_⟩
    simp [Dial.left, hp]
  | dialed =>
    refine ⟨.add d, _, rfl, rfl, hstep (by simp [hp]), hless rfl ?_⟩
    split_ifs <;> simp [Dial.left, hp]
  | added =>
    refine ⟨.count d, _, rfl, rfl, hstep (by simp [hp]), hless rfl ?_⟩
    simp [Dial.left, hp]
  | leaving =>
    have hsem := h.inv.sem_pos hg hp
    refine ⟨.release d, _, rfl, rfl, hstep (by simp [hp, hsem]), hless rfl ?_⟩
    simp [Dial.left, hp]
  | released =>
    refine ⟨.finish d, _, rfl, rfl, hstep (by simp [hp]), hless rfl ?_⟩
    simp [Dial.left, hp]
  | finished => exact absurd hp hpc

end Shared

namespace DialLoop

variable {cfg : DialConfig}

/-- A tick in which nothing fails and nothing closes: the inner loop and the dials to their end, in
whatever order, beside the monitor of the two reads. -/
def Round (cfg : DialConfig) (p q : DialLoop × Reads) : Prop :=
  ∃ acts, (∀ a ∈ acts, a.faultless = true) ∧
    run (withMonitor (step cfg) (watchReads cfg)) p (.tick :: acts) = some q ∧
    q.1.pc = .waiting ∧ q.1.shared.Quiet

/-- One round after another. -/
def Rounds (cfg : DialConfig) : ℕ → DialLoop × Reads → DialLoop × Reads → Prop
  | 0, p, q => p = q
  | k + 1, p, q => ∃ r, Rounds cfg k p r ∧ Round cfg r q

/-! ### What a round dials -/

/-- After this many dials a tick that began with `active` connections may be given up. -/
def Enough (cfg : DialConfig) (active : ℤ) (m : ℕ) : Prop :=
  cfg.perTick ≤ m ∨ cfg.inflight ≤ m ∨ cfg.target ≤ active + 2 * m

/-- Where the loop is in a round after `m` dials. -/
def RoundPc (cfg : DialConfig) (active : ℤ) (m : ℕ) : LoopPc → Prop
  | .checking i => m ≤ cfg.perTick ∧ (i = m ∨ cfg.perTick < i ∧ Enough cfg active m)
  | .loaded i a => i = m ∧ m < cfg.perTick ∧ a ≤ active + m
  | .acquiring i => i = m ∧ m < cfg.perTick
  | .waiting => m ≤ cfg.perTick ∧ Enough cfg active m
  | .stopped => False

/-- The round that began in `s₀`, with nothing part-way, has started `m` dials. None of them is
counted more than once, and what is in progress or holds a slot is one of them. -/
structure InRound (cfg : DialConfig) (s₀ : DialLoop) (m : ℕ) (s : DialLoop) : Prop where
  healing : Shared.Healing cfg.inflight (s₀.shared.active - s₀.shared.dials.length) s.shared
  dials : s.shared.dials.length = s₀.shared.dials.length + m
  pending_le : s.shared.pending ≤ m
  sem_le : s.shared.sem ≤ m
  pc : RoundPc cfg s₀.shared.active m s.pc

theorem InRound.start {s₀ : DialLoop} (hinv : s₀.shared.Inv cfg.inflight)
    (hquiet : s₀.shared.Quiet) : InRound cfg s₀ 0 { s₀ with pc := .checking 0 } where
  healing := hquiet.healing hinv
  dials := rfl
  pending_le := (hquiet.exact hinv).2.1.le
  sem_le := (hquiet.exact hinv).2.2.le
  pc := ⟨Nat.zero_le _, .inl rfl⟩

/-- What is counted is one of the connections of the start or one of the dials. -/
theorem InRound.active_le {s₀ s : DialLoop} {m : ℕ} (h : InRound cfg s₀ m s) :
    s.shared.active ≤ s₀.shared.active + m := by
  have hsum := h.healing.sum
  have hdials := h.dials
  omega

/-- The loop itself. A dial is in `active` and in `pending` at once at worst, so a tick is not given
up for the target before half of what is missing has been dialed. -/
theorem InRound.loop {s₀ s t : DialLoop} {m : ℕ} (h : InRound cfg s₀ m s)
    (ht : s.loop cfg = some t) : ∃ m', InRound cfg s₀ m' t := by
  have hactive := h.active_le
  obtain ⟨hheal, hdials, hpending, hsem, hpc⟩ := h
  obtain ⟨i, hi, hlt, rfl⟩ | ⟨i, hi, hge, rfl⟩ | ⟨i, a, hi, hge, rfl⟩ | ⟨i, a, hi, -, rfl⟩ |
    ⟨i, u, hi, hu, rfl⟩ | ⟨i, hi, hfull, rfl⟩ := loop_cases ht
  · rw [hi, RoundPc] at hpc
    exact ⟨m, hheal, hdials, hpending, hsem, by omega, by omega, hactive⟩
  · -- the budget is spent
    rw [hi, RoundPc] at hpc
    obtain ⟨hle, rfl | ⟨-, henough⟩⟩ := hpc
    · exact ⟨i, hheal, hdials, hpending, hsem, hle, .inl hge⟩
    · exact ⟨m, hheal, hdials, hpending, hsem, hle, henough⟩
  · -- the target seems to be reached
    rw [hi, RoundPc] at hpc
    exact ⟨m, hheal, hdials, hpending, hsem, by omega, .inr (.inr (by omega))⟩
  · rw [hi, RoundPc] at hpc
    exact ⟨m, hheal, hdials, hpending, hsem, hpc.1, hpc.2.1⟩
  · rw [hi, RoundPc] at hpc
    have hheal' := hheal.step (.inr rfl) hu
    obtain ⟨-, rfl⟩ := Shared.step_start_eq_some.mp hu
    refine ⟨m + 1, hheal', ?_, ?_, Nat.succ_le_succ hsem, by omega, .inl (by omega)⟩
    · rw [List.length_append, hdials]
      rfl
    · push_cast
      exact Int.add_le_add_right hpending 1
  · -- no slot is free
    rw [hi, RoundPc] at hpc
    exact ⟨m, hheal, hdials, hpending, hsem, hpc.2.le,
      .inr ⟨Nat.lt_succ_self _, .inr (.inl (hfull.trans hsem))⟩⟩

/-- **One step** of a round, by the loop or by a dial. -/
theorem InRound.step {s₀ s t : DialLoop} {a : LoopAct} (ha : a.faultless = true)
    (h : ∃ m, InRound cfg s₀ m s) (ht : s.step cfg a = some t) : ∃ m, InRound cfg s₀ m t := by
  obtain ⟨m, h⟩ := h
  cases a with
  | tick | done => cases ha
  | loop => exact h.loop ht
  | env a =>
    obtain ⟨hstart, u, hu, rfl⟩ := step_env_eq_some.mp ht
    obtain ⟨hpending, hsem⟩ := Shared.pending_le_of_step hu hstart
    exact ⟨m, h.healing.step (.inl ha) hu, (Shared.length_dials_of_step hu hstart).trans h.dials,
      hpending.trans h.pending_le, hsem.trans h.sem_le, h.pc⟩

/-- **What a round dials**, and that all of it is stored in the end. -/
theorem Round.active {p q : DialLoop × Reads} (h : Round cfg p q)
    (hinv : p.1.shared.Inv cfg.inflight) (hquiet : p.1.shared.Quiet) :
    q.1.shared.Inv cfg.inflight ∧ q.1.shared.Quiet ∧ ∃ m : ℕ, m ≤ cfg.perTick ∧
      Enough cfg p.1.shared.active m ∧ q.1.shared.active = p.1.shared.active + m := by
  obtain ⟨acts, hacts, hrun, hwaiting, hquiet'⟩ := h
  obtain ⟨v, htick, hrest⟩ := run_cons_eq_some.mp (run_of_run_withMonitor hrun)
  obtain ⟨-, rfl⟩ := step_tick_eq_some.mp htick
  obtain ⟨m, hm⟩ : ∃ m, InRound cfg p.1 m q.1 :=
    run_invariant_of_forall (fun _ _ _ ha h ht => InRound.step ha h ht) hacts
      ⟨0, InRound.start hinv hquiet⟩ hrest
  have hpc := hm.pc
  rw [hwaiting] at hpc
  have hsum := hm.healing.sum
  rw [hquiet'.tally_eq_zero fun _ _ _ => rfl, hm.dials] at hsum
  refine ⟨hm.healing.inv, hquiet', m, hpc.1, hpc.2, ?_⟩
  push_cast at hsum
  omega

end DialLoop

/-! ### What a round leaves missing -/

/-- Of `d` missing connections, a round that may dial `m` leaves half, or all but `m`. -/
def stillMissing (m d : ℕ) : ℕ := max (d - m) (d / 2)

theorem stillMissing_mono (m : ℕ) : Monotone (stillMissing m) := by
  intro d d' h
  rw [stillMissing, stillMissing]
  omega

/-- At first `m` are dialed in every round. -/
theorem iterate_stillMissing_le {m j d : ℕ} (h : d ≤ (j + 2) * m) :
    (stillMissing m)^[j] d ≤ 2 * m := by
  induction j generalizing d with
  | zero => simpa using h
  | succ j ih =>
    rw [Function.iterate_succ_apply]
    refine ih ?_
    rw [Nat.add_mul] at h ⊢
    rw [Nat.succ_mul] at h
    rw [stillMissing]
    omega

/-- And then a half. -/
theorem iterate_stillMissing_eq_zero {m k d : ℕ} (h : d ≤ 2 * m) (hk : d < 2 ^ k) :
    (stillMissing m)^[k] d = 0 := by
  induction k generalizing d with
  | zero => simpa using hk
  | succ k ih =>
    rw [pow_succ] at hk
    have hhalf : stillMissing m d = d / 2 := by
      rw [stillMissing]
      omega
    rw [Function.iterate_succ_apply, hhalf]
    exact ih (by omega) (by omega)

/-- So nothing is missing after as many rounds as it takes at `m` for each, and a few more. -/
theorem iterate_stillMissing_add {m j d : ℕ} (h : d ≤ (j + 2) * m) :
    (stillMissing m)^[j + Nat.size (2 * m)] d = 0 := by
  have hle := iterate_stillMissing_le h
  rw [Nat.add_comm, Function.iterate_add_apply]
  exact iterate_stillMissing_eq_zero hle (hle.trans_lt (Nat.lt_size_self _))

namespace DialLoop

/-- What is missing after a round. -/
theorem Enough.toNat_le {active : ℤ} {m : ℕ} (h : Enough cfg active m) :
    (cfg.target - (active + m)).toNat ≤
      stillMissing (min cfg.perTick cfg.inflight) (cfg.target - active).toNat := by
  rw [stillMissing]
  rcases h with h | h | h <;> omega

/-- After `k` rounds. -/
theorem Rounds.active {k : ℕ} {p q : DialLoop × Reads} (h : Rounds cfg k p q)
    (hinv : p.1.shared.Inv cfg.inflight) (hquiet : p.1.shared.Quiet) :
    q.1.shared.Inv cfg.inflight ∧ q.1.shared.Quiet ∧
      p.1.shared.active ≤ q.1.shared.active ∧
      q.1.shared.active ≤ p.1.shared.active + k * cfg.perTick ∧
      (cfg.target - q.1.shared.active).toNat ≤
        (stillMissing (min cfg.perTick cfg.inflight))^[k]
          (cfg.target - p.1.shared.active).toNat := by
  induction k generalizing q with
  | zero =>
    obtain rfl := h
    exact ⟨hinv, hquiet, le_rfl, by simp, le_rfl⟩
  | succ k ih =>
    obtain ⟨r, hr, hround⟩ := h
    obtain ⟨hrinv, hrquiet, hlow, hhigh, hmissing⟩ := ih hr
    obtain ⟨hqinv, hqquiet, m, hm, henough, hactive⟩ := hround.active hrinv hrquiet
    refine ⟨hqinv, hqquiet, by omega, ?_, ?_⟩
    · rw [Nat.cast_succ, add_mul, one_mul]
      omega
    · rw [hactive, Function.iterate_succ_apply']
      exact henough.toNat_le.trans (stillMissing_mono _ hmissing)

/-! ### Torn checks of a round -/

/-- Earlier tears do not matter to the monitor. -/
theorem watchReads_tears (cfg : DialConfig) (m : Reads) (j : ℕ) (s : DialLoop) (a : LoopAct) :
    watchReads cfg { m with tears := m.tears + j } s a =
      { watchReads cfg m s a with tears := (watchReads cfg m s a).tears + j } := by
  match a with
  | .tick | .done => rfl
  | .loop =>
    rw [watchReads, watchReads]
    split
    · rfl
    · rename_i i a _
      have htorn : { m with tears := m.tears + j }.torn s.shared = m.torn s.shared := rfl
      rw [htorn]
      by_cases h : a + s.shared.pending < cfg.target ∧
        cfg.target ≤ a + s.shared.pending + m.torn s.shared
      · rw [if_pos h, if_pos h, Nat.add_right_comm]
      · rw [if_neg h, if_neg h]
    · rfl
  | .env a => cases a <;> rfl

/-- A run that begins between two ticks exceeds the target, or what there was, by no more than its
torn checks. -/
theorem claimed_le_max {s : DialLoop} {q : DialLoop × Reads} {acts : List LoopAct}
    (hinv : s.shared.Inv cfg.inflight) (hpc : s.pc = .waiting)
    (h : run (withMonitor (step cfg) (watchReads cfg)) (s, ⟨∅, 0⟩) acts = some q) :
    (q.1.shared.claimed : ℤ) ≤ max (s.shared.claimed : ℤ) cfg.target + q.2.tears := by
  -- whatever is too much at the start counts as torn already
  obtain ⟨j, hj⟩ : ∃ j, j = ((s.shared.claimed : ℤ) - cfg.target).toNat := ⟨_, rfl⟩
  have hcapped : Capped cfg q.1 { q.2 with tears := q.2.tears + j } := by
    refine run_invariant
      (P := fun q : DialLoop × Reads => Capped cfg q.1 { q.2 with tears := q.2.tears + j })
      ?_ ?_ h
    · intro p a r hp hr
      obtain ⟨hstep, hwatch⟩ := withMonitor_eq_some.mp hr
      refine Capped.step (s := (p.1, { p.2 with tears := p.2.tears + j }))
        (t := (r.1, { r.2 with tears := r.2.tears + j })) hp
        (withMonitor_eq_some.mpr ⟨hstep, ?_⟩)
      rw [hwatch, watchReads_tears]
    · refine ⟨hinv, ?_, by simp [hpc], by simp [hpc], by simp [hpc]⟩
      simp only
      omega
  have hclaimed := hcapped.claimed
  push_cast at hclaimed
  omega

/-! ### A round is always possible -/

/-- The inner loop comes to its end. -/
theorem exists_loops (cfg : DialConfig) (s : DialLoop) (hs : s.pc ≠ .stopped) :
    ∃ n t, run (step cfg) s (List.replicate n .loop) = some t ∧ t.pc = .waiting := by
  induction hn : (s.stepsLeft cfg).toNat using Nat.strong_induction_on generalizing s with
  | _ n ih =>
    by_cases hwaiting : s.pc = .waiting
    · exact ⟨0, s, rfl, hwaiting⟩
    · obtain ⟨t, ht⟩ : ∃ t, s.step cfg .loop = some t := loop_isSome hwaiting hs
      have hleft := stepsLeft_step ht
      rw [if_pos rfl, if_neg nofun] at hleft
      have hnonneg := t.stepsLeft_nonneg cfg
      have hrunning : t.pc ≠ .stopped := by
        obtain ⟨i, -, -, rfl⟩ | ⟨i, -, -, rfl⟩ | ⟨i, a, -, -, rfl⟩ | ⟨i, a, -, -, rfl⟩ |
          ⟨i, u, -, -, rfl⟩ | ⟨i, -, -, rfl⟩ := loop_cases ht
        all_goals nofun
      obtain ⟨k, u, hu, hend⟩ := ih (t.stepsLeft cfg).toNat (by omega) t hrunning rfl
      exact ⟨k + 1, u, run_cons_eq_some.mpr ⟨t, ht, hu⟩, hend⟩

/-- And all dials to theirs. -/
theorem exists_finished {n : ℤ} (s : DialLoop) (h : Shared.Healing cfg.inflight n s.shared) :
    ∃ rest t, (∀ a ∈ rest, ∃ b, a = .env b ∧ b.faultless = true) ∧
      run (step cfg) s rest = some t ∧ t.shared.Quiet ∧ t.pc = s.pc := by
  induction hn : s.shared.work using Nat.strong_induction_on generalizing s with
  | _ k ih =>
    by_cases hfinished : ∀ g ∈ s.shared.dials, g.pc = .finished
    · exact ⟨[], s, by simp, rfl, h.quiet hfinished, rfl⟩
    · push Not at hfinished
      obtain ⟨g, hg, hpc⟩ := hfinished
      obtain ⟨d, hd⟩ := List.mem_iff_getElem?.mp hg
      obtain ⟨a, u, ha, hnot, hu, hless⟩ := h.exists_step hd hpc
      have hstep : s.step cfg (.env a) = some { s with shared := u } :=
        step_env_eq_some.mpr ⟨hnot, u, hu, rfl⟩
      obtain ⟨rest, t, hrest, ht, hquiet, hpc'⟩ :=
        ih u.work (hn ▸ hless) { s with shared := u } (h.step (.inl ha) hu) rfl
      refine ⟨.env a :: rest, t, ?_, run_cons_eq_some.mpr ⟨_, hstep, ht⟩, hquiet, hpc'⟩
      intro b hb
      rcases List.mem_cons.mp hb with rfl | hb
      · exact ⟨a, rfl, ha⟩
      · exact hrest b hb

/-- **A round is always possible.** -/
theorem exists_round {p : DialLoop × Reads} (hpc : p.1.pc = .waiting)
    (hinv : p.1.shared.Inv cfg.inflight) (hquiet : p.1.shared.Quiet) : ∃ q, Round cfg p q := by
  obtain ⟨n, u, hu, hwaiting⟩ := exists_loops cfg { p.1 with pc := .checking 0 } nofun
  have hloops : ∀ a ∈ List.replicate n LoopAct.loop, a.faultless = true := by
    intro a ha
    rw [List.eq_of_mem_replicate ha]
    rfl
  obtain ⟨m, hm⟩ : ∃ m, InRound cfg p.1 m u :=
    run_invariant_of_forall (fun _ _ _ ha h ht => InRound.step ha h ht) hloops
      ⟨0, InRound.start hinv hquiet⟩ hu
  obtain ⟨rest, t, hrest, ht, hquiet', hpc'⟩ := exists_finished u hm.healing
  have hrun : run (step cfg) p.1 (.tick :: (List.replicate n .loop ++ rest)) = some t :=
    run_cons_eq_some.mpr
      ⟨_, step_tick_eq_some.mpr ⟨hpc, rfl⟩, run_append_eq_some.mpr ⟨u, hu, ht⟩⟩
  obtain ⟨m', hm'⟩ := run_withMonitor (watchReads cfg) p.2 hrun
  refine ⟨(t, m'), _, ?_, hm', hpc'.trans hwaiting, hquiet'⟩
  intro a ha
  rcases List.mem_append.mp ha with ha | ha
  · exact hloops a ha
  · obtain ⟨b, rfl, hb⟩ := hrest a ha
    exact hb

theorem Rounds.pc {k : ℕ} {p q : DialLoop × Reads} (h : Rounds cfg k p q)
    (hpc : p.1.pc = .waiting) : q.1.pc = .waiting := by
  cases k with
  | zero => exact h ▸ hpc
  | succ k =>
    obtain ⟨r, -, acts, -, -, hwaiting, -⟩ := h
    exact hwaiting

variable (cfg) in
theorem exists_rounds {p : DialLoop × Reads} (hpc : p.1.pc = .waiting)
    (hinv : p.1.shared.Inv cfg.inflight) (hquiet : p.1.shared.Quiet) (k : ℕ) :
    ∃ q, Rounds cfg k p q := by
  induction k with
  | zero => exact ⟨p, rfl⟩
  | succ k ih =>
    obtain ⟨r, hr⟩ := ih
    obtain ⟨hrinv, hrquiet, -⟩ := hr.active hinv hquiet
    obtain ⟨q, hq⟩ := exists_round (hr.pc hpc) hrinv hrquiet
    exact ⟨q, r, hr, hq⟩

/-- Rounds are a run. -/
theorem Rounds.run {k : ℕ} {p q : DialLoop × Reads} (h : Rounds cfg k p q) :
    ∃ acts, Transition.run (withMonitor (DialLoop.step cfg) (watchReads cfg)) p acts = some q := by
  induction k generalizing q with
  | zero => exact ⟨[], congrArg some h⟩
  | succ k ih =>
    obtain ⟨r, hr, acts, -, hacts, -⟩ := h
    obtain ⟨before, hbefore⟩ := ih hr
    exact ⟨before ++ .tick :: acts, run_append_eq_some.mpr ⟨r, hbefore, hacts⟩⟩

/-- Rounds enough for the target lead to the target. -/
theorem Rounds.target_le {j : ℕ} {p q : DialLoop × Reads}
    (h : Rounds cfg (j + Nat.size (2 * min cfg.perTick cfg.inflight)) p q)
    (hinv : p.1.shared.Inv cfg.inflight) (hquiet : p.1.shared.Quiet)
    (hj : cfg.target ≤ p.1.shared.active + (j + 2) * (min cfg.perTick cfg.inflight : ℕ)) :
    cfg.target ≤ q.1.shared.active := by
  obtain ⟨-, -, -, -, hmissing⟩ := h.active hinv hquiet
  have hfew : (cfg.target - p.1.shared.active).toNat ≤ (j + 2) * min cfg.perTick cfg.inflight := by
    rw [Int.toNat_le]
    push_cast at hj ⊢
    omega
  rw [iterate_stillMissing_add hfew] at hmissing
  omega

end DialLoop

open DialLoop

/-- **Recovery.** Take any run, whatever failed, closed or was torn in it, that has come to a state
with nothing part-way. Then `k` rounds without a fault are possible; and however they go, no
connection is lost, a round adds no more than `perTick`, and what is missing to the target is after
each round at most half of what it was or less by `min perTick inflight`, whichever is more. So
rounds enough lead to the target; and beyond it goes only what was there already, and one
connection for each torn check of these rounds. -/
theorem rounds_heal (cfg : DialConfig) (capacity k : ℕ) {s : DialLoop}
    (hreach : Reachable (step cfg) (start capacity) s) (hpc : s.pc = .waiting)
    (hquiet : s.shared.Quiet) :
    (∃ q, Rounds cfg k (s, ⟨∅, 0⟩) q) ∧ ∀ t m, Rounds cfg k (s, ⟨∅, 0⟩) (t, m) →
      s.shared.reg.len ≤ t.shared.reg.len ∧
      t.shared.reg.len ≤ s.shared.reg.len + k * cfg.perTick ∧
      (t.shared.reg.len : ℤ) ≤ max (s.shared.reg.len : ℤ) cfg.target + m.tears ∧
      (cfg.target - t.shared.reg.len).toNat ≤
        (stillMissing (min cfg.perTick cfg.inflight))^[k] (cfg.target - s.shared.reg.len).toNat ∧
      (∀ j, k = j + Nat.size (2 * min cfg.perTick cfg.inflight) →
        cfg.target ≤ s.shared.reg.len + (j + 2) * (min cfg.perTick cfg.inflight : ℕ) →
        cfg.target ≤ t.shared.reg.len) ∧
      t.shared.active = t.shared.reg.len ∧ t.shared.pending = 0 := by
  have hinv := Shared.Inv.of_reachable (reachable_shared hreach)
  refine ⟨exists_rounds cfg hpc hinv hquiet k, ?_⟩
  intro t m ht
  obtain ⟨htinv, htquiet, hlow, hhigh, hmissing⟩ := ht.active hinv hquiet
  obtain ⟨acts, hrun⟩ := ht.run
  have hclaimed := claimed_le_max hinv hpc hrun
  simp only [hquiet.claimed_eq, htquiet.claimed_eq] at hclaimed
  obtain ⟨hexact, -, -⟩ := hquiet.exact hinv
  obtain ⟨htexact, hpending, -⟩ := htquiet.exact htinv
  simp only at htexact hpending
  simp only [hexact, htexact] at hlow hhigh hmissing
  refine ⟨by omega, by exact_mod_cast hhigh, hclaimed, hmissing, ?_, htexact, hpending⟩
  rintro j rfl hj
  rw [← hexact] at hj
  exact htexact ▸ ht.target_le hinv hquiet hj

/-- One dial a tick towards three connections. -/
def oneATick : DialConfig := ⟨["ws://b"], by decide, 3, 100, 2⟩

/-- The first dial fails and the second connection is lost. Three rounds later there are three. -/
theorem rounds_heal_three : ∃ s t m, Rounds oneATick 3 (s, ⟨∅, 0⟩) (t, m) ∧
    s.shared.reg.len = 0 ∧ t.shared.reg.len = 3 := by
  have hrun : (run (step oneATick) (start 3) [.tick, .loop, .loop, .loop, .loop, .env (.fail 0),
      .env (.release 0), .env (.finish 0), .tick, .loop, .loop, .loop, .loop, .env (.connect 1),
      .env (.add 1), .env (.closeRemove 1), .env (.count 1), .env (.closeCount 1),
      .env (.release 1), .env (.finish 1)]).any (fun s => s.pc = .waiting ∧
        (∀ g ∈ s.shared.dials, g.pc = .finished ∧ g.close ≠ .removed) ∧
        s.shared.reg.len = 0) = true := by decide
  obtain ⟨s, hs, hstate⟩ := (Option.any_eq_true _ _).mp hrun
  obtain ⟨hpc, hquiet, hlen⟩ := of_decide_eq_true hstate
  obtain ⟨⟨⟨t, m⟩, ht⟩, hall⟩ := rounds_heal oneATick 3 3 ⟨_, hs⟩ hpc hquiet
  obtain ⟨-, hhigh, -, hmissing, -⟩ := hall t m ht
  have hper : oneATick.perTick = 1 := by decide
  have hnone : (stillMissing (min oneATick.perTick oneATick.inflight))^[3] 3 = 0 := by decide
  rw [hlen, hper] at hhigh
  rw [hlen] at hmissing
  have hthree : (oneATick.target - t.shared.reg.len).toNat ≤ 0 := hmissing.trans hnone.le
  have htarget : oneATick.target = 3 := rfl
  exact ⟨s, t, m, ht, hlen, by omega⟩

end Millionws
