import Mathlib.Algebra.BigOperators.Fin
import Mathlib.Algebra.Order.BigOperators.Group.Finset
import Millionws.Compare
import Millionws.DialRounds
import Millionws.Interleaving

/-!
# The local benchmark

`run.sh` starts one server and several load generators and puts what they come to into a directory
of its own; `matrix.sh` runs every variant several times over and hands the directories to
`compare.py`.

## The rate

Each load generator gets its share of the connections, rounded up, and its share of 1,000 dials a
second, rounded down. They do not know of each other, and a load generator dials at least once in
every tick of 10 ms, whatever its rate. So the shares add up to no more than 1,000 only as long as
there are at most ten of them: `harness_rate`. The connections do add up to what was asked for, and
less than one more for each load generator, but for torn checks: `harness_total`.

## The directories

The name of a directory is the date and the variant, and a number if that is taken. The date is
read again for every name, and may have changed. Whatever is there already, the search ends, and no
directory is used twice or written over, so that the table counts every run once: `matrix_table`.

## What is deliberately absent

The containers, and what a run measures: `run.sh` gets to its end, with or without a summary.
`LOADGEN_RATE` is not set by the caller. A load generator is its dial loop, on which the others have
no influence but through the server, and the server may do anything.

## Main definitions

* `loadgenConns`, `loadgenRate` — the arguments of a load generator
* `findOut`, `runSh`, `matrixSh` — the scripts

## Main results

* `harness_rate` — when the load generators together keep to 1,000 dials a second
* `harness_total` — and that they reach the connections that were asked for
* `matrix_table` — the table has a row for each variant with as many runs as were asked for
-/

namespace Millionws

open Strconv Transition

/-! ### Arguments -/

/-- `$(( (total + replicas - 1) / replicas ))`. -/
def loadgenConns (total : ℤ) (replicas : ℕ) : ℤ := (total + replicas - 1).tdiv replicas

/-- `$(( 1000 / replicas ))`. -/
def loadgenRate (replicas : ℕ) : ℤ := (1000 : ℤ).tdiv replicas

/-- The dial loop of a load generator, with the default of `-inflight`. -/
def replicaConfig (urls : List String) (hurls : urls ≠ []) (total : ℤ) (replicas : ℕ) :
    DialConfig :=
  ⟨urls, hurls, loadgenConns total replicas, loadgenRate replicas, 200⟩

section

variable {urls : List String} {hurls : urls ≠ []} {total : ℤ} {replicas : ℕ}

/-- There is something to do for a load generator unless there is nothing to do at all. -/
theorem loadgenConns_pos_iff (hreplicas : 1 ≤ replicas) :
    1 ≤ loadgenConns total replicas ↔ 1 ≤ total := by
  have hpos : (0 : ℤ) < replicas := by exact_mod_cast hreplicas
  rw [loadgenConns]
  constructor
  · intro h
    by_contra htotal
    have hle : (total + replicas - 1).tdiv replicas ≤ 0 := by
      rcases le_or_gt 0 (total + replicas - 1) with hnonneg | hneg
      · rw [Int.tdiv_eq_ediv_of_nonneg hnonneg]
        exact Int.lt_add_one_iff.mp (Int.ediv_lt_of_lt_mul hpos (by omega))
      · have hopp : 0 ≤ (-(total + replicas - 1)).tdiv replicas :=
          Int.tdiv_nonneg (by omega) hpos.le
        rw [Int.neg_tdiv] at hopp
        omega
    omega
  · intro h
    rw [Int.tdiv_eq_ediv_of_nonneg (by omega)]
    exact Int.le_ediv_of_mul_le hpos (by omega)

theorem perTick_replicaConfig (urls : List String) (hurls : urls ≠ []) (total : ℤ) (replicas : ℕ) :
    (replicaConfig urls hurls total replicas).perTick =
      (max (loadgenRate replicas / 100) 1).toNat := by
  have hnonneg : 0 ≤ loadgenRate replicas := Int.tdiv_nonneg (by decide) (Int.natCast_nonneg _)
  rw [← Int.tdiv_eq_ediv_of_nonneg hnonneg]
  rfl

/-- What up to ten load generators may dial in 100 ticks. -/
theorem perTick_mul_le (hreplicas : 1 ≤ replicas) (hle : replicas ≤ 10) :
    replicas * ((replicaConfig urls hurls total replicas).perTick * 100 : ℤ) ≤ 1000 := by
  have hpos : (0 : ℤ) < replicas := by exact_mod_cast hreplicas
  have hrate : loadgenRate replicas = 1000 / (replicas : ℤ) :=
    Int.tdiv_eq_ediv_of_nonneg (by decide)
  have hshare : 100 ≤ loadgenRate replicas := by
    rw [hrate]
    exact Int.le_ediv_of_mul_le hpos (by omega)
  have hper : ((replicaConfig urls hurls total replicas).perTick * 100 : ℤ) ≤
      loadgenRate replicas := by
    rw [perTick_replicaConfig]
    omega
  calc (replicas : ℤ) * ((replicaConfig urls hurls total replicas).perTick * 100)
      ≤ replicas * loadgenRate replicas := Int.mul_le_mul_of_nonneg_left hper hpos.le
    _ ≤ 1000 := by
      rw [hrate]
      exact Int.mul_ediv_self_le hpos.ne'

/-- More than ten are at the minimum of one dial a tick. -/
theorem perTick_eq_one (hlt : 10 < replicas) :
    (replicaConfig urls hurls total replicas).perTick = 1 := by
  have hshare : loadgenRate replicas < 100 := by
    rw [loadgenRate, Int.tdiv_eq_ediv_of_nonneg (by decide)]
    exact Int.ediv_lt_of_lt_mul (by omega) (by omega)
  rw [perTick_replicaConfig]
  omega

end

/-! ### The rate -/

namespace DialLoop

variable {cfg : DialConfig}

/-- The loop is between two steps of one tick. -/
def midTick (s : DialLoop) : Bool := s.pc ≠ .waiting && s.pc ≠ .stopped

/-- The ticks that some actions belong to, the one they begin in among them. -/
def ticksIn (s : DialLoop) (acts : List LoopAct) : ℕ := s.midTick.toNat + acts.count .tick

theorem one_le_perTick (cfg : DialConfig) : 1 ≤ cfg.perTick := by
  rw [DialConfig.perTick]
  omega

theorem budget_le (cfg : DialConfig) (s : DialLoop) :
    s.budget cfg ≤ cfg.perTick * s.midTick.toNat := by
  have hper := one_le_perTick cfg
  obtain ⟨pc, next, shared⟩ := s
  cases pc <;> simp [budget, midTick]
  all_goals omega

/-- **At most `perTick` dials for each tick**, in any window. -/
theorem dials_le {s t : DialLoop} {acts : List LoopAct} (h : run (step cfg) s acts = some t) :
    (t.shared.dials.length : ℤ) ≤ s.shared.dials.length + cfg.perTick * s.ticksIn acts := by
  have hbudget := run_budget (fun s => s.budget cfg + s.shared.dials.length) (fun _ => 0)
    (fun a => if a = .tick then (cfg.perTick : ℤ) else 0) (fun _ _ _ => budget_step) h
  rw [sum_map_ite, List.map_const', List.sum_replicate, nsmul_zero] at hbudget
  have hstart := s.budget_le cfg
  have hend := t.budget_nonneg cfg
  rw [ticksIn]
  push_cast
  rw [mul_add]
  omega

end DialLoop

open DialLoop

/-- The load generators of a run side by side. -/
def benchStep (urls : List String) (hurls : urls ≠ []) (total : ℤ) (replicas : ℕ) :
    (Fin replicas → DialLoop) → Fin replicas × LoopAct → Option (Fin replicas → DialLoop) :=
  interleave fun _ => DialLoop.step (replicaConfig urls hurls total replicas)

/-- All dials that have been started. -/
def dialsOf {replicas : ℕ} (s : Fin replicas → DialLoop) : ℤ :=
  ∑ i, ((s i).shared.dials.length : ℤ)

/-- In every run, the load generators start at most 1,000 dials while none of them is in more than
100 ticks. -/
def BenchRateKept (urls : List String) (hurls : urls ≠ []) (total : ℤ) (replicas capacity : ℕ) :
    Prop :=
  ∀ s t acts, Reachable (benchStep urls hurls total replicas) (fun _ => start capacity) s →
    run (benchStep urls hurls total replicas) s acts = some t →
    (∀ i, (s i).ticksIn (actsOf i acts) ≤ 100) → dialsOf t ≤ dialsOf s + 1000

/-- **1,000 dials a second in total.** With the arguments that `run.sh` computes and whatever the
server does, the load generators together keep to 1,000 dials a second if and only if there are at
most ten of them, or nothing to dial for. -/
theorem harness_rate (urls : List String) (hurls : urls ≠ []) (total : ℤ) (replicas capacity : ℕ)
    (hreplicas : 1 ≤ replicas) :
    BenchRateKept urls hurls total replicas capacity ↔ replicas ≤ 10 ∨ total ≤ 0 := by
  constructor
  · -- eleven load generators, each of which fails a hundred times
    intro h
    by_contra hcond
    obtain ⟨hmany, htotal⟩ := not_or.mp hcond
    have hidle : Idle (start capacity) := ⟨rfl, rfl, rfl, rfl⟩
    have hper : (replicaConfig urls hurls total replicas).perTick = 1 :=
      perTick_eq_one (Nat.not_le.mp hmany)
    have htarget : 1 ≤ (replicaConfig urls hurls total replicas).target :=
      (loadgenConns_pos_iff hreplicas).mpr (Int.not_le.mp htotal)
    obtain ⟨t, seg, ht, hcount, -, hlen⟩ :=
      hidle.failingTicks hper htarget (show 1 ≤ 200 by decide) 99
    obtain ⟨acts, hrun, hacts⟩ : ∃ acts,
        run (benchStep urls hurls total replicas) (fun _ => start capacity) acts =
          some (fun _ => t) ∧ ∀ i, actsOf i acts = .tick :: seg :=
      exists_run_interleave fun _ => ht
    have hle := h _ _ acts (Reachable.refl _) hrun fun i => by
      rw [hacts i, ticksIn, hcount]
      rfl
    simp only [dialsOf, hlen, Finset.sum_const, Finset.card_univ, Fintype.card_fin] at hle
    simp [start, Shared.init] at hle
    omega
  · rintro (hfew | hnone) s t acts hreach hrun hticks
    · have hdials (i : Fin replicas) : ((t i).shared.dials.length : ℤ) ≤
          (s i).shared.dials.length + (replicaConfig urls hurls total replicas).perTick * 100 := by
        have hle := dials_le (run_actsOf hrun i)
        have hi : ((s i).ticksIn (actsOf i acts) : ℤ) ≤ 100 := by exact_mod_cast hticks i
        have hmul := Int.mul_le_mul_of_nonneg_left hi
          (Int.natCast_nonneg (replicaConfig urls hurls total replicas).perTick)
        omega
      have hsum := Finset.sum_le_sum fun i (_ : i ∈ Finset.univ) => hdials i
      rw [Finset.sum_add_distrib, Finset.sum_const, Finset.card_univ, Fintype.card_fin,
        nsmul_eq_mul] at hsum
      have hall : replicas * ((replicaConfig urls hurls total replicas).perTick * 100 : ℤ) ≤ 1000 :=
        perTick_mul_le hreplicas hfew
      rw [dialsOf, dialsOf]
      omega
    · have hzero (i : Fin replicas) : (t i).shared.dials = [] := by
        have htarget : (replicaConfig urls hurls total replicas).target ≤ 0 := by
          by_contra hpos
          have := (loadgenConns_pos_iff hreplicas).mp (Int.not_le.mp hpos)
          omega
        have hti : Reachable (DialLoop.step (replicaConfig urls hurls total replicas))
            (start capacity) (t i) := (hreach.trans ⟨_, hrun⟩).of_interleave i
        have huntouched := hti.invariant (fun _ _ _ h => Untouched.step h htarget)
          (untouched_start capacity)
        exact huntouched.shared.1
      have hnonneg : 0 ≤ dialsOf s := Finset.sum_nonneg fun i _ => Int.natCast_nonneg _
      have ht : dialsOf t = 0 := Finset.sum_eq_zero fun i _ => by rw [hzero i]; rfl
      omega

/-- The default of four load generators, and twenty. -/
theorem harness_rate_four : BenchRateKept ["ws://server:8080/ws"] (by decide) 200000 4 50000 ∧
    ¬ BenchRateKept ["ws://server:8080/ws"] (by decide) 200000 20 10000 :=
  ⟨(harness_rate _ _ 200000 4 50000 (by decide)).mpr (.inl (by decide)),
    fun h => absurd ((harness_rate _ _ 200000 20 10000 (by decide)).mp h) (by decide)⟩

/-! ### The connections -/

namespace DialLoop

variable {cfg : DialConfig}

/-- Rounds from the start lead at least to the target, and beyond it by torn checks only. -/
theorem Rounds.len_bounds {j capacity : ℕ} {q : DialLoop × Reads}
    (h : Rounds cfg (j + Nat.size (2 * min cfg.perTick cfg.inflight)) (start capacity, ⟨∅, 0⟩) q)
    (htarget : 0 ≤ cfg.target) (hj : cfg.target ≤ (j + 2) * (min cfg.perTick cfg.inflight : ℕ)) :
    cfg.target ≤ q.1.shared.reg.len ∧ (q.1.shared.reg.len : ℤ) ≤ cfg.target + q.2.tears := by
  have hinv : (start capacity).shared.Inv cfg.inflight := Shared.inv_init _ _
  have hquiet : (start capacity).shared.Quiet := fun g hg => by cases hg
  obtain ⟨hqinv, hqquiet, -⟩ := h.active hinv hquiet
  have hreached : cfg.target ≤ q.1.shared.active := h.target_le hinv hquiet <| by
    have hzero : (start capacity).shared.active = 0 := rfl
    rw [hzero]
    omega
  obtain ⟨acts, hrun⟩ := h.run
  have hclaimed := claimed_le htarget hrun
  rw [(hqquiet.exact hqinv).1] at hreached
  rw [hqquiet.claimed_eq] at hclaimed
  exact ⟨hreached, hclaimed⟩

end DialLoop

/-- The shares add up to what was asked for, and less than one more for each load generator. -/
theorem mul_loadgenConns {total : ℤ} {replicas : ℕ} (hreplicas : 1 ≤ replicas)
    (htotal : 0 ≤ total) :
    total ≤ replicas * loadgenConns total replicas ∧
      replicas * loadgenConns total replicas < total + replicas := by
  have hpos : (0 : ℤ) < replicas := by exact_mod_cast hreplicas
  have hdivmod := Int.mul_ediv_add_emod (total + replicas - 1) replicas
  have hlow := Int.emod_nonneg (total + replicas - 1) hpos.ne'
  have hhigh := Int.emod_lt_of_pos (total + replicas - 1) hpos
  rw [loadgenConns, Int.tdiv_eq_ediv_of_nonneg (by omega)]
  omega

/-- **The connections in total.** If nothing fails, rounds enough for the share of one load
generator are possible for all of them, side by side, and wherever they lead, the load generators
together hold as many connections as were asked for, and less than one more for each of them beside
the torn checks. -/
theorem harness_total (urls : List String) (hurls : urls ≠ []) (total : ℤ)
    (replicas capacity j : ℕ) (hreplicas : 1 ≤ replicas) (htotal : 0 ≤ total)
    (hj : loadgenConns total replicas ≤
      (j + 2) * (min (replicaConfig urls hurls total replicas).perTick 200 : ℕ)) :
    (∃ t : Fin replicas → DialLoop × Reads, ∀ i, Rounds (replicaConfig urls hurls total replicas)
      (j + Nat.size (2 * min (replicaConfig urls hurls total replicas).perTick 200))
      (start capacity, ⟨∅, 0⟩) (t i)) ∧
    ∀ t : Fin replicas → DialLoop × Reads,
      (∀ i, Rounds (replicaConfig urls hurls total replicas)
        (j + Nat.size (2 * min (replicaConfig urls hurls total replicas).perTick 200))
        (start capacity, ⟨∅, 0⟩) (t i)) →
      Reachable (benchStep urls hurls total replicas) (fun _ => start capacity)
        (fun i => (t i).1) ∧
      total ≤ ∑ i, ((t i).1.shared.reg.len : ℤ) ∧
      ∑ i, ((t i).1.shared.reg.len : ℤ) < total + replicas + ∑ i, ((t i).2.tears : ℤ) := by
  have htarget : 0 ≤ (replicaConfig urls hurls total replicas).target := by
    refine Int.tdiv_nonneg ?_ (Int.natCast_nonneg _)
    omega
  constructor
  · have hquiet : (start capacity).shared.Quiet := fun g hg => by cases hg
    obtain ⟨q, hq⟩ := exists_rounds (replicaConfig urls hurls total replicas)
      (p := (start capacity, ⟨∅, 0⟩)) rfl (Shared.inv_init _ _) hquiet
      (j + Nat.size (2 * min (replicaConfig urls hurls total replicas).perTick 200))
    exact ⟨fun _ => q, fun _ => hq⟩
  · intro t ht
    refine ⟨?_, ?_⟩
    · choose acts hacts using fun i => (ht i).run
      obtain ⟨all, hall, -⟩ := exists_run_interleave fun i => run_of_run_withMonitor (hacts i)
      exact ⟨all, hall⟩
    · have hlen (i : Fin replicas) := (ht i).len_bounds htarget hj
      have hlow := Finset.sum_le_sum fun i (_ : i ∈ Finset.univ) => (hlen i).1
      have hhigh := Finset.sum_le_sum fun i (_ : i ∈ Finset.univ) => (hlen i).2
      rw [Finset.sum_const, Finset.card_univ, Fintype.card_fin, nsmul_eq_mul] at hlow
      rw [Finset.sum_add_distrib, Finset.sum_const, Finset.card_univ, Fintype.card_fin,
        nsmul_eq_mul] at hhigh
      obtain ⟨hleast, hmost⟩ := mul_loadgenConns hreplicas htotal
      exact ⟨hleast.trans hlow, hhigh.trans_lt (Int.add_lt_add_right hmost _)⟩

/-- Three load generators for 200 connections, 67 for each, after 24 rounds. -/
theorem harness_total_three : ∃ t : Fin 3 → DialLoop × Reads,
    200 ≤ ∑ i, ((t i).1.shared.reg.len : ℤ) ∧
    ∑ i, ((t i).1.shared.reg.len : ℤ) < 203 + ∑ i, ((t i).2.tears : ℤ) := by
  obtain ⟨⟨t, ht⟩, hall⟩ := harness_total ["ws://server:8080/ws"] (by decide) 200 3 67 21
    (by decide) (by decide) (by decide)
  exact ⟨t, (hall t ht).2.1, (hall t ht).2.2⟩

/-! ### The directories -/

/-- What `date +%F` prints. -/
def Date : Type := { s : List Char // s.length = 10 }

/-- The directories under `results/local`, each with its `summary.json` if it has one. -/
abbrev Results : Type := List (List Char × Option RunSummary)

/-- The `n`-th name that is tried: `<date>-<variant>`, and after that `<date>-<variant>-<n>`. -/
def outName (date : Date) (variant : List Char) (n : ℕ) : List Char :=
  if n = 1 then date.val ++ '-' :: variant else date.val ++ '-' :: (variant ++ '-' :: itoa n)

/-- `while [[ -e $out ]]`, where `dates n` is the date when the `n`-th name is made. -/
def findOut (taken : List (List Char)) (dates : ℕ → Date) (variant : List Char) :
    ℕ → ℕ → Option (List Char)
  | 0, _ => none
  | fuel + 1, n =>
    if taken.contains (outName (dates n) variant n) then findOut taken dates variant fuel (n + 1)
    else some (outName (dates n) variant n)

/-- `record.py run --variant "$variant"`: what it has measured, if anything, under that name. -/
def recorded (variant : List Char) (measured : Option RunSummary) : Option RunSummary :=
  measured.map fun m => { m with variant := variant }

/-- `run.sh`: it makes the directory, and `record.py` may leave a summary in it. -/
def runSh (fuel : ℕ) (results : Results) (dates : ℕ → Date) (variant : List Char)
    (measured : Option RunSummary) : Option (Results × List Char) :=
  (findOut (results.map Prod.fst) dates variant fuel 1).map fun out =>
    (results ++ [(out, recorded variant measured)], out)

/-- The runs of `matrix.sh`, the `k`-th of them first, with `dirs`. -/
def matrixRuns (fuel : ℕ) (dates : ℕ → ℕ → Date) (measured : ℕ → Option RunSummary) :
    List (List Char) → ℕ → Results → List (List Char) → Option (Results × List (List Char))
  | [], _, results, dirs => some (results, dirs)
  | variant :: runs, k, results, dirs =>
    match runSh fuel results (dates k) variant (measured k) with
    | some (results, out) => matrixRuns fuel dates measured runs (k + 1) results (dirs ++ [out])
    | none => none

/-- `for i in $(seq "$repeats")` and `for v in "${variants[@]}"`. -/
def matrixOrder (repeats : ℕ) (variants : List (List Char)) : List (List Char) :=
  (List.replicate repeats variants).flatten

/-- `load` opens `summary.json` in a directory. -/
def Results.summary (results : Results) (dir : List Char) : Option RunSummary :=
  (results.lookup dir).join

/-- `matrix.sh`, with the table that `compare.py` prints. -/
def matrixSh (fuel : ℕ) (dates : ℕ → ℕ → Date) (measured : ℕ → Option RunSummary) (repeats : ℕ)
    (variants : List (List Char)) (results : Results) :
    Option (Results × List (List Char) × List (List (List Char))) :=
  (matrixRuns fuel dates measured (matrixOrder repeats variants) 0 results []).map
    fun (results, dirs) => (results, dirs, Compare.table (dirs.map results.summary))

/-- Different numbers make different names, also on different days. -/
theorem outName_injective (dates : ℕ → Date) (variant : List Char) :
    Function.Injective fun n => outName (dates n) variant n := by
  intro m n h
  have hdrop (n : ℕ) : (outName (dates n) variant n).drop 10 =
      if n = 1 then '-' :: variant else '-' :: (variant ++ '-' :: itoa n) := by
    rw [outName]
    split_ifs
    · exact List.drop_left' (dates n).property
    · exact List.drop_left' (dates n).property
  have hrest := congrArg (List.drop 10) h
  rw [hdrop, hdrop] at hrest
  split_ifs at hrest with hm1 hn1 hn1
  · omega
  · simp at hrest
  · simp at hrest
  · simp only [List.cons.injEq, true_and, List.append_cancel_left_eq] at hrest
    exact_mod_cast itoa_injective hrest

/-- A name that is found is new. -/
theorem findOut_notMem {taken : List (List Char)} {dates : ℕ → Date} {variant out : List Char}
    {fuel n : ℕ} (h : findOut taken dates variant fuel n = some out) : out ∉ taken := by
  induction fuel generalizing n with
  | zero => cases h
  | succ fuel ih =>
    rw [findOut] at h
    split_ifs at h with htaken
    · exact ih h
    · exact Option.some.inj h ▸ mt List.contains_iff_mem.mpr htaken

/-- **The search ends**: among that many different names one is free. -/
theorem findOut_isSome {taken : List (List Char)} {fuel : ℕ} (hfuel : taken.length < fuel)
    (dates : ℕ → Date) (variant : List Char) :
    ∃ out, findOut taken dates variant fuel 1 = some out := by
  have hall {fuel n : ℕ} (h : findOut taken dates variant fuel n = none) :
      ∀ j < fuel, outName (dates (n + j)) variant (n + j) ∈ taken := by
    induction fuel generalizing n with
    | zero => exact fun j hj => absurd hj (Nat.not_lt_zero j)
    | succ fuel ih =>
      rw [findOut] at h
      split_ifs at h with htaken
      intro j hj
      cases j with
      | zero => exact List.contains_iff_mem.mp htaken
      | succ j =>
        have := ih h j (Nat.lt_of_succ_lt_succ hj)
        rwa [show n + (j + 1) = n + 1 + j by omega]
  by_contra hnone
  have hnone : findOut taken dates variant fuel 1 = none := by
    cases hfind : findOut taken dates variant fuel 1 with
    | none => rfl
    | some out => exact absurd ⟨out, hfind⟩ hnone
  have hnodup : ((List.range fuel).map fun j => outName (dates (1 + j)) variant (1 + j)).Nodup :=
    List.nodup_range.map ((outName_injective dates variant).comp (add_right_injective 1))
  have hsub : (List.range fuel).map (fun j => outName (dates (1 + j)) variant (1 + j)) ⊆ taken := by
    intro name hname
    obtain ⟨j, hj, rfl⟩ := List.mem_map.mp hname
    exact hall hnone j (List.mem_range.mp hj)
  have hle := (hnodup.subperm hsub).length_le
  rw [List.length_map, List.length_range] at hle
  omega

/-- What the runs leave, the `k`-th first. -/
def written (measured : ℕ → Option RunSummary) : List (List Char) → ℕ → List (Option RunSummary)
  | [], _ => []
  | variant :: runs, k => recorded variant (measured k) :: written measured runs (k + 1)

theorem length_written (measured : ℕ → Option RunSummary) (runs : List (List Char)) (k : ℕ) :
    (written measured runs k).length = runs.length := by
  induction runs generalizing k with
  | nil => rfl
  | cons variant runs ih => rw [written, List.length_cons, List.length_cons, ih]

/-- Runs that all leave a summary leave one of each variant in turn. -/
theorem map_variant_written {measured : ℕ → Option RunSummary} {runs : List (List Char)} {k : ℕ}
    (h : ∀ j < runs.length, (measured (k + j)).isSome) :
    (written measured runs k).reduceOption.map RunSummary.variant = runs := by
  induction runs generalizing k with
  | nil => rfl
  | cons variant runs ih =>
    obtain ⟨m, hm⟩ := Option.isSome_iff_exists.mp (h 0 (Nat.zero_lt_succ _))
    have hrest : ∀ j < runs.length, (measured (k + 1 + j)).isSome := by
      intro j hj
      rw [show k + 1 + j = k + (j + 1) by omega]
      exact h (j + 1) (Nat.succ_lt_succ hj)
    rw [Nat.add_zero] at hm
    rw [written, hm, recorded, Option.map_some, List.reduceOption_cons_of_some, List.map_cons,
      ih hrest]

/-- **The runs.** Every run has a directory that did not exist, and nothing else changes. -/
theorem matrixRuns_eq {fuel : ℕ} {dates : ℕ → ℕ → Date} {measured : ℕ → Option RunSummary}
    {runs : List (List Char)} {k : ℕ} {results : Results} {dirs : List (List Char)}
    (hfuel : results.length + runs.length ≤ fuel) :
    ∃ outs : List (List Char),
      matrixRuns fuel dates measured runs k results dirs =
        some (results ++ outs.zip (written measured runs k), dirs ++ outs) ∧
      outs.length = runs.length ∧ outs.Nodup ∧ ∀ out ∈ outs, out ∉ results.map Prod.fst := by
  induction runs generalizing k results dirs with
  | nil => exact ⟨[], by simp [matrixRuns], rfl, List.nodup_nil, by simp⟩
  | cons variant runs ih =>
    rw [List.length_cons] at hfuel
    have hfree : (results.map Prod.fst).length < fuel := by
      rw [List.length_map]
      omega
    obtain ⟨out, hout⟩ := findOut_isSome hfree (dates k) variant
    have hnew := findOut_notMem hout
    have hrun : runSh fuel results (dates k) variant (measured k) =
        some (results ++ [(out, recorded variant (measured k))], out) := by
      rw [runSh, hout]
      rfl
    have hrest : (results ++ [(out, recorded variant (measured k))]).length + runs.length ≤
        fuel := by
      rw [List.length_append, List.length_singleton]
      omega
    obtain ⟨outs, heq, hlength, hnodup, hnotMem⟩ := @ih (k + 1) _ (dirs ++ [out]) hrest
    refine ⟨out :: outs, ?_, by rw [List.length_cons, List.length_cons, hlength], ?_, ?_⟩
    · rw [matrixRuns, hrun]
      simp only [heq, List.append_assoc, List.singleton_append, written, List.zip_cons_cons]
    · refine List.nodup_cons.mpr ⟨fun hmem => hnotMem out hmem ?_, hnodup⟩
      simp
    · intro name hname
      rcases List.mem_cons.mp hname with rfl | hname
      · exact hnew
      · have := hnotMem name hname
        simp only [List.map_append, List.mem_append, not_or] at this
        exact this.1

/-- Each directory is read back as what its run left in it. -/
theorem map_summary_zip {results : Results} {outs : List (List Char)}
    {summaries : List (Option RunSummary)} (hlength : outs.length = summaries.length)
    (hnodup : outs.Nodup) (hnew : ∀ out ∈ outs, out ∉ results.map Prod.fst) :
    outs.map (Results.summary (results ++ outs.zip summaries)) = summaries := by
  induction outs generalizing results summaries with
  | nil => exact (List.length_eq_zero_iff.mp hlength.symm).symm
  | cons out outs ih =>
    cases summaries with
    | nil => cases hlength
    | cons summary summaries =>
      obtain ⟨hout, houts⟩ := List.nodup_cons.mp hnodup
      have hnone : results.lookup out = none := by
        refine List.lookup_eq_none_iff.mpr fun entry hentry => ?_
        have hne : out ≠ entry.1 := fun heq =>
          hnew out List.mem_cons_self (heq ▸ List.mem_map_of_mem hentry)
        simpa using hne
      have hnew' : ∀ name ∈ outs, name ∉ (results ++ [(out, summary)]).map Prod.fst := by
        intro name hname
        have hold := hnew name (List.mem_cons_of_mem out hname)
        have hne : name ≠ out := fun heq => hout (heq ▸ hname)
        simpa [hne] using hold
      have hrest := ih (Nat.succ.inj hlength) houts hnew'
      rw [List.append_assoc, List.singleton_append] at hrest
      rw [List.zip_cons_cons, List.map_cons, hrest, Results.summary, List.lookup_append, hnone,
        Option.none_or, List.lookup_cons_self, Option.join_some]

/-- **The table counts every run once.** Whatever directories there are already and whatever the
date is at any time, `matrix.sh` comes to its end: it runs every variant as often as it was asked
to, each run in a directory of its own that did not exist before, and leaves what was there as it
was. Each directory has what its run left in it; and if every run left a summary, the table has one
row for each variant, in the order in which they were given, that names it with its number of runs,
provided that no variant was given twice and that there are runs at all. -/
theorem matrix_table (dates : ℕ → ℕ → Date) (measured : ℕ → Option RunSummary) (repeats : ℕ)
    (variants : List (List Char)) (results : Results) {fuel : ℕ}
    (hfuel : results.length + (matrixOrder repeats variants).length ≤ fuel) :
    ∃ results' dirs table,
      matrixSh fuel dates measured repeats variants results = some (results', dirs, table) ∧
      dirs.length = repeats * variants.length ∧ dirs.Nodup ∧
      (∀ d ∈ dirs, d ∉ results.map Prod.fst) ∧
      results' = results ++ dirs.zip (written measured (matrixOrder repeats variants) 0) ∧
      table = Compare.table (written measured (matrixOrder repeats variants) 0) ∧
      (variants.Nodup → 1 ≤ repeats → (∀ k < repeats * variants.length, (measured k).isSome) →
        table.map (fun row => row.take 2) =
          variants.map fun v => ['`' :: v ++ ['`'], itoa repeats]) := by
  obtain ⟨dirs, heq, hlength, hnodup, hnew⟩ : ∃ dirs : List (List Char),
      matrixRuns fuel dates measured (matrixOrder repeats variants) 0 results [] =
        some (results ++ dirs.zip (written measured (matrixOrder repeats variants) 0), dirs) ∧
      dirs.length = (matrixOrder repeats variants).length ∧ dirs.Nodup ∧
      ∀ d ∈ dirs, d ∉ results.map Prod.fst := matrixRuns_eq hfuel
  have horder : (matrixOrder repeats variants).length = repeats * variants.length := by
    rw [matrixOrder, List.length_flatten, List.map_replicate, List.sum_replicate_nat]
  refine ⟨_, dirs, Compare.table (written measured (matrixOrder repeats variants) 0), ?_,
    hlength.trans horder, hnodup, hnew, rfl, rfl, ?_⟩
  · have hread := map_summary_zip (hlength.trans (length_written measured _ 0).symm) hnodup hnew
    rw [matrixSh, heq, Option.map_some]
    simp only [hread]
  · intro hvariants hrepeats hmeasured
    have hturns : (written measured (matrixOrder repeats variants) 0).reduceOption.map
        RunSummary.variant = (List.replicate repeats variants).flatten := by
      refine map_variant_written fun j hj => ?_
      rw [Nat.zero_add]
      exact hmeasured j (horder ▸ hj)
    have hrounds := Grouping.group_rounds hrepeats hvariants hturns
    have hrow : (fun row : List (List Char) => row.take 2) ∘ Compare.row =
        (fun p : List Char × ℕ => ['`' :: p.1 ++ ['`'], itoa p.2]) ∘
          fun g : List Char × List RunSummary => (g.1, g.2.length) := rfl
    rw [Compare.table, Compare.load, List.map_map, hrow, ← List.map_map, hrounds, List.map_map]
    rfl

/-- Two variants twice, where a directory of the first is there already. -/
theorem matrix_table_two : ∃ results' dirs table,
    matrixSh 5 (fun _ _ => ⟨"2026-09-30".toList, by decide⟩)
      (fun _ => some ⟨[], false, "plateau".toList, some 90, none, none, none, none, none⟩) 2
      ["gorilla".toList, "nbio-guard".toList] [("2026-09-30-gorilla".toList, none)] =
      some (results', dirs, table) ∧
    table.map (fun row => row.take 2) =
      [["`gorilla`".toList, "2".toList], ["`nbio-guard`".toList, "2".toList]] := by
  obtain ⟨results', dirs, table, heq, -, -, -, -, -, hrows⟩ :=
    matrix_table (fun _ _ => ⟨"2026-09-30".toList, by decide⟩)
      (fun _ => some ⟨[], false, "plateau".toList, some 90, none, none, none, none, none⟩) 2
      ["gorilla".toList, "nbio-guard".toList] [("2026-09-30-gorilla".toList, none)]
      (show 1 + 4 ≤ 5 by decide)
  exact ⟨results', dirs, table, heq, hrows (by decide) (by decide) fun _ _ => rfl⟩

end Millionws
