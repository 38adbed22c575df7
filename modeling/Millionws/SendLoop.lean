import Mathlib.Data.Rat.Floor
import Mathlib.Algebra.Order.Floor.Semifield
import Mathlib.Tactic.Linarith
import Mathlib.Tactic.FieldSimp
import Mathlib.Tactic.Ring
import Mathlib.Tactic.Positivity
import Millionws.Registry

/-!
# How often a connection is written to

`sendLoop` wakes every 100 ms, adds to `carry` the number of messages that are due, sends the
whole part of it as one batch and keeps the fraction. With the registry unchanged the batches
are consecutive stretches of one cyclic walk, so after `k` ticks a connection has been written
to as often as a walk of `⌊k * total * step / interval⌋` elements reads it.

That holds as long as a batch is never cut. `batch` returns at most the whole list, and the
messages that did not fit are not carried over: `carry` loses all of `n`, not what was sent. A
tick asks for more than the whole list exactly when the interval is shorter than the tick, and
then every connection is written to once per tick, whatever the interval: `count_sends_le`.

## Arithmetic

`carry` is a `float64` in the source and an exact rational here; it is never negative, so the
conversion `int(carry)` is the floor.

## Main definitions

* `SendLoop.tick`, `SendLoop.ticks` — the loop body, and `k` wake-ups of it

## Main results

* `SendLoop.ticks_eq_walk` — at intervals of a tick or more, the messages are one cyclic walk
* `SendLoop.paced_iff` — the interval is kept, for every registry, exactly at those intervals
* `SendLoop.short_interval_not_kept` — at 50 ms it is not
-/

namespace Millionws

open CyclicWalk

namespace SendLoop

variable {C : Type}

/-- `const step = 100 * time.Millisecond`, in nanoseconds. -/
def step : ℕ := 100000000

/-- The local variables of `sendLoop`. After a tick `batch` holds the connections it wrote to. -/
structure State (C : Type) where
  batch : List C
  cursor : ℕ
  carry : ℚ
  deriving DecidableEq

/-- The values before the first tick. -/
def init : State C := ⟨[], 0, 0⟩

/-- One tick, with the registry `reg` and an interval in nanoseconds. -/
def tick (reg : Registry C) (interval : ℕ) (s : State C) : Option (State C) := do
  let total := reg.len
  let carry := s.carry + total * step / interval
  let n := ⌊carry⌋₊
  let carry := carry - n
  let (batch, cursor) ← reg.batch s.batch s.cursor n
  some ⟨batch, cursor, carry⟩

/-- `k` ticks with an unchanged registry: the connections written to, in order, and the state. -/
def ticks (reg : Registry C) (interval : ℕ) : ℕ → Option (List C × State C)
  | 0 => some ([], init)
  | k + 1 => do
    let (sent, s) ← ticks reg interval k
    let s ← tick reg interval s
    some (sent ++ s.batch, s)

/-! ### What is due

`due total interval k` messages are due after `k` ticks. The carry is what of it was not sent,
and stays below one. -/

/-- The messages due to `total` connections after `k` ticks. -/
def due (total interval k : ℕ) : ℚ := k * total * step / interval

theorem due_nonneg (total interval k : ℕ) : 0 ≤ due total interval k := by
  rw [due]
  positivity

theorem due_succ (total interval k : ℕ) :
    due total interval (k + 1) = due total interval k + total * step / interval := by
  rw [due, due]
  push_cast
  ring

/-- One connection's share of what is due. -/
theorem due_div {total : ℕ} (h : 0 < total) (interval k : ℕ) :
    due total interval k / total = k * step / interval := by
  have ht : (total : ℚ) ≠ 0 := by positivity
  rw [due]
  field_simp

/-- With the carry `due - sent`, the next batch is what brings the sent messages up to the whole
part of what is due. -/
theorem floor_carry (total interval k : ℕ) :
    ⌊due total interval k - ⌊due total interval k⌋₊ + total * step / interval⌋₊ +
      ⌊due total interval k⌋₊ = ⌊due total interval (k + 1)⌋₊ := by
  have hle : (⌊due total interval k⌋₊ : ℚ) ≤ due total interval k :=
    Nat.floor_le (due_nonneg _ _ _)
  have hstep : (0 : ℚ) ≤ total * step / interval := by positivity
  rw [← Nat.floor_add_natCast (by linarith), due_succ]
  congr 1
  ring

/-- At an interval of a tick or more, no tick asks for more than the whole list. -/
theorem floor_carry_le {interval : ℕ} (h : step ≤ interval) (total k : ℕ) :
    ⌊due total interval k - ⌊due total interval k⌋₊ + total * step / interval⌋₊ ≤ total := by
  have hfrac := Nat.lt_floor_add_one (due total interval k)
  have hpos : (0 : ℚ) < interval := by
    have : 0 < interval := lt_of_lt_of_le (by decide) h
    exact_mod_cast this
  have hshare : (total : ℚ) * step / interval ≤ total := by
    rw [div_le_iff₀ hpos]
    exact mul_le_mul_of_nonneg_left (by exact_mod_cast h) (by positivity)
  rw [← Nat.lt_add_one_iff, Nat.floor_lt' (by omega)]
  push_cast
  linarith

/-! ### The messages are one walk -/

variable {reg : Registry C} {interval : ℕ}

/-- One tick from a state that has sent the whole part of what was due. -/
theorem tick_eq_walk (hpos : 0 < reg.len) (h : step ≤ interval) (batch : List C) (k : ℕ) :
    tick reg interval ⟨batch, ⌊due reg.len interval k⌋₊ % reg.len,
        due reg.len interval k - ⌊due reg.len interval k⌋₊⟩ =
      some ⟨walk reg.conns ⌊due reg.len interval k⌋₊
          (⌊due reg.len interval (k + 1)⌋₊ - ⌊due reg.len interval k⌋₊),
        ⌊due reg.len interval (k + 1)⌋₊ % reg.len,
        due reg.len interval (k + 1) - ⌊due reg.len interval (k + 1)⌋₊⟩ := by
  have hn := floor_carry reg.len interval k
  have hle := floor_carry_le h reg.len k
  have hcast : (⌊due reg.len interval k - ⌊due reg.len interval k⌋₊ +
      reg.len * step / interval⌋₊ : ℚ) + ⌊due reg.len interval k⌋₊ =
        ⌊due reg.len interval (k + 1)⌋₊ := by exact_mod_cast hn
  simp only [tick, Registry.batch_eq hpos, Option.bind_eq_bind, Option.bind_some,
    Nat.min_eq_left hle, Option.some.injEq, State.mk.injEq]
  refine ⟨?_, ?_, ?_⟩
  · rw [← walk_mod]
    simp only [Registry.len] at hn ⊢
    rw [Nat.mod_mod, walk_mod, ← hn, Nat.add_sub_cancel]
  · rw [Nat.mod_add_mod, Nat.add_comm, hn]
  · rw [due_succ] at hcast ⊢
    linarith

/-- **The messages are one cyclic walk** of the whole part of what is due. -/
theorem ticks_eq_walk (hpos : 0 < reg.len) (h : step ≤ interval) (k : ℕ) :
    ∃ batch, ticks reg interval k = some (walk reg.conns 0 ⌊due reg.len interval k⌋₊,
      ⟨batch, ⌊due reg.len interval k⌋₊ % reg.len,
        due reg.len interval k - ⌊due reg.len interval k⌋₊⟩) := by
  induction k with
  | zero => exact ⟨[], by simp [ticks, init, due]⟩
  | succ k ih =>
    obtain ⟨batch, hk⟩ := ih
    have hmono : ⌊due reg.len interval k⌋₊ ≤ ⌊due reg.len interval (k + 1)⌋₊ := by
      rw [← floor_carry]
      exact Nat.le_add_left _ _
    have hwalk := walk_append_walk reg.conns 0 ⌊due reg.len interval k⌋₊
      (⌊due reg.len interval (k + 1)⌋₊ - ⌊due reg.len interval k⌋₊)
    rw [Nat.zero_add, Nat.add_sub_cancel' hmono] at hwalk
    refine ⟨walk reg.conns ⌊due reg.len interval k⌋₊
      (⌊due reg.len interval (k + 1)⌋₊ - ⌊due reg.len interval k⌋₊), ?_⟩
    simp only [ticks, hk, tick_eq_walk hpos h, Option.bind_eq_bind, Option.bind_some, hwalk]

/-! ### How often each connection is written to -/

variable [DecidableEq C]

/-- A walk of the whole part of `x * total` elements reads each of `total` elements `x` times,
rounded down or up. -/
theorem count_walk_floor {l : List C} (hl : l.Nodup) {c : C} (hc : c ∈ l) {x : ℚ} {n : ℕ}
    (hn : (n : ℚ) ≤ x * l.length) (hfloor : n / l.length = ⌊x⌋₊) :
    ⌊x⌋₊ ≤ (walk l 0 n).count c ∧ (walk l 0 n).count c ≤ ⌈x⌉₊ := by
  have hposQ : (0 : ℚ) < l.length := by exact_mod_cast List.length_pos_of_mem hc
  obtain ⟨hlow, hhigh⟩ := count_walk_floor_ceil hl hc 0 n
  rw [Nat.floor_div_eq_div, hfloor] at hlow
  exact ⟨hlow, hhigh.trans (Nat.ceil_mono ((div_le_iff₀ hposQ).mpr hn))⟩

/-- A batch writes to no connection twice, so `k` ticks write to it at most `k` times. -/
theorem count_sends_le {k : ℕ} {sent : List C} {s : State C} (hinv : reg.Inv)
    (h : ticks reg interval k = some (sent, s)) (c : C) : sent.count c ≤ k := by
  induction k generalizing sent s with
  | zero =>
    obtain ⟨rfl, -⟩ := Prod.mk.inj (Option.some.inj h)
    exact Nat.le_refl _
  | succ k ih =>
    simp only [ticks, Option.bind_eq_bind, Option.bind_eq_some_iff] at h
    obtain ⟨⟨sent', s'⟩, hk, s'', htick, heq⟩ := h
    obtain ⟨rfl, rfl⟩ := Prod.mk.inj (Option.some.inj heq)
    simp only [tick, Option.bind_eq_bind, Option.bind_eq_some_iff] at htick
    obtain ⟨⟨conns, cursor⟩, hbatch, hs⟩ := htick
    obtain rfl := Option.some.inj hs
    have hnd : conns.Nodup := by
      rw [Registry.eq_walk_of_batch hbatch]
      exact nodup_walk hinv.nodup _ (Nat.min_le_right _ _)
    rw [List.count_append]
    exact Nat.add_le_add (ih hk) (List.nodup_iff_count_le_one.mp hnd c)

/-- The interval is kept after `k` ticks: every connection was written to once per interval,
rounded down or up. -/
def Paced (reg : Registry C) (interval k : ℕ) : Prop :=
  ∃ sent s, ticks reg interval k = some (sent, s) ∧ ∀ c ∈ reg.conns,
    ⌊(k * step / interval : ℚ)⌋₊ ≤ sent.count c ∧ sent.count c ≤ ⌈(k * step / interval : ℚ)⌉₊

theorem paced_of_step_le (hinv : reg.Inv) (hpos : 0 < reg.len) (h : step ≤ interval) (k : ℕ) :
    Paced reg interval k := by
  obtain ⟨batch, hk⟩ := ticks_eq_walk hpos h k
  refine ⟨_, _, hk, fun c hc => count_walk_floor hinv.nodup hc ?_ ?_⟩
  · have hlen : (reg.len : ℚ) ≠ 0 := by positivity
    calc (⌊due reg.len interval k⌋₊ : ℚ)
        ≤ due reg.len interval k := Nat.floor_le (due_nonneg _ _ _)
      _ = due reg.len interval k / reg.len * reg.len := by field_simp
      _ = k * step / interval * reg.conns.length := by rw [due_div hpos, Registry.len]
  · rw [← due_div hpos, Nat.floor_div_natCast, Registry.len]

/-- At a shorter interval the connections fall behind: `interval` ticks owe `step` messages. -/
theorem not_paced_of_lt_step (hinv : reg.Inv) (hpos : 0 < reg.len) (hint : 0 < interval)
    (h : interval < step) : ¬ Paced reg interval interval := by
  rintro ⟨sent, s, hk, hbounds⟩
  obtain ⟨c, hc⟩ := List.exists_mem_of_length_pos hpos
  have hlow := (hbounds c hc).1
  have hdue : (interval * step / interval : ℚ) = step := by
    have : (interval : ℚ) ≠ 0 := by positivity
    field_simp
  rw [hdue, Nat.floor_natCast] at hlow
  have hhigh := count_sends_le hinv hk c
  omega

/-- **Exactly which intervals are kept.** For every registry of at least one connection, the
loop keeps the interval at every tick if and only if the interval is at least a tick long. -/
theorem paced_iff (reg : Registry C) (hinv : reg.Inv) (hpos : 0 < reg.len) (interval : ℕ)
    (hint : 0 < interval) : (∀ k, Paced reg interval k) ↔ step ≤ interval := by
  refine ⟨?_, paced_of_step_le hinv hpos⟩
  intro h
  by_contra hlt
  exact not_paced_of_lt_step hinv hpos hint (by omega) (h interval)

/-- Three connections at an interval of 150 ms, for a minute: every tick asks for two of them, and
every other batch goes past the end of the list. -/
theorem paced_three : Paced ((((newRegistry 3).add 7).2.add 8).2.add 9).2 150000000 600 :=
  (paced_iff _ ((((Registry.inv_newRegistry 3).add 7).add 8).add 9) (by decide) _
    (by decide)).mpr (by decide) 600

/-- One connection at an interval of 50 ms: two messages are due after one tick and one is
sent. -/
theorem short_interval_not_kept : ¬ ∀ (reg : Registry ℕ) (interval k : ℕ), reg.Inv →
    0 < reg.len → 0 < interval → Paced reg interval k := by
  intro h
  obtain ⟨sent, s, hk, hbounds⟩ := h ((newRegistry 1).add 7).2 50000000 1
    ((Registry.inv_newRegistry 1).add 7) (by decide) (by decide)
  have hlow := (hbounds 7 (by decide)).1
  have hhigh := count_sends_le ((Registry.inv_newRegistry 1).add 7) hk 7
  have hdue : (((1 : ℕ) : ℚ) * step / (50000000 : ℕ)) = (2 : ℕ) := by
    norm_num [step]
  rw [hdue, Nat.floor_natCast] at hlow
  omega

end SendLoop

end Millionws
