import Millionws.SendLoop
import Millionws.Starvation

/-!
# The sender while connections come and go

`SendLoop` follows `sendLoop` over a registry that nobody else touches, and `Starvation` lets
everyone else in but takes the sizes of the batches from anywhere. Here the two meet: the loop as
it is, one atomic step at a time, between the `add` and `remove` calls of the other goroutines.

The loop asks for the length of the registry first and takes its batch afterwards. A removal in
between can leave the batch shorter than what was asked for, and what was asked for is gone from
the carry all the same. So the messages of a run fall behind what is due by one for each such
removal at most, and are never ahead of it.

What is due grows with every tick, and what can be sent without reaching a given connection does
not: `Sender.mem_served_of_due` puts the two together.

## What is deliberately absent

The return on `ctx.Done()`. The rounding of `carry`, a `float64` in the source and a rational here,
as in `SendLoop`. A ticker drops ticks that nobody waits for, so what is counted is ticks that the
loop did take, and not the time that went by.

## Main definitions

* `Sender`, `Sender.step` — the loop, interleaved with everyone else
* `Sender.Pace`, `Sender.watchPace` — a monitor: what was due, what was asked for and whom it
  reached

## Main results

* `Sender.run_tick` — undisturbed, the steps of a tick are `SendLoop.tick`
* `Sender.run_walker` — the sender is a `Walker`
* `Sender.messages_due` — what is sent, against what is due, in every run
* `Sender.mem_served_of_due` — a connection that stays is reached once enough is due
-/

namespace Millionws

open CyclicWalk Transition

variable {C : Type}

/-! ### The loop -/

/-- Where `sendLoop` is. -/
inductive SendPc (C : Type) where
  /-- `reg.len()` returned `total`; next is the call of `reg.batch`. -/
  | counted (total : ℕ)
  /-- In the loop over the batch, with these still to be written to. When there are none it waits
  for the next tick. -/
  | sending (rest : List C)
  deriving DecidableEq

/-- `sendLoop` and the registry. -/
structure Sender (C : Type) where
  reg : Registry C
  pc : SendPc C
  vars : SendLoop.State C
  messagesSent : ℕ

/-- A step of the loop, or a call by someone else. -/
inductive SendAct (C : Type) where
  | add (c : C)
  | remove (c : C)
  /-- `<-tick.C` and `reg.len()`. -/
  | tick
  /-- The arithmetic and `reg.batch`. -/
  | take
  /-- `c.WriteMessage`, for the next connection of the batch; `ok` is `err == nil`. -/
  | write (ok : Bool)
  deriving DecidableEq

namespace Sender

section Step

variable [DecidableEq C]

/-- Before the first tick. -/
def start (capacity : ℕ) : Sender C := ⟨newRegistry capacity, .sending [], SendLoop.init, 0⟩

/-- `n` in the loop: the whole part of the carry and what is due to `total` connections. -/
def ask (interval total : ℕ) (s : Sender C) : ℕ :=
  ⌊s.vars.carry + total * SendLoop.step / interval⌋₊

/-- One step, with an interval in nanoseconds. -/
def step [Inhabited C] (interval : ℕ) (s : Sender C) : SendAct C → Option (Sender C)
  | .add c => some { s with reg := (s.reg.add c).2 }
  | .remove c => (s.reg.remove c).map fun out => { s with reg := out.2 }
  | .tick =>
    match s.pc with
    | .sending [] => some { s with pc := .counted s.reg.len }
    | _ => none
  | .take =>
    match s.pc with
    | .counted total => do
      let carry := s.vars.carry + total * SendLoop.step / interval
      let n := ⌊carry⌋₊
      let (batch, cursor) ← s.reg.batch s.vars.batch s.vars.cursor n
      some { s with pc := .sending batch, vars := ⟨batch, cursor, carry - n⟩ }
    | _ => none
  | .write ok =>
    match s.pc with
    | .sending (_ :: rest) =>
      some { s with
        pc := .sending rest
        messagesSent := if ok then s.messagesSent + 1 else s.messagesSent }
    | _ => none

end Step

/-! ### Batches -/

/-- What is left in `dst` does not matter to `batch`. -/
theorem batch_dst (r : Registry C) (dst dst' : List C) (cursor n : ℕ) :
    r.batch dst cursor n = r.batch dst' cursor n := by
  rcases Nat.eq_zero_or_pos r.len with hz | hpos
  · rw [Registry.batch_of_len_eq_zero hz, Registry.batch_of_len_eq_zero hz]
  · rw [Registry.batch_eq hpos, Registry.batch_eq hpos]

theorem length_batch {r : Registry C} {dst batch : List C} {cursor cursor' n : ℕ}
    (h : r.batch dst cursor n = some (batch, cursor')) : batch.length = min n r.len := by
  rw [Registry.eq_walk_of_batch h]
  rcases Nat.eq_zero_or_pos r.len with hz | hpos
  · rw [hz, Nat.min_zero]
    rfl
  · exact length_walk hpos _ _

/-- At an interval of a tick or more, a batch is asked for no more connections than were
counted. -/
theorem ask_le {interval : ℕ} {s : Sender C} (h : SendLoop.step ≤ interval)
    (hcarry : s.vars.carry < 1) (total : ℕ) : s.ask interval total ≤ total := by
  have hpos : (0 : ℚ) < interval := by
    have : 0 < interval := lt_of_lt_of_le (by decide) h
    exact_mod_cast this
  have hshare : (total : ℚ) * SendLoop.step / interval ≤ total := by
    rw [div_le_iff₀ hpos]
    exact mul_le_mul_of_nonneg_left (by exact_mod_cast h) (by positivity)
  rw [ask, ← Nat.lt_add_one_iff, Nat.floor_lt' (by omega)]
  push_cast
  linarith

/-! ### Between the count and the batch -/

/-- The connections that were counted and are gone before the batch is taken. -/
def shortfall (s : Sender C) : ℕ :=
  match s.pc with
  | .counted total => total - s.reg.len
  | .sending _ => 0

/-- Each connection that leaves after the count adds one at most. -/
theorem shortfall_le {s : Sender C} {r : Registry C} {k : ℕ} (hlen : s.reg.len ≤ r.len + k) :
    shortfall { s with reg := r } ≤ s.shortfall + k := by
  rw [shortfall, shortfall]
  cases s.pc with
  | counted total =>
    simp only
    omega
  | sending rest => exact Nat.zero_le _

/-- The connections of the batch that are still to be written to. -/
def unwritten (s : Sender C) : ℕ :=
  match s.pc with
  | .counted _ => 0
  | .sending rest => rest.length

/-! ### One step -/

variable [DecidableEq C]

theorem step_take_eq_some [Inhabited C] {interval : ℕ} {s t : Sender C}
    (h : s.step interval .take = some t) :
    ∃ total batch cursor, s.pc = .counted total ∧
      s.reg.batch s.vars.batch s.vars.cursor (s.ask interval total) = some (batch, cursor) ∧
      t = { s with
        pc := .sending batch
        vars := ⟨batch, cursor, s.vars.carry + total * SendLoop.step / interval -
          s.ask interval total⟩ } := by
  cases hpc : s.pc with
  | sending rest => simp [step, hpc] at h
  | counted total =>
    simp only [step, hpc, Option.bind_eq_bind, Option.bind_eq_some_iff] at h
    obtain ⟨⟨batch, cursor⟩, hbatch, ht⟩ := h
    exact ⟨total, batch, cursor, rfl, hbatch, (Option.some.inj ht).symm⟩

theorem step_tick_eq_some [Inhabited C] {interval : ℕ} {s t : Sender C}
    (h : s.step interval .tick = some t) :
    s.pc = .sending [] ∧ t = { s with pc := .counted s.reg.len } := by
  rw [step] at h
  split at h
  · exact ⟨by assumption, (Option.some.inj h).symm⟩
  · cases h

theorem step_write_eq_some [Inhabited C] {interval : ℕ} {s t : Sender C} {ok : Bool}
    (h : s.step interval (.write ok) = some t) :
    ∃ c rest, s.pc = .sending (c :: rest) ∧ t = { s with
      pc := .sending rest
      messagesSent := s.messagesSent + ok.toNat } := by
  rw [step] at h
  split at h
  · refine ⟨_, _, by assumption, ?_⟩
    rw [← Option.some.inj h]
    cases ok <;> rfl
  · cases h

/-! ### Without interruption -/

variable {interval : ℕ}

/-- The writes of a batch, one for each of its connections. -/
theorem run_writes [Inhabited C] {s : Sender C} {oks : List Bool} {rest : List C}
    (hpc : s.pc = .sending rest) (hlen : oks.length = rest.length) :
    run (step interval) s (oks.map .write) =
      some { s with pc := .sending [], messagesSent := s.messagesSent + oks.count true } := by
  induction oks generalizing s rest with
  | nil =>
    obtain rfl : rest = [] := List.length_eq_zero_iff.mp hlen.symm
    rw [← hpc]
    rfl
  | cons ok oks ih =>
    obtain ⟨c, rest, rfl⟩ := List.exists_cons_of_length_eq_add_one hlen.symm
    have hstep : s.step interval (.write ok) = some { s with
        pc := .sending rest
        messagesSent := if ok then s.messagesSent + 1 else s.messagesSent } := by
      rw [step, hpc]
    rw [List.map_cons, run_cons, hstep, Option.bind_some, ih rfl (Nat.succ.inj hlen)]
    cases ok
    · simp
    · simp [Nat.add_comm, Nat.add_left_comm]

/-- **Undisturbed**, the steps of a tick are the loop body of `SendLoop`. -/
theorem run_tick [Inhabited C] {s : Sender C} {vars : SendLoop.State C} {oks : List Bool}
    (hpc : s.pc = .sending []) (hvars : SendLoop.tick s.reg interval s.vars = some vars)
    (hlen : oks.length = vars.batch.length) :
    run (step interval) s (.tick :: .take :: oks.map .write) =
      some ⟨s.reg, .sending [], vars, s.messagesSent + oks.count true⟩ := by
  simp only [SendLoop.tick, Option.bind_eq_bind, Option.bind_eq_some_iff] at hvars
  obtain ⟨⟨batch, cursor⟩, hbatch, hvars⟩ := hvars
  obtain rfl := Option.some.inj hvars
  rw [run_cons, step, hpc, Option.bind_some, run_cons, step]
  simp only [Option.bind_eq_bind, hbatch, Option.bind_some]
  exact run_writes rfl hlen

/-! ### The walker underneath -/

/-- What `Starvation` follows. -/
def walker (s : Sender C) : Walker C := ⟨s.reg, s.vars.cursor⟩

/-- The call of the registry that a step makes, as far as the walker is concerned. -/
def call? (interval : ℕ) (s : Sender C) : SendAct C → Option (WalkAct C)
  | .add c => some (.add c)
  | .remove c => some (.remove c)
  | .take =>
    match s.pc with
    | .counted total => some (.batch (s.ask interval total))
    | _ => none
  | _ => none


variable [Inhabited C]

theorem step_walker {s t : Sender C} {a : SendAct C} (h : s.step interval a = some t) :
    run Walker.step s.walker (s.call? interval a).toList = some t.walker := by
  cases a with
  | add c =>
    rw [← Option.some.inj h]
    rfl
  | remove c =>
    obtain ⟨out, hout, rfl⟩ := Option.map_eq_some_iff.mp h
    exact run_cons_eq_some.mpr ⟨_, Option.map_eq_some_iff.mpr ⟨out, hout, rfl⟩, rfl⟩
  | tick =>
    obtain ⟨-, rfl⟩ := step_tick_eq_some h
    rfl
  | take =>
    obtain ⟨total, batch, cursor, hpc, hbatch, rfl⟩ := step_take_eq_some h
    rw [batch_dst _ _ []] at hbatch
    rw [call?, hpc]
    exact run_cons_eq_some.mpr ⟨_, Option.map_eq_some_iff.mpr ⟨_, hbatch, rfl⟩, rfl⟩
  | write ok =>
    obtain ⟨c, rest, -, rfl⟩ := step_write_eq_some h
    rfl

/-- **The sender is a walker**: its calls of the registry are a run of `Walker.step`. -/
theorem run_walker {s t : Sender C} {as : List (SendAct C)}
    (h : run (step interval) s as = some t) :
    run Walker.step s.walker (trace (step interval) (call? interval) s as) = some t.walker :=
  run_trace walker (fun _ _ _ => step_walker) h

/-! ### What is due and what is asked for -/

/-- What the loop did in a stretch of steps: a `Stretch`, with the number of batches, the lengths
that `reg.len` returned for them, what they asked for, the removals that came between a length and
its batch, and the writes that failed. -/
structure Pace (C : Type) extends Stretch C where
  batches : ℕ
  counted : ℕ
  asked : ℕ
  lost : ℕ
  failed : ℕ

/-- At the start of a stretch nothing has been sent. -/
def Pace.start (s : Sender C) : Pace C := ⟨⟨[], 0⟩, 0, 0, 0, s.shortfall, 0⟩

/-- The monitor of the pace and of `x`. -/
def watchPace (interval : ℕ) (x : C) (m : Pace C) (s : Sender C) (a : SendAct C) : Pace C :=
  let m := { m with
    toStretch := (s.call? interval a).elim m.toStretch (watch x m.toStretch s.walker) }
  match a, s.pc with
  | .remove c, .counted _ => { m with lost := m.lost + if c ∈ s.reg.slot then 1 else 0 }
  | .take, .counted total => { m with
      batches := m.batches + 1
      counted := m.counted + total
      asked := m.asked + s.ask interval total }
  | .write ok, _ => { m with failed := m.failed + (!ok).toNat }
  | _, _ => m

/-- The carry is what of the due messages was not asked for yet, no batch hands out more than it was
asked for, and every connection of a batch is written to once. -/
structure OnPace (interval : ℕ) (carry : ℚ) (sent : ℕ) (s : Sender C) (m : Pace C) : Prop where
  inv : s.reg.Inv
  carry_nonneg : 0 ≤ s.vars.carry
  carry_lt : s.vars.carry < 1
  asked : m.asked + s.vars.carry = carry + m.counted * SendLoop.step / interval
  served_le : m.served.length ≤ m.asked
  sent_eq : s.messagesSent + m.failed + s.unwritten = sent + m.served.length

/-- A removal between a count and its batch excuses one message at most. -/
def Filled (s : Sender C) (m : Pace C) : Prop := m.asked + s.shortfall ≤ m.served.length + m.lost

omit [Inhabited C] in
theorem watchPace_take {s : Sender C} {m : Pace C} {x : C} {total cursor : ℕ} {batch : List C}
    (hpc : s.pc = .counted total) (hbatch : s.reg.batch s.vars.batch s.vars.cursor
      (s.ask interval total) = some (batch, cursor)) :
    watchPace interval x m s .take = ⟨⟨m.served ++ batch, m.setbacks⟩, m.batches + 1,
      m.counted + total, m.asked + s.ask interval total, m.lost, m.failed⟩ := by
  rw [batch_dst _ _ []] at hbatch
  simp [watchPace, call?, hpc, watch, Walker.returned, Walker.setsBack, walker, hbatch]

omit [Inhabited C] in
variable (interval) in
/-- A call of someone else leaves most of the monitor alone. -/
theorem watchPace_remove (s : Sender C) (m : Pace C) (x c : C) :
    (watchPace interval x m s (.remove c)).served = m.served ∧
    (watchPace interval x m s (.remove c)).counted = m.counted ∧
    (watchPace interval x m s (.remove c)).asked = m.asked ∧
    (watchPace interval x m s (.remove c)).failed = m.failed := by
  cases hpc : s.pc <;> simp [watchPace, hpc, call?, watch, Walker.returned]

omit [Inhabited C] in
theorem watchPace_add (s : Sender C) (m : Pace C) (x c : C) :
    watchPace interval x m s (.add c) = m := by
  simp [watchPace, call?, watch, Walker.returned, Walker.setsBack]

omit [Inhabited C] in
theorem watchPace_tick (s : Sender C) (m : Pace C) (x : C) :
    watchPace interval x m s .tick = m := by
  simp [watchPace, call?]

omit [Inhabited C] in
theorem watchPace_write (s : Sender C) (m : Pace C) (x : C) (ok : Bool) :
    watchPace interval x m s (.write ok) = { m with failed := m.failed + (!ok).toNat } := by
  simp [watchPace, call?]

theorem OnPace.take {s t : Sender C} {m : Pace C} {carry : ℚ} {sent : ℕ} {x : C}
    (h : OnPace interval carry sent s m) (ht : s.step interval .take = some t) :
    OnPace interval carry sent t (watchPace interval x m s .take) := by
  obtain ⟨total, batch, cursor, hpc, hbatch, rfl⟩ := step_take_eq_some ht
  have hlen := length_batch hbatch
  have hdue : 0 ≤ s.vars.carry + total * SendLoop.step / interval :=
    add_nonneg h.carry_nonneg (by positivity)
  have hfloor : (s.ask interval total : ℚ) ≤ s.vars.carry + total * SendLoop.step / interval :=
    Nat.floor_le hdue
  have hlt := Nat.lt_floor_add_one (s.vars.carry + total * SendLoop.step / interval)
  obtain ⟨hinv, -, -, hasked, hserved, hsent⟩ := h
  simp only [unwritten, hpc] at hsent
  rw [watchPace_take hpc hbatch]
  refine ⟨hinv, ?_, ?_, ?_, ?_, ?_⟩
  · exact sub_nonneg.mpr hfloor
  · rw [← ask] at hlt
    simp only
    linarith
  · push_cast
    rw [show carry + (m.counted + total) * (SendLoop.step : ℚ) / interval =
      carry + m.counted * SendLoop.step / interval + total * SendLoop.step / interval by ring]
    linarith
  · rw [List.length_append, hlen]
    exact Nat.add_le_add hserved (Nat.min_le_left _ _)
  · simp only [unwritten, List.length_append]
    omega

/-- **One step** of the loop or of anyone else. -/
theorem OnPace.step {p q : Sender C × Pace C} {carry : ℚ} {sent : ℕ} {x : C} {a : SendAct C}
    (h : OnPace interval carry sent p.1 p.2)
    (hq : withMonitor (step interval) (watchPace interval x) p a = some q) :
    OnPace interval carry sent q.1 q.2 := by
  obtain ⟨s, m⟩ := p
  obtain ⟨t, m'⟩ := q
  obtain ⟨ht, hm⟩ := withMonitor_eq_some.mp hq
  simp only at ht hm h
  subst hm
  cases a with
  | add c =>
    obtain rfl := Option.some.inj ht
    rw [watchPace_add]
    exact ⟨h.inv.add c, h.carry_nonneg, h.carry_lt, h.asked, h.served_le, h.sent_eq⟩
  | remove c =>
    obtain ⟨⟨b, r⟩, hr, rfl⟩ := Option.map_eq_some_iff.mp ht
    obtain ⟨hserved, hcounted, hasked, hfailed⟩ := watchPace_remove interval s m x c
    exact ⟨h.inv.remove hr, h.carry_nonneg, h.carry_lt, by rw [hasked, hcounted]; exact h.asked,
      by rw [hserved, hasked]; exact h.served_le, by rw [hserved, hfailed]; exact h.sent_eq⟩
  | tick =>
    obtain ⟨hpc, rfl⟩ := step_tick_eq_some ht
    obtain ⟨hinv, hnonneg, hlt, hasked, hserved, hsent⟩ := h
    rw [watchPace_tick]
    simp only [unwritten, hpc] at hsent
    exact ⟨hinv, hnonneg, hlt, hasked, hserved, by simpa [unwritten] using hsent⟩
  | take => exact h.take ht
  | write ok =>
    obtain ⟨c, rest, hpc, rfl⟩ := step_write_eq_some ht
    obtain ⟨hinv, hnonneg, hlt, hasked, hserved, hsent⟩ := h
    rw [watchPace_write]
    simp only [unwritten, hpc, List.length_cons] at hsent
    refine ⟨hinv, hnonneg, hlt, hasked, hserved, ?_⟩
    have hone : ok.toNat + (!ok).toNat = 1 := by cases ok <;> rfl
    simp only [unwritten]
    omega

/-- A removal between the count and the batch is one that the monitor sees. -/
theorem Filled.remove {s t : Sender C} {m : Pace C} {x c : C} (h : Filled s m)
    (hinv : s.reg.Inv) (ht : s.step interval (.remove c) = some t) :
    Filled t (watchPace interval x m s (.remove c)) := by
  obtain ⟨⟨b, r⟩, hr, rfl⟩ := Option.map_eq_some_iff.mp ht
  have hlen := hinv.len_remove hr
  have hb : b = true → c ∈ s.reg.slot := by
    rintro rfl
    obtain ⟨-, hb, -⟩ | ⟨i, moved, hi, -⟩ := hinv.remove_cases hr
    · cases hb
    · exact (hinv.mem_slot_iff c).mpr (List.mem_of_getElem? hi)
  have hlost : shortfall { s with reg := r } + m.lost ≤
      s.shortfall + (watchPace interval x m s (.remove c)).lost := by
    have hone := shortfall_le (s := s) (show s.reg.len ≤ r.len + b.toNat by omega)
    cases hpc : s.pc with
    | sending rest => simp [shortfall, watchPace, hpc]
    | counted total =>
      have hseen : m.lost + b.toNat ≤ (watchPace interval x m s (.remove c)).lost := by
        cases b with
        | false => simp [watchPace, hpc]
        | true => simp [watchPace, hpc, hb rfl]
      rw [hpc] at hone
      omega
  obtain ⟨hserved, -, hasked, -⟩ := watchPace_remove interval s m x c
  rw [Filled] at h ⊢
  rw [hserved, hasked]
  simp only
  omega

/-- At an interval of a tick or more, only a removal makes a batch shorter than it was asked to
be. -/
theorem Filled.step {p q : Sender C × Pace C} {carry : ℚ} {sent : ℕ} {x : C} {a : SendAct C}
    (h : Filled p.1 p.2) (hpace : OnPace interval carry sent p.1 p.2)
    (hint : SendLoop.step ≤ interval)
    (hq : withMonitor (step interval) (watchPace interval x) p a = some q) : Filled q.1 q.2 := by
  obtain ⟨s, m⟩ := p
  obtain ⟨t, m'⟩ := q
  obtain ⟨ht, hm⟩ := withMonitor_eq_some.mp hq
  simp only at ht hm h hpace
  subst hm
  cases a with
  | add c =>
    obtain rfl := Option.some.inj ht
    have hlen : s.reg.len ≤ (s.reg.add c).2.len := by
      rw [hpace.inv.len_add]
      exact Nat.le_add_right _ _
    have hshort : shortfall { s with reg := (s.reg.add c).2 } ≤ s.shortfall :=
      shortfall_le (k := 0) hlen
    rw [watchPace_add]
    exact (Nat.add_le_add_left hshort _).trans h
  | remove c => exact h.remove hpace.inv ht
  | tick =>
    obtain ⟨hpc, rfl⟩ := step_tick_eq_some ht
    simp only [Filled, shortfall, hpc] at h
    rw [watchPace_tick]
    simpa [Filled, shortfall] using h
  | take =>
    obtain ⟨total, batch, cursor, hpc, hbatch, rfl⟩ := step_take_eq_some ht
    have hlen := length_batch hbatch
    have hask := ask_le hint hpace.carry_lt total
    simp only [Filled, shortfall, hpc] at h
    rw [watchPace_take hpc hbatch]
    simp only [Filled, shortfall, List.length_append, hlen]
    omega
  | write ok =>
    obtain ⟨c, rest, hpc, rfl⟩ := step_write_eq_some ht
    simp only [Filled, shortfall, hpc] at h
    rw [watchPace_write]
    exact h

omit [Inhabited C] in
theorem onPace_start {s : Sender C} (hinv : s.reg.Inv) (hnonneg : 0 ≤ s.vars.carry)
    (hlt : s.vars.carry < 1) : OnPace interval s.vars.carry (s.messagesSent + s.unwritten) s
      (Pace.start s) where
  inv := hinv
  carry_nonneg := hnonneg
  carry_lt := hlt
  asked := by simp [Pace.start]
  served_le := Nat.le_refl _
  sent_eq := by simp [Pace.start]

omit [Inhabited C] in
theorem onPace_init (capacity : ℕ) :
    OnPace interval 0 0 (start capacity : Sender C) (Pace.start (start capacity)) :=
  onPace_start (s := start capacity) (Registry.inv_newRegistry capacity) (le_refl _) zero_lt_one

theorem OnPace.run {s t : Sender C} {m m' : Pace C} {carry : ℚ} {sent : ℕ} {x : C}
    {as : List (SendAct C)} (h : OnPace interval carry sent s m)
    (hrun : run (withMonitor (Sender.step interval) (watchPace interval x)) (s, m) as =
      some (t, m')) : OnPace interval carry sent t m' :=
  run_invariant (P := fun p : Sender C × Pace C => OnPace interval carry sent p.1 p.2)
    (fun _ _ _ h hq => h.step hq) h hrun

/-- **What is sent, against what is due.** However connections come and go, what the batches asked
for is the whole part of what was due to the connections that were counted, and each connection
handed out is written to exactly once. At an interval of a tick or more, all of it was handed out
but one message at most for each connection that was removed between a count and its batch. -/
theorem messages_due {capacity : ℕ} {s : Sender C} {m : Pace C} {x : C} {as : List (SendAct C)}
    (hrun : run (withMonitor (Sender.step interval) (watchPace interval x))
      (start capacity, Pace.start (start capacity)) as = some (s, m)) :
    m.asked = ⌊(m.counted * SendLoop.step / interval : ℚ)⌋₊ ∧
    m.served.length ≤ m.asked ∧
    (SendLoop.step ≤ interval → m.asked ≤ m.served.length + m.lost) ∧
    s.messagesSent + m.failed + s.unwritten = m.served.length := by
  obtain ⟨-, hnonneg, hlt, hasked, hserved, hsent⟩ := (onPace_init capacity).run hrun
  refine ⟨?_, hserved, ?_, by omega⟩
  · rw [zero_add] at hasked
    symm
    rw [Nat.floor_eq_iff (by positivity), ← hasked]
    constructor <;> linarith
  · intro hint
    have hfilled : OnPace interval 0 0 s m ∧ Filled s m :=
      run_invariant (P := fun p : Sender C × Pace C => OnPace interval 0 0 p.1 p.2 ∧
        Filled p.1 p.2) (fun _ _ _ h hq => ⟨h.1.step hq, h.2.step h.1 hint hq⟩)
        ⟨onPace_init capacity, by simp [Filled, Pace.start]⟩ hrun
    exact (Nat.le_add_right _ _).trans hfilled.2

/-- Two connections at an interval of two ticks. One leaves between the count and the batch. -/
theorem messages_due_two : ∃ (s : Sender ℕ) (m : Pace ℕ), run
    (withMonitor (Sender.step 200000000) (watchPace 200000000 2)) (start 2, Pace.start (start 2))
      [.add 1, .add 2, .tick, .take, .write true, .tick, .remove 1, .take, .write false] =
      some (s, m) ∧ m.asked = ⌊(m.counted * SendLoop.step / (200000000 : ℕ) : ℚ)⌋₊ := by
  have hrun : (run (withMonitor (Sender.step 200000000) (watchPace 200000000 2))
      ((start 2 : Sender ℕ), Pace.start (start 2))
      [.add 1, .add 2, .tick, .take, .write true, .tick, .remove 1, .take, .write false]).isSome =
        true := by decide +kernel
  obtain ⟨⟨s, m⟩, hs⟩ := Option.isSome_iff_exists.mp hrun
  exact ⟨s, m, hs, (messages_due hs).1⟩

/-! ### Whom it reaches -/

/-- The largest size of the registry in a run. -/
def peak (interval : ℕ) (s : Sender C) (as : List (SendAct C)) : ℕ :=
  largest s.walker (trace (step interval) (call? interval) s as)

theorem peak_cons_le {s t : Sender C} {a : SendAct C} (h : s.step interval a = some t)
    (as : List (SendAct C)) : s.peak interval (a :: as) ≤ max s.reg.len (t.peak interval as) := by
  have hwalk := step_walker h
  rw [peak, trace, h, Option.elim_some, peak]
  cases hcall : s.call? interval a with
  | none =>
    rw [hcall] at hwalk
    rw [Option.some.inj hwalk]
    exact Nat.le_max_right _ _
  | some b =>
    rw [hcall, Option.toList_some, run_cons_eq_some] at hwalk
    obtain ⟨w, hw, hend⟩ := hwalk
    obtain rfl := Option.some.inj hend
    rw [Option.toList_some, List.singleton_append, largest, hw]
    exact Nat.le_refl _

/-- Beside its monitor the sender is a walker beside `watch`. -/
theorem step_watch {p q : Sender C × Pace C} {x : C} {a : SendAct C}
    (h : withMonitor (step interval) (watchPace interval x) p a = some q) :
    run (withMonitor Walker.step (watch x)) (p.1.walker, p.2.toStretch)
      (p.1.call? interval a).toList = some (q.1.walker, q.2.toStretch) := by
  obtain ⟨ht, hm⟩ := withMonitor_eq_some.mp h
  have hstretch : q.2.toStretch =
      (p.1.call? interval a).elim p.2.toStretch (watch x p.2.toStretch p.1.walker) := by
    rw [hm]
    cases a <;> cases hpc : p.1.pc <;> simp only [watchPace, hpc]
  exact run_label_withMonitor (step_walker ht) hstretch

/-- A connection that stays stored, and was not reached unless a batch was cut: one that is cut
returns the whole list. -/
structure Awaited (x : C) (s : Sender C) (m : Pace C) : Prop where
  inv : s.reg.Inv
  stored : x ∈ s.reg.conns
  full : x ∈ m.served ∨ m.served.length = m.asked

theorem Awaited.step {p q : Sender C × Pace C} {x : C} {a : SendAct C} (h : Awaited x p.1 p.2)
    (ha : a ≠ .remove x)
    (hq : withMonitor (step interval) (watchPace interval x) p a = some q) :
    Awaited x q.1 q.2 := by
  obtain ⟨s, m⟩ := p
  obtain ⟨t, m'⟩ := q
  obtain ⟨ht, hm⟩ := withMonitor_eq_some.mp hq
  simp only at ht hm h
  subst hm
  cases a with
  | add c =>
    obtain rfl := Option.some.inj ht
    rw [watchPace_add]
    exact ⟨h.inv.add c, h.inv.mem_conns_add h.stored c, h.full⟩
  | remove c =>
    obtain ⟨⟨b, r⟩, hr, rfl⟩ := Option.map_eq_some_iff.mp ht
    obtain ⟨hserved, -, hasked, -⟩ := watchPace_remove interval s m x c
    refine ⟨h.inv.remove hr, h.inv.mem_conns_remove h.stored ?_ hr, ?_⟩
    · rintro rfl
      exact ha rfl
    · rw [hserved, hasked]
      exact h.full
  | tick =>
    obtain ⟨-, rfl⟩ := step_tick_eq_some ht
    rw [watchPace_tick]
    exact ⟨h.inv, h.stored, h.full⟩
  | take =>
    obtain ⟨total, batch, cursor, hpc, hbatch, rfl⟩ := step_take_eq_some ht
    rw [watchPace_take hpc hbatch]
    refine ⟨h.inv, h.stored, ?_⟩
    rcases h.full with hserved | hfull
    · exact .inl (List.mem_append_left _ hserved)
    rcases Nat.lt_or_ge (s.ask interval total) s.reg.len with hlt | hge
    · refine .inr ?_
      rw [List.length_append, length_batch hbatch, hfull, Nat.min_eq_left hlt.le]
    · -- the batch is the whole list
      refine .inl (List.mem_append_right _ ?_)
      obtain ⟨i, hi⟩ := List.mem_iff_getElem?.mp h.stored
      rw [Registry.eq_walk_of_batch hbatch, mem_walk_iff h.inv.nodup hi, Nat.min_eq_right hge]
      exact gap_lt (List.length_pos_of_mem h.stored) _ _
  | write ok =>
    obtain ⟨c, rest, -, rfl⟩ := step_write_eq_some ht
    rw [watchPace_write]
    exact ⟨h.inv, h.stored, h.full⟩

/-- **Enough is due to reach `x`.** A connection that stays stored is handed a message before the
loop owes one round for each of its setbacks and one more. -/
theorem mem_served_of_due {capacity : ℕ} {before as : List (SendAct C)} {s t : Sender C}
    {m : Pace C} {x : C} (hint : 0 < interval)
    (hbefore : run (step interval) (start capacity) before = some s) (hx : x ∈ s.reg.conns)
    (has : .remove x ∉ as)
    (hrun : run (withMonitor (step interval) (watchPace interval x)) (s, Pace.start s) as =
      some (t, m))
    (hdue : ((m.setbacks + 1) * (s.peak interval as - 1) + 1) * interval ≤
      m.counted * SendLoop.step) : x ∈ m.served := by
  by_contra hmiss
  have hwalk : run (withMonitor Walker.step (watch x)) (s.walker, ⟨[], 0⟩)
      (trace (withMonitor (step interval) (watchPace interval x)) (fun p => p.1.call? interval)
        (s, Pace.start s) as) = some (t.walker, m.toStretch) :=
    run_trace (fun p : Sender C × Pace C => (p.1.walker, p.2.toStretch))
      (fun _ _ _ => step_watch) hrun
  rw [trace_withMonitor] at hwalk
  have hseg : .remove x ∉ trace (step interval) (call? interval) s as := by
    intro hmem
    obtain ⟨u, a, ha, -, -, hcall⟩ := mem_trace (run_of_run_withMonitor hrun) hmem
    cases a with
    | remove c =>
      obtain rfl : c = x := by simpa [call?] using hcall
      exact has ha
    | take => cases hpc : u.pc <;> simp [call?, hpc] at hcall
    | add c | tick | write ok => simp [call?] at hcall
  have hreach : run Walker.step (Walker.start capacity) _ = some s.walker := run_walker hbefore
  have hround : m.served.length ≤ (m.setbacks + 1) * (s.peak interval as - 1) :=
    length_served_le hreach hx hseg hwalk hmiss
  -- and as long as `x` is not reached, all that is asked for is handed out
  obtain ⟨m₀, hm₀⟩ : ∃ m₀, run (withMonitor (step interval) (watchPace interval x))
      (start capacity, Pace.start (start capacity)) before = some (s, m₀) :=
    run_withMonitor _ _ hbefore
  have hs := (onPace_init capacity).run hm₀
  have hawaited : Awaited x t m :=
    run_invariant_of_forall (P := fun p : Sender C × Pace C => Awaited x p.1 p.2)
      (Q := fun a => a ≠ .remove x) (fun _ _ _ ha h hq => h.step ha hq)
      (by rintro a ha rfl; exact has ha) ⟨hs.inv, hx, .inr rfl⟩ hrun
  obtain ⟨-, -, hlt, hasked, -, -⟩ := (onPace_start hs.inv hs.carry_nonneg hs.carry_lt).run hrun
  have hpos : (0 : ℚ) < interval := by exact_mod_cast hint
  have hfew : (m.asked : ℚ) ≤ (m.setbacks + 1) * (s.peak interval as - 1 : ℕ) := by
    rw [← hawaited.full.resolve_left hmiss]
    exact_mod_cast hround
  have hshare : (m.counted * SendLoop.step / interval : ℚ) <
      (m.setbacks + 1) * (s.peak interval as - 1 : ℕ) + 1 := by
    have hcarry := hs.carry_nonneg
    linarith
  rw [div_lt_iff₀ hpos] at hshare
  exact absurd hdue (Nat.not_le.mpr (by exact_mod_cast hshare))

end Sender

end Millionws
