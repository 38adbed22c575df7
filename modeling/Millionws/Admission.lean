import Mathlib.Algebra.BigOperators.Ring.Finset
import Mathlib.Algebra.Order.BigOperators.Group.List
import Millionws.Transition
import Millionws.Population

/-!
# Who is let in

The server's admission control: `guardMemory` sets a flag from the container's memory, the handler
of `/ws` answers 503 while it is set and upgrades otherwise, and the callbacks of an upgraded
connection count it when it opens and when it closes. The guard, the requests and the callbacks
run in different goroutines, so a run is a list of actions in any order.

## A request is a program counter and a log

What a request has done — which value of the flag it saw, whether it reached `Upgrade`, which
counters it incremented — is its log of effects, and its phase determines the log: `Phase.log`.
The counters of the server are the sums of the logs, so every property of them is a property of
one phase at a time.

## What is taken from nbio

`OnOpen` runs once for each successful `Upgrade` and never for a failed one, and `OnClose` at most
once for each connection and after its `OnOpen`. That is the order of the phases.

## What is deliberately absent

The echo, which touches none of this, and the log lines. A product of a limit with a share is exact
here and a `float64` in the source.

## Main definitions

* `high`, `low`, `guardTick` — the guard
* `Phase.next` — what a request does next
* `Server.step` — one step of anyone

## Main results

* `overloaded_iff` — the flag is the verdict of the last reading outside the band
* `Server.Inv` — phases determine logs, and logs the counters
* `admission` — both, with what they say about requests, counters and open connections
-/

namespace Millionws

open Transition

/-! ### The guard -/

/-- `rejectAbove`, in hundredths. -/
def rejectAbove : ℤ := 90

/-- `acceptBelow`, in hundredths. -/
def acceptBelow : ℤ := 85

/-- `int64(float64(cgroupMax) * share)`. -/
def shareOf (cgroupMax share : ℤ) : ℤ := (cgroupMax * share).tdiv 100

/-- `high` in `guardMemory`. -/
def high (cgroupMax : ℤ) : ℤ := shareOf cgroupMax rejectAbove

/-- `low` in `guardMemory`. -/
def low (cgroupMax : ℤ) : ℤ := shareOf cgroupMax acceptBelow

/-- `readCgroupInt`, given what `ParseInt` makes of the file; `none` is any failure. -/
def readCgroupInt (parsed : Option ℤ) : Option ℤ := parsed.filter fun n => 0 < n

/-- One tick of `guardMemory`: the new value of `overloaded`. -/
def guardTick (cgroupMax : ℤ) (parsed : Option ℤ) (overloaded : Bool) : Bool :=
  match readCgroupInt parsed with
  | none => overloaded
  | some current =>
    if high cgroupMax < current && !overloaded then true
    else if current < low cgroupMax && overloaded then false
    else overloaded

/-- A reading that decides: not inside the band. -/
def outside (cgroupMax current : ℤ) : Bool := current < low cgroupMax || high cgroupMax < current

theorem low_le_high {cgroupMax : ℤ} (h : 0 < cgroupMax) : low cgroupMax ≤ high cgroupMax := by
  rw [low, high, shareOf, shareOf, rejectAbove, acceptBelow,
    Int.tdiv_eq_ediv_of_nonneg (by omega), Int.tdiv_eq_ediv_of_nonneg (by omega)]
  omega

theorem guardTick_of_outside {cgroupMax current : ℤ} {parsed : Option ℤ} (h : 0 < cgroupMax)
    (hread : readCgroupInt parsed = some current) (hout : outside cgroupMax current = true)
    (overloaded : Bool) :
    guardTick cgroupMax parsed overloaded = decide (high cgroupMax < current) := by
  have hband := low_le_high h
  rw [guardTick, hread]
  simp only [outside, Bool.or_eq_true, decide_eq_true_eq] at hout
  by_cases hhigh : high cgroupMax < current
  · cases overloaded <;> simp [hhigh]
    omega
  · have hlow : current < low cgroupMax := hout.resolve_right hhigh
    cases overloaded <;> simp [hhigh, hlow]

theorem guardTick_of_not_outside {cgroupMax current : ℤ} {parsed : Option ℤ}
    (hread : readCgroupInt parsed = some current) (hin : outside cgroupMax current = false)
    (overloaded : Bool) : guardTick cgroupMax parsed overloaded = overloaded := by
  rw [guardTick, hread]
  simp only [outside, Bool.or_eq_false_iff, decide_eq_false_iff_not] at hin
  simp [hin]

/-! ### One request -/

/-- The Prometheus counters, under the names of their variables. -/
inductive Counter where
  | rejectedConnections
  | upgradeErrors
  | totalConnections
  | totalDisconnections
  deriving DecidableEq

/-- What a request does that can be seen from outside. -/
inductive Effect where
  /-- `overloaded.Load()` returned this. -/
  | load (overloaded : Bool)
  /-- `upgrader.Upgrade` is called. -/
  | upgrade
  /-- `w.WriteHeader`. -/
  | writeHeader (status : ℕ)
  | inc (counter : Counter)
  /-- `activeConnections.Inc()` or `activeConnections.Dec()`. -/
  | active (change : ℤ)
  deriving DecidableEq

/-- Where a request, and then its connection, is. -/
inductive Phase where
  | arrived
  /-- The flag was set; next is `rejectedConnections.Inc()`. -/
  | refusing
  /-- Then `w.WriteHeader(http.StatusServiceUnavailable)`. -/
  | refused
  | answered
  /-- The flag was not set; next is the call of `Upgrade`. -/
  | accepted
  | upgrading
  /-- `Upgrade` returned an error; next is `upgradeErrors.Inc()`. -/
  | failed
  | errored
  /-- `OnOpen`: next is `activeConnections.Inc()`. -/
  | opening
  /-- `OnOpen`: next is `totalConnections.Inc()`. -/
  | activated
  /-- `OnOpen` has returned; next, if ever, is `activeConnections.Dec()` in `OnClose`. -/
  | opened
  /-- `OnClose`: next is `totalDisconnections.Inc()`. -/
  | closing
  | closed
  deriving DecidableEq

namespace Phase

/-- The next step of a request: where it leads and what it does. `overloaded` is the flag at this
moment, and `ok` is how `Upgrade` ends if this is its end. -/
def next (overloaded ok : Bool) : Phase → Option (Phase × List Effect)
  | arrived => some (if overloaded then refusing else accepted, [.load overloaded])
  | refusing => some (refused, [.inc .rejectedConnections])
  | refused => some (answered, [.writeHeader 503])
  | answered => none
  | accepted => some (upgrading, [.upgrade])
  | upgrading => some (if ok then opening else failed, [])
  | failed => some (errored, [.inc .upgradeErrors])
  | errored => none
  | opening => some (activated, [.active 1])
  | activated => some (opened, [.inc .totalConnections])
  | opened => some (closing, [.active (-1)])
  | closing => some (closed, [.inc .totalDisconnections])
  | closed => none

/-- What a request in this phase has done. -/
def log : Phase → List Effect
  | arrived => []
  | refusing => [.load true]
  | refused => [.load true, .inc .rejectedConnections]
  | answered => [.load true, .inc .rejectedConnections, .writeHeader 503]
  | accepted => [.load false]
  | upgrading | failed | opening => [.load false, .upgrade]
  | errored => [.load false, .upgrade, .inc .upgradeErrors]
  | activated => [.load false, .upgrade, .active 1]
  | opened => [.load false, .upgrade, .active 1, .inc .totalConnections]
  | closing => [.load false, .upgrade, .active 1, .inc .totalConnections, .active (-1)]
  | closed => [.load false, .upgrade, .active 1, .inc .totalConnections, .active (-1),
      .inc .totalDisconnections]

/-- The handler has returned, and `OnOpen` too if there is a connection. -/
def handled : Phase → Bool
  | answered | errored | opened | closing | closed => true
  | _ => false

/-- The connection is upgraded and not being closed. -/
def isOpen : Phase → Bool
  | opening | activated | opened => true
  | _ => false

/-- In the middle of `OnOpen` or `OnClose`. -/
def inCallback : Phase → Bool
  | activated | closing => true
  | _ => false

/-- **The phase determines the log.** -/
theorem log_next {overloaded ok : Bool} {p p' : Phase} {effects : List Effect}
    (h : p.next overloaded ok = some (p', effects)) : p'.log = p.log ++ effects := by
  cases p <;> cases overloaded <;> cases ok <;> cases h <;> rfl

/-- Until it is handled, a request always has a next step. -/
theorem next_isSome {p : Phase} (h : p.handled = false) (overloaded ok : Bool) :
    (p.next overloaded ok).isSome := by
  cases p <;> first | rfl | cases h

end Phase

/-- The three counters of which a request increments one. -/
def Effect.isOutcome : Effect → Bool
  | .inc .rejectedConnections | .inc .upgradeErrors | .inc .totalConnections => true
  | _ => false

/-- What an effect adds to `activeConnections`. -/
def Effect.change : Effect → ℤ
  | .active change => change
  | _ => 0

/-! ### The server -/

/-- A request with everything it has done. -/
structure Request where
  phase : Phase
  log : List Effect
  deriving DecidableEq

/-- The state the guard, the requests and the callbacks share. -/
structure Server where
  overloaded : Bool
  counters : Counter → ℕ
  activeConnections : ℤ
  requests : List Request

/-- A step of anyone. -/
inductive ServerAct where
  /-- `guardMemory` wakes up and reads `memory.current`. -/
  | tick (parsed : Option ℤ)
  /-- A request to `/ws` reaches the handler. -/
  | arrive
  /-- The next step of request `r`; `ok` is how `Upgrade` ends. -/
  | request (r : ℕ) (ok : Bool)

namespace Server

/-- Before the first request. -/
def init : Server := ⟨false, fun _ => 0, 0, []⟩

/-- The effect on the counters. -/
def perform (s : Server) : Effect → Server
  | .inc counter =>
    { s with counters := Function.update s.counters counter (s.counters counter + 1) }
  | .active change => { s with activeConnections := s.activeConnections + change }
  | _ => s

/-- One step of anyone. -/
def step (cgroupMax : ℤ) (s : Server) : ServerAct → Option Server
  | .tick parsed => some { s with overloaded := guardTick cgroupMax parsed s.overloaded }
  | .arrive => some { s with requests := s.requests ++ [⟨.arrived, []⟩] }
  | .request r ok => do
    let q ← s.requests[r]?
    let (phase, effects) ← q.phase.next s.overloaded ok
    some (effects.foldl perform
      { s with requests := s.requests.set r ⟨phase, q.log ++ effects⟩ })

/-- The connections that are open, by the number of their request. -/
def openConnections (s : Server) : Set ℕ :=
  {r | ∃ q, s.requests[r]? = some q ∧ q.phase.isOpen = true}

/-- What performing effects changes. -/
theorem foldl_perform (effects : List Effect) (s : Server) :
    effects.foldl perform s = { s with
      counters := fun c => s.counters c + effects.count (.inc c)
      activeConnections := s.activeConnections + (effects.map Effect.change).sum } := by
  induction effects generalizing s with
  | nil => simp
  | cons e effects ih =>
    rw [List.foldl_cons, ih]
    cases e with
    | inc counter =>
      have hcount (c : Counter) : (Effect.inc counter :: effects).count (.inc c) =
          effects.count (.inc c) + if counter = c then 1 else 0 := by
        rw [List.count_cons]
        simp
      simp only [perform, Effect.change, List.map_cons, List.sum_cons, zero_add, hcount]
      congr 1
      funext c
      by_cases hc : counter = c
      · subst hc
        simp
        omega
      · simp [Function.update_of_ne (Ne.symm hc), hc]
    | load overloaded => simp [perform, Effect.change]
    | upgrade => simp [perform, Effect.change]
    | writeHeader status => simp [perform, Effect.change]
    | active change => simp [perform, Effect.change, Int.add_assoc]

/-- What a step of a request does to the server. -/
theorem step_request_eq_some {cgroupMax : ℤ} {s t : Server} {r : ℕ} {ok : Bool} :
    s.step cgroupMax (.request r ok) = some t ↔
      ∃ q phase effects, s.requests[r]? = some q ∧
        q.phase.next s.overloaded ok = some (phase, effects) ∧
        t = { s with
          counters := fun c => s.counters c + effects.count (.inc c)
          activeConnections := s.activeConnections + (effects.map Effect.change).sum
          requests := s.requests.set r ⟨phase, q.log ++ effects⟩ } := by
  simp only [step, Option.bind_eq_bind, Option.bind_eq_some_iff, foldl_perform, Option.some.injEq,
    Prod.exists, eq_comm (b := t)]
  constructor
  · rintro ⟨q, hq, phase, effects, hnext, ht⟩
    exact ⟨q, phase, effects, hq, hnext, ht⟩
  · rintro ⟨q, phase, effects, hq, hnext, ht⟩
    exact ⟨q, hq, phase, effects, hnext, ht⟩

/-! ### The invariant -/

/-- Phases determine logs, and logs the counters. -/
structure Inv (s : Server) : Prop where
  log : ∀ q ∈ s.requests, q.log = q.phase.log
  counters : ∀ c, s.counters c = (s.requests.map fun q => q.log.count (.inc c)).sum
  active : s.activeConnections = (s.requests.map fun q => (q.log.map Effect.change).sum).sum

theorem inv_init : init.Inv where
  log q hq := by simp [init] at hq
  counters _ := rfl
  active := rfl

/-- **One step keeps the invariant.** -/
theorem Inv.step {cgroupMax : ℤ} {s t : Server} {a : ServerAct} (h : s.Inv)
    (ht : s.step cgroupMax a = some t) : t.Inv := by
  cases a with
  | tick parsed =>
    obtain rfl := Option.some.inj ht
    exact ⟨h.log, h.counters, h.active⟩
  | arrive =>
    obtain rfl := Option.some.inj ht
    refine ⟨?_, ?_, ?_⟩
    · intro q hq
      rcases List.mem_append.mp hq with hq | hq
      · exact h.log q hq
      · rw [List.mem_singleton.mp hq]
        rfl
    · intro c
      simpa using h.counters c
    · simpa using h.active
  | request r ok =>
    obtain ⟨q, phase, effects, hq, hnext, rfl⟩ := step_request_eq_some.mp ht
    refine ⟨Population.forall_mem_set h.log ?_, ?_, ?_⟩
    · simp only [h.log q (List.mem_of_getElem? hq)]
      exact (Phase.log_next hnext).symm
    · intro c
      have hsum := Population.sum_map_set hq ⟨phase, q.log ++ effects⟩
        fun q => q.log.count (.inc c)
      have hold := h.counters c
      simp only [List.count_append] at hsum
      simp only
      omega
    · have hsum := Population.sum_map_set hq ⟨phase, q.log ++ effects⟩
        fun q => (q.log.map Effect.change).sum
      have hold := h.active
      simp only [List.map_append, List.sum_append] at hsum
      simp only
      omega

/-! ### The flag -/

/-- The successful readings of the guard, in order. -/
def readings (acts : List ServerAct) : List ℤ :=
  acts.filterMap fun
    | .tick parsed => readCgroupInt parsed
    | _ => none

/-- **The flag is the verdict of the last reading outside the band**, and not set before there
is one. -/
theorem overloaded_iff {cgroupMax : ℤ} {s : Server} {acts : List ServerAct} (hpos : 0 < cgroupMax)
    (h : run (step cgroupMax) init acts = some s) :
    s.overloaded = true ↔
      ∃ r, ((readings acts).filter (outside cgroupMax)).getLast? = some r ∧ high cgroupMax < r := by
  refine run_history (P := fun acts s => s.overloaded = true ↔
    ∃ r, ((readings acts).filter (outside cgroupMax)).getLast? = some r ∧ high cgroupMax < r)
    (by simp [init, readings]) (fun acts s a t hP ht => ?_) h
  have hkeep (hread : readings [a] = []) (hflag : t.overloaded = s.overloaded) :
      t.overloaded = true ↔ ∃ r, ((readings (acts ++ [a])).filter (outside cgroupMax)).getLast? =
        some r ∧ high cgroupMax < r := by
    rwa [hflag, readings, List.filterMap_append, ← readings, ← readings, hread, List.append_nil]
  cases a with
  | tick parsed =>
    obtain rfl := Option.some.inj ht
    cases hread : readCgroupInt parsed with
    | none => exact hkeep (by simp [readings, hread]) (by simp [guardTick, hread])
    | some current =>
      have hlast : readings (acts ++ [.tick parsed]) = readings acts ++ [current] := by
        simp [readings, hread]
      rw [hlast, List.filter_append]
      cases hout : outside cgroupMax current with
      | false => simpa [guardTick_of_not_outside hread hout, hout] using hP
      | true => simp [guardTick_of_outside hpos hread hout, hout]
  | arrive =>
    obtain rfl := Option.some.inj ht
    exact hkeep rfl rfl
  | request r ok =>
    obtain ⟨q, phase, effects, -, -, rfl⟩ := step_request_eq_some.mp ht
    exact hkeep rfl rfl

/-! ### The counters -/

/-- Outside the callbacks a connection is active exactly if it was counted and not uncounted. -/
theorem Inv.active_eq {s : Server} (h : s.Inv)
    (hquiet : ∀ q ∈ s.requests, q.phase.inCallback = false) :
    s.activeConnections = s.counters .totalConnections - s.counters .totalDisconnections ∧
      0 ≤ s.activeConnections := by
  have hone (q : Request) (hq : q ∈ s.requests) :
      (q.log.map Effect.change).sum + (q.log.count (.inc .totalDisconnections) : ℤ) =
        q.log.count (.inc .totalConnections) ∧ 0 ≤ (q.log.map Effect.change).sum := by
    have hphase := hquiet q hq
    rw [h.log q hq]
    cases hp : q.phase <;> rw [hp] at hphase <;> first | decide | cases hphase
  have hsum : (s.requests.map fun q => (q.log.map Effect.change).sum +
      (q.log.count (.inc .totalDisconnections) : ℤ)).sum =
      (s.requests.map fun q => (q.log.count (.inc .totalConnections) : ℤ)).sum :=
    congrArg List.sum (List.map_congr_left fun q hq => (hone q hq).1)
  rw [List.sum_map_add] at hsum
  constructor
  · rw [h.active, h.counters, h.counters, Nat.cast_list_sum, Nat.cast_list_sum, List.map_map,
      List.map_map]
    exact eq_sub_of_add_eq hsum
  · rw [h.active]
    exact List.sum_nonneg fun x hx => by
      obtain ⟨q, hq, rfl⟩ := List.mem_map.mp hx
      exact (hone q hq).2

end Server

open Server

/-- **Admission.** For every positive limit and every interleaving of guard ticks, requests and
closes: the flag is the verdict of the last reading outside the band; a request that saw it set
does not reach `Upgrade` and is answered 503; each handled request increments one counter out of
three, and the counters count nothing else; no tick closes a connection; and between callbacks
the active connections are those opened and not closed. -/
theorem admission {cgroupMax : ℤ} {s : Server} {acts : List ServerAct} (hpos : 0 < cgroupMax)
    (h : run (Server.step cgroupMax) init acts = some s) :
    (s.overloaded = true ↔ ∃ r, ((readings acts).filter (outside cgroupMax)).getLast? = some r ∧
      high cgroupMax < r) ∧
    (∀ q ∈ s.requests,
      (.load true ∈ q.log → .upgrade ∉ q.log) ∧
      (.load true ∈ q.log → q.phase.handled = true → .writeHeader 503 ∈ q.log) ∧
      (q.phase.handled = true → (q.log.filter Effect.isOutcome).length = 1) ∧
      (q.phase.handled = false → ∀ ok, (q.phase.next s.overloaded ok).isSome)) ∧
    (∀ c, s.counters c = (s.requests.map fun q => q.log.count (.inc c)).sum) ∧
    (∀ parsed t, s.step cgroupMax (.tick parsed) = some t →
      t.openConnections = s.openConnections) ∧
    ((∀ q ∈ s.requests, q.phase.inCallback = false) →
      s.activeConnections = s.counters .totalConnections - s.counters .totalDisconnections ∧
        0 ≤ s.activeConnections) := by
  have hinv : s.Inv := run_invariant (fun _ _ _ hs ht => hs.step ht) inv_init h
  refine ⟨overloaded_iff hpos h, ?_, hinv.counters, ?_, hinv.active_eq⟩
  · intro q hq
    rw [hinv.log q hq]
    refine ⟨?_, ?_, ?_, fun hh ok => Phase.next_isSome hh _ ok⟩
    all_goals cases q.phase <;> decide
  · rintro parsed t ht
    obtain rfl := Option.some.inj ht
    rfl

/-- A limit of 1000 bytes: a client, a reading above the band and one inside it, a second client
that is turned away, and the first one leaves. -/
theorem admission_run : ∃ s, run (Server.step 1000) init
      [.arrive, .request 0 true, .request 0 true, .request 0 true, .request 0 true,
        .request 0 true, .tick (some 950), .tick none, .tick (some 880), .arrive,
        .request 1 true, .request 1 true, .request 1 true, .request 0 true, .request 0 true] =
      some s ∧ s.overloaded = true ∧ s.activeConnections = 0 ∧
    ∀ q ∈ s.requests, (q.log.filter Effect.isOutcome).length = 1 := by
  have hrun : (run (Server.step 1000) init
      [.arrive, .request 0 true, .request 0 true, .request 0 true, .request 0 true,
        .request 0 true, .tick (some 950), .tick none, .tick (some 880), .arrive,
        .request 1 true, .request 1 true, .request 1 true, .request 0 true, .request 0 true]).any
      (fun s => s.requests.all (fun q => q.phase.handled && !q.phase.inCallback) &&
        s.counters .totalConnections = 1 && s.counters .totalDisconnections = 1) = true := by decide
  obtain ⟨s, hs, hend⟩ := (Option.any_eq_true _ _).mp hrun
  simp only [Bool.and_eq_true, decide_eq_true_eq, List.all_eq_true, Bool.not_eq_true'] at hend
  obtain ⟨⟨hreq, htotal⟩, hdis⟩ := hend
  obtain ⟨hflag, hq, -, -, hactive⟩ := admission (by decide) hs
  refine ⟨s, hs, hflag.mpr ⟨950, by decide, by decide⟩, ?_, ?_⟩
  · rw [(hactive fun q hmem => (hreq q hmem).2).1, htotal, hdis]
    rfl
  · intro q hmem
    exact (hq q hmem).2.2.1 (hreq q hmem).1

end Millionws
