import Millionws.MemoryLimit
import Millionws.DeadBand

/-!
# What overload does to the clients, and how often

`Admission` says what the flag is and what one request does with it. Here are the two things that
are hoped for from it: that while it is set nobody gets in, and that it is not set and cleared all
the time. The second is what the band is for, and the one percent of `manageMemoryLimit` is the
same thing a second time.

## While the flag is set

A request reads the flag once. What it does later it does on the strength of that reading, however
long ago it was, so that a connection can be opened long after the flag was set. `overload_holds`
says how many: the requests that had read the flag when it was set, and were not through with it.

## Two dead bands

Between two changes of the flag the memory of the container has gone through the whole band, and
between two calls of `SetMemoryLimit` what is left for Go has moved by a hundredth. Both are devices
of `DeadBand`, and bounded by how far their input travels, whatever the interleaving and the
readings that fail.

## Main definitions

* `Server.toggled`, `MemoryLimit.reconfigures` — a change of the flag, and a call of
  `SetMemoryLimit`

## Main results

* `overload_holds` — who gets in while the flag is set
* `guard_flaps` — how often the flag changes
* `limit_reconfigurations` — how often the limit of the runtime does
-/

namespace Millionws

open Transition

/-! ### While the flag is set -/

namespace Phase

/-- The handler has read the flag and it was not set. -/
def sawFree (p : Phase) : Bool := Effect.load false ∈ p.log

/-- The flag was not set, and the connection is not counted yet. -/
def onTheWay : Phase → Bool
  | accepted | upgrading | opening | activated => true
  | _ => false

/-- Let in or about to be, and not on its way out. -/
def mayBeOpen : Phase → Bool
  | accepted | upgrading | opening | activated | opened => true
  | _ => false

/-- A step while the flag is set lets nobody in. -/
theorem mayBeOpen_of_next {ok : Bool} {p p' : Phase} {effects : List Effect}
    (h : p.next true ok = some (p', effects)) (hopen : p'.mayBeOpen = true) :
    p.mayBeOpen = true := by
  cases p <;> cases ok <;> cases h <;> first | rfl | cases hopen

theorem sawFree_of_next {ok : Bool} {p p' : Phase} {effects : List Effect}
    (h : p.next true ok = some (p', effects)) : p'.sawFree = p.sawFree := by
  cases p <;> cases ok <;> cases h <;> rfl

/-- Whoever is counted was on the way. -/
theorem onTheWay_of_next {ok : Bool} {p p' : Phase} {effects : List Effect}
    (h : p.next true ok = some (p', effects)) :
    effects.count (.inc .totalConnections) + p'.onTheWay.toNat ≤ p.onTheWay.toNat := by
  cases p <;> cases ok <;> cases h <;> decide

/-- A request that is through and did not find the flag free was answered 503. -/
theorem answered_of_handled {p : Phase} (h : p.handled = true) (hfree : p.sawFree = false) :
    Effect.writeHeader 503 ∈ p.log := by
  cases p <;>
    first
    | decide
    | exact absurd h (by decide)
    | exact absurd hfree (by decide)

end Phase

namespace Server

/-- The requests that may still open a connection, or have opened one. -/
def mayBeOpen (s : Server) : Set ℕ :=
  {r | ∃ q, s.requests[r]? = some q ∧ q.phase.mayBeOpen = true}

theorem openConnections_subset (s : Server) : s.openConnections ⊆ s.mayBeOpen := by
  rintro r ⟨q, hq, hopen⟩
  refine ⟨q, hq, ?_⟩
  cases hp : q.phase <;> rw [hp] at hopen <;> first | rfl | cases hopen

/-- What holds of a state `t` after a state `s`, as long as the flag stays set. -/
structure Held (s t : Server) : Prop where
  overloaded : t.overloaded = true
  length : s.requests.length ≤ t.requests.length
  sawFree : ∀ (r : ℕ) (q : Request), t.requests[r]? = some q → q.phase.sawFree = true →
    r < s.requests.length
  mayBeOpen : t.mayBeOpen ⊆ s.mayBeOpen
  total : t.counters .totalConnections + t.requests.countP (fun q => q.phase.onTheWay) ≤
    s.counters .totalConnections + s.requests.countP fun q => q.phase.onTheWay

theorem Held.refl {s : Server} (h : s.overloaded = true) : Held s s :=
  ⟨h, Nat.le_refl _, fun _ _ hq _ => (List.getElem?_eq_some_iff.mp hq).1, subset_rfl,
    Nat.le_refl _⟩

/-- **One step** while no reading is below the band. -/
theorem Held.step {cgroupMax : ℤ} {s t u : Server} {a : ServerAct} (h : Held s t)
    (hread : ∀ x ∈ readings [a], low cgroupMax ≤ x) (hu : t.step cgroupMax a = some u) :
    Held s u := by
  cases a with
  | tick parsed =>
    obtain rfl := Option.some.inj hu
    refine ⟨?_, h.length, h.sawFree, h.mayBeOpen, h.total⟩
    simp only [guardTick, h.overloaded]
    cases hp : readCgroupInt parsed with
    | none => rfl
    | some current =>
      have hlow : low cgroupMax ≤ current := hread current (by simp [readings, hp])
      simp [Int.not_lt.mpr hlow]
  | arrive =>
    obtain rfl := Option.some.inj hu
    refine ⟨h.overloaded, ?_, ?_, ?_, ?_⟩
    · exact h.length.trans (by simp)
    · intro r q hq hfree
      simp only [List.getElem?_append] at hq
      split_ifs at hq with hlt
      · exact h.sawFree r q hq hfree
      · obtain rfl := List.mem_singleton.mp (List.mem_of_getElem? hq)
        cases hfree
    · rintro r ⟨q, hq, hopen⟩
      simp only [List.getElem?_append] at hq
      split_ifs at hq with hlt
      · exact h.mayBeOpen ⟨q, hq, hopen⟩
      · obtain rfl := List.mem_singleton.mp (List.mem_of_getElem? hq)
        cases hopen
    · simpa [Phase.onTheWay] using h.total
  | request r ok =>
    obtain ⟨q, phase, effects, hq, hnext, rfl⟩ := step_request_eq_some.mp hu
    rw [h.overloaded] at hnext
    refine ⟨h.overloaded, ?_, ?_, ?_, ?_⟩
    · exact h.length.trans (by simp)
    · intro r' q' hq' hfree
      simp only [List.getElem?_set] at hq'
      split_ifs at hq' with hr hlt
      · obtain rfl := Option.some.inj hq'
        rw [Phase.sawFree_of_next hnext] at hfree
        exact hr ▸ h.sawFree r q hq hfree
      · exact h.sawFree r' q' hq' hfree
    · rintro r' ⟨q', hq', hopen⟩
      simp only [List.getElem?_set] at hq'
      split_ifs at hq' with hr hlt
      · obtain rfl := Option.some.inj hq'
        exact hr ▸ h.mayBeOpen ⟨q, hq, Phase.mayBeOpen_of_next hnext hopen⟩
      · exact h.mayBeOpen ⟨q', hq', hopen⟩
    · have hcount := Population.countP_set hq ⟨phase, q.log ++ effects⟩ fun q => q.phase.onTheWay
      have hway := Phase.onTheWay_of_next hnext
      have htotal := h.total
      simp only at hcount ⊢
      omega

end Server

open Server

/-- **While the flag is set.** From any reachable state with the flag set, and as long as no reading
is below the band, whatever comes and goes: the flag stays set, the only connections that are
opened are those of requests that had already found it free, nobody else is upgraded, and every
later request that is through was answered 503. -/
theorem overload_holds {cgroupMax : ℤ} {acts later : List ServerAct} {s t : Server}
    (hs : run (Server.step cgroupMax) init acts = some s) (hset : s.overloaded = true)
    (hread : ∀ x ∈ readings later, low cgroupMax ≤ x)
    (ht : run (Server.step cgroupMax) s later = some t) :
    t.overloaded = true ∧
    t.counters .totalConnections ≤
      s.counters .totalConnections + s.requests.countP (fun q => q.phase.onTheWay) ∧
    t.openConnections ⊆ s.mayBeOpen ∧
    ∀ (r : ℕ) (q : Request), s.requests.length ≤ r → t.requests[r]? = some q →
      q.phase.handled = true → .writeHeader 503 ∈ q.log := by
  have hinv : t.Inv := run_invariant (fun _ _ _ hs ht => hs.step ht) inv_init
    (run_append_eq_some.mpr ⟨s, hs, ht⟩)
  have hacts : ∀ a ∈ later, ∀ x ∈ readings [a], low cgroupMax ≤ x := by
    intro a ha x hx
    refine hread x ?_
    simp only [readings, List.mem_filterMap, List.mem_singleton] at hx ⊢
    obtain ⟨b, rfl, hb⟩ := hx
    exact ⟨b, ha, hb⟩
  have h : Held s t := run_invariant_of_forall (P := Held s)
    (Q := fun a => ∀ x ∈ readings [a], low cgroupMax ≤ x)
    (fun _ _ _ ha hheld hstep => hheld.step ha hstep) hacts (Held.refl hset) ht
  refine ⟨h.overloaded, ?_, (openConnections_subset t).trans h.mayBeOpen, ?_⟩
  · have htotal := h.total
    omega
  · intro r q hr hq hhandled
    rw [hinv.log q (List.mem_of_getElem? hq)]
    refine Phase.answered_of_handled hhandled ?_
    by_contra hfree
    have hlt := h.sawFree r q hq (by simpa using hfree)
    omega

/-- A first client has found the flag free when it is set, and gets in; a second one does not. -/
theorem overload_holds_two : ∃ s t, run (Server.step 1000) init
      [.arrive, .request 0 true, .tick (some 950)] = some s ∧
    run (Server.step 1000) s [.arrive, .request 1 true, .request 0 true, .tick (some 860),
      .request 1 true, .request 0 true, .request 0 true, .request 1 true, .request 0 true] =
      some t ∧
    t.overloaded = true ∧ t.counters .totalConnections ≤ 1 ∧ t.openConnections ⊆ s.mayBeOpen := by
  have hrun : (run (Server.step 1000) init [.arrive, .request 0 true, .tick (some 950)]).any
      (fun s => s.overloaded && s.counters .totalConnections +
        s.requests.countP (fun q => q.phase.onTheWay) = 1 &&
        (run (Server.step 1000) s [.arrive, .request 1 true, .request 0 true, .tick (some 860),
          .request 1 true, .request 0 true, .request 0 true, .request 1 true,
          .request 0 true]).isSome) = true := by decide
  obtain ⟨s, hs, hend⟩ := (Option.any_eq_true _ _).mp hrun
  simp only [Bool.and_eq_true, decide_eq_true_eq] at hend
  obtain ⟨⟨hset, hway⟩, hlater⟩ := hend
  obtain ⟨t, ht⟩ := Option.isSome_iff_exists.mp hlater
  obtain ⟨hheld, htotal, hopen, -⟩ := overload_holds hs hset (by decide) ht
  exact ⟨s, t, hs, ht, hheld, hway ▸ htotal, hopen⟩

/-! ### How often the flag changes -/

namespace Server

/-- The flag after a reading. -/
def afterReading (cgroupMax : ℤ) (overloaded : Bool) (current : ℤ) : Bool :=
  guardTick cgroupMax (some current) overloaded

/-- The reading changes the flag: `overloaded.Store`. -/
def toggled (cgroupMax : ℤ) (overloaded : Bool) (current : ℤ) : Bool :=
  afterReading cgroupMax overloaded current != overloaded

/-- A monitor that counts the changes of the flag. -/
def watchToggles (cgroupMax : ℤ) (toggles : ℕ) (s : Server) : ServerAct → ℕ
  | .tick parsed => toggles + (guardTick cgroupMax parsed s.overloaded != s.overloaded).toNat
  | _ => toggles

theorem afterReading_eq {cgroupMax current : ℤ} (h : 0 < current) (overloaded : Bool) :
    afterReading cgroupMax overloaded current =
      if high cgroupMax < current && !overloaded then true
      else if current < low cgroupMax && overloaded then false else overloaded := by
  have hread : readCgroupInt (some current) = some current := by simp [readCgroupInt, h]
  rw [afterReading, guardTick, hread]

/-- The reading has to come back through the band. -/
def band (cgroupMax : ℤ) (h : 0 < cgroupMax) :
    DeadBand.Potential (afterReading cgroupMax) (toggled cgroupMax) (fun _ => True) (0 < ·)
      (high cgroupMax - low cgroupMax + 2) where
  value overloaded current :=
    if overloaded then max 0 (high cgroupMax + 1 - current)
    else max 0 (current - (low cgroupMax - 1))
  nonneg overloaded current := by split_ifs <;> exact le_max_left _ _
  keeps _ _ _ _ := trivial
  fills overloaded x y := by
    have hleft := neg_abs_le (y - x)
    have hright := le_abs_self (y - x)
    split_ifs <;> omega
  empties overloaded current _ hpos hact := by
    have hband := low_le_high h
    rw [toggled, afterReading_eq hpos] at hact
    rw [afterReading_eq hpos]
    cases overloaded with
    | false =>
      obtain hhigh : high cgroupMax < current := by simpa using hact
      simp only [hhigh, decide_true, Bool.not_false, Bool.and_self, if_true, Bool.false_eq_true,
        if_false]
      omega
    | true =>
      obtain hlow : current < low cgroupMax := by simpa using hact
      simp only [hlow, Bool.not_true, Bool.and_false, Bool.false_eq_true, if_false, decide_true,
        Bool.and_self, if_true]
      omega
  stays overloaded current _ hpos hact := by
    rw [toggled, bne_eq_false_iff_eq] at hact
    rw [hact]

/-- A run toggles the flag as its readings do. -/
theorem toggles_of_run {cgroupMax : ℤ} {acts : List ServerAct} {p : Server × ℕ}
    (h : run (withMonitor (step cgroupMax) (watchToggles cgroupMax)) (init, 0) acts = some p) :
    p.1.overloaded = (readings acts).foldl (afterReading cgroupMax) false ∧
      p.2 = DeadBand.count (afterReading cgroupMax) (toggled cgroupMax) false (readings acts) := by
  refine run_history (P := fun acts (p : Server × ℕ) =>
    p.1.overloaded = (readings acts).foldl (afterReading cgroupMax) false ∧
      p.2 = DeadBand.count (afterReading cgroupMax) (toggled cgroupMax) false (readings acts))
    ⟨rfl, rfl⟩ (fun acts p a q hp hq => ?_) h
  obtain ⟨ht, hm⟩ := withMonitor_eq_some.mp hq
  have hkeep (hread : readings [a] = []) (hflag : q.1.overloaded = p.1.overloaded)
      (hcount : q.2 = p.2) :
      q.1.overloaded = (readings (acts ++ [a])).foldl (afterReading cgroupMax) false ∧
        q.2 = DeadBand.count (afterReading cgroupMax) (toggled cgroupMax) false
          (readings (acts ++ [a])) := by
    rwa [hflag, hcount, readings, List.filterMap_append, ← readings, ← readings, hread,
      List.append_nil]
  cases a with
  | tick parsed =>
    have hflag := congrArg Server.overloaded (Option.some.inj ht).symm
    cases hread : readCgroupInt parsed with
    | none =>
      exact hkeep (by simp [readings, hread]) (by simp [hflag, guardTick, hread])
        (by simp [hm, watchToggles, guardTick, hread])
    | some current =>
      have hlast : readings (acts ++ [.tick parsed]) = readings acts ++ [current] := by
        simp [readings, hread]
      have htick : guardTick cgroupMax parsed p.1.overloaded =
          afterReading cgroupMax p.1.overloaded current := by
        obtain ⟨rfl, -⟩ := Option.filter_eq_some_iff.mp hread
        rfl
      rw [hlast, List.foldl_append, DeadBand.count_append_singleton, ← hp.1, ← hp.2, hm,
        watchToggles, htick, hflag]
      exact ⟨htick, rfl⟩
  | arrive =>
    obtain hend := Option.some.inj ht
    exact hkeep rfl (by rw [← hend]) (by rw [hm]; rfl)
  | request r ok =>
    obtain ⟨q', phase, effects, -, -, hend⟩ := step_request_eq_some.mp ht
    exact hkeep rfl (by rw [hend]) (by rw [hm]; rfl)

end Server

/-- **How often the flag changes.** In every run, the flag changes at most once for each time that
the readings, from anywhere below the band on, travel the width of the band. -/
theorem guard_flaps {cgroupMax x : ℤ} (hpos : 0 < cgroupMax) (hx : x < low cgroupMax)
    {acts : List ServerAct} {s : Server} {toggles : ℕ}
    (hrun : run (withMonitor (Server.step cgroupMax) (Server.watchToggles cgroupMax)) (init, 0)
      acts = some (s, toggles)) :
    (high cgroupMax - low cgroupMax + 2) * toggles ≤ DeadBand.travel x (readings acts) := by
  have hcount : toggles = _ := (toggles_of_run hrun).2
  have hreadings : ∀ y ∈ readings acts, 0 < y := by
    intro y hy
    obtain ⟨a, -, ha⟩ := List.mem_filterMap.mp hy
    cases a with
    | tick parsed => simpa using (Option.filter_eq_some_iff.mp ha).2
    | arrive => cases ha
    | request r ok => cases ha
  have hbound := (band cgroupMax hpos).mul_count_le (s := false) trivial x hreadings
  have hzero : (band cgroupMax hpos).value false x = 0 := max_eq_left (by omega)
  rw [hzero, zero_add] at hbound
  rw [hcount]
  exact hbound

/-- A limit of 1000 bytes: into overload, back into the band, out of overload and into it again. -/
theorem guard_flaps_three : ∃ s toggles,
    run (withMonitor (Server.step 1000) (Server.watchToggles 1000)) (init, 0)
      [.tick (some 950), .tick (some 880), .tick none, .tick (some 840), .tick (some 901)] =
      some (s, toggles) ∧ toggles = 3 ∧
    52 * (toggles : ℤ) ≤ DeadBand.travel 849 [950, 880, 840, 901] := by
  have hrun : (run (withMonitor (Server.step 1000) (Server.watchToggles 1000)) (init, 0)
      [.tick (some 950), .tick (some 880), .tick none, .tick (some 840), .tick (some 901)]).any
      (fun p => p.2 = 3) = true := by decide
  obtain ⟨⟨s, toggles⟩, hs, hthree⟩ := (Option.any_eq_true _ _).mp hrun
  exact ⟨s, toggles, hs, of_decide_eq_true hthree, guard_flaps (by decide) (by decide) hs⟩

/-! ### How often the limit of the runtime changes -/

namespace MemoryLimit

/-- The limit that a reading asks for, if there is one. -/
def MemoryReading.ideal (cgroupMax : ℤ) (r : MemoryReading) : Option ℤ :=
  (readCgroupInt r.parsed).map fun current => idealLimit cgroupMax (r.other current)

/-- The change is not under one percent. -/
def moves (last limit : ℤ) : Bool := last.tdiv 100 < limit - last ∨ last.tdiv 100 < -(limit - last)

/-- The tick calls `debug.SetMemoryLimit`. -/
def reconfigures (cgroupMax last : ℤ) (r : MemoryReading) : Bool :=
  (r.ideal cgroupMax).any (moves last)

/-- The installed limit after one that a reading asks for. -/
def install (last limit : ℤ) : ℤ := if moves last limit then limit else last

/-- A monitor that counts the calls of `debug.SetMemoryLimit`. -/
def watchInstalls (cgroupMax : ℤ) (installs : ℕ) (last : ℤ) (r : MemoryReading) : ℕ :=
  installs + (reconfigures cgroupMax last r).toNat

theorem limitTick_eq (cgroupMax last : ℤ) (r : MemoryReading) :
    limitTick cgroupMax last r = (r.ideal cgroupMax).elim last (install last) := by
  rw [limitTick, MemoryReading.ideal]
  cases readCgroupInt r.parsed with
  | none => rfl
  | some current => simp [install, moves]

/-- What is asked for has to move by a hundredth of the least limit there is. -/
def hundredth (cgroupMax : ℤ) :
    DeadBand.Potential install moves (fun last => last = 0 ∨ 0 ≤ last ∧ floor cgroupMax ≤ last)
      (fun limit => 0 ≤ limit ∧ floor cgroupMax ≤ limit) (floor cgroupMax / 100 + 1) where
  value last limit := |limit - last|
  nonneg _ _ := abs_nonneg _
  keeps last limit hlast hlimit := by
    rw [install]
    split_ifs
    · exact .inr hlimit
    · exact hlast
  fills last x y := by
    have hsplit := abs_sub_le y x last
    omega
  empties last limit hlast hlimit hact := by
    rw [install, if_pos hact, sub_self, abs_zero]
    have hmoves := of_decide_eq_true hact
    have hnonneg : 0 ≤ last := hlast.elim (fun h => h.ge) fun h => h.1
    have hleft := neg_abs_le (limit - last)
    have hright := le_abs_self (limit - last)
    rw [Int.tdiv_eq_ediv_of_nonneg hnonneg] at hmoves
    omega
  stays last limit _ _ hact := by
    rw [install, if_neg (by simp [hact])]

/-- A run installs as the limits that its readings ask for. -/
theorem installs_of_run {cgroupMax : ℤ} {history : List MemoryReading} {p : ℤ × ℕ}
    (h : run (withMonitor (limitStep cgroupMax) (watchInstalls cgroupMax)) (0, 0) history =
      some p) :
    p.1 = (history.filterMap (MemoryReading.ideal cgroupMax)).foldl install 0 ∧
      p.2 = DeadBand.count install moves 0
        (history.filterMap (MemoryReading.ideal cgroupMax)) := by
  refine run_history (P := fun history (p : ℤ × ℕ) =>
    p.1 = (history.filterMap (MemoryReading.ideal cgroupMax)).foldl install 0 ∧
      p.2 = DeadBand.count install moves 0 (history.filterMap (MemoryReading.ideal cgroupMax)))
    ⟨rfl, rfl⟩ (fun history p r q hp hq => ?_) h
  obtain ⟨ht, hm⟩ := withMonitor_eq_some.mp hq
  have hlast : q.1 = (r.ideal cgroupMax).elim p.1 (install p.1) :=
    limitTick_eq cgroupMax p.1 r ▸ (Option.some.inj ht).symm
  rw [List.filterMap_append, hm, watchInstalls, reconfigures, hlast]
  cases hideal : r.ideal cgroupMax with
  | none => simpa [hideal] using hp
  | some limit =>
    simp only [List.filterMap_cons, List.filterMap_nil, hideal, Option.elim_some, Option.any_some]
    rw [List.foldl_append, DeadBand.count_append_singleton, ← hp.1, ← hp.2]
    exact ⟨rfl, rfl⟩

/-- **How often the limit changes.** In every run, `debug.SetMemoryLimit` is called at most once
for each hundredth of the floor that the limits asked for travel. -/
theorem limit_reconfigurations {cgroupMax : ℤ} (hpos : 0 < cgroupMax)
    {history : List MemoryReading} {last : ℤ} {installs : ℕ}
    (hrun : run (withMonitor (limitStep cgroupMax) (watchInstalls cgroupMax)) (0, 0) history =
      some (last, installs)) :
    (floor cgroupMax / 100 + 1) * installs ≤
      DeadBand.travel 0 (history.filterMap (MemoryReading.ideal cgroupMax)) := by
  have hcount : installs = _ := (installs_of_run hrun).2
  have hideals : ∀ limit ∈ history.filterMap (MemoryReading.ideal cgroupMax),
      0 ≤ limit ∧ floor cgroupMax ≤ limit := by
    intro limit hlimit
    obtain ⟨r, -, hr⟩ := List.mem_filterMap.mp hlimit
    obtain ⟨current, -, rfl⟩ := Option.map_eq_some_iff.mp hr
    exact ⟨idealLimit_nonneg hpos _, le_max_right _ _⟩
  have hbound := (hundredth cgroupMax).mul_count_le (s := 0) (.inl rfl) 0 hideals
  rw [← hcount] at hbound
  simpa [hundredth] using hbound

/-- Of three readings of a container of 1 GiB, one fails and one asks for next to the same. -/
theorem limit_reconfigurations_one : ∃ last installs,
    run (withMonitor (limitStep 1073741824) (watchInstalls 1073741824)) (0, 0)
      [⟨some 400000000, 120000000, 20000000⟩, ⟨none, 0, 0⟩, ⟨some 403000000, 120000000, 20000000⟩] =
      some (last, installs) ∧ installs = 1 ∧
    536871 * (installs : ℤ) ≤ DeadBand.travel 0 [644892805, 641892805] := by
  have hrun : (run (withMonitor (limitStep 1073741824) (watchInstalls 1073741824)) (0, 0)
      [⟨some 400000000, 120000000, 20000000⟩, ⟨none, 0, 0⟩,
        ⟨some 403000000, 120000000, 20000000⟩]).any (fun p => p.2 = 1) = true := by decide +kernel
  obtain ⟨⟨last, installs⟩, hs, hone⟩ := (Option.any_eq_true _ _).mp hrun
  exact ⟨last, installs, hs, of_decide_eq_true hone, limit_reconfigurations (by decide) hs⟩

end MemoryLimit

end Millionws
