import Mathlib.Data.Set.Card
import Millionws.Registry

/-!
# The registry, one connection at a time

What the registry is *for*: every connection has a life of its own, with three states, and the
registry is the set of those that are in the middle one. A connection is absent, or stored, or
has been reported closed before anybody stored it; `add` and `remove` move it between the three
and report what they found. Nothing here mentions an index, a slot or another connection.

The implementation couples all connections — `remove` moves an unrelated one — so that each
still lives its own life is a theorem, `Registry.Inv.call`, and not a reading of the code. Since the
lives are independent, the order in which calls on *different* connections arrive is invisible,
which is `results_eq_of_opsOn_eq`.

## Main definitions

* `Life`, `Life.step` — one connection's automaton
* `Registry.life` — the state of each connection, read off a registry
* `Registry.calls` — a sequence of calls on the real registry, with its replies
* `Conforms` — the replies and the final lives are the automata's

## Main results

* `Registry.Inv.life_add`, `Registry.Inv.life_remove` — one call moves one automaton
* `registry_representation` — the representation invariant, after every sequence of calls
* `registry_refines` — the refinement, for every sequence of calls, and that interleaving calls
  on different connections differently changes nothing
-/

namespace Millionws

open CyclicWalk

variable {C : Type}

/-! ### The automaton of one connection -/

/-- A connection is unknown, stored, or was closed before it was stored. -/
inductive Life where
  | absent
  | stored
  | closedEarly
  deriving DecidableEq

/-- The two calls that name a connection. -/
inductive LifeOp where
  | add
  | remove
  deriving DecidableEq

/-- What a call reports and where it takes the connection. -/
def Life.step : Life → LifeOp → Bool × Life
  | absent, .add => (true, stored)
  | stored, .add => (false, stored)
  | closedEarly, .add => (false, absent)
  | absent, .remove => (false, closedEarly)
  | stored, .remove => (true, absent)
  | closedEarly, .remove => (false, closedEarly)

/-- A sequence of calls on one connection. -/
def Life.run : Life → List LifeOp → List Bool × Life
  | s, [] => ([], s)
  | s, op :: ops => ((s.step op).1 :: (run (s.step op).2 ops).1, (run (s.step op).2 ops).2)

/-! ### Calls on the registry -/

/-- A method call. -/
inductive Call (C : Type) where
  | add (c : C)
  | remove (c : C)
  | len
  | batch (dst : List C) (cursor n : ℕ)

/-- What a method returns. -/
inductive Reply (C : Type) where
  | bool (b : Bool)
  | int (n : ℕ)
  | batch (conns : List C) (cursor : ℕ)

section Calls

variable [DecidableEq C] [Inhabited C]

/-- One call on the real registry; `none` is a panic. -/
def Registry.call (r : Registry C) : Call C → Option (Reply C × Registry C)
  | .add c => some (.bool (r.add c).1, (r.add c).2)
  | .remove c => (r.remove c).map fun out => (.bool out.1, out.2)
  | .len => some (.int r.len, r)
  | .batch dst cursor n => (r.batch dst cursor n).map fun out => (.batch out.1 out.2, r)

/-- A sequence of calls, with the replies in order. -/
def Registry.calls : Registry C → List (Call C) → Option (List (Reply C) × Registry C)
  | r, [] => some ([], r)
  | r, k :: ks => do
    let (ρ, r) ← r.call k
    let (ρs, r) ← r.calls ks
    some (ρ :: ρs, r)

end Calls

/-- The operation a call performs on `c`, if it names it. -/
def Call.op? [DecidableEq C] (c : C) : Call C → Option LifeOp
  | .add d => if d = c then some .add else none
  | .remove d => if d = c then some .remove else none
  | .len => none
  | .batch _ _ _ => none

/-- The operations of a sequence of calls on `c`, in order. -/
def opsOn [DecidableEq C] (c : C) (ks : List (Call C)) : List LifeOp := ks.filterMap (Call.op? c)

/-- The answers `c` got in a sequence of calls, in order. -/
def resultsAt [DecidableEq C] (c : C) : List (Call C) → List (Reply C) → List Bool
  | k :: ks, ρ :: ρs =>
    match k.op? c, ρ with
    | some _, .bool b => b :: resultsAt c ks ρs
    | _, _ => resultsAt c ks ρs
  | _, _ => []

/-! ### The specification -/

/-- The lives after a call: the connection it names makes a step, no other moves. -/
def livesAfter [DecidableEq C] (L : C → Life) : Call C → C → Life
  | .add c => Function.update L c ((L c).step .add).2
  | .remove c => Function.update L c ((L c).step .remove).2
  | .len => L
  | .batch _ _ _ => L

/-- The reply the specification allows. `len` counts the stored connections, and a batch of at
least that many returns each of them once; smaller batches are the subject of other modules. -/
def Allowed (L : C → Life) : Call C → Reply C → Prop
  | .add c, ρ => ρ = .bool ((L c).step .add).1
  | .remove c, ρ => ρ = .bool ((L c).step .remove).1
  | .len, ρ => ∃ n : ℕ, ρ = .int n ∧ {c | L c = .stored}.encard = n
  | .batch _ _ n, ρ => ∃ conns cursor, ρ = .batch conns cursor ∧
      ({c | L c = .stored}.encard ≤ n → conns.Nodup ∧ ∀ c, c ∈ conns ↔ L c = .stored)

/-- Every reply is allowed, and the lives end as `L'`. -/
def Conforms [DecidableEq C] : (C → Life) → List (Call C) → List (Reply C) → (C → Life) → Prop
  | L, [], ρs, L' => ρs = [] ∧ L' = L
  | L, k :: ks, ρs, L' =>
    ∃ ρ ρs', ρs = ρ :: ρs' ∧ Allowed L k ρ ∧ Conforms (livesAfter L k) ks ρs' L'

/-! ### One call -/

variable [DecidableEq C]

/-- The life of each connection, read off the registry. -/
def Registry.life (r : Registry C) (c : C) : Life :=
  if c ∈ r.conns then .stored else if c ∈ r.closed then .closedEarly else .absent

namespace Registry

theorem life_newRegistry (capacity : ℕ) :
    (newRegistry capacity : Registry C).life = fun _ => .absent :=
  funext fun c => by simp [life, newRegistry]

theorem life_eq_stored_iff {r : Registry C} {c : C} : r.life c = .stored ↔ c ∈ r.conns := by
  rw [life]
  split_ifs <;> simp_all

theorem Inv.life_eq_closedEarly_iff {r : Registry C} (h : r.Inv) {c : C} :
    r.life c = .closedEarly ↔ c ∈ r.closed := by
  rw [life]
  split_ifs with hc hcl
  · exact ⟨fun he => absurd he (by simp), fun hcl => absurd hc (h.not_mem_of_closed c hcl)⟩
  · simp [hcl]
  · simp [hcl]

/-- Two registries agree on a connection when the list and the closed set do. -/
theorem life_congr {r r' : Registry C} {c : C} (hconns : c ∈ r'.conns ↔ c ∈ r.conns)
    (hclosed : c ∈ r'.closed ↔ c ∈ r.closed) : r'.life c = r.life c := by
  simp [life, hconns, hclosed]

/-- **`add` moves one automaton**, and reports what it does. -/
theorem Inv.life_add {r : Registry C} (h : r.Inv) (c : C) :
    (r.add c).1 = ((r.life c).step .add).1 ∧
      (r.add c).2.life = Function.update r.life c ((r.life c).step .add).2 := by
  by_cases hcl : c ∈ r.closed
  · have hc := h.not_mem_of_closed c hcl
    rw [add_of_mem_closed hcl, h.life_eq_closedEarly_iff.mpr hcl]
    refine ⟨rfl, ?_⟩
    funext d
    by_cases hd : d = c
    · subst hd
      simp [life, hc, Life.step]
    · rw [Function.update_of_ne hd]
      exact life_congr Iff.rfl (by simp [hd])
  · by_cases hc : c ∈ r.conns
    · rw [h.add_of_mem hc, life_eq_stored_iff.mpr hc]
      exact ⟨rfl, by rw [Life.step, ← life_eq_stored_iff.mpr hc, Function.update_eq_self]⟩
    · have hlife : r.life c = .absent := by rw [life, if_neg hc, if_neg hcl]
      rw [h.add_of_not_mem hc hcl, hlife]
      refine ⟨rfl, ?_⟩
      funext d
      by_cases hd : d = c
      · subst hd
        simp [life, Life.step]
      · rw [Function.update_of_ne hd]
        exact life_congr (by simp [hd]) Iff.rfl

theorem Inv.encard_stored {r : Registry C} (h : r.Inv) :
    {c | r.life c = .stored}.encard = r.len := by
  have hset : {c | r.life c = .stored} = (r.conns.toFinset : Set C) := by
    ext c
    simp [life_eq_stored_iff]
  rw [hset, Set.encard_coe_eq_coe_finsetCard, List.toFinset_card_of_nodup h.nodup, len]

/-- A batch at least as long as the registry returns every stored connection once. -/
theorem Inv.batch_full {r : Registry C} (h : r.Inv) {dst conns : List C} {cursor cursor' n : ℕ}
    (hn : r.len ≤ n) (hbatch : r.batch dst cursor n = some (conns, cursor')) :
    conns.Nodup ∧ ∀ c, c ∈ conns ↔ c ∈ r.conns := by
  obtain rfl := eq_walk_of_batch hbatch
  refine ⟨nodup_walk h.nodup cursor (Nat.min_le_right _ _), ?_⟩
  intro c
  refine ⟨mem_of_mem_walk, ?_⟩
  intro hc
  obtain ⟨p, hp⟩ := List.mem_iff_getElem?.mp hc
  rw [mem_walk_iff h.nodup hp, Nat.min_eq_right hn]
  exact gap_lt (List.length_pos_of_mem hc) cursor p

variable [Inhabited C]

/-- **`remove` moves one automaton**, and reports what it does, although it may move another
connection inside the list. -/
theorem Inv.life_remove {r r' : Registry C} (h : r.Inv) {c : C} {b : Bool}
    (hr : r.remove c = some (b, r')) :
    b = ((r.life c).step .remove).1 ∧
      r'.life = Function.update r.life c ((r.life c).step .remove).2 := by
  obtain ⟨hc, rfl, rfl⟩ | ⟨i, moved, hi, hmoved, rfl, rfl⟩ := h.remove_cases hr
  · have hstep : (r.life c).step .remove = (false, .closedEarly) := by
      rw [life, if_neg hc]
      split_ifs <;> rfl
    rw [hstep]
    refine ⟨rfl, ?_⟩
    funext d
    by_cases hd : d = c
    · subst hd
      simp [life, hc]
    · rw [Function.update_of_ne hd]
      exact life_congr Iff.rfl (by simp [hd])
  · have hc : c ∈ r.conns := List.mem_of_getElem? hi
    rw [life_eq_stored_iff.mpr hc]
    refine ⟨rfl, ?_⟩
    funext d
    have hmem : d ∈ fillHole r.conns i moved ↔ d ≠ c ∧ d ∈ r.conns := by
      simp only [List.mem_iff_getElem?, h.getElem?_fillHole_iff hi hmoved]
      constructor
      · rintro ⟨j, hdc, hj⟩
        split_ifs at hj with hdm
        · exact ⟨hdc, _, hdm ▸ hmoved⟩
        · exact ⟨hdc, j, hj⟩
      · rintro ⟨hdc, j, hj⟩
        by_cases hdm : d = moved
        · exact ⟨i, hdc, by rw [if_pos hdm]⟩
        · exact ⟨j, hdc, by rw [if_neg hdm]; exact hj⟩
    by_cases hd : d = c
    · subst hd
      have hcl : d ∉ r.closed := fun hcl => h.not_mem_of_closed d hcl hc
      simp [life, hmem, hcl, Life.step]
    · rw [Function.update_of_ne hd]
      exact life_congr (by simp [hmem, hd]) Iff.rfl

/-! ### Sequences of calls -/

/-- **One call.** It does not panic, its reply is allowed and the lives follow. -/
theorem Inv.call {r : Registry C} (h : r.Inv) (k : Call C) : ∃ ρ r', r.call k = some (ρ, r') ∧
    r'.Inv ∧ Allowed r.life k ρ ∧ r'.life = livesAfter r.life k := by
  cases k with
  | add c => exact ⟨_, _, rfl, h.add c, congrArg _ (h.life_add c).1, (h.life_add c).2⟩
  | remove c =>
    obtain ⟨⟨b, r'⟩, hr⟩ := Option.isSome_iff_exists.mp (h.remove_isSome c)
    refine ⟨.bool b, r', by rw [Registry.call, hr]; rfl, h.remove hr, ?_, (h.life_remove hr).2⟩
    exact congrArg _ (h.life_remove hr).1
  | len => exact ⟨_, _, rfl, h, ⟨r.len, rfl, h.encard_stored⟩, rfl⟩
  | batch dst cursor n =>
    obtain ⟨⟨conns, cursor'⟩, hb⟩ := Option.isSome_iff_exists.mp (r.batch_isSome dst cursor n)
    refine ⟨.batch conns cursor', r, by rw [Registry.call, hb]; rfl, h,
      ⟨conns, cursor', rfl, fun hn => ?_⟩, rfl⟩
    rw [h.encard_stored, Nat.cast_le] at hn
    obtain ⟨hnd, hmem⟩ := h.batch_full hn hb
    exact ⟨hnd, fun c => (hmem c).trans life_eq_stored_iff.symm⟩

theorem Inv.calls {r : Registry C} (h : r.Inv) (ks : List (Call C)) : ∃ ρs r',
    r.calls ks = some (ρs, r') ∧ r'.Inv ∧ Conforms r.life ks ρs r'.life := by
  induction ks generalizing r with
  | nil => exact ⟨[], r, rfl, h, rfl, rfl⟩
  | cons k ks ih =>
    obtain ⟨ρ, r₁, hcall, hinv, hallowed, hlife⟩ := h.call k
    obtain ⟨ρs, r₂, hcalls, hinv₂, hconf⟩ := ih hinv
    refine ⟨ρ :: ρs, r₂, ?_, hinv₂, ρ, ρs, rfl, hallowed, hlife ▸ hconf⟩
    simp [Registry.calls, hcall, hcalls]

end Registry

/-- **The representation.** Every sequence of calls on a new registry ends, without a panic, in a
registry whose list repeats nothing, whose map has the connections of the list for keys and their
indices for values, and whose closed connections are not among them; so that no `remove` and no
`batch` panics there, from whatever cursor, and a `remove` changes the index of one survivor at
most. -/
theorem registry_representation [Inhabited C] (capacity : ℕ) (ks : List (Call C)) :
    ∃ ρs r, (newRegistry capacity).calls ks = some (ρs, r) ∧ r.conns.Nodup ∧
      (∀ c, c ∈ r.slot ↔ c ∈ r.conns) ∧
      (∀ (i : ℕ) c, r.conns[i]? = some c → r.slot.lookup c = some i) ∧
      (∀ c ∈ r.closed, c ∉ r.slot) ∧
      (∀ c, ∃ b r', r.remove c = some (b, r') ∧ ∃ moved, ∀ d ∈ r'.conns, d ≠ moved →
        ∀ i : ℕ, r'.conns[i]? = some d ↔ r.conns[i]? = some d) ∧
      ∀ dst cursor n, (r.batch dst cursor n).isSome := by
  obtain ⟨ρs, r, hcalls, hinv, -⟩ := (Registry.inv_newRegistry (C := C) capacity).calls ks
  refine ⟨ρs, r, hcalls, hinv.nodup, hinv.mem_slot_iff, ?_, ?_, ?_, r.batch_isSome⟩
  · intro i c hi
    exact (hinv.slot_iff c i).mpr hi
  · intro c hc hslot
    exact hinv.not_mem_of_closed c hc ((hinv.mem_slot_iff c).mp hslot)
  · intro c
    obtain ⟨⟨b, r'⟩, hr⟩ := Option.isSome_iff_exists.mp (hinv.remove_isSome c)
    exact ⟨b, r', hr, hinv.remove_moves_one hr⟩

/-! ### Interleavings -/

/-- What a call does to the life of one connection: its own step, if the call names it. -/
theorem livesAfter_apply (L : C → Life) (k : Call C) (c : C) :
    livesAfter L k c = (k.op? c).elim (L c) fun op => ((L c).step op).2 := by
  cases k with
  | add d =>
    rw [livesAfter, Call.op?]
    split_ifs with hd
    · subst hd
      simp
    · simp [Function.update_of_ne (Ne.symm hd)]
  | remove d =>
    rw [livesAfter, Call.op?]
    split_ifs with hd
    · subst hd
      simp
    · simp [Function.update_of_ne (Ne.symm hd)]
  | len => rfl
  | batch dst cursor n => rfl

/-- A call that names a connection answers with its automaton's report. -/
theorem Allowed.eq_bool {L : C → Life} {k : Call C} {ρ : Reply C} {c : C} {op : LifeOp}
    (h : Allowed L k ρ) (hop : k.op? c = some op) : ρ = .bool ((L c).step op).1 := by
  cases k with
  | add d =>
    rw [Call.op?] at hop
    split_ifs at hop with hd
    subst hd
    exact Option.some.inj hop ▸ h
  | remove d =>
    rw [Call.op?] at hop
    split_ifs at hop with hd
    subst hd
    exact Option.some.inj hop ▸ h
  | len => cases hop
  | batch dst cursor n => cases hop

theorem resultsAt_cons_of_none {c : C} {k : Call C} (h : k.op? c = none) (ks : List (Call C))
    (ρ : Reply C) (ρs : List (Reply C)) :
    resultsAt c (k :: ks) (ρ :: ρs) = resultsAt c ks ρs := by
  simp [resultsAt, h]

theorem resultsAt_cons_of_some {c : C} {k : Call C} {op : LifeOp} (h : k.op? c = some op)
    (ks : List (Call C)) (b : Bool) (ρs : List (Reply C)) :
    resultsAt c (k :: ks) (.bool b :: ρs) = b :: resultsAt c ks ρs := by
  simp [resultsAt, h]

/-- **One connection sees only its own calls.** Its answers and its final life are the run of
its automaton on the calls that name it. -/
theorem Conforms.at {L L' : C → Life} {ks : List (Call C)} {ρs : List (Reply C)}
    (h : Conforms L ks ρs L') (c : C) :
    (resultsAt c ks ρs, L' c) = (L c).run (opsOn c ks) := by
  induction ks generalizing L ρs with
  | nil =>
    obtain ⟨rfl, rfl⟩ := h
    rfl
  | cons k ks ih =>
    obtain ⟨ρ, ρs', rfl, hallowed, hrest⟩ := h
    have hih := ih hrest
    rw [livesAfter_apply] at hih
    cases hop : k.op? c with
    | none =>
      rw [hop] at hih
      rw [opsOn, List.filterMap_cons_none hop, resultsAt_cons_of_none hop]
      exact hih
    | some op =>
      rw [hop] at hih
      obtain rfl := hallowed.eq_bool hop
      rw [opsOn, List.filterMap_cons_some hop, resultsAt_cons_of_some hop, Life.run]
      exact congrArg (fun out => (((L c).step op).1 :: out.1, out.2)) hih

variable [Inhabited C]

/-- Sequences that keep each connection's own order of calls cannot be told apart by any
connection. -/
theorem results_eq_of_opsOn_eq {r r₁ r₂ : Registry C} (h : r.Inv) {ks₁ ks₂ : List (Call C)}
    {ρs₁ ρs₂ : List (Reply C)} {c : C} (hops : opsOn c ks₁ = opsOn c ks₂)
    (h₁ : r.calls ks₁ = some (ρs₁, r₁)) (h₂ : r.calls ks₂ = some (ρs₂, r₂)) :
    resultsAt c ks₁ ρs₁ = resultsAt c ks₂ ρs₂ ∧ r₁.life c = r₂.life c := by
  have key : ∀ {ks : List (Call C)} {ρs : List (Reply C)} {r' : Registry C},
      r.calls ks = some (ρs, r') →
        (resultsAt c ks ρs, r'.life c) = (r.life c).run (opsOn c ks) := by
    intro ks ρs r' hr
    obtain ⟨ρs', r'', hr', -, hconf⟩ := h.calls ks
    obtain ⟨rfl, rfl⟩ := Prod.mk.inj (Option.some.inj (hr.symm.trans hr'))
    exact hconf.at c
  have heq := (key h₁).trans ((congrArg _ hops).trans (key h₂).symm)
  exact Prod.mk.inj heq

/-- **The registry refines one automaton per connection.** From a new registry, every sequence
of calls runs without a panic, every reply is the automata's, and the stored set is the set of
automata in `stored`; and two sequences with the same calls on each connection, interleaved in
any other way, give every connection the same answers and store the same connections. -/
theorem registry_refines (capacity : ℕ) (ks : List (Call C)) :
    (∃ ρs r, (newRegistry capacity).calls ks = some (ρs, r) ∧
        Conforms (fun _ => .absent) ks ρs r.life) ∧
      ∀ ks' ρs ρs' r r', (∀ c, opsOn c ks = opsOn c ks') →
        (newRegistry capacity).calls ks = some (ρs, r) →
        (newRegistry capacity).calls ks' = some (ρs', r') →
        ∀ c, resultsAt c ks ρs = resultsAt c ks' ρs' ∧ (c ∈ r.conns ↔ c ∈ r'.conns) := by
  have hinv := Registry.inv_newRegistry (C := C) capacity
  refine ⟨?_, ?_⟩
  · obtain ⟨ρs, r, hcalls, -, hconf⟩ := hinv.calls ks
    exact ⟨ρs, r, hcalls, Registry.life_newRegistry (C := C) capacity ▸ hconf⟩
  · intro ks' ρs ρs' r r' hops hr hr' c
    obtain ⟨hres, hlife⟩ := results_eq_of_opsOn_eq hinv (hops c) hr hr'
    exact ⟨hres, by rw [← Registry.life_eq_stored_iff, hlife, Registry.life_eq_stored_iff]⟩

/-- A connection closed before it is added, and another one added in between or before. -/
theorem registry_refines_interleaved : ∃ ρs ρs' r r',
    (newRegistry 4).calls [.remove 1, .add 2, .add 1] = some (ρs, r) ∧
      (newRegistry 4).calls [.add 2, .remove 1, .add 1] = some (ρs', r') ∧
      ∀ c, resultsAt c [.remove 1, .add 2, .add 1] ρs =
          resultsAt c [.add 2, .remove 1, .add 1] ρs' ∧
        (c ∈ r.conns ↔ c ∈ r'.conns) := by
  refine ⟨_, _, _, _, rfl, rfl,
    (registry_refines 4 [.remove 1, .add 2, .add 1]).2 _ _ _ _ _ ?_ rfl rfl⟩
  intro c
  by_cases h₁ : 1 = c
  · subst h₁
    decide
  · by_cases h₂ : 2 = c <;> simp [opsOn, Call.op?, h₁, h₂]

end Millionws
