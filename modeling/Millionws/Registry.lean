import Mathlib.Data.Finmap
import Mathlib.Data.Finset.Insert
import Millionws.CyclicWalk

/-!
# The connection registry

`cmd/loadgen/registry.go`: a list of open connections with a map from each connection to its
index, so that both adding and removing take constant time. Removal fills the hole with the last
connection; a connection that is reported closed before it is added is remembered in `closed`,
and a later `add` refuses it.

## Panics are part of the model

`remove` and `batch` index the slice, and an index out of range panics. Both return an `Option`
whose `none` is that panic, and nothing in the definitions rules it out: that it never happens is
`Registry.Inv.remove_isSome` and `Registry.batch_eq`. Once that is known, `ValidRegistry` bundles
a registry with its invariant and offers the total operations every later module uses.

## What is deliberately absent

The mutex: every method holds it from its first line to its return, so a call is one atomic step
and that is what a call is here. The capacity given to `make` only sizes an allocation.

## Main definitions

* `Registry`, `newRegistry`, `Registry.add`, `Registry.remove`, `Registry.len`,
  `Registry.batch` — the methods, line by line
* `Registry.Inv` — the list and the map are inverse to each other, and `closed` is disjoint
* `ValidRegistry` — a registry that satisfies it

## Main results

* `Registry.Inv.remove_cases` — what `remove` does
* `Registry.batch_eq` — a batch is a cyclic walk
* `Registry.Inv.add`, `Registry.Inv.remove` — the invariant is preserved
* `Registry.Inv.remove_moves_one` — a removal changes the index of one survivor at most
-/

namespace Millionws

open CyclicWalk

variable {C : Type}

/-- `registry`: `conns` in the order they are walked, the index of each in `slot`, and the
connections closed before they were added. -/
structure Registry (C : Type) where
  conns : List C
  slot : Finmap fun _ : C => ℕ
  closed : Finset C

/-- `newRegistry`. -/
def newRegistry (_capacity : ℕ) : Registry C := ⟨[], ∅, ∅⟩

/-- The assignment `s[i] = x`, which panics when `i` is out of range. -/
def assign (s : List C) (i : ℕ) (x : C) : Option (List C) :=
  if i < s.length then some (s.set i x) else none

namespace Registry

section Methods

variable [DecidableEq C]

/-- `add` stores `c` and reports whether it did. -/
def add (r : Registry C) (c : C) : Bool × Registry C :=
  if c ∈ r.closed then (false, { r with closed := r.closed.erase c })
  else if c ∈ r.slot then (false, r)
  else (true, { r with slot := r.slot.insert c r.conns.length, conns := r.conns ++ [c] })

/-- `remove` deletes `c` and reports whether it was stored. The order of the writes is the
source's: fill the hole, re-point the moved connection, clear and cut the tail, delete the key. -/
def remove [Inhabited C] (r : Registry C) (c : C) : Option (Bool × Registry C) :=
  match r.slot.lookup c with
  | none => some (false, { r with closed := insert c r.closed })
  | some i => do
    let last := r.conns.length - 1
    let moved ← r.conns[last]?
    let conns ← assign r.conns i moved
    let slot := r.slot.insert moved i
    let conns ← assign conns last default
    some (true, { r with conns := conns.take last, slot := slot.erase c })

end Methods

/-- `len`. -/
def len (r : Registry C) : ℕ := r.conns.length

/-- The loop of `batch`, appending to `dst` the connection at `(cursor + i) % total` for each `i`
below `n`. -/
def batchLoop (conns : List C) (cursor : ℕ) (dst : List C) (n : ℕ) : Option (List C) :=
  (List.range n).foldlM (fun dst i => do
    let c ← conns[(cursor + i) % conns.length]?
    some (dst ++ [c])) dst

/-- `batch` copies up to `n` connections starting at `cursor` into `dst` and returns the next
cursor. -/
def batch (r : Registry C) (dst : List C) (cursor n : ℕ) : Option (List C × ℕ) :=
  let total := r.conns.length
  if total = 0 then some (dst.take 0, 0)
  else do
    let n := if n > total then total else n
    let dst ← batchLoop r.conns cursor (dst.take 0) n
    some (dst, (cursor + n) % total)

/-! ### Reading in batches -/

theorem batchLoop_eq {conns : List C} (h : 0 < conns.length) (cursor : ℕ) (dst : List C) (n : ℕ) :
    batchLoop conns cursor dst n = some (dst ++ walk conns cursor n) := by
  induction n with
  | zero => simp [batchLoop]
  | succ n ih =>
    have hmod : (cursor + n) % conns.length < conns.length := Nat.mod_lt _ h
    rw [batchLoop] at ih ⊢
    rw [List.range_succ, List.foldlM_append, ih, walk_succ, List.getElem?_eq_getElem hmod]
    simp [List.getElem?_eq_getElem hmod]

theorem batch_of_len_eq_zero {r : Registry C} (h : r.len = 0) (dst : List C) (cursor n : ℕ) :
    r.batch dst cursor n = some ([], 0) := by
  rw [batch, if_pos (show r.conns.length = 0 from h), List.take_zero]

/-- **A batch is a cyclic walk** of at most the whole list, and the next cursor is where it
stopped. No index is out of range, whatever the cursor. -/
theorem batch_eq {r : Registry C} (h : 0 < r.len) (dst : List C) (cursor n : ℕ) :
    r.batch dst cursor n =
      some (walk r.conns cursor (min n r.len), (cursor + min n r.len) % r.len) := by
  have hmin : (if n > r.conns.length then r.conns.length else n) = min n r.len := by
    rw [len]
    split_ifs <;> omega
  simp only [batch, if_neg (show r.conns.length ≠ 0 from Nat.ne_of_gt h), hmin,
    batchLoop_eq h, List.take_zero, List.nil_append, Option.bind_eq_bind, Option.bind_some]
  rfl

theorem batch_isSome (r : Registry C) (dst : List C) (cursor n : ℕ) :
    (r.batch dst cursor n).isSome := by
  rcases Nat.eq_zero_or_pos r.len with hz | hpos
  · rw [batch_of_len_eq_zero hz]
    rfl
  · rw [batch_eq hpos]
    rfl

theorem eq_walk_of_batch {r : Registry C} {dst conns : List C} {cursor cursor' n : ℕ}
    (h : r.batch dst cursor n = some (conns, cursor')) :
    conns = walk r.conns cursor (min n r.len) := by
  rcases Nat.eq_zero_or_pos r.len with hz | hpos
  · rw [batch_of_len_eq_zero hz] at h
    rw [hz, Nat.min_zero, walk_zero]
    exact (Prod.mk.inj (Option.some.inj h)).1.symm
  · rw [batch_eq hpos] at h
    exact (Prod.mk.inj (Option.some.inj h)).1.symm

/-! ### Filling a hole -/

/-- The list after the connection at index `i` is removed: the last one takes its place. -/
def fillHole (conns : List C) (i : ℕ) (moved : C) : List C :=
  (conns.set i moved).take (conns.length - 1)

theorem length_fillHole (conns : List C) (i : ℕ) (moved : C) :
    (fillHole conns i moved).length = conns.length - 1 := by
  simp [fillHole]

theorem getElem?_fillHole_self {conns : List C} {i : ℕ} {moved : C} (h : i < conns.length - 1) :
    (fillHole conns i moved)[i]? = some moved := by
  rw [fillHole, List.getElem?_take_of_lt h, List.getElem?_set_self (by omega)]

theorem getElem?_fillHole_of_ne {conns : List C} {i j : ℕ} {moved : C} (hj : j < conns.length - 1)
    (hne : j ≠ i) : (fillHole conns i moved)[j]? = conns[j]? := by
  rw [fillHole, List.getElem?_take_of_lt hj, List.getElem?_set_ne (Ne.symm hne)]

theorem exists_last {conns : List C} {i : ℕ} {c : C} (hi : conns[i]? = some c) :
    ∃ moved, conns[conns.length - 1]? = some moved :=
  have hlt : i < conns.length := (List.getElem?_eq_some_iff.mp hi).1
  ⟨_, List.getElem?_eq_getElem (by omega)⟩

/-! ### The invariant -/

/-- The list and the map are inverse to each other, and no connection is both stored and
remembered as closed. -/
structure Inv (r : Registry C) [DecidableEq C] : Prop where
  /-- The slot of a connection is its index. -/
  slot_iff : ∀ c i, r.slot.lookup c = some i ↔ r.conns[i]? = some c
  /-- What is remembered as closed is not stored. -/
  not_mem_of_closed : ∀ c ∈ r.closed, c ∉ r.conns

variable [DecidableEq C]

theorem inv_newRegistry (capacity : ℕ) : (newRegistry capacity : Registry C).Inv where
  slot_iff c i := by simp [newRegistry]
  not_mem_of_closed c h := by simp [newRegistry] at h

theorem Inv.nodup {r : Registry C} (h : r.Inv) : r.conns.Nodup := by
  rw [List.nodup_iff_injective_getElem]
  intro i j hij
  have hi := (h.slot_iff _ _).mpr (List.getElem?_eq_getElem i.isLt)
  have hj := (h.slot_iff _ _).mpr (List.getElem?_eq_getElem j.isLt)
  exact Fin.ext (Option.some.inj (hi.symm.trans ((congrArg r.slot.lookup hij).trans hj)))

theorem Inv.mem_slot_iff {r : Registry C} (h : r.Inv) (c : C) : c ∈ r.slot ↔ c ∈ r.conns := by
  rw [← Finmap.lookup_isSome, Option.isSome_iff_exists, List.mem_iff_getElem?]
  exact exists_congr fun i => h.slot_iff c i

theorem Inv.lookup_eq_none_iff {r : Registry C} (h : r.Inv) (c : C) :
    r.slot.lookup c = none ↔ c ∉ r.conns := by
  rw [Finmap.lookup_eq_none, h.mem_slot_iff]

/-! ### Adding -/

theorem add_of_mem_closed {r : Registry C} {c : C} (h : c ∈ r.closed) :
    r.add c = (false, { r with closed := r.closed.erase c }) := if_pos h

theorem Inv.add_of_mem {r : Registry C} (h : r.Inv) {c : C} (hc : c ∈ r.conns) :
    r.add c = (false, r) := by
  rw [add, if_neg fun hcl => h.not_mem_of_closed c hcl hc, if_pos ((h.mem_slot_iff c).mpr hc)]

theorem Inv.add_of_not_mem {r : Registry C} (h : r.Inv) {c : C} (hc : c ∉ r.conns)
    (hcl : c ∉ r.closed) :
    r.add c =
      (true, { r with slot := r.slot.insert c r.conns.length, conns := r.conns ++ [c] }) := by
  rw [add, if_neg hcl, if_neg fun hs => hc ((h.mem_slot_iff c).mp hs)]

theorem Inv.add {r : Registry C} (h : r.Inv) (c : C) : (r.add c).2.Inv := by
  by_cases hcl : c ∈ r.closed
  · rw [add_of_mem_closed hcl]
    exact ⟨h.slot_iff, fun d hd => h.not_mem_of_closed d (Finset.mem_of_mem_erase hd)⟩
  · by_cases hc : c ∈ r.conns
    · rwa [h.add_of_mem hc]
    · rw [h.add_of_not_mem hc hcl]
      constructor
      · intro d i
        by_cases hd : d = c
        · subst hd
          have hnone : r.conns[i]? ≠ some d := fun hi => hc (List.mem_of_getElem? hi)
          rw [Finmap.lookup_insert, List.getElem?_append]
          split_ifs with hi
          · exact ⟨fun he => absurd (Option.some.inj he) (by omega), fun he => absurd he hnone⟩
          · rw [List.getElem?_singleton]
            split_ifs with hi0 <;> simp <;> omega
        · rw [Finmap.lookup_insert_of_ne _ hd, h.slot_iff, List.getElem?_append]
          split_ifs with hi
          · rfl
          · rw [List.getElem?_eq_none (by omega), List.getElem?_singleton]
            split_ifs <;> simp [Ne.symm hd]
      · intro d hd hmem
        rcases List.mem_append.mp hmem with hm | hm
        · exact h.not_mem_of_closed d hd hm
        · exact hcl (List.mem_singleton.mp hm ▸ hd)

theorem Inv.len_add {r : Registry C} (h : r.Inv) (c : C) :
    (r.add c).2.len = r.len + (r.add c).1.toNat := by
  by_cases hcl : c ∈ r.closed
  · rw [add_of_mem_closed hcl]
    rfl
  · by_cases hc : c ∈ r.conns
    · rw [h.add_of_mem hc]
      rfl
    · rw [h.add_of_not_mem hc hcl, len, List.length_append]
      rfl

/-- What is stored stays stored. -/
theorem Inv.mem_conns_add {r : Registry C} (h : r.Inv) {x : C} (hx : x ∈ r.conns) (c : C) :
    x ∈ (r.add c).2.conns := by
  by_cases hcl : c ∈ r.closed
  · rwa [add_of_mem_closed hcl]
  · by_cases hc : c ∈ r.conns
    · rwa [h.add_of_mem hc]
    · rw [h.add_of_not_mem hc hcl]
      exact List.mem_append_left _ hx

/-! ### Removing -/

/-- Where a connection stands after a removal: the moved one in the hole, the others where they
were. -/
theorem Inv.getElem?_fillHole_iff {r : Registry C} (h : r.Inv) {c moved d : C} {i : ℕ}
    (hi : r.conns[i]? = some c) (hmoved : r.conns[r.conns.length - 1]? = some moved) (j : ℕ) :
    (fillHole r.conns i moved)[j]? = some d ↔
      d ≠ c ∧ if d = moved then j = i else r.conns[j]? = some d := by
  have hlt : i < r.conns.length := (List.getElem?_eq_some_iff.mp hi).1
  -- a stored connection is at one index only
  have huniq : ∀ {a b : ℕ} {x : C}, r.conns[a]? = some x → r.conns[b]? = some x → a = b :=
    fun ha hb => Option.some.inj (((h.slot_iff _ _).mpr ha).symm.trans ((h.slot_iff _ _).mpr hb))
  rcases Nat.lt_or_ge j (r.conns.length - 1) with hj | hj
  · by_cases hji : j = i
    · subst hji
      rw [getElem?_fillHole_self hj, Option.some.injEq]
      have hmc : moved ≠ c := by
        rintro rfl
        have := huniq hi hmoved
        omega
      constructor
      · rintro rfl
        exact ⟨hmc, by rw [if_pos rfl]⟩
      · rintro ⟨hdc, hd⟩
        split_ifs at hd with hdm
        · exact hdm.symm
        · exact absurd (Option.some.inj (hi.symm.trans hd)).symm hdc
    · rw [getElem?_fillHole_of_ne hj hji]
      constructor
      · intro hd
        refine ⟨fun hdc => hji (huniq hd (hdc ▸ hi)), ?_⟩
        rw [if_neg]
        · exact hd
        · intro hdm
          have := huniq hd (hdm ▸ hmoved)
          omega
      · rintro ⟨hdc, hd⟩
        split_ifs at hd with hdm
        · exact absurd hd hji
        · exact hd
  · rw [List.getElem?_eq_none (by rw [length_fillHole]; exact hj)]
    refine ⟨fun hd => absurd hd (by simp), ?_⟩
    rintro ⟨hdc, hd⟩
    exfalso
    split_ifs at hd with hdm
    · -- the hole is the tail itself, so the moved connection is the removed one
      subst hd
      have hlast : j = r.conns.length - 1 := by omega
      rw [← hlast] at hmoved
      exact hdc (hdm.trans (Option.some.inj (hmoved.symm.trans hi)))
    · have hjlt : j < r.conns.length := (List.getElem?_eq_some_iff.mp hd).1
      have hlast : j = r.conns.length - 1 := by omega
      rw [← hlast] at hmoved
      exact hdm (Option.some.inj (hd.symm.trans hmoved))

variable [Inhabited C]

theorem remove_of_lookup_eq_none {r : Registry C} {c : C} (h : r.slot.lookup c = none) :
    r.remove c = some (false, { r with closed := insert c r.closed }) := by
  rw [remove, h]

/-- **What `remove` computes.** Clearing the tail before cutting it leaves no trace. -/
theorem Inv.remove_of_mem {r : Registry C} (h : r.Inv) {c moved : C} {i : ℕ}
    (hi : r.conns[i]? = some c) (hmoved : r.conns[r.conns.length - 1]? = some moved) :
    r.remove c = some (true,
      { r with conns := fillHole r.conns i moved, slot := (r.slot.insert moved i).erase c }) := by
  have hlt : i < r.conns.length := (List.getElem?_eq_some_iff.mp hi).1
  have htail : (r.conns.set i moved).length - 1 ≤ r.conns.length - 1 := by simp
  rw [remove, (h.slot_iff c i).mpr hi]
  simp only [Option.bind_eq_bind, hmoved, Option.bind_some, assign, if_pos hlt, List.length_set,
    if_pos (show r.conns.length - 1 < r.conns.length by omega), fillHole,
    List.take_set_of_le (Nat.le_refl _)]

/-- On a registry that satisfies the invariant `remove` never panics. -/
theorem Inv.remove_isSome {r : Registry C} (h : r.Inv) (c : C) : (r.remove c).isSome := by
  cases hs : r.slot.lookup c with
  | none => rw [remove_of_lookup_eq_none hs]; rfl
  | some i =>
    have hi := (h.slot_iff c i).mp hs
    obtain ⟨moved, hmoved⟩ := exists_last hi
    rw [h.remove_of_mem hi hmoved]
    rfl

/-- **What a call of `remove` did**: it remembered a connection that is not stored, or it filled
the hole of one that was. -/
theorem Inv.remove_cases {r r' : Registry C} (h : r.Inv) {c : C} {b : Bool}
    (hr : r.remove c = some (b, r')) :
    (c ∉ r.conns ∧ b = false ∧ r' = { r with closed := insert c r.closed }) ∨
    ∃ i moved, r.conns[i]? = some c ∧ r.conns[r.conns.length - 1]? = some moved ∧ b = true ∧
      r' = { r with
        conns := fillHole r.conns i moved, slot := (r.slot.insert moved i).erase c } := by
  cases hs : r.slot.lookup c with
  | none =>
    rw [remove_of_lookup_eq_none hs] at hr
    obtain ⟨hb, hr'⟩ := Prod.mk.inj (Option.some.inj hr)
    exact .inl ⟨(h.lookup_eq_none_iff c).mp hs, hb.symm, hr'.symm⟩
  | some i =>
    have hi := (h.slot_iff c i).mp hs
    obtain ⟨moved, hmoved⟩ := exists_last hi
    rw [h.remove_of_mem hi hmoved] at hr
    obtain ⟨hb, hr'⟩ := Prod.mk.inj (Option.some.inj hr)
    exact .inr ⟨i, moved, hi, hmoved, hb.symm, hr'.symm⟩

theorem Inv.len_remove {r r' : Registry C} (h : r.Inv) {c : C} {b : Bool}
    (hr : r.remove c = some (b, r')) : r'.len + b.toNat = r.len := by
  obtain ⟨-, rfl, rfl⟩ | ⟨i, moved, hi, -, rfl, rfl⟩ := h.remove_cases hr
  · rfl
  · have hlt := (List.getElem?_eq_some_iff.mp hi).1
    rw [len, length_fillHole, len, Bool.toNat_true]
    omega

theorem Inv.remove {r r' : Registry C} (h : r.Inv) {c : C} {b : Bool}
    (hr : r.remove c = some (b, r')) : r'.Inv := by
  obtain ⟨hc, -, rfl⟩ | ⟨i, moved, hi, hmoved, -, rfl⟩ := h.remove_cases hr
  · refine ⟨h.slot_iff, ?_⟩
    intro d hd
    rcases Finset.mem_insert.mp hd with rfl | hd
    · exact hc
    · exact h.not_mem_of_closed d hd
  · constructor
    · intro d j
      rw [h.getElem?_fillHole_iff hi hmoved]
      by_cases hdc : d = c
      · subst hdc
        simp [Finmap.lookup_erase]
      · rw [Finmap.lookup_erase_ne hdc]
        by_cases hdm : d = moved
        · subst hdm
          simp [Finmap.lookup_insert, hdc, eq_comm]
        · rw [Finmap.lookup_insert_of_ne _ hdm, h.slot_iff]
          simp [hdc, hdm]
    · intro d hd hmem
      refine h.not_mem_of_closed d hd ?_
      obtain ⟨j, hj⟩ := List.mem_iff_getElem?.mp hmem
      obtain ⟨-, hj'⟩ := (h.getElem?_fillHole_iff hi hmoved j).mp hj
      split_ifs at hj' with hdm
      · exact hdm ▸ List.mem_of_getElem? hmoved
      · exact List.mem_of_getElem? hj'

/-- Unless it is removed itself. -/
theorem Inv.mem_conns_remove {r r' : Registry C} (h : r.Inv) {x c : C} (hx : x ∈ r.conns)
    (hc : x ≠ c) {b : Bool} (hr : r.remove c = some (b, r')) : x ∈ r'.conns := by
  obtain ⟨-, -, rfl⟩ | ⟨i, moved, hi, hmoved, -, rfl⟩ := h.remove_cases hr
  · exact hx
  · obtain ⟨p, hp⟩ := List.mem_iff_getElem?.mp hx
    have hp' : (fillHole r.conns i moved)[if x = moved then i else p]? = some x := by
      rw [h.getElem?_fillHole_iff hi hmoved]
      refine ⟨hc, ?_⟩
      split_ifs
      · rfl
      · exact hp
    exact List.mem_of_getElem? hp'

/-- **A removal moves one survivor** at most: every other connection keeps its index. -/
theorem Inv.remove_moves_one {r r' : Registry C} (h : r.Inv) {c : C} {b : Bool}
    (hr : r.remove c = some (b, r')) :
    ∃ moved, ∀ d ∈ r'.conns, d ≠ moved → ∀ i : ℕ, r'.conns[i]? = some d ↔ r.conns[i]? = some d := by
  obtain ⟨-, -, rfl⟩ | ⟨i, moved, hi, hmoved, -, rfl⟩ := h.remove_cases hr
  · exact ⟨c, fun d _ _ i => Iff.rfl⟩
  · refine ⟨moved, ?_⟩
    intro d hd hdm j
    obtain ⟨k, hk⟩ := List.mem_iff_getElem?.mp hd
    have hdc : d ≠ c := ((h.getElem?_fillHole_iff hi hmoved k).mp hk).1
    rw [h.getElem?_fillHole_iff hi hmoved, if_neg hdm]
    exact and_iff_right hdc

end Registry

/-! ### Registries that satisfy the invariant -/

/-- A registry together with its invariant. `remove` is total here. -/
structure ValidRegistry (C : Type) [DecidableEq C] extends Registry C where
  inv : toRegistry.Inv

namespace ValidRegistry

variable [DecidableEq C]

/-- The empty registry. -/
def empty (capacity : ℕ) : ValidRegistry C := ⟨newRegistry capacity, Registry.inv_newRegistry _⟩

/-- `add`, keeping the invariant. -/
def add (r : ValidRegistry C) (c : C) : Bool × ValidRegistry C :=
  ((r.toRegistry.add c).1, ⟨(r.toRegistry.add c).2, r.inv.add c⟩)

variable [Inhabited C]

/-- `remove`, which cannot panic here. -/
def remove (r : ValidRegistry C) (c : C) : Bool × ValidRegistry C :=
  let out := (r.toRegistry.remove c).get (r.inv.remove_isSome c)
  (out.1, ⟨out.2, r.inv.remove (Option.some_get _).symm⟩)

/-- The total `remove` is the source's. -/
theorem remove_eq (r : ValidRegistry C) (c : C) :
    r.toRegistry.remove c = some ((r.remove c).1, (r.remove c).2.toRegistry) :=
  (Option.some_get _).symm

end ValidRegistry

end Millionws
