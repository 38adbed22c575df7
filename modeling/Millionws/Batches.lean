import Mathlib.Data.List.Forall2
import Millionws.Registry

/-!
# Batches of an unchanged registry

`sendLoop` takes one batch after another, each into the slice of the previous one and from the
cursor the previous one returned. While nothing is added or removed the batches are consecutive
stretches of a single cyclic walk, wherever each of them ends, and whatever the first cursor was:
a cursor from a larger registry is only a start that is out of range, and a walk starts at its
residue.

A batch never returns more than the whole list, so it repeats nothing; and a walk reads every
connection equally often up to one.

## Main definitions

* `Registry.batches` — a sequence of batches

## Main results

* `Registry.batches_eq_walk` — the batches are one walk
* `batches_fair` — so every connection has its share of what they return
-/

namespace Millionws

open CyclicWalk

variable {C : Type}

/-- Batches of the sizes `ns`, and the last cursor. -/
def Registry.batches (r : Registry C) : List C → ℕ → List ℕ → Option (List (List C) × ℕ)
  | _, cursor, [] => some ([], cursor)
  | dst, cursor, n :: ns => do
    let (batch, cursor) ← r.batch dst cursor n
    let (rest, cursor) ← r.batches batch cursor ns
    some (batch :: rest, cursor)

/-- A batch is a stretch of a walk that is no longer than the list. -/
def IsStretch (r : Registry C) (n : ℕ) (batch : List C) : Prop :=
  ∃ s, batch = walk r.conns s (min n r.len)

/-- **The batches are one cyclic walk** from the first cursor. -/
theorem Registry.batches_eq_walk {r : Registry C} (hpos : 0 < r.len) (dst : List C) (cursor : ℕ)
    (ns : List ℕ) :
    ∃ out cursor', r.batches dst cursor ns = some (out, cursor') ∧
      List.Forall₂ (IsStretch r) ns out ∧ out.flatten = walk r.conns cursor out.flatten.length := by
  induction ns generalizing dst cursor with
  | nil => exact ⟨[], cursor, rfl, .nil, rfl⟩
  | cons n ns ih =>
    obtain ⟨rest, cursor', hrest, hall, hwalk⟩ :=
      ih (walk r.conns cursor (min n r.len)) ((cursor + min n r.len) % r.len)
    refine ⟨walk r.conns cursor (min n r.len) :: rest, cursor', ?_, .cons ⟨cursor, rfl⟩ hall, ?_⟩
    · simp only [batches, batch_eq hpos, Option.bind_eq_bind, Option.bind_some, hrest]
    · -- the next batch starts where this one stopped
      have hnext : rest.flatten =
          walk r.conns (cursor + min n r.len) rest.flatten.length := by
        rw [len, walk_mod] at hwalk
        exact hwalk
      rw [List.flatten_cons, List.length_append, length_walk hpos, ← walk_append_walk, ← hnext]

/-- **Batches are fair.** However the sizes are chosen, each batch returns as many different
stored connections as were asked for or as there are, and of what all of them return every stored
connection has its share, rounded down or up. -/
theorem batches_fair [DecidableEq C] (r : ValidRegistry C) (hpos : 0 < r.len) (dst : List C)
    (cursor : ℕ) (ns : List ℕ) :
    ∃ out cursor', r.batches dst cursor ns = some (out, cursor') ∧
      List.Forall₂ (fun n batch => batch.length = min n r.len ∧ batch.Nodup ∧
        ∀ c ∈ batch, c ∈ r.conns) ns out ∧
      ∀ c ∈ r.conns,
        out.flatten.count c = ⌊(out.flatten.length / r.len : ℚ)⌋₊ ∨
        out.flatten.count c = ⌈(out.flatten.length / r.len : ℚ)⌉₊ := by
  obtain ⟨out, cursor', hout, hall, hwalk⟩ := Registry.batches_eq_walk hpos dst cursor ns
  refine ⟨out, cursor', hout, hall.imp ?_, ?_⟩
  · rintro n batch ⟨s, rfl⟩
    exact ⟨length_walk hpos s _, nodup_walk r.inv.nodup s (Nat.min_le_right _ _),
      fun c => mem_of_mem_walk⟩
  · intro c hc
    obtain ⟨hlow, hhigh⟩ := count_walk_floor_ceil r.inv.nodup hc cursor out.flatten.length
    rw [← hwalk] at hlow hhigh
    have hnear := Nat.ceil_le_floor_add_one (out.flatten.length / r.conns.length : ℚ)
    rw [Registry.len]
    omega

/-- Five connections. -/
def five : ValidRegistry ℕ := [1, 2, 3, 4, 5].foldl (fun r c => (r.add c).2) (.empty 5)

/-- Batches of 3, 0, 9 and 4, from a cursor that is out of range. -/
theorem batches_fair_five : ∃ out cursor', five.batches [] 7 [3, 0, 9, 4] = some (out, cursor') ∧
    List.Forall₂ (fun n batch => batch.length = min n five.len ∧ batch.Nodup ∧
      ∀ c ∈ batch, c ∈ five.conns) [3, 0, 9, 4] out ∧
    ∀ c ∈ five.conns,
      out.flatten.count c = ⌊(out.flatten.length / five.len : ℚ)⌋₊ ∨
      out.flatten.count c = ⌈(out.flatten.length / five.len : ℚ)⌉₊ :=
  batches_fair five (by decide) [] 7 [3, 0, 9, 4]

end Millionws
