import Mathlib.Algebra.BigOperators.Group.Finset.Basic
import Mathlib.Algebra.Ring.Nat
import Mathlib.Data.List.Induction

/-!
# A population of which one member moves at a time

The state of a system of many parties of one kind is a list, and a step of one of them replaces
one element. What such a step does to a property of every member, to a sum over the members and
to the number of members with a property does not depend on what the members are.

## Main results

* `Population.forall_mem_set` — a property of every member
* `Population.sum_map_set` — a sum over the members
* `Population.countP_set` — how many members have a property
* `Population.countP_range_getElem?` — and that they can be counted by their numbers
* `Population.sum_countP_fibers` — or kind by kind
-/

namespace Population

variable {α : Type} {l : List α} {i : ℕ} {a : α}

theorem forall_mem_set {P : α → Prop} (h : ∀ x ∈ l, P x) {b : α} (hb : P b) :
    ∀ x ∈ l.set i b, P x := by
  intro x hx
  rcases List.mem_or_eq_of_mem_set hx with hx | rfl
  · exact h x hx
  · exact hb

/-- A sum over the members changes by what the two members contribute. -/
theorem sum_map_set {M : Type} [AddCommMonoid M] (h : l[i]? = some a) (b : α) (f : α → M) :
    ((l.set i b).map f).sum + f a = (l.map f).sum + f b := by
  induction l generalizing i with
  | nil => simp at h
  | cons x l ih =>
    cases i with
    | zero =>
      obtain rfl : x = a := by simpa using h
      simp only [List.set_cons_zero, List.map_cons, List.sum_cons]
      rw [add_right_comm, add_comm (f b), add_right_comm, add_comm (f x)]
    | succ i =>
      have hrest := ih (by simpa using h)
      simp only [List.set_cons_succ, List.map_cons, List.sum_cons]
      rw [add_assoc, hrest, add_assoc]

theorem sum_map_toNat (p : α → Bool) (l : List α) :
    (l.map fun x => (p x).toNat).sum = l.countP p := by
  induction l with
  | nil => rfl
  | cons x l ih =>
    rw [List.map_cons, List.sum_cons, ih, List.countP_cons, add_comm]
    cases p x <;> rfl

/-- A count of the members changes by what the two members contribute. -/
theorem countP_set (h : l[i]? = some a) (b : α) (p : α → Bool) :
    (l.set i b).countP p + (p a).toNat = l.countP p + (p b).toNat := by
  rw [← sum_map_toNat, ← sum_map_toNat]
  exact sum_map_set h b _

/-- Members of one kind that are of one of two kinds each. -/
theorem countP_split {p q r : α → Bool}
    (h : ∀ x ∈ l, (p x).toNat = (q x).toNat + (r x).toNat) :
    l.countP p = l.countP q + l.countP r := by
  rw [← sum_map_toNat, ← sum_map_toNat, ← sum_map_toNat, ← List.sum_map_add]
  exact congrArg List.sum (List.map_congr_left h)

/-- Members are counted by their numbers. -/
theorem countP_range_getElem? (l : List α) (p : α → Bool) :
    ((List.range l.length).countP fun i => (l[i]?).any p) = l.countP p := by
  induction l using List.reverseRecOn with
  | nil => rfl
  | append_singleton l a ih =>
    have hfront : (List.range l.length).countP (fun i => ((l ++ [a])[i]?).any p) = l.countP p := by
      rw [← ih]
      refine List.countP_congr fun i hi => ?_
      rw [List.getElem?_append_left (List.mem_range.mp hi)]
    rw [List.length_append, List.length_singleton, List.range_succ, List.countP_append, hfront,
      List.countP_append, List.countP_singleton, List.countP_singleton,
      List.getElem?_concat_length, Option.any_some]

/-- Members are counted kind by kind. -/
theorem sum_countP_fibers {κ : Type} [DecidableEq κ] (l : List α) (f : α → κ) :
    ∑ k ∈ (l.map f).toFinset, l.countP (fun x => f x = k) = l.length := by
  rw [← List.length_map f, ← List.sum_toFinset_count_eq_length]
  refine Finset.sum_congr rfl fun k _ => ?_
  rw [List.count_eq_countP, List.countP_map]
  exact List.countP_congr fun x _ => by simp

end Population
