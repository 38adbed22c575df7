import Mathlib.Data.List.Nodup
import Mathlib.Data.List.Count
import Mathlib.Data.List.Range
import Mathlib.Data.Nat.Count
import Mathlib.Data.Int.CardIntervalMod
import Mathlib.Data.Rat.Floor
import Mathlib.Algebra.Order.Floor.Semifield
import Mathlib.Tactic.Positivity

/-!
# Walking round a list

`walk l s n` reads `n` consecutive elements of `l`, starting at index `s` and wrapping round its
end. Everything that is true of a round-robin reader comes from one observation: index `p` is
read exactly at the steps `i` with `s + i ≡ p`, so how often it is read in `n` steps is a count
of one residue class below `n`, which Mathlib already has as `Nat.count_modEq_card`.

`gap l s p` is the number of elements read before index `p`. It is the only quantity the lemmas
below are stated in: an element is read iff its gap is below `n`, and it is read `n / l.length`
times or once more, according to how its gap compares with the remainder.

## Main results

* `CyclicWalk.walk_append_walk` — two walks, the second from where the first stopped, are one
* `CyclicWalk.mem_walk_iff` — which elements a walk reads
* `CyclicWalk.count_walk`, `CyclicWalk.count_walk_floor_ceil` — and how often
* `CyclicWalk.nodup_walk` — a walk no longer than the list repeats nothing
-/

namespace CyclicWalk

variable {α : Type}

/-- `n` consecutive elements of `l` from index `s`, wrapping round. -/
def walk (l : List α) (s n : ℕ) : List α :=
  (List.range n).filterMap fun i => l[(s + i) % l.length]?

/-- How many elements a walk from `s` reads before it reads index `p`. -/
def gap (l : List α) (s p : ℕ) : ℕ := (p + (l.length - s % l.length)) % l.length

@[simp] theorem walk_zero (l : List α) (s : ℕ) : walk l s 0 = [] := rfl

theorem walk_succ (l : List α) (s n : ℕ) :
    walk l s (n + 1) = walk l s n ++ (l[(s + n) % l.length]?).toList := by
  rw [walk, List.range_succ, List.filterMap_append]
  cases h : l[(s + n) % l.length]? <;> simp [walk, h]

/-- Only the start's residue matters. -/
theorem walk_mod (l : List α) (s n : ℕ) : walk l (s % l.length) n = walk l s n := by
  simp only [walk, Nat.mod_add_mod]

theorem walk_append_walk (l : List α) (s n m : ℕ) :
    walk l s n ++ walk l (s + n) m = walk l s (n + m) := by
  induction m with
  | zero => simp
  | succ m ih => rw [walk_succ, ← List.append_assoc, ih, ← Nat.add_assoc, walk_succ, Nat.add_assoc]

theorem length_walk {l : List α} (hl : 0 < l.length) (s n : ℕ) : (walk l s n).length = n := by
  induction n with
  | zero => rfl
  | succ n ih =>
    rw [walk_succ, List.length_append, ih, List.getElem?_eq_getElem (Nat.mod_lt _ hl)]
    rfl

theorem mem_of_mem_walk {l : List α} {s n : ℕ} {x : α} (h : x ∈ walk l s n) : x ∈ l := by
  obtain ⟨i, -, hi⟩ := List.mem_filterMap.mp h
  exact List.mem_of_getElem? hi

theorem gap_lt {l : List α} (hl : 0 < l.length) (s p : ℕ) : gap l s p < l.length :=
  Nat.mod_lt _ hl

/-- Step `i` of a walk is at index `p` exactly when `i` is the gap, modulo the length. -/
theorem add_mod_eq_iff {l : List α} {p : ℕ} (hp : p < l.length) (s i : ℕ) :
    (s + i) % l.length = p ↔ i ≡ gap l s p [MOD l.length] := by
  have hs : s % l.length < l.length := Nat.mod_lt _ (by omega)
  have hback : s + gap l s p ≡ p [MOD l.length] := by
    have hsum : s % l.length + (p + (l.length - s % l.length)) = p + l.length := by omega
    calc s + gap l s p
        ≡ s % l.length + (p + (l.length - s % l.length)) [MOD l.length] :=
          Nat.ModEq.add (Nat.mod_modEq s _).symm (Nat.mod_modEq _ _)
      _ = p + l.length := hsum
      _ ≡ p [MOD l.length] := Nat.add_modEq_right
  constructor
  · intro h
    have hsi : s + i ≡ s + gap l s p [MOD l.length] := by
      refine Nat.ModEq.trans ?_ hback.symm
      exact show (s + i) % l.length = p % l.length by rw [h, Nat.mod_eq_of_lt hp]
    exact Nat.ModEq.add_left_cancel' s hsi
  · intro h
    have hsi : (s + i) % l.length = p % l.length := (h.add_left s).trans hback
    rwa [Nat.mod_eq_of_lt hp] at hsi

/-- Reads of an element are steps at its index, when the list has no repeats. -/
theorem getElem?_mod_eq_iff [DecidableEq α] {l : List α} (hl : l.Nodup) {p : ℕ} {x : α}
    (hp : l[p]? = some x) (s i : ℕ) :
    l[(s + i) % l.length]? = some x ↔ i ≡ gap l s p [MOD l.length] := by
  obtain ⟨hlt, rfl⟩ := List.getElem?_eq_some_iff.mp hp
  rw [← add_mod_eq_iff hlt]
  have hmod : (s + i) % l.length < l.length := Nat.mod_lt _ (by omega)
  rw [List.getElem?_eq_getElem hmod, Option.some.injEq]
  exact hl.getElem_inj_iff

/-- **How often a walk reads an element.** -/
theorem count_walk [DecidableEq α] {l : List α} (hl : l.Nodup) {p : ℕ} {x : α}
    (hp : l[p]? = some x) (s n : ℕ) :
    (walk l s n).count x =
      n / l.length + if gap l s p < n % l.length then 1 else 0 := by
  have hlt : p < l.length := (List.getElem?_eq_some_iff.mp hp).1
  have hpos : 0 < l.length := by omega
  have hcount : (walk l s n).count x = n.count (· ≡ gap l s p [MOD l.length]) := by
    rw [Nat.count_eq_card_filter_range]
    induction n with
    | zero => simp
    | succ n ih =>
      rw [walk_succ, List.count_append, ih, Finset.range_add_one, Finset.filter_insert]
      by_cases hn : n ≡ gap l s p [MOD l.length]
      · rw [if_pos hn, (getElem?_mod_eq_iff hl hp s n).mpr hn,
          Finset.card_insert_of_notMem (by simp)]
        simp
      · rw [if_neg hn]
        have hne : l[(s + n) % l.length]? ≠ some x := fun h =>
          hn ((getElem?_mod_eq_iff hl hp s n).mp h)
        cases hx : l[(s + n) % l.length]? with
        | none => simp
        | some y =>
          have hy : y ≠ x := fun h => hne (by rw [hx, h])
          simp [hy]
  rw [hcount, Nat.count_modEq_card _ hpos, Nat.mod_eq_of_lt (gap_lt hpos s p)]

/-- **Every element has its share**, rounded down or up. -/
theorem count_walk_floor_ceil [DecidableEq α] {l : List α} (hl : l.Nodup) {x : α} (hx : x ∈ l)
    (s n : ℕ) :
    ⌊(n / l.length : ℚ)⌋₊ ≤ (walk l s n).count x ∧
      (walk l s n).count x ≤ ⌈(n / l.length : ℚ)⌉₊ := by
  have hpos : 0 < l.length := List.length_pos_of_mem hx
  have hposQ : (0 : ℚ) < l.length := by exact_mod_cast hpos
  obtain ⟨p, hp⟩ := List.mem_iff_getElem?.mp hx
  rw [count_walk hl hp, Nat.floor_div_eq_div]
  refine ⟨Nat.le_add_right _ _, ?_⟩
  split_ifs with hgap
  · -- the last round was begun, so the share is not a whole number
    have hrest : n / l.length * l.length < n := by
      rw [Nat.mul_comm]
      have hdivmod := Nat.div_add_mod n l.length
      omega
    refine Nat.lt_ceil.mpr ((lt_div_iff₀ hposQ).mpr ?_)
    exact_mod_cast hrest
  · rw [Nat.add_zero, ← Nat.floor_div_eq_div (K := ℚ)]
    exact Nat.floor_le_ceil _

/-- **Which elements a walk reads.** -/
theorem mem_walk_iff [DecidableEq α] {l : List α} (hl : l.Nodup) {p : ℕ} {x : α}
    (hp : l[p]? = some x) (s n : ℕ) : x ∈ walk l s n ↔ gap l s p < n := by
  have hlt : p < l.length := (List.getElem?_eq_some_iff.mp hp).1
  have hgap := gap_lt (show 0 < l.length by omega) s p
  rw [← List.count_pos_iff, count_walk hl hp]
  rcases Nat.lt_or_ge n l.length with hn | hn
  · rw [Nat.div_eq_of_lt hn, Nat.mod_eq_of_lt hn, Nat.zero_add]
    split_ifs with h <;> simp [h]
  · have hdiv : 0 < n / l.length := Nat.div_pos hn (by omega)
    exact ⟨fun _ => by omega, fun _ => by omega⟩

/-- A walk no longer than the list repeats nothing. -/
theorem nodup_walk [DecidableEq α] {l : List α} (hl : l.Nodup) (s : ℕ) {n : ℕ}
    (hn : n ≤ l.length) : (walk l s n).Nodup := by
  rw [List.nodup_iff_count_le_one]
  intro x
  by_cases hx : x ∈ walk l s n
  · have hpos : 0 < l.length := List.length_pos_of_mem (mem_of_mem_walk hx)
    obtain ⟨p, hp⟩ := List.mem_iff_getElem?.mp (mem_of_mem_walk hx)
    rw [count_walk hl hp]
    rcases Nat.lt_or_ge n l.length with h | h
    · rw [Nat.div_eq_of_lt h, Nat.zero_add]
      split_ifs <;> omega
    · rw [Nat.le_antisymm hn h, Nat.mod_self, if_neg (Nat.not_lt_zero _), Nat.add_zero]
      exact (Nat.div_self hpos).le
  · rw [List.count_eq_zero_of_not_mem hx]
    exact Nat.zero_le 1

end CyclicWalk
