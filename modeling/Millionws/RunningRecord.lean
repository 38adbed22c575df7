import Mathlib.Algebra.Order.Field.Basic
import Mathlib.Data.List.Induction

/-!
# Running records with a margin

A record is kept over a sequence of values, and a value becomes the new record when it exceeds `c`
times the old one. With `c = 1` this is the running maximum. With `c` above one the record moves in
jumps: values may creep up to `c` times the record without moving it, and no value is above that.

`LastRaise l y after` names the value that the record is: `y` raised it, and nothing in `after`,
which is what came since, did.

## Main definitions

* `RunningRecord.record` — the record of a list, `none` for the empty one
* `RunningRecord.Raises` — a value is a new record
* `RunningRecord.LastRaise` — the last one that was

## Main results

* `RunningRecord.record_le_record` — a record of values that are not negative never goes down
* `RunningRecord.le_record_mul` — and no value is above `c` times it
* `RunningRecord.LastRaise.le_of_raises` — whatever raised it came no later than the last that did
-/

namespace RunningRecord

variable {α K : Type} [Field K] [LinearOrder K] (value : α → K) (c : K)

/-- The next record, given one more value. -/
def next (best : Option K) (x : α) : Option K :=
  match best with
  | none => some (value x)
  | some b => if b * c < value x then some (value x) else some b

/-- The record of the values of `l`, in order. -/
def record (l : List α) : Option K := l.foldl (next value c) none

/-- `x` is a new record after the values of `l`. -/
def Raises (l : List α) (x : α) : Prop := ∀ b, record value c l = some b → b * c < value x

/-- `y` is the last value of `l` that raised the record, and `after` is what came since. -/
inductive LastRaise : List α → α → List α → Prop
  | here {l : List α} {x : α} (hx : Raises value c l x) : LastRaise (l ++ [x]) x []
  | later {l after : List α} {x y : α} (h : LastRaise l y after) (hx : ¬ Raises value c l x) :
    LastRaise (l ++ [x]) y (after ++ [x])

variable {value c}

/-! ### The record -/

theorem record_concat (l : List α) (x : α) :
    record value c (l ++ [x]) = next value c (record value c l) x := by
  rw [record, List.foldl_append]
  rfl

theorem record_concat_of_raises {l : List α} {x : α} (h : Raises value c l x) :
    record value c (l ++ [x]) = some (value x) := by
  rw [record_concat]
  cases hb : record value c l with
  | none => rfl
  | some b => exact if_pos (h b hb)

theorem record_concat_of_not_raises {l : List α} {x : α} (h : ¬ Raises value c l x) :
    record value c (l ++ [x]) = record value c l := by
  rw [record_concat]
  cases hb : record value c l with
  | none => exact absurd (fun b hb' => absurd (hb.symm.trans hb') (by simp)) h
  | some b =>
    refine if_neg fun hlt => h ?_
    intro b' hb'
    rwa [← Option.some.inj (hb.symm.trans hb')]

/-- The record is one of the values. -/
theorem exists_of_record {l : List α} {b : K} (h : record value c l = some b) :
    ∃ x ∈ l, value x = b := by
  induction l using List.reverseRecOn with
  | nil => cases h
  | append_singleton l x ih =>
    by_cases hx : Raises value c l x
    · rw [record_concat_of_raises hx] at h
      exact ⟨x, by simp, Option.some.inj h⟩
    · rw [record_concat_of_not_raises hx] at h
      obtain ⟨y, hy, hval⟩ := ih h
      exact ⟨y, List.mem_append_left _ hy, hval⟩

variable [IsStrictOrderedRing K]

/-- **A record never goes down**, if no value is negative. -/
theorem record_le_record (hc : 1 ≤ c) {l : List α} (hl : ∀ x ∈ l, 0 ≤ value x) {b : K}
    (h : record value c l = some b) (more : List α) :
    ∃ b', record value c (l ++ more) = some b' ∧ b ≤ b' := by
  obtain ⟨y, hy, rfl⟩ := exists_of_record h
  induction more using List.reverseRecOn with
  | nil => exact ⟨value y, by rwa [List.append_nil], le_rfl⟩
  | append_singleton more x ih =>
    obtain ⟨b', hb', hle⟩ := ih
    rw [← List.append_assoc]
    by_cases hx : Raises value c (l ++ more) x
    · refine ⟨value x, record_concat_of_raises hx, ?_⟩
      have hpos : 0 ≤ b' := (hl y hy).trans hle
      calc value y
          ≤ b' := hle
        _ ≤ b' * c := le_mul_of_one_le_right hpos hc
        _ ≤ value x := (hx b' hb').le
    · exact ⟨b', by rw [record_concat_of_not_raises hx, hb'], hle⟩

/-- **No value is above `c` times the record.** -/
theorem le_record_mul (hc : 1 ≤ c) {l : List α} (hl : ∀ x ∈ l, 0 ≤ value x) {b : K}
    (h : record value c l = some b) {x : α} (hx : x ∈ l) : value x ≤ b * c := by
  obtain ⟨before, after, rfl⟩ := List.append_of_mem hx
  have hbefore : ∀ y ∈ before ++ [x], 0 ≤ value y := by
    intro y hy
    refine hl y ?_
    rcases List.mem_append.mp hy with hy | hy
    · exact List.mem_append_left _ hy
    · exact List.mem_append_right _ (List.mem_singleton.mp hy ▸ List.mem_cons_self)
  have hx0 : 0 ≤ value x := hbefore x (by simp)
  -- the record right after `x`
  obtain ⟨b₀, hb₀, hle⟩ : ∃ b₀, record value c (before ++ [x]) = some b₀ ∧ value x ≤ b₀ * c := by
    by_cases hraises : Raises value c before x
    · exact ⟨value x, record_concat_of_raises hraises, le_mul_of_one_le_right hx0 hc⟩
    · rw [record_concat_of_not_raises hraises]
      rw [Raises] at hraises
      push Not at hraises
      exact hraises
  obtain ⟨b', hb', hmono⟩ := record_le_record hc hbefore hb₀ after
  rw [List.append_assoc, List.singleton_append, h] at hb'
  obtain rfl := Option.some.inj hb'
  exact hle.trans (mul_le_mul_of_nonneg_right hmono (zero_le_one.trans hc))

/-! ### The last value that raised it -/

omit [IsStrictOrderedRing K]

theorem raises_nil (x : α) : Raises value c [] x := nofun

theorem exists_lastRaise {l : List α} (hl : l ≠ []) : ∃ y after, LastRaise value c l y after := by
  induction l using List.reverseRecOn with
  | nil => exact absurd rfl hl
  | append_singleton l x ih =>
    by_cases hx : Raises value c l x
    · exact ⟨x, [], .here hx⟩
    · have hne : l ≠ [] := by
        rintro rfl
        exact hx (raises_nil x)
      obtain ⟨y, after, h⟩ := ih hne
      exact ⟨y, after ++ [x], .later h hx⟩

theorem LastRaise.record_eq {l after : List α} {y : α} (h : LastRaise value c l y after) :
    record value c l = some (value y) := by
  induction h with
  | here hx => exact record_concat_of_raises hx
  | later h hx ih => rw [record_concat_of_not_raises hx, ih]

theorem LastRaise.mem {l after : List α} {y : α} (h : LastRaise value c l y after) : y ∈ l := by
  induction h with
  | here hx => simp
  | later h hx ih => exact List.mem_append_left _ ih

/-- Nothing since exceeds the margin. -/
theorem LastRaise.le_mul {l after : List α} {y : α} (h : LastRaise value c l y after) :
    ∀ x ∈ after, value x ≤ value y * c := by
  induction h with
  | here hx => simp
  | later h hx ih =>
    intro z hz
    rcases List.mem_append.mp hz with hz | hz
    · exact ih z hz
    · obtain rfl := List.mem_singleton.mp hz
      rw [Raises] at hx
      push Not at hx
      obtain ⟨b, hb, hle⟩ := hx
      rw [h.record_eq] at hb
      rwa [Option.some.inj hb]

/-- **Whatever raised the record came no later** than the last value that did. -/
theorem LastRaise.le_of_raises {T : Type} [Preorder T] {time : α → T} {l after : List α} {y : α}
    (h : LastRaise value c l y after) (htime : l.Pairwise fun a b => time a ≤ time b)
    {before rest : List α} {x : α} (hl : l = before ++ x :: rest)
    (hx : Raises value c before x) : time x ≤ time y := by
  induction h generalizing rest with
  | @here l z hz =>
    rw [List.pairwise_append] at htime
    rcases List.eq_nil_or_concat rest with rfl | ⟨rest, w, rfl⟩
    · obtain ⟨-, heq⟩ := List.append_inj' hl rfl
      rw [List.singleton_inj.mp heq]
    · rw [List.concat_eq_append, ← List.cons_append, ← List.append_assoc] at hl
      obtain ⟨rfl, -⟩ := List.append_inj' hl rfl
      exact htime.2.2 x (by simp) z (by simp)
  | @later l after z y h hz ih =>
    rcases List.eq_nil_or_concat rest with rfl | ⟨rest, w, rfl⟩
    · obtain ⟨rfl, heq⟩ := List.append_inj' hl rfl
      exact absurd (List.singleton_inj.mp heq ▸ hx) hz
    · rw [List.concat_eq_append, ← List.cons_append, ← List.append_assoc] at hl
      obtain ⟨rfl, -⟩ := List.append_inj' hl rfl
      exact ih (List.pairwise_append.mp htime).1 rfl

end RunningRecord
