import Mathlib.Data.List.Induction
import Mathlib.Data.List.Nodup
import Mathlib.Data.List.Perm.Lattice

/-!
# Collecting a list into groups

A loop over a list appends each element to the group of its key, in a dictionary that remembers the
order in which keys were inserted. What comes out is described without the loop: the keys in the
order in which they occur first, each with the elements that have it.

## Main definitions

* `Grouping.add`, `Grouping.group` — one turn of the loop, and the loop

## Main results

* `Grouping.group_eq` — the groups
* `Grouping.map_group_perm` — what is computed from each group does not depend on the order of the
  list, if it does not depend on the order of the group
* `Grouping.group_rounds` — the groups of a list that goes round its keys
-/

namespace Grouping

variable {α κ : Type} [DecidableEq κ] (key : α → κ)

/-- Append an element to the group of its key. -/
def add (groups : List (κ × List α)) (x : α) : List (κ × List α) :=
  if groups.any fun g => g.1 = key x then
    groups.map fun g => if g.1 = key x then (g.1, g.2 ++ [x]) else g
  else groups ++ [(key x, [x])]

/-- All elements, one after another. -/
def group (l : List α) : List (κ × List α) := l.foldl (add key) []

/-- The keys, each where it occurs first. -/
def keys (l : List α) : List κ := (l.map key).eraseDups

/-- The elements with a key. -/
def members (l : List α) (k : κ) : List α := l.filter fun x => key x = k

variable {key}

theorem mem_keys {l : List α} {k : κ} : k ∈ keys key l ↔ ∃ x ∈ l, key x = k := by
  rw [keys, List.mem_eraseDups, List.mem_map]

theorem keys_concat (l : List α) (x : α) :
    keys key (l ++ [x]) = if key x ∈ keys key l then keys key l else keys key l ++ [key x] := by
  have hmem : (l.map key).elem (key x) = decide (key x ∈ keys key l) := by
    rw [List.elem_eq_mem, keys]
    exact decide_eq_decide.mpr List.mem_eraseDups.symm
  rw [keys, List.map_append, List.eraseDups_append, ← keys, List.map_singleton, List.removeAll,
    List.filter_singleton, hmem]
  split_ifs with hx
  · simp [hx]
  · simp [hx, List.eraseDups_cons]

theorem nodup_keys (l : List α) : (keys key l).Nodup := by
  induction l using List.reverseRecOn with
  | nil => exact List.nodup_nil
  | append_singleton l x ih =>
    rw [keys_concat]
    split_ifs with hx
    · exact ih
    · exact List.nodup_append'.mpr ⟨ih, List.nodup_singleton _, by simpa using hx⟩

theorem members_concat (l : List α) (x : α) (k : κ) :
    members key (l ++ [x]) k = if key x = k then members key l k ++ [x] else members key l k := by
  rw [members, List.filter_append, ← members]
  split_ifs with hx <;> simp [hx]

theorem members_eq_nil {l : List α} {k : κ} (h : k ∉ keys key l) : members key l k = [] := by
  rw [members, List.filter_eq_nil_iff]
  intro x hx hk
  exact h (mem_keys.mpr ⟨x, hx, of_decide_eq_true hk⟩)

/-- **The groups.** Each key once, where it occurs first, with its elements in their order. -/
theorem group_eq (l : List α) : group key l = (keys key l).map fun k => (k, members key l k) := by
  induction l using List.reverseRecOn with
  | nil => rfl
  | append_singleton l x ih =>
    have hany : (group key l).any (fun g => g.1 = key x) = true ↔ key x ∈ keys key l := by
      rw [ih, List.any_eq_true]
      simp
    rw [group, List.foldl_append, ← group, List.foldl_cons, List.foldl_nil, add, keys_concat]
    simp only [hany]
    split_ifs with hx
    · rw [ih, List.map_map]
      refine List.map_congr_left fun k _ => ?_
      rw [members_concat, Function.comp]
      split_ifs with hk hk' hk'
      · rfl
      · exact absurd hk.symm hk'
      · exact absurd hk'.symm hk
      · rfl
    · rw [ih, List.map_append, List.map_singleton, members_concat, if_pos rfl, members_eq_nil hx,
        List.nil_append]
      congr 1
      refine List.map_congr_left fun k hk => ?_
      rw [members_concat, if_neg]
      rintro rfl
      exact hx hk

variable {β : Type}

/-- **The order of the list** shows only in the order of the groups. -/
theorem map_group_perm {l l' : List α} (h : l.Perm l') {f : κ × List α → β}
    (hf : ∀ k m m', List.Perm m m' → f (k, m) = f (k, m')) :
    ((group key l).map f).Perm ((group key l').map f) := by
  have hkeys : (keys key l).Perm (keys key l') := by
    refine (List.perm_ext_iff_of_nodup (nodup_keys l) (nodup_keys l')).mpr fun k => ?_
    rw [mem_keys, mem_keys]
    exact exists_congr fun x => and_congr_left fun _ => h.mem_iff
  have hmembers (k : κ) : f (k, members key l k) = f (k, members key l' k) :=
    hf k _ _ (h.filter _)
  rw [group_eq, group_eq, List.map_map, List.map_map]
  have hrow : (f ∘ fun k => (k, members key l k)) = f ∘ fun k => (k, members key l' k) :=
    funext hmembers
  rw [hrow]
  exact hkeys.map _

/-! ### Rounds -/

theorem eraseDups_eq_self {ks : List κ} (h : ks.Nodup) : ks.eraseDups = ks := by
  induction ks with
  | nil => rfl
  | cons k ks ih =>
    obtain ⟨hk, hks⟩ := List.nodup_cons.mp h
    have hfilter : ks.filter (fun b => !b == k) = ks := by
      refine List.filter_eq_self.mpr fun b hb => ?_
      simpa using fun heq : b = k => hk (heq ▸ hb)
    rw [List.eraseDups_cons, hfilter, ih hks]

/-- **Going round the keys** gives each its group, with one element for each round. -/
theorem group_rounds {l : List α} {ks : List κ} {n : ℕ} (hn : 1 ≤ n) (hks : ks.Nodup)
    (hl : l.map key = (List.replicate n ks).flatten) :
    (group key l).map (fun g => (g.1, g.2.length)) = ks.map fun k => (k, n) := by
  have hkeys : keys key l = ks := by
    obtain ⟨m, rfl⟩ := Nat.exists_eq_add_of_le' hn
    have hrest : (List.replicate m ks).flatten.removeAll ks = [] := by
      refine List.filter_eq_nil_iff.mpr fun k hk => ?_
      obtain ⟨ks', hks', hmem⟩ := List.mem_flatten.mp hk
      rw [List.eq_of_mem_replicate hks'] at hmem
      simp [hmem]
    rw [keys, hl, List.replicate_succ, List.flatten_cons, List.eraseDups_append, hrest,
      List.eraseDups_nil, List.append_nil, eraseDups_eq_self hks]
  have hmembers {k : κ} (hk : k ∈ ks) : (members key l k).length = n := by
    have hcount : (members key l k).length = (l.map key).count k := by
      rw [members, ← List.countP_eq_length_filter, List.count, List.countP_map]
      exact List.countP_congr fun x _ => by simp
    rw [hcount, hl, List.count_flatten, List.map_replicate, List.sum_replicate_nat,
      List.count_eq_one_of_mem hks hk, Nat.mul_one]
  rw [group_eq, hkeys, List.map_map]
  exact List.map_congr_left fun k hk => by rw [Function.comp, hmembers hk]

end Grouping
