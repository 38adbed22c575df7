import Mathlib.Data.List.Sort

/-!
# Numbered rules, of which the first match decides

A filter is a list of rules with numbers, in any order; the rule with the lowest number among those
that apply decides. What a rule is, what it applies to and what it decides are parameters.

## Main definitions

* `FirstMatch.firstMatch` — the rule that decides

## Main results

* `FirstMatch.verdict_of_applies` — a rule that applies decides, if the lower ones agree with it
* `FirstMatch.firstMatch_eq_none_iff` — no rule decides exactly when none applies
-/

namespace FirstMatch

variable {ρ α υ : Type} (number : ρ → ℕ) (applies : ρ → α → Bool)

/-- The rule with the lowest number that applies to `x`. -/
def firstMatch (rules : List ρ) (x : α) : Option ρ :=
  (rules.insertionSort fun r r' => number r ≤ number r').find? fun r => applies r x

variable {number applies} {rules : List ρ} {x : α}

theorem firstMatch_eq_none_iff :
    firstMatch number applies rules x = none ↔ ∀ r ∈ rules, applies r x = false := by
  simp [firstMatch, List.mem_insertionSort]

/-- No rule that applies has a lower number than the one that decides. -/
theorem number_le {d r : ρ} (hd : firstMatch number applies rules x = some d) (hr : r ∈ rules)
    (happlies : applies r x = true) : number d ≤ number r := by
  have hsorted : (rules.insertionSort fun r r' => number r ≤ number r').Pairwise
      fun r r' => number r ≤ number r' :=
    haveI : Std.Total fun r r' : ρ => number r ≤ number r' := ⟨fun _ _ => Nat.le_total _ _⟩
    haveI : IsTrans ρ fun r r' => number r ≤ number r' := ⟨fun _ _ _ => Nat.le_trans⟩
    List.pairwise_insertionSort _ _
  obtain ⟨-, before, after, heq, hbefore⟩ := List.find?_eq_some_iff_append.mp hd
  have hmem : r ∈ before ++ d :: after := heq ▸ (List.mem_insertionSort _).mpr hr
  rw [heq] at hsorted
  rcases List.mem_append.mp hmem with hr | hr
  · have hno := hbefore r hr
    rw [happlies] at hno
    cases hno
  · rcases List.mem_cons.mp hr with rfl | hr
    · exact Nat.le_refl _
    · exact List.rel_of_pairwise_cons (List.pairwise_append.mp hsorted).2.1 hr

/-- **A rule that applies decides**, if every rule that applies and is not numbered higher comes
to the same verdict. -/
theorem verdict_of_applies (verdict : ρ → υ) {r : ρ} (hr : r ∈ rules)
    (happlies : applies r x = true)
    (hlower : ∀ r' ∈ rules, applies r' x = true → number r' ≤ number r → verdict r' = verdict r) :
    (firstMatch number applies rules x).map verdict = some (verdict r) := by
  cases hd : firstMatch number applies rules x with
  | none =>
    have hno := firstMatch_eq_none_iff.mp hd r hr
    rw [happlies] at hno
    cases hno
  | some d =>
    have hmem : d ∈ rules := (List.mem_insertionSort _).mp (List.mem_of_find?_eq_some hd)
    have hdx : applies d x = true := List.find?_some (p := fun r => applies r x) hd
    rw [Option.map_some, hlower d hmem hdx (number_le hd hr happlies)]

end FirstMatch
