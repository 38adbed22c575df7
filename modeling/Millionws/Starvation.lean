import Millionws.Transition
import Millionws.RegistryRefinement

/-!
# Who the sender reaches while connections come and go

`sendLoop` walks the registry in batches, each starting at the cursor the previous one returned,
while other goroutines add and remove connections. `add` only appends, so it never comes between
the cursor and a connection the cursor has not passed. `remove` does: it moves the last
connection into the hole, and the cursor is an index that nothing adjusts.

Two things can go wrong for a connection `x`, and `setsBack` names them as conditions on the
state before the removal.

* `x` is the last connection and the hole is below the cursor: `x` moves behind the sender.
* The cursor is already at or past the end of the list. It is only reduced modulo the length at
  the next batch, so what it will mean then depends on every removal and addition in between.

Each costs `x` at most one further round: `length_served_le` bounds what can be sent without
reaching it by one round more than the number of setbacks. Two setbacks are enough to be passed
over by batches that together return twice the largest registry, and
`batch_passes_over` is such a run with five connections.

## Main definitions

* `Walker`, `Walker.step` — the registry with the sender's cursor, under any interleaving
* `Stretch`, `watch` — a monitor: what the batches returned and how often `x` was set back
* `largest` — the largest size of the registry during a stretch

## Main results

* `length_served_le` — the sender reaches `x` within one round for each setback and one more
* `mem_served_of_setbacks_le_one` — with at most one setback, `2 * L` connections are enough
* `batch_passes_over` — without that condition they are not
-/

namespace Millionws

open CyclicWalk Transition

variable {C : Type}

/-! ### How far the sender has to go

`ahead` is how many connections the sender returns before it reaches the one at index `p`. Past
`p` it counts the rest of the list as if it had grown to its largest size already, so that an
addition never changes it. -/

/-- The connections ahead of index `p`, in a list of at most `L`. -/
def ahead (L cursor p : ℕ) : ℕ := if cursor ≤ p then p - cursor else L - cursor + p

theorem lt_of_getElem? {l : List C} {p L : ℕ} {x : C} (hp : l[p]? = some x) (hL : l.length ≤ L) :
    p < L :=
  Nat.lt_of_lt_of_le (List.getElem?_eq_some_iff.mp hp).1 hL

theorem ahead_lt {L p : ℕ} (hp : p < L) (cursor : ℕ) : ahead L cursor p < L := by
  rw [ahead]
  split_ifs <;> omega

/-- A cursor just past the end stands for index `0`. -/
theorem ahead_mod_le {L len cursor p : ℕ} (hp : p < len) (hc : cursor ≤ len) :
    ahead L (cursor % len) p ≤ ahead L cursor p := by
  rcases Nat.lt_or_ge cursor len with h | h
  · rw [Nat.mod_eq_of_lt h]
  · obtain rfl : cursor = len := by omega
    rw [Nat.mod_self, ahead, if_pos (Nat.zero_le p), ahead]
    split_ifs <;> omega

/-- A batch that does not reach index `p` brings the cursor nearer by its whole length. -/
theorem ahead_after_batch {l : List C} {L cursor p n : ℕ} (hp : p < l.length) (hL : l.length ≤ L)
    (hn : n ≤ gap l cursor p) :
    n + ahead L ((cursor + n) % l.length) p ≤ ahead L (cursor % l.length) p := by
  have hlt : cursor % l.length < l.length := Nat.mod_lt _ (by omega)
  rw [← Nat.mod_add_mod]
  rw [gap] at hn
  generalize cursor % l.length = e at hn hlt
  rw [ahead, ahead]
  rcases Nat.lt_or_ge p e with hpe | hpe
  · rw [Nat.mod_eq_of_lt (by omega : p + (l.length - e) < l.length)] at hn
    rw [if_neg (by omega : ¬ e ≤ p)]
    rcases Nat.lt_or_ge (e + n) l.length with h | h
    · rw [Nat.mod_eq_of_lt h, if_neg (by omega)]
      omega
    · -- the batch wraps round the end
      rw [Nat.mod_eq_sub_mod h, Nat.mod_eq_of_lt (by omega), if_pos (by omega)]
      omega
  · rw [show p + (l.length - e) = p - e + l.length by omega, Nat.add_mod_right,
      Nat.mod_eq_of_lt (by omega : p - e < l.length)] at hn
    rw [Nat.mod_eq_of_lt (by omega : e + n < l.length), if_pos (by omega), if_pos hpe]
    omega

variable [DecidableEq C]

/-! ### The sender among the other goroutines -/

/-- The registry and the cursor the last batch returned. -/
structure Walker (C : Type) where
  reg : Registry C
  cursor : ℕ

/-- A call by anyone: the dialers add, `OnClose` removes, `sendLoop` takes a batch. -/
inductive WalkAct (C : Type) where
  | add (c : C)
  | remove (c : C)
  | batch (n : ℕ)
  deriving DecidableEq

/-- The sender before anything happened. -/
def Walker.start (capacity : ℕ) : Walker C := ⟨newRegistry capacity, 0⟩

/-- One call; each batch starts at the cursor the previous one returned. -/
def Walker.step [Inhabited C] (w : Walker C) : WalkAct C → Option (Walker C)
  | .add c => some { w with reg := (w.reg.add c).2 }
  | .remove c => (w.reg.remove c).map fun out => { w with reg := out.2 }
  | .batch n => (w.reg.batch [] w.cursor n).map fun out => { w with cursor := out.2 }

/-- The connections a call hands to the sender. -/
def Walker.returned (w : Walker C) : WalkAct C → List C
  | .batch n => ((w.reg.batch [] w.cursor n).map Prod.fst).getD []
  | _ => []

/-- The removals after which the sender may reach `x` later than before. -/
def Walker.setsBack (x : C) (w : Walker C) : WalkAct C → Bool
  | .remove c =>
    match w.reg.slot.lookup c with
    | none => false
    | some i => w.reg.len ≤ w.cursor ||
        (i < w.cursor && w.reg.conns[w.reg.len - 1]? = some x)
  | _ => false

/-- The largest size of the registry in the states of a run. -/
def largest [Inhabited C] (w : Walker C) : List (WalkAct C) → ℕ
  | [] => w.reg.len
  | a :: as => max w.reg.len ((w.step a).elim 0 fun u => largest u as)

/-- What a stretch of calls did: the connections its batches returned, and the setbacks of the
connection that is watched. -/
structure Stretch (C : Type) where
  served : List C
  setbacks : ℕ
  deriving DecidableEq

/-- The monitor of `x`. -/
def watch (x : C) (m : Stretch C) (w : Walker C) (a : WalkAct C) : Stretch C :=
  ⟨m.served ++ w.returned a, m.setbacks + if w.setsBack x a then 1 else 0⟩

/-! ### One call

`Owed` is the invariant. While `x` has not been returned, what was sent and what is still ahead
of `x` fit into one round for each setback and one more; with the cursor past the end nothing is
known about the distance, and what was sent fits into a round for each setback alone. -/

/-- What the sender may have sent without reaching `x`. -/
structure Owed (L : ℕ) (x : C) (r : Registry C) (cursor : ℕ) (served : List C) (setbacks : ℕ) :
    Prop where
  inv : r.Inv
  bound : ∃ p, r.conns[p]? = some x ∧ (x ∈ served ∨
    (cursor ≤ r.len → served.length + ahead L cursor p ≤ (setbacks + 1) * (L - 1)) ∧
    (r.len < cursor → served.length ≤ setbacks * (L - 1)))

variable {L cursor k : ℕ} {x c : C} {r r' : Registry C} {served : List C}

/-- At the start of a stretch nothing has been sent. -/
theorem Owed.start (h : r.Inv) (hx : x ∈ r.conns) (hL : r.len ≤ L) : Owed L x r cursor [] 0 := by
  obtain ⟨p, hp⟩ := List.mem_iff_getElem?.mp hx
  have hahead := ahead_lt (lt_of_getElem? hp hL) cursor
  refine ⟨h, p, hp, Or.inr ⟨?_, fun _ => Nat.zero_le _⟩⟩
  intro _
  rw [List.length_nil]
  omega

theorem Owed.add (h : Owed L x r cursor served k) (hL : r.len ≤ L) (c : C) :
    Owed L x (r.add c).2 cursor served k := by
  obtain ⟨hinv, p, hp, hbound⟩ := h
  refine ⟨hinv.add c, p, ?_, hbound.imp_right ?_⟩
  · by_cases hcl : c ∈ r.closed
    · rwa [Registry.add_of_mem_closed hcl]
    · by_cases hc : c ∈ r.conns
      · rwa [hinv.add_of_mem hc]
      · rw [hinv.add_of_not_mem hc hcl]
        exact (List.getElem?_append_left (List.getElem?_eq_some_iff.mp hp).1).trans hp
  · rintro ⟨hin, hpast⟩
    have hlen : r.len ≤ (r.add c).2.len := by
      by_cases hcl : c ∈ r.closed
      · simp [Registry.add_of_mem_closed hcl, Registry.len]
      · by_cases hc : c ∈ r.conns
        · simp [hinv.add_of_mem hc]
        · simp [hinv.add_of_not_mem hc hcl, Registry.len]
    refine ⟨?_, fun hlt => hpast (Nat.lt_of_le_of_lt hlen hlt)⟩
    intro _
    rcases Nat.lt_or_ge r.len cursor with hc | hc
    · -- the list has grown up to a cursor that was past its end
      have hahead := ahead_lt (lt_of_getElem? hp hL) cursor
      have hsent := hpast hc
      rw [Nat.succ_mul]
      omega
    · exact hin hc

/-- A setback pays for one more round, wherever it leaves `x`. -/
theorem Owed.setback (h : Owed L x r cursor served k) (hinv : r'.Inv) (hx : x ∈ r'.conns)
    (hL : r'.len ≤ L) : Owed L x r' cursor served (k + 1) := by
  obtain ⟨-, q, -, hbound⟩ := h
  obtain ⟨p, hp⟩ := List.mem_iff_getElem?.mp hx
  refine ⟨hinv, p, hp, hbound.imp_right ?_⟩
  rintro ⟨hin, hpast⟩
  have hsent : served.length ≤ (k + 1) * (L - 1) := by
    rcases Nat.lt_or_ge r.len cursor with hc | hc
    · exact (hpast hc).trans (Nat.mul_le_mul_right _ (Nat.le_succ _))
    · exact (Nat.le_add_right _ _).trans (hin hc)
  have hahead := ahead_lt (lt_of_getElem? hp hL) cursor
  refine ⟨?_, fun _ => hsent⟩
  intro _
  rw [Nat.succ_mul (k + 1)]
  omega

theorem Owed.batch (h : Owed L x r cursor served k) (hL : r.len ≤ L) {n : ℕ} {out : List C × ℕ}
    (hout : r.batch [] cursor n = some out) : Owed L x r out.2 (served ++ out.1) k := by
  obtain ⟨hinv, p, hp, hbound⟩ := h
  have hlt : p < r.len := (List.getElem?_eq_some_iff.mp hp).1
  have hpos : 0 < r.len := by omega
  rw [Registry.batch_eq hpos] at hout
  obtain rfl := Option.some.inj hout
  dsimp only
  refine ⟨hinv, p, hp, ?_⟩
  rcases hbound with hserved | ⟨hin, hpast⟩
  · exact Or.inl (List.mem_append_left _ hserved)
  by_cases hx : x ∈ walk r.conns cursor (min n r.len)
  · exact Or.inl (List.mem_append_right _ hx)
  rw [mem_walk_iff hinv.nodup hp, not_lt] at hx
  have hstep : min n r.len + ahead L ((cursor + min n r.len) % r.len) p ≤
      ahead L (cursor % r.len) p := ahead_after_batch hlt hL hx
  have hnext : (cursor + min n r.len) % r.len < r.len := Nat.mod_lt _ hpos
  refine Or.inr ⟨?_, fun hc => absurd hnext (by omega)⟩
  intro _
  rw [List.length_append, length_walk hpos]
  rcases Nat.lt_or_ge r.len cursor with hc | hc
  · have hsent := hpast hc
    have hahead := ahead_lt (lt_of_getElem? hp hL) (cursor % r.len)
    rw [Nat.succ_mul]
    omega
  · have hsent := hin hc
    have hmod := ahead_mod_le (L := L) hlt hc
    omega

variable [Inhabited C]

theorem Owed.remove (h : Owed L x r cursor served k) (hL : r.len ≤ L) (hcx : c ≠ x) {b : Bool}
    (hr : r.remove c = some (b, r')) : Owed L x r' cursor served
      (k + if (Walker.mk r cursor).setsBack x (.remove c) then 1 else 0) := by
  have hinv := h.inv
  have hinv' := hinv.remove hr
  obtain ⟨p, hp, hbound⟩ := h.bound
  obtain ⟨hc, -, rfl⟩ | ⟨i, moved, hi, hmoved, -, rfl⟩ := hinv.remove_cases hr
  · have hback : (Walker.mk r cursor).setsBack x (.remove c) = false := by
      simp [Walker.setsBack, (hinv.lookup_eq_none_iff c).mpr hc]
    rw [hback]
    exact ⟨hinv', p, hp, hbound⟩
  · have hs := (hinv.slot_iff c i).mpr hi
    have hilt := (List.getElem?_eq_some_iff.mp hi).1
    have hlen := Registry.length_fillHole r.conns i moved
    -- where `x` is now
    have hp' : (Registry.fillHole r.conns i moved)[if x = moved then i else p]? = some x := by
      rw [hinv.getElem?_fillHole_iff hi hmoved]
      refine ⟨hcx.symm, ?_⟩
      split_ifs with hx
      · rfl
      · exact hp
    by_cases hback : (Walker.mk r cursor).setsBack x (.remove c) = true
    · rw [if_pos hback]
      refine h.setback hinv' (List.mem_of_getElem? hp') ?_
      simp only [Registry.len] at hL ⊢
      omega
    · rw [if_neg hback]
      simp only [Walker.setsBack, hs, Bool.or_eq_true, decide_eq_true_eq, Bool.and_eq_true,
        not_or, not_and, not_le] at hback
      obtain ⟨hc, hlast⟩ := hback
      refine ⟨hinv', _, hp', hbound.imp_right ?_⟩
      rintro ⟨hin, hpast⟩
      constructor
      · intro _
        refine (Nat.add_le_add_left ?_ _).trans (hin (by omega))
        split_ifs with hx
        · -- `x` was the last connection and the hole is not below the cursor
          subst hx
          have hic : cursor ≤ i := by
            by_contra hlt
            exact hlast (by omega) hmoved
          have hpe : p = r.conns.length - 1 := Option.some.inj
            (((hinv.slot_iff _ _).mpr hp).symm.trans ((hinv.slot_iff _ _).mpr hmoved))
          rw [ahead, ahead, if_pos hic, if_pos (by omega)]
          omega
        · exact Nat.le_refl _
      · intro hlt
        exfalso
        simp only [Registry.len] at hlt hc
        omega

/-- **One call** keeps what is owed, as long as `x` itself is not removed. -/
theorem Owed.step {w w' : Walker C} {m : Stretch C} {a : WalkAct C}
    (h : Owed L x w.reg w.cursor m.served m.setbacks) (hL : w.reg.len ≤ L) (ha : a ≠ .remove x)
    (hw : w.step a = some w') : Owed L x w'.reg w'.cursor (watch x m w a).served
      (watch x m w a).setbacks := by
  cases a with
  | add c =>
    obtain rfl := Option.some.inj hw
    simpa [watch, Walker.returned, Walker.setsBack] using h.add hL c
  | remove c =>
    obtain ⟨⟨b, r'⟩, hr, rfl⟩ := Option.map_eq_some_iff.mp hw
    simpa [watch, Walker.returned] using h.remove hL (fun hc => ha (hc ▸ rfl)) hr
  | batch n =>
    obtain ⟨out, hout, rfl⟩ := Option.map_eq_some_iff.mp hw
    simpa [watch, Walker.returned, Walker.setsBack, hout] using h.batch hL hout

/-! ### Stretches -/

theorem Owed.run {w w' : Walker C} {m m' : Stretch C} {seg : List (WalkAct C)}
    (h : Owed L x w.reg w.cursor m.served m.setbacks) (hL : largest w seg ≤ L)
    (hseg : .remove x ∉ seg)
    (hrun : run (withMonitor Walker.step (watch x)) (w, m) seg = some (w', m')) :
    Owed L x w'.reg w'.cursor m'.served m'.setbacks := by
  induction seg generalizing w m with
  | nil =>
    obtain ⟨rfl, rfl⟩ := Prod.mk.inj (Option.some.inj hrun)
    exact h
  | cons a seg ih =>
    obtain ⟨⟨u, mu⟩, hstep, hrest⟩ := run_cons_eq_some.mp hrun
    obtain ⟨hu, rfl⟩ := withMonitor_eq_some.mp hstep
    rw [List.mem_cons, not_or] at hseg
    simp only [largest, hu, Option.elim_some] at hL
    exact ih (h.step ((Nat.le_max_left _ _).trans hL) (fun ha => hseg.1 ha.symm) hu)
      ((Nat.le_max_right _ _).trans hL) hseg.2 hrest

theorem Walker.inv_of_run {capacity : ℕ} {w : Walker C} {before : List (WalkAct C)}
    (h : run Walker.step (start capacity) before = some w) : w.reg.Inv := by
  refine run_invariant (P := fun w => w.reg.Inv) ?_ (Registry.inv_newRegistry capacity) h
  intro w a w' hw hstep
  cases a with
  | add c =>
    obtain rfl := Option.some.inj hstep
    exact hw.add c
  | remove c =>
    obtain ⟨⟨b, r'⟩, hr, rfl⟩ := Option.map_eq_some_iff.mp hstep
    exact hw.remove hr
  | batch n =>
    obtain ⟨out, -, rfl⟩ := Option.map_eq_some_iff.mp hstep
    exact hw

/-- **What can be sent without reaching `x`.** One round less one connection for each setback,
and one more. -/
theorem length_served_le {capacity : ℕ} {before seg : List (WalkAct C)} {w w' : Walker C}
    {m : Stretch C} (hbefore : run Walker.step (Walker.start capacity) before = some w)
    (hx : x ∈ w.reg.conns) (hseg : .remove x ∉ seg)
    (hrun : run (withMonitor Walker.step (watch x)) (w, ⟨[], 0⟩) seg = some (w', m))
    (hmiss : x ∉ m.served) : m.served.length ≤ (m.setbacks + 1) * (largest w seg - 1) := by
  have hlen : w.reg.len ≤ largest w seg := by
    cases seg with
    | nil => exact Nat.le_refl _
    | cons a seg => exact Nat.le_max_left _ _
  have howed : Owed (largest w seg) x w.reg w.cursor [] 0 :=
    Owed.start (Walker.inv_of_run hbefore) hx hlen
  obtain ⟨-, p, -, hbound⟩ := howed.run (m := ⟨[], 0⟩) (Nat.le_refl _) hseg hrun
  obtain ⟨hin, hpast⟩ := hbound.resolve_left hmiss
  rcases Nat.lt_or_ge w'.reg.len w'.cursor with hc | hc
  · exact (hpast hc).trans (Nat.mul_le_mul_right _ (Nat.le_succ _))
  · exact (Nat.le_add_right _ _).trans (hin hc)

/-- **One setback is forgiven.** A connection that stays stored throughout a stretch whose
batches together return at least twice the largest registry is among them, unless it was set
back more than once. -/
theorem mem_served_of_setbacks_le_one {capacity : ℕ} {before seg : List (WalkAct C)}
    {w w' : Walker C} {m : Stretch C}
    (hbefore : run Walker.step (Walker.start capacity) before = some w)
    (hx : x ∈ w.reg.conns) (hseg : .remove x ∉ seg)
    (hrun : run (withMonitor Walker.step (watch x)) (w, ⟨[], 0⟩) seg = some (w', m))
    (hserved : 2 * largest w seg ≤ m.served.length) (hback : m.setbacks ≤ 1) : x ∈ m.served := by
  by_contra hmiss
  have hbound := length_served_le hbefore hx hseg hrun hmiss
  have hround : (m.setbacks + 1) * (largest w seg - 1) ≤ 2 * (largest w seg - 1) :=
    Nat.mul_le_mul_right _ (by omega)
  have hlarge : 0 < largest w seg := by
    have hpos : 0 < w.reg.len := List.length_pos_of_mem hx
    cases seg with
    | nil => exact hpos
    | cons a seg => exact Nat.lt_of_lt_of_le hpos (Nat.le_max_left _ _)
  omega

/-- Three connections, one setback: the sender comes back to the connection it lost. -/
theorem mem_served_after_one_setback :
    3 ∈ (Stretch.mk [1, 2, 3, 2, 3, 2] 1 : Stretch ℕ).served :=
  @mem_served_of_setbacks_le_one ℕ _ 3 _ 3 [.add 1, .add 2, .add 3]
    [.batch 2, .remove 1, .batch 2, .batch 2] _ _ _ rfl (by decide) (by decide) rfl (by decide)
    (by decide)

/-- **Passed over.** Five connections and three removals, each of which moves connection `5`
behind the cursor just before its turn: ten connections are returned and `5` is not among
them. -/
theorem batch_passes_over : ¬ ∀ (capacity : ℕ) (before seg : List (WalkAct ℕ)) (x : ℕ)
    (w w' : Walker ℕ) (m : Stretch ℕ),
    run Walker.step (Walker.start capacity) before = some w → x ∈ w.reg.conns → .remove x ∉ seg →
    run (withMonitor Walker.step (watch x)) (w, ⟨[], 0⟩) seg = some (w', m) →
    2 * largest w seg ≤ m.served.length → x ∈ m.served := by
  intro h
  have hmem := h 5 [.add 1, .add 2, .add 3, .add 4, .add 5]
    [.batch 4, .remove 4, .batch 3, .remove 3, .batch 2, .remove 2, .batch 1] 5 _ _ _
    rfl (by decide) (by decide) rfl (by decide)
  exact absurd hmem (by decide)

end Millionws
