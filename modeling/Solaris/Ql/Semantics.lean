import Solaris.Ql.Builder

/-!
# What a filter means, and what each step of `Build` covers

A filter holds when one of its OR branches does, a branch when all of its conjuncts do, and a
conjunct when its condition or parenthesised expression does, flipped by `NOT`
(`Expression.eval`). The truth of each condition comes from a valuation `ρ`. For the target
parameter the valuation must be `Consistent` with its value `v`: a comparison of the target with
a constant under an operation of `OpsAll` holds exactly when `v` compares so with the constant's
value. Every other condition (on another parameter, against a parameter that is not a constant,
or under another operation) may take either truth.

With a lawful basis, each step of the builder covers what it should: `union` covers what its
input covers, `intersect` what every group covers, and the intervals of a comparison of the
target with a constant what the comparison accepts.

## Key results

- `covers_union`: `union` keeps the points covered.
- `covers_intersect`: `intersect` covers the points every group covers.
- `covers_getIntervals`: `getIntervals op t` covers the `v` with `v op t`.
- `buildCond_eq_condIntervals`: what `buildCond` returns when it accepts a condition.
- `covers_condIntervals`: those intervals cover the `v` that make a pinned condition true.
-/

namespace Solaris

variable {T : Type}

/-! ## Filters -/

mutual
/-- Whether an expression holds under the valuation `ρ` of its conditions. -/
def Expression.eval (ρ : Condition → Bool) : Expression → Bool
  | .mk ors => OrCondition.evalAny ρ ors

/-- Whether one of the OR branches holds. -/
def OrCondition.evalAny (ρ : Condition → Bool) : List OrCondition → Bool
  | [] => false
  | or :: ors => or.eval ρ || OrCondition.evalAny ρ ors

/-- Whether an OR branch holds. -/
def OrCondition.eval (ρ : Condition → Bool) : OrCondition → Bool
  | .mk ands => XCondition.evalAll ρ ands

/-- Whether all of the AND conjuncts hold. -/
def XCondition.evalAll (ρ : Condition → Bool) : List XCondition → Bool
  | [] => true
  | and :: ands => and.eval ρ && XCondition.evalAll ρ ands

/-- Whether a conjunct holds. -/
def XCondition.eval (ρ : Condition → Bool) : XCondition → Bool
  | .expr not e => if not then !e.eval ρ else e.eval ρ
  | .cond not c => if not then !ρ c else ρ c
end

/-- The point a condition compares the builder's target with, as `buildCond` reads it: when its
first parameter is the target and its second a constant, both in the dialect, the constant's
value. -/
def ParamIntervalBuilder.targetConst (ib : ParamIntervalBuilder T) (c : Condition) : Option T :=
  if c.firstParam.name = ib.param then
    match ib.dialect c.firstParam.id, c.secondParam with
    | some dp1, some p2 =>
      match ib.dialect p2.id, p2.const with
      | some dp2, some _ => (ib.value dp1 dp2 p2).toOption
      | _, _ => none
    | _, _ => none
  else none

/-- Whether a condition compares the target with a constant under an operation the builder
accepts and that is one of `OpsAll`: the conditions from which it builds intervals. -/
def ParamIntervalBuilder.pinned (ib : ParamIntervalBuilder T) (c : Condition) : Bool :=
  (ib.targetConst c).isSome && decide (c.op ∈ ib.ops) && decide (c.op ∈ opsAll)

section Order

variable [LinearOrder T]

/-- Whether `v op t` holds, for an operation of `OpsAll`. -/
def compareOp (op : String) (v t : T) : Bool :=
  match op with
  | "<" => decide (v < t)
  | ">" => decide (t < v)
  | "<=" => decide (v ≤ t)
  | ">=" => decide (t ≤ v)
  | "=" => decide (v = t)
  | "!=" => decide (v ≠ t)
  | _ => false

/-- A valuation of the conditions in which the target has the value `v`. -/
def ParamIntervalBuilder.Consistent (ib : ParamIntervalBuilder T) (v : T)
    (ρ : Condition → Bool) : Prop :=
  ∀ c t, ib.targetConst c = some t → c.op ∈ opsAll → ρ c = compareOp c.op v t

/-- The valuation in which the target has the value `v` and every other condition `c` the truth
`other c`. -/
def ParamIntervalBuilder.valuation (ib : ParamIntervalBuilder T) (v : T)
    (other : Condition → Bool) (c : Condition) : Bool :=
  match ib.targetConst c with
  | some t => if c.op ∈ opsAll then compareOp c.op v t else other c
  | none => other c

theorem ParamIntervalBuilder.consistent_valuation (ib : ParamIntervalBuilder T) (v : T)
    (other : Condition → Bool) : ib.Consistent v (ib.valuation v other) := by
  intro c t hc hop
  simp only [valuation, hc, hop, if_true]

end Order

/-! ## Conditions -/

/-- What `buildCond` returns for a condition it accepts: the intervals of the constant's value
under the operation when the condition compares the target with a constant under an accepted
operation, and none otherwise. -/
def ParamIntervalBuilder.condIntervals (ib : ParamIntervalBuilder T) (c : Condition) :
    List (Interval T) :=
  match ib.targetConst c with
  | some t => if c.op ∈ ib.ops then getIntervals ib.basis c.op t else []
  | none => []

/-- A guard that returns an error, passed. -/
theorem ok_of_ite_error {ε α : Type} {c : Prop} [Decidable c] {e : ε} {x : Except ε α} {a : α}
    (h : (if c then .error e else x) = .ok a) : x = .ok a := by
  by_cases hc : c
  · rw [if_pos hc] at h; cases h
  · rwa [if_neg hc] at h

theorem ParamIntervalBuilder.buildCond_eq_condIntervals (ib : ParamIntervalBuilder T)
    {c : Condition} {L : List (Interval T)} (h : ib.buildCond c = .ok L) : L = ib.condIntervals c := by
  rcases c with ⟨p1, op, p2⟩
  unfold buildCond at h
  dsimp only at h
  simp only [condIntervals, targetConst]
  cases hd1 : ib.dialect p1.id with
  | none => rw [hd1] at h; cases h
  | some dp1 =>
    rw [hd1] at h
    replace h := ok_of_ite_error (ok_of_ite_error h)
    by_cases hname : p1.name = ib.param
    swap
    · rw [if_pos hname] at h
      rw [if_neg hname]
      exact (Except.ok.inj h).symm
    rw [if_neg (not_not.mpr hname)] at h
    rw [if_pos hname]
    rcases p2 with _ | p2
    · cases h
    dsimp only at h ⊢
    cases hd2 : ib.dialect p2.id with
    | none => rw [hd2] at h; cases h
    | some dp2 =>
      rw [hd2] at h
      replace h := ok_of_ite_error (ok_of_ite_error h)
      cases hk : p2.const with
      | none => rw [hk] at h; exact (Except.ok.inj h).symm
      | some k =>
        rw [hk, Option.isNone_some, if_neg Bool.false_ne_true] at h
        by_cases hop : op ∈ ib.ops
        swap
        · rw [if_pos hop] at h
          cases Except.ok.inj h
          split <;> simp only [hop, if_false]
        rw [if_neg (not_not.mpr hop)] at h
        replace h := ok_of_ite_error (ok_of_ite_error h)
        cases hv : ib.value dp1 dp2 p2 with
        | error e => rw [hv] at h; cases h
        | ok t =>
          rw [hv] at h
          simp only [Except.toOption, hv, hop, if_true]
          exact (Except.ok.inj h).symm

theorem getIntervals_of_not_mem (b : Basis T) {op : String} (hop : op ∉ opsAll) (t : T) :
    getIntervals b op t = [] := by
  simp only [opsAll, List.mem_cons, List.mem_singleton, List.not_mem_nil, or_false, not_or] at hop
  rw [getIntervals.eq_def]
  split <;> simp_all

theorem ParamIntervalBuilder.condIntervals_of_not_pinned (ib : ParamIntervalBuilder T)
    {c : Condition} (hc : ib.pinned c = false) : ib.condIntervals c = [] := by
  unfold condIntervals
  unfold pinned at hc
  cases ht : ib.targetConst c with
  | none => rfl
  | some t =>
    simp only [ht, Option.isSome_some, Bool.true_and, Bool.and_eq_false_iff, decide_eq_false_iff_not] at hc ⊢
    rcases hc with hop | hop
    · simp only [hop, if_false]
    · split_ifs
      · exact getIntervals_of_not_mem _ hop t
      · rfl

@[simp] theorem ParamIntervalBuilder.negateIf_false (ib : ParamIntervalBuilder T)
    (res : List (Interval T)) : ib.negateIf false res = res := rfl

theorem ParamIntervalBuilder.negateIf_nil (ib : ParamIntervalBuilder T) (not : Bool) :
    ib.negateIf not [] = [] := by
  cases not <;> rfl

theorem ParamIntervalBuilder.condIntervals_of_pinned (ib : ParamIntervalBuilder T)
    {c : Condition} (hc : ib.pinned c = true) :
    ∃ t, ib.condIntervals c = getIntervals ib.basis c.op t ∧ c.op ∈ opsAll := by
  simp only [pinned, Bool.and_eq_true, Option.isSome_iff_exists, decide_eq_true_eq] at hc
  obtain ⟨⟨⟨t, ht⟩, hops⟩, hall⟩ := hc
  exact ⟨t, by simp only [condIntervals, ht, hops, if_true], hall⟩

/-- Every operation of `OpsAll` but `!=` gives one interval. -/
theorem getIntervals_eq_singleton (b : Basis T) {op : String} (hop : op ∈ opsAll) (hne : op ≠ "!=")
    (t : T) : ∃ i, getIntervals b op t = [i] := by
  simp only [opsAll, List.mem_cons, List.mem_singleton, List.not_mem_nil, or_false] at hop
  rcases hop with rfl | rfl | rfl | rfl | rfl | rfl
  all_goals first | exact absurd rfl hne | exact ⟨_, rfl⟩

/-! ## What each step covers -/

section Lawful

variable [LinearOrder T] {ib : ParamIntervalBuilder T} (hb : ib.basis.Lawful)
include hb

theorem covers_mergeSorted (prev : Interval T) (rest : List (Interval T)) (v : T) :
    Covers (mergeSorted ib.basis prev rest) v ↔ prev.Mem v ∨ Covers rest v := by
  induction rest generalizing prev with
  | nil => simp [mergeSorted]
  | cons curr rest ih =>
    unfold mergeSorted
    split
    · rename_i u hu
      rw [ih, hb.union prev curr u hu, covers_cons, or_assoc]
    · rw [covers_cons, ih, covers_cons]

theorem ParamIntervalBuilder.covers_union (is : List (Interval T)) (v : T) :
    Covers (ib.union is) v ↔ Covers is v := by
  unfold ParamIntervalBuilder.union
  have hp := List.perm_insertionSort (fun i j : Interval T => ib.basis.startsBefore i j = true) is
  generalize is.insertionSort (fun i j : Interval T => ib.basis.startsBefore i j = true) = s at hp ⊢
  rw [← covers_of_perm hp]
  cases s with
  | nil => rfl
  | cons prev rest => rw [covers_mergeSorted hb, covers_cons]

/-- One step of `intersect`: the intersections of every interval of `g` with every interval of
`h` cover the points both cover. -/
theorem covers_intersect_step (g h : List (Interval T)) (v : T) :
    Covers (g.flatMap fun p => h.filterMap (ib.basis.intersect p)) v ↔ Covers g v ∧ Covers h v := by
  rw [covers_flatMap]
  simp only [Covers, List.mem_filterMap]
  constructor
  · rintro ⟨p, hp, k, ⟨q, hq, hk⟩, hv⟩
    have hpq := (hb.intersect_some p q k hk v).mp hv
    exact ⟨⟨p, hp, hpq.1⟩, ⟨q, hq, hpq.2⟩⟩
  · rintro ⟨⟨p, hp, hpv⟩, ⟨q, hq, hqv⟩⟩
    cases hk : ib.basis.intersect p q with
    | none => exact absurd ⟨hpv, hqv⟩ (hb.intersect_none p q hk v)
    | some k => exact ⟨p, hp, k, ⟨q, hq, hk⟩, (hb.intersect_some p q k hk v).mpr ⟨hpv, hqv⟩⟩

theorem ParamIntervalBuilder.covers_intersect (g : List (Interval T)) (gs : List (List (Interval T)))
    (v : T) : Covers (ib.intersect (g :: gs)) v ↔ ∀ h ∈ g :: gs, Covers h v := by
  simp only [ParamIntervalBuilder.intersect]
  induction gs generalizing g with
  | nil => simp
  | cons h gs ih =>
    rw [List.foldl_cons, ih, List.forall_mem_cons, covers_intersect_step hb, List.forall_mem_cons,
      List.forall_mem_cons, and_assoc]

theorem covers_getIntervals {op : String} (hop : op ∈ opsAll) (t : T) {v : T}
    (hv : ib.basis.InDomain v) :
    Covers (getIntervals ib.basis op t) v ↔ compareOp op v t = true := by
  obtain ⟨hmin, hmax⟩ := hv
  simp only [opsAll, List.mem_cons, List.mem_singleton, List.not_mem_nil, or_false] at hop
  rcases hop with rfl | rfl | rfl | rfl | rfl | rfl <;>
    simp only [getIntervals, compareOp, covers_cons, not_covers_nil, or_false, hb.openR, hb.openL,
      hb.closed, hb.negate _ _ ⟨hmin, hmax⟩, decide_eq_true_eq, and_iff_right hmin,
      and_iff_left hmax]
  · rw [le_antisymm_iff, and_comm]
  · rw [ne_eq, le_antisymm_iff, and_comm]

theorem ParamIntervalBuilder.covers_condIntervals {v : T} {ρ : Condition → Bool}
    (hρ : ib.Consistent v ρ) (hv : ib.basis.InDomain v) {c : Condition} (hc : ib.pinned c = true) :
    Covers (ib.condIntervals c) v ↔ ρ c = true := by
  simp only [pinned, Bool.and_eq_true, Option.isSome_iff_exists, decide_eq_true_eq] at hc
  obtain ⟨⟨⟨t, ht⟩, hops⟩, hall⟩ := hc
  simp only [condIntervals, ht, hops, if_true, covers_getIntervals hb hall t hv, hρ c t ht hall]

/-- A negated single interval covers the rest of the domain. -/
theorem ParamIntervalBuilder.covers_negateIf_single (i : Interval T) {v : T}
    (hv : ib.basis.InDomain v) : Covers (ib.negateIf true [i]) v ↔ ¬ i.Mem v := by
  simp only [negateIf, if_true, List.flatMap_cons, List.flatMap_nil, List.append_nil, hb.negate i v hv]

/-- A negated non-empty set covers, at least, every point of the domain it does not cover. -/
theorem ParamIntervalBuilder.covers_negateIf_of_not_covers {L : List (Interval T)} (hne : L ≠ [])
    {v : T} (hv : ib.basis.InDomain v) (h : ¬ Covers L v) : Covers (ib.negateIf true L) v := by
  obtain ⟨i, hi⟩ := List.exists_mem_of_ne_nil L hne
  simp only [negateIf, if_true, covers_flatMap]
  exact ⟨i, hi, (hb.negate i v hv).mpr fun hm => h ⟨i, hi, hm⟩⟩

end Lawful

end Solaris
