import Solaris.Ql.Semantics

/-!
# When `Build` is exact

On an expression whose conditions all compare the target with a constant under an accepted
operation, `Build` can lose exactness in two places. `buildXCond` negates a set interval by
interval, so `NOT` over two or more intervals gives the union of their complements, not the
complement of their union (`build_negation_not_complement`), and `NOT` over no interval gives
none. `buildOR` leaves out a conjunct that gives no interval, so an AND with an unsatisfiable
parenthesised conjunct keeps the values of the others.

Away from those two places `Build` is exact: when every OR branch has a conjunct, every
conjunct gives at least one interval and every `NOT` applies to exactly one, the points covered
are the values of the target in `[Min, Max]` for which the filter holds (`build_exact`).

## Key results

- `build_exact`: on such an expression, `Build` covers exactly the values that satisfy it.
- `build_negation_not_complement`: `NOT (t < 3 OR t > 5)` builds `[0, 100]`, which covers `0`.
-/

namespace Solaris

variable {T : Type}

/-! ## Expressions `Build` keeps exact -/

/-- Whether a result of `Build` is exactly one interval. -/
def isSingle : Except Error (List (Interval T)) → Bool
  | .ok [_] => true
  | _ => false

theorem eq_singleton_of_isSingle {r : Except Error (List (Interval T))} {L : List (Interval T)}
    (hs : isSingle r = true) (hr : r = .ok L) : ∃ i, L = [i] := by
  subst hr
  match L, hs with
  | [i], _ => exact ⟨i, rfl⟩

/-- Whether `buildXCond` accepts a conjunct and gives it at least one interval. -/
def ParamIntervalBuilder.buildsSome (ib : ParamIntervalBuilder T) (x : XCondition) : Bool :=
  match ib.buildXCond x with
  | .ok (_ :: _) => true
  | _ => false

theorem ParamIntervalBuilder.ne_nil_of_buildsSome (ib : ParamIntervalBuilder T) {x : XCondition}
    {g : List (Interval T)} (hs : ib.buildsSome x = true) (hg : ib.buildXCond x = .ok g) : g ≠ [] := by
  rintro rfl
  simp [buildsSome, hg] at hs

mutual
/-- Whether an expression pins the target in every condition, every OR branch of it has a
conjunct, every conjunct gives an interval and every `NOT` applies to exactly one. -/
def ParamIntervalBuilder.exact (ib : ParamIntervalBuilder T) : Expression → Bool
  | .mk ors => ib.exactOrs ors

/-- Whether every OR branch of a list is exact. -/
def ParamIntervalBuilder.exactOrs (ib : ParamIntervalBuilder T) : List OrCondition → Bool
  | [] => true
  | or :: ors => ib.exactOR or && ib.exactOrs ors

/-- Whether an OR branch has a conjunct and only exact ones that give intervals. -/
def ParamIntervalBuilder.exactOR (ib : ParamIntervalBuilder T) : OrCondition → Bool
  | .mk ands => !ands.isEmpty && ib.exactAnds ands

/-- Whether every conjunct of a list is exact and gives an interval. -/
def ParamIntervalBuilder.exactAnds (ib : ParamIntervalBuilder T) : List XCondition → Bool
  | [] => true
  | and :: ands => ib.buildsSome and && ib.exactXCond and && ib.exactAnds ands

/-- Whether a conjunct is a pinned condition or an exact expression, negated only when it gives
exactly one interval. -/
def ParamIntervalBuilder.exactXCond (ib : ParamIntervalBuilder T) : XCondition → Bool
  | .expr not e => (!not || isSingle (ib.build e)) && ib.exact e
  | .cond not c => ib.pinned c && (!not || isSingle (ib.buildCond c))
end

/-! ## One lemma per level -/

section Exact

variable [LinearOrder T] {ib : ParamIntervalBuilder T} (hb : ib.basis.Lawful) {v : T}
  {ρ : Condition → Bool} (hv : ib.basis.InDomain v) (hρ : ib.Consistent v ρ)
include hb hv

/-- A conjunct's `NOT`: negating exactly one interval covers the rest of the domain. -/
theorem covers_negateIf_iff {not b : Bool} {res : List (Interval T)}
    (hsingle : not = true → ∃ i, res = [i]) (h : Covers res v ↔ b = true) :
    Covers (ib.negateIf not res) v ↔ (if not then !b else b) = true := by
  cases not with
  | false => exact h
  | true =>
    obtain ⟨i, rfl⟩ := hsingle rfl
    rw [ib.covers_negateIf_single hb i hv, if_pos rfl, Bool.not_eq_true', ← Bool.not_eq_true, ← h,
      covers_cons, or_iff_left (not_covers_nil v)]

include hρ

theorem exactXCond_cond {not : Bool} {c : Condition} {g : List (Interval T)}
    (hx : ib.exactXCond (.cond not c) = true) (hg : ib.buildXCond (.cond not c) = .ok g) :
    Covers g v ↔ (XCondition.cond not c).eval ρ = true := by
  obtain ⟨res, hres, rfl⟩ := (ib.buildXCond_cond_eq_ok).mp hg
  simp only [ParamIntervalBuilder.exactXCond, Bool.and_eq_true, Bool.or_eq_true, Bool.not_eq_true'] at hx
  have hcov := ib.covers_condIntervals hb hρ hv hx.1
  rw [← ib.buildCond_eq_condIntervals hres] at hcov
  exact covers_negateIf_iff hb hv (fun hn => hx.2.resolve_left (by simp [hn]) |> (eq_singleton_of_isSingle · hres)) hcov

omit hρ in
theorem exactXCond_expr {not : Bool} {e : Expression} {g : List (Interval T)}
    (ih : ∀ L, ib.exact e = true → ib.build e = .ok L → (Covers L v ↔ e.eval ρ = true))
    (hx : ib.exactXCond (.expr not e) = true) (hg : ib.buildXCond (.expr not e) = .ok g) :
    Covers g v ↔ (XCondition.expr not e).eval ρ = true := by
  obtain ⟨res, hres, rfl⟩ := (ib.buildXCond_expr_eq_ok).mp hg
  simp only [ParamIntervalBuilder.exactXCond, Bool.and_eq_true, Bool.or_eq_true, Bool.not_eq_true'] at hx
  exact covers_negateIf_iff hb hv (fun hn => hx.1.resolve_left (by simp [hn]) |> (eq_singleton_of_isSingle · hres))
    (ih res hx.2 hres)

/-! ## Exactness by induction on the expression -/

set_option linter.unusedSectionVars false in
mutual
theorem build_exact : ∀ (e : Expression) (L : List (Interval T)),
    ib.exact e = true → ib.build e = .ok L → (Covers L v ↔ e.eval ρ = true)
  | .mk ors, L, hx, hL => by
    obtain ⟨res, hres, rfl⟩ := (ib.build_eq_ok).mp hL
    rw [ib.covers_union hb res v]
    exact buildOrs_exact ors res hx hres

theorem buildOrs_exact : ∀ (ors : List OrCondition) (L : List (Interval T)),
    ib.exactOrs ors = true → ib.buildOrs ors = .ok L → (Covers L v ↔ OrCondition.evalAny ρ ors = true)
  | [], L, _, hL => by
    rw [(ib.buildOrs_nil_eq_ok).mp hL]
    simp [OrCondition.evalAny]
  | or :: ors, L, hx, hL => by
    obtain ⟨tt, res, htt, hres, rfl⟩ := (ib.buildOrs_cons_eq_ok).mp hL
    simp only [ParamIntervalBuilder.exactOrs, Bool.and_eq_true] at hx
    rw [covers_append, buildOR_exact or tt hx.1 htt, buildOrs_exact ors res hx.2 hres,
      OrCondition.evalAny, Bool.or_eq_true]

theorem buildOR_exact : ∀ (or : OrCondition) (L : List (Interval T)),
    ib.exactOR or = true → ib.buildOR or = .ok L → (Covers L v ↔ or.eval ρ = true)
  | .mk ands, L, hx, hL => by
    obtain ⟨groups, hgroups, rfl⟩ := (ib.buildOR_eq_ok).mp hL
    simp only [ParamIntervalBuilder.exactOR, Bool.and_eq_true, Bool.not_eq_true',
      List.isEmpty_eq_false] at hx
    obtain ⟨hlen, hiff⟩ := buildAnds_exact ands groups hx.2 hgroups
    obtain ⟨g, gs, rfl⟩ := List.exists_cons_of_ne_nil
      (List.ne_nil_of_length_pos (hlen ▸ List.length_pos.mpr hx.1))
    rw [ib.covers_intersect hb g gs v, hiff, OrCondition.eval]

theorem buildAnds_exact : ∀ (ands : List XCondition) (groups : List (List (Interval T))),
    ib.exactAnds ands = true → ib.buildAnds ands = .ok groups →
      groups.length = ands.length ∧ ((∀ g ∈ groups, Covers g v) ↔ XCondition.evalAll ρ ands = true)
  | [], groups, _, hG => by
    rw [(ib.buildAnds_nil_eq_ok).mp hG]
    simp [XCondition.evalAll]
  | and :: ands, G, hx, hG => by
    obtain ⟨group, groups, hg, hgs, rfl⟩ := (ib.buildAnds_cons_eq_ok).mp hG
    simp only [ParamIntervalBuilder.exactAnds, Bool.and_eq_true] at hx
    obtain ⟨⟨hsome, hxc⟩, hxs⟩ := hx
    have hne : group.isEmpty = false := by simpa using ib.ne_nil_of_buildsSome hsome hg
    obtain ⟨hlen, hiff⟩ := buildAnds_exact ands groups hxs hgs
    simp only [hne, Bool.false_eq_true, if_false, List.length_cons, hlen, List.forall_mem_cons, hiff,
      buildXCond_exact and group hxc hg, XCondition.evalAll, Bool.and_eq_true, true_and]

theorem buildXCond_exact : ∀ (x : XCondition) (g : List (Interval T)),
    ib.exactXCond x = true → ib.buildXCond x = .ok g → (Covers g v ↔ x.eval ρ = true)
  | .expr _ e, _, hx, hg => exactXCond_expr hb hv (build_exact e) hx hg
  | .cond _ _, _, hx, hg => exactXCond_cond hb hv hρ hx hg
end

end Exact

/-- `build_exact` on `t >= 2 AND t < 3 OR t > 50` with the tests' builder, at `t = 60`. -/
theorem build_exact_two_branches :
    testBuilder.exact (.mk [
      .mk [.cond false ⟨⟨"t", "t", none⟩, ">=", some ⟨"const", "2", some (.number 2)⟩⟩,
        .cond false ⟨⟨"t", "t", none⟩, "<", some ⟨"const", "3", some (.number 3)⟩⟩],
      .mk [.cond false ⟨⟨"t", "t", none⟩, ">", some ⟨"const", "50", some (.number 50)⟩⟩]]) = true ∧
    testBuilder.build (.mk [
      .mk [.cond false ⟨⟨"t", "t", none⟩, ">=", some ⟨"const", "2", some (.number 2)⟩⟩,
        .cond false ⟨⟨"t", "t", none⟩, "<", some ⟨"const", "3", some (.number 3)⟩⟩],
      .mk [.cond false ⟨⟨"t", "t", none⟩, ">", some ⟨"const", "50", some (.number 50)⟩⟩]]) =
      .ok [⟨2, 3, false, true⟩, ⟨50, 100, true, false⟩] ∧
    (Covers [(⟨2, 3, false, true⟩ : Interval Nat), ⟨50, 100, true, false⟩] 60 ↔
      (Expression.mk [
        .mk [.cond false ⟨⟨"t", "t", none⟩, ">=", some ⟨"const", "2", some (.number 2)⟩⟩,
          .cond false ⟨⟨"t", "t", none⟩, "<", some ⟨"const", "3", some (.number 3)⟩⟩],
        .mk [.cond false ⟨⟨"t", "t", none⟩, ">", some ⟨"const", "50", some (.number 50)⟩⟩]]).eval
        (testBuilder.valuation 60 fun _ => true) = true) :=
  ⟨rfl, rfl, build_exact (natBasis_lawful 0 100) ⟨by decide, by decide⟩
    (testBuilder.consistent_valuation 60 _) _ _ rfl rfl⟩

/-- An AND with an unsatisfiable parenthesised conjunct, `t > 10 AND (t < 3 AND t > 5)`, keeps
the values of its other conjunct. -/
example : testBuilder.build (.mk [.mk [
    .cond false ⟨⟨"t", "t", none⟩, ">", some ⟨"const", "10", some (.number 10)⟩⟩,
    .expr false (.mk [.mk [.cond false ⟨⟨"t", "t", none⟩, "<", some ⟨"const", "3", some (.number 3)⟩⟩,
      .cond false ⟨⟨"t", "t", none⟩, ">", some ⟨"const", "5", some (.number 5)⟩⟩]])]]) =
    .ok [⟨10, 100, true, false⟩] := rfl

/-! ## Where `NOT` is not the complement -/

/-- `NOT (t < 3 OR t > 5)` with the tests' builder: both conditions compare `t` with a constant
under an accepted operation, and the filter holds for `3 ≤ t ≤ 5` only; but `Build` negates
`[0, 3)` and `(5, 100]` one at a time, and the union of `[3, 100]` and `[0, 5]` is `[0, 100]`,
which covers `0`. -/
theorem build_negation_not_complement :
    (natBasis 0 100).Lawful ∧
    testBuilder.pinned ⟨⟨"t", "t", none⟩, "<", some ⟨"const", "3", some (.number 3)⟩⟩ = true ∧
    testBuilder.pinned ⟨⟨"t", "t", none⟩, ">", some ⟨"const", "5", some (.number 5)⟩⟩ = true ∧
    testBuilder.build (.mk [.mk [.expr true (.mk [
      .mk [.cond false ⟨⟨"t", "t", none⟩, "<", some ⟨"const", "3", some (.number 3)⟩⟩],
      .mk [.cond false ⟨⟨"t", "t", none⟩, ">", some ⟨"const", "5", some (.number 5)⟩⟩]])]]) =
      .ok [⟨0, 101, false, true⟩] ∧
    testBuilder.basis.InDomain 0 ∧ testBuilder.Consistent 0 (testBuilder.valuation 0 fun _ => true) ∧
    Covers [(⟨0, 101, false, true⟩ : Interval Nat)] 0 ∧
    (Expression.mk [.mk [.expr true (.mk [
      .mk [.cond false ⟨⟨"t", "t", none⟩, "<", some ⟨"const", "3", some (.number 3)⟩⟩],
      .mk [.cond false ⟨⟨"t", "t", none⟩, ">", some ⟨"const", "5", some (.number 5)⟩⟩]])]]).eval
      (testBuilder.valuation 0 fun _ => true) = false :=
  ⟨natBasis_lawful 0 100, rfl, rfl, rfl, ⟨le_rfl, by decide⟩, testBuilder.consistent_valuation 0 _,
    by decide, rfl⟩

end Solaris
