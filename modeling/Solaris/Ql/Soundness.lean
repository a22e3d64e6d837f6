import Solaris.Ql.Semantics

/-!
# When `Build` over-approximates a filter

`Build` reads an empty interval list in two ways. A conjunct that gives no interval is left out
of its AND, as if it did not constrain the target, which over-approximates. But an OR branch
that gives no interval is dropped from the union, as if it could not hold. A branch whose
conjuncts all say nothing about the target holds for every value of it, so dropping it loses
values the filter matches (`build_drops_unconstrained_branch`). The same happens under `NOT`,
which negates an over-approximation interval by interval.

The builder is sound on `anchored` expressions: every OR branch, at every depth, has a conjunct
that pins the target (a comparison of it with a constant under an accepted operation, negated
only when the operation is not `!=`, or an anchored parenthesised expression), and every
parenthesised conjunct is an un-negated anchored expression or gives no interval.

## Key results

- `build_sound_of_anchored`: on an anchored expression, `Build` covers every value of the
  target in `[Min, Max]` under which the filter holds.
- `build_drops_unconstrained_branch`: `x = 5 OR t < 3` builds `[0, 3)`, though it holds with
  `t = 7` when `x = 5`.
-/

namespace Solaris

variable {T : Type}

/-! ## Anchored expressions -/

/-- Whether `Build` accepts an expression and gives it no interval. -/
def ParamIntervalBuilder.buildsNothing (ib : ParamIntervalBuilder T) (e : Expression) : Bool :=
  match ib.build e with
  | .ok [] => true
  | _ => false

mutual
/-- Whether every OR branch of an expression, at every depth, is anchored. -/
def ParamIntervalBuilder.anchored (ib : ParamIntervalBuilder T) : Expression → Bool
  | .mk ors => ib.anchoredOrs ors

/-- Whether every OR branch of a list is anchored. -/
def ParamIntervalBuilder.anchoredOrs (ib : ParamIntervalBuilder T) : List OrCondition → Bool
  | [] => true
  | or :: ors => ib.anchoredOR or && ib.anchoredOrs ors

/-- Whether an OR branch has an anchoring conjunct and only safe ones. -/
def ParamIntervalBuilder.anchoredOR (ib : ParamIntervalBuilder T) : OrCondition → Bool
  | .mk ands => ib.hasAnchor ands && ib.allSafe ands

/-- Whether some conjunct of a list anchors its branch. -/
def ParamIntervalBuilder.hasAnchor (ib : ParamIntervalBuilder T) : List XCondition → Bool
  | [] => false
  | and :: ands => ib.anchors and || ib.hasAnchor ands

/-- Whether every conjunct of a list is safe. -/
def ParamIntervalBuilder.allSafe (ib : ParamIntervalBuilder T) : List XCondition → Bool
  | [] => true
  | and :: ands => ib.safe and && ib.allSafe ands

/-- Whether a conjunct gives intervals covering every value under which it holds: a pinned
condition, negated only when its operation is not `!=`, or an anchored expression. -/
def ParamIntervalBuilder.anchors (ib : ParamIntervalBuilder T) : XCondition → Bool
  | .expr not e => !not && ib.anchored e
  | .cond not c => ib.pinned c && (!not || c.op != "!=")

/-- Whether a conjunct's intervals, when it has any, cover every value under which it holds:
any condition, an un-negated anchored expression, or an expression that gives no interval. -/
def ParamIntervalBuilder.safe (ib : ParamIntervalBuilder T) : XCondition → Bool
  | .expr not e => (!not && ib.anchored e) || ib.buildsNothing e
  | .cond _ _ => true
end

/-! ## One lemma per level -/

section Sound

variable [LinearOrder T]

/-- What a conjunct's intervals cover: the values under which it holds, when it anchors; and
when it is safe and has intervals. -/
def ConjunctSound (ib : ParamIntervalBuilder T) (v : T) (ρ : Condition → Bool) (x : XCondition)
    (g : List (Interval T)) : Prop :=
  x.eval ρ = true → (ib.safe x = true → g ≠ [] → Covers g v) ∧ (ib.anchors x = true → Covers g v)

variable {ib : ParamIntervalBuilder T} (hb : ib.basis.Lawful) {v : T} {ρ : Condition → Bool}
  (hv : ib.basis.InDomain v) (hρ : ib.Consistent v ρ)
include hb hv hρ

theorem conjunctSound_cond {not : Bool} {c : Condition} {g : List (Interval T)}
    (hg : ib.buildXCond (.cond not c) = .ok g) : ConjunctSound ib v ρ (.cond not c) g := by
  obtain ⟨res, hres, rfl⟩ := (ib.buildXCond_cond_eq_ok).mp hg
  rw [ib.buildCond_eq_condIntervals hres]
  intro heval
  cases hc : ib.pinned c with
  | false =>
    simp only [ib.condIntervals_of_not_pinned hc, ParamIntervalBuilder.negateIf_nil,
      ParamIntervalBuilder.anchors, hc, Bool.false_and]
    exact ⟨fun _ h => (h rfl).elim, fun h => (Bool.false_ne_true h).elim⟩
  | true =>
    have hcov := ib.covers_condIntervals hb hρ hv hc
    cases not with
    | false =>
      simp only [XCondition.eval, if_false] at heval
      exact ⟨fun _ _ => hcov.mpr heval, fun _ => hcov.mpr heval⟩
    | true =>
      simp only [XCondition.eval, if_true, Bool.not_eq_true'] at heval
      have hnot : ¬ Covers (ib.condIntervals c) v := by simp [hcov, heval]
      refine ⟨fun _ hne => ib.covers_negateIf_of_not_covers hb (fun h => hne ?_) hv hnot, fun ha => ?_⟩
      · rw [h, ParamIntervalBuilder.negateIf_nil]
      · simp only [ParamIntervalBuilder.anchors, hc, Bool.not_true, Bool.false_or, Bool.true_and,
          bne_iff_ne, ne_eq] at ha
        obtain ⟨t, heq, hop⟩ := ib.condIntervals_of_pinned hc
        obtain ⟨i, hi⟩ := getIntervals_eq_singleton ib.basis hop ha t
        rw [heq, hi] at hnot ⊢
        exact (ib.covers_negateIf_single hb i hv).mpr fun hm => hnot (covers_cons.mpr (.inl hm))

omit hb hv hρ in
theorem conjunctSound_expr {not : Bool} {e : Expression} {g : List (Interval T)}
    (ih : ∀ L, ib.anchored e = true → ib.build e = .ok L → e.eval ρ = true → Covers L v)
    (hg : ib.buildXCond (.expr not e) = .ok g) : ConjunctSound ib v ρ (.expr not e) g := by
  obtain ⟨res, hres, rfl⟩ := (ib.buildXCond_expr_eq_ok).mp hg
  intro heval
  have hanch : ib.anchors (.expr not e) = true → not = false ∧ ib.anchored e = true := by
    simp [ParamIntervalBuilder.anchors]
  have hfull : ib.anchors (.expr not e) = true → Covers (ib.negateIf not res) v := fun ha => by
    obtain ⟨rfl, hae⟩ := hanch ha
    simp only [XCondition.eval, if_false] at heval
    exact ih res hae hres heval
  refine ⟨fun hs hne => ?_, hfull⟩
  simp only [ParamIntervalBuilder.safe, Bool.or_eq_true] at hs
  rcases hs with ha | hn
  · exact hfull (by simpa [ParamIntervalBuilder.anchors] using ha)
  · simp only [ParamIntervalBuilder.buildsNothing, hres] at hn
    split at hn
    · rename_i h
      cases Except.ok.inj h
      exact absurd (ib.negateIf_nil not) hne
    · cases hn

omit hb hv hρ in
/-- An AND: every group it keeps covers `v`, and it keeps one when a conjunct anchors. -/
theorem groups_sound_cons {and : XCondition} {ands : List XCondition} {group : List (Interval T)}
    {groups : List (List (Interval T))} (hx : ConjunctSound ib v ρ and group)
    (hxs : ib.allSafe ands = true → XCondition.evalAll ρ ands = true →
      (∀ g ∈ groups, Covers g v) ∧ (ib.hasAnchor ands = true → groups ≠ []))
    (hsafe : ib.allSafe (and :: ands) = true) (heval : XCondition.evalAll ρ (and :: ands) = true) :
    (∀ g ∈ (if group.isEmpty then groups else group :: groups), Covers g v) ∧
      (ib.hasAnchor (and :: ands) = true → (if group.isEmpty then groups else group :: groups) ≠ []) := by
  simp only [ParamIntervalBuilder.allSafe, Bool.and_eq_true] at hsafe
  simp only [XCondition.evalAll, Bool.and_eq_true] at heval
  obtain ⟨hsx, hsxs⟩ := hx heval.1
  obtain ⟨hall, hne⟩ := hxs hsafe.2 heval.2
  cases hg : group.isEmpty with
  | true =>
    refine ⟨hall, fun ha => ?_⟩
    simp only [ParamIntervalBuilder.hasAnchor, Bool.or_eq_true] at ha
    rcases ha with ha | ha
    · exact absurd hg (by simpa using ne_nil_of_covers (hsxs ha))
    · exact hne ha
  | false =>
    have hne' : group ≠ [] := by simpa using hg
    exact ⟨List.forall_mem_cons.mpr ⟨hsx hsafe.1 hne', hall⟩, fun _ => List.cons_ne_nil _ _⟩

/-! ## Soundness by induction on the expression -/

set_option linter.unusedSectionVars false in
mutual
theorem build_sound_of_anchored : ∀ (e : Expression) (L : List (Interval T)),
    ib.anchored e = true → ib.build e = .ok L → e.eval ρ = true → Covers L v
  | .mk ors, L, ha, hL, he => by
    obtain ⟨res, hres, rfl⟩ := (ib.build_eq_ok).mp hL
    exact (ib.covers_union hb res v).mpr (buildOrs_sound ors res ha hres he)

theorem buildOrs_sound : ∀ (ors : List OrCondition) (L : List (Interval T)),
    ib.anchoredOrs ors = true → ib.buildOrs ors = .ok L → OrCondition.evalAny ρ ors = true →
      Covers L v
  | [], _, _, _, he => absurd he (by simp [OrCondition.evalAny])
  | or :: ors, L, ha, hL, he => by
    obtain ⟨tt, res, htt, hres, rfl⟩ := (ib.buildOrs_cons_eq_ok).mp hL
    simp only [ParamIntervalBuilder.anchoredOrs, Bool.and_eq_true] at ha
    simp only [OrCondition.evalAny, Bool.or_eq_true] at he
    rcases he with he | he
    · exact covers_append.mpr (.inl (buildOR_sound or tt ha.1 htt he))
    · exact covers_append.mpr (.inr (buildOrs_sound ors res ha.2 hres he))

theorem buildOR_sound : ∀ (or : OrCondition) (L : List (Interval T)),
    ib.anchoredOR or = true → ib.buildOR or = .ok L → or.eval ρ = true → Covers L v
  | .mk ands, L, ha, hL, he => by
    obtain ⟨groups, hgroups, rfl⟩ := (ib.buildOR_eq_ok).mp hL
    simp only [ParamIntervalBuilder.anchoredOR, Bool.and_eq_true] at ha
    obtain ⟨hall, hne⟩ := buildAnds_sound ands groups hgroups ha.2 he
    obtain ⟨g, gs, rfl⟩ := List.exists_cons_of_ne_nil (hne ha.1)
    exact (ib.covers_intersect hb g gs v).mpr hall

theorem buildAnds_sound : ∀ (ands : List XCondition) (groups : List (List (Interval T))),
    ib.buildAnds ands = .ok groups → ib.allSafe ands = true → XCondition.evalAll ρ ands = true →
      (∀ g ∈ groups, Covers g v) ∧ (ib.hasAnchor ands = true → groups ≠ [])
  | [], groups, hG, _, _ => by
    rw [(ib.buildAnds_nil_eq_ok).mp hG]
    exact ⟨fun _ h => absurd h (List.not_mem_nil _), fun h => absurd h (by simp [ParamIntervalBuilder.hasAnchor])⟩
  | and :: ands, G, hG, hs, he => by
    obtain ⟨group, groups, hg, hgs, rfl⟩ := (ib.buildAnds_cons_eq_ok).mp hG
    exact groups_sound_cons (buildXCond_sound and group hg) (buildAnds_sound ands groups hgs) hs he

theorem buildXCond_sound : ∀ (x : XCondition) (g : List (Interval T)),
    ib.buildXCond x = .ok g → ConjunctSound ib v ρ x g
  | .expr _ e, _, hg => conjunctSound_expr (build_sound_of_anchored e) hg
  | .cond _ _, _, hg => conjunctSound_cond hb hv hρ hg
end

end Sound

/-- `build_sound_of_anchored` on `t > 1 AND x = 5 OR t > 50` with the tests' builder, at `t = 7`
with `x = 5` true. -/
theorem build_sound_anchored_at_seven :
    testBuilder.anchored (.mk [
      .mk [.cond false ⟨⟨"t", "t", none⟩, ">", some ⟨"const", "1", some (.number 1)⟩⟩,
        .cond false ⟨⟨"x", "x", none⟩, "=", some ⟨"const", "5", some (.number 5)⟩⟩],
      .mk [.cond false ⟨⟨"t", "t", none⟩, ">", some ⟨"const", "50", some (.number 50)⟩⟩]]) = true ∧
    testBuilder.build (.mk [
      .mk [.cond false ⟨⟨"t", "t", none⟩, ">", some ⟨"const", "1", some (.number 1)⟩⟩,
        .cond false ⟨⟨"x", "x", none⟩, "=", some ⟨"const", "5", some (.number 5)⟩⟩],
      .mk [.cond false ⟨⟨"t", "t", none⟩, ">", some ⟨"const", "50", some (.number 50)⟩⟩]]) =
      .ok [⟨2, 101, false, true⟩] ∧
    (Expression.mk [
      .mk [.cond false ⟨⟨"t", "t", none⟩, ">", some ⟨"const", "1", some (.number 1)⟩⟩,
        .cond false ⟨⟨"x", "x", none⟩, "=", some ⟨"const", "5", some (.number 5)⟩⟩],
      .mk [.cond false ⟨⟨"t", "t", none⟩, ">", some ⟨"const", "50", some (.number 50)⟩⟩]]).eval
      (testBuilder.valuation 7 fun _ => true) = true ∧
    Covers [(⟨2, 101, false, true⟩ : Interval Nat)] 7 := by
  refine ⟨?ha, ?hb, ?he, build_sound_of_anchored (natBasis_lawful 0 100) ⟨by decide, by decide⟩
    (testBuilder.consistent_valuation 7 fun _ => true) _ _ ?ha ?hb ?he⟩ <;> rfl

/-- `t > 1 AND x = 5 OR t > 50` is anchored; `x = 5 OR t < 3` is not. -/
example : testBuilder.anchored (.mk [
      .mk [.cond false ⟨⟨"t", "t", none⟩, ">", some ⟨"const", "1", some (.number 1)⟩⟩,
        .cond false ⟨⟨"x", "x", none⟩, "=", some ⟨"const", "5", some (.number 5)⟩⟩],
      .mk [.cond false ⟨⟨"t", "t", none⟩, ">", some ⟨"const", "50", some (.number 50)⟩⟩]]) = true ∧
    testBuilder.anchored (.mk [
      .mk [.cond false ⟨⟨"x", "x", none⟩, "=", some ⟨"const", "5", some (.number 5)⟩⟩],
      .mk [.cond false ⟨⟨"t", "t", none⟩, "<", some ⟨"const", "3", some (.number 3)⟩⟩]]) = false := by
  decide

/-! ## Where `Build` drops matching values -/

/-- `x = 5 OR t < 3` with the tests' builder: the first branch says nothing about `t`, so
`Build` drops it and returns `[0, 3)`; yet with `x = 5` the filter holds for `t = 7`. -/
theorem build_drops_unconstrained_branch :
    (natBasis 0 100).Lawful ∧
    testBuilder.build (.mk [
      .mk [.cond false ⟨⟨"x", "x", none⟩, "=", some ⟨"const", "5", some (.number 5)⟩⟩],
      .mk [.cond false ⟨⟨"t", "t", none⟩, "<", some ⟨"const", "3", some (.number 3)⟩⟩]]) =
      .ok [⟨0, 3, false, true⟩] ∧
    testBuilder.basis.InDomain 7 ∧ testBuilder.Consistent 7 (testBuilder.valuation 7 fun _ => true) ∧
    (Expression.mk [
      .mk [.cond false ⟨⟨"x", "x", none⟩, "=", some ⟨"const", "5", some (.number 5)⟩⟩],
      .mk [.cond false ⟨⟨"t", "t", none⟩, "<", some ⟨"const", "3", some (.number 3)⟩⟩]]).eval
      (testBuilder.valuation 7 fun _ => true) = true ∧
    ¬ Covers [(⟨0, 3, false, true⟩ : Interval Nat)] 7 :=
  ⟨natBasis_lawful 0 100, rfl, ⟨by decide, by decide⟩, testBuilder.consistent_valuation 7 _, rfl,
    by decide⟩

end Solaris
