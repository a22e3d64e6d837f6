import Mathlib.Data.List.Chain
import Solaris.Ql.Semantics

/-!
# What `union` and `intersect` compute

`union` sorts a list of intervals by `StartsBefore` and merges each, in order, into the hull of
those before it with `Union`; `intersect` folds the cross-product intersection over a list of
groups. On a lawful basis each is exact on points.

On an ordered basis (`Basis.Ordered`: `StartsBefore` compares lower ends, closed before open, and
`Union` joins every two intervals whose points make one interval) the merge also leaves its
output in canonical form: every point of an interval lies below every point of the intervals
after it, `Union` joins no two neighbours, and only a lone interval may hold no point. The lone
empty interval is reached: `t > Max` builds `OpenL(Max, Max)`.

The merge keeps one fact about its running hull: no interval still to come has a point below a
point of the hull without the hull holding it (`Interval.Trails`). Sorting by `StartsBefore`
gives it at the start, and both branches of the merge keep it.

## Key results

- `union_points`: `union` covers exactly the points of the intervals it is given.
- `intersect_points`: `intersect` of a non-empty list of groups covers exactly the points that
  some interval of every group covers.
- `union_canonical`, `build_canonical`: the merge's output is sorted and separated, and each of
  its intervals holds a point unless it is the only one.
-/

namespace Solaris

variable {T : Type} [LinearOrder T]

/-! ## Points -/

/-- `union` neither loses nor adds a point: it covers exactly the points of the intervals of
`L`. -/
theorem ParamIntervalBuilder.union_points {ib : ParamIntervalBuilder T} (hb : ib.basis.Lawful)
    (L : List (Interval T)) (v : T) : Covers (ib.union L) v ↔ ∃ i ∈ L, i.Mem v :=
  ib.covers_union hb L v

/-- `union_points` on the tests' builder, for two overlapping intervals given out of order. -/
theorem union_points_overlap :
    testBuilder.basis.Lawful ∧
      (Covers (testBuilder.union [⟨2, 5, false, true⟩, ⟨0, 3, false, true⟩]) 4 ↔
        ∃ i ∈ [(⟨2, 5, false, true⟩ : Interval Nat), ⟨0, 3, false, true⟩], i.Mem 4) :=
  ⟨natBasis_lawful 0 100, ParamIntervalBuilder.union_points (natBasis_lawful 0 100) _ 4⟩

/-- `intersect` of a non-empty list of groups covers exactly the points that every group
covers. -/
theorem ParamIntervalBuilder.intersect_points {ib : ParamIntervalBuilder T} (hb : ib.basis.Lawful)
    {G : List (List (Interval T))} (hG : G ≠ []) (v : T) :
    Covers (ib.intersect G) v ↔ ∀ g ∈ G, ∃ i ∈ g, i.Mem v := by
  obtain ⟨g, gs, rfl⟩ := List.exists_cons_of_ne_nil hG
  exact ib.covers_intersect hb g gs v

/-- `intersect_points` on the tests' builder, for a group of two intervals and a group of one. -/
theorem intersect_points_two_groups :
    testBuilder.basis.Lawful ∧ [[(⟨0, 3, false, true⟩ : Interval Nat), ⟨5, 9, false, true⟩],
      [⟨2, 6, false, true⟩]] ≠ [] ∧
      (Covers (testBuilder.intersect [[⟨0, 3, false, true⟩, ⟨5, 9, false, true⟩],
          [⟨2, 6, false, true⟩]]) 5 ↔
        ∀ g ∈ [[(⟨0, 3, false, true⟩ : Interval Nat), ⟨5, 9, false, true⟩], [⟨2, 6, false, true⟩]],
          ∃ i ∈ g, i.Mem 5) :=
  ⟨natBasis_lawful 0 100, List.cons_ne_nil _ _,
    ParamIntervalBuilder.intersect_points (natBasis_lawful 0 100) (List.cons_ne_nil _ _) 5⟩

/-! ## Sorting by a strict order -/

section Sorting

variable {α : Type} (r : α → α → Prop) [DecidableRel r] (htrans : ∀ a b c, r a b → r b c → r a c)
  (hirr : ∀ a, ¬ r a a)
include htrans hirr

/-- Inserting into a list in which no element is put by `r` before one in front of it keeps
that so. -/
theorem pairwise_orderedInsert (x : α) :
    ∀ l : List α, l.Pairwise (fun a b => ¬ r b a) → (l.orderedInsert r x).Pairwise fun a b => ¬ r b a
  | [], _ => List.pairwise_singleton _ _
  | b :: l, h => by
    obtain ⟨hb, hl⟩ := List.pairwise_cons.mp h
    by_cases hxb : r x b
    · rw [List.orderedInsert, if_pos hxb]
      refine List.pairwise_cons.mpr ⟨fun c hc hcx => ?_, h⟩
      rcases List.mem_cons.mp hc with rfl | hc
      · exact hirr c (htrans _ _ _ hcx hxb)
      · exact hb c hc (htrans _ _ _ hcx hxb)
    · rw [List.orderedInsert, if_neg hxb]
      refine List.pairwise_cons.mpr ⟨fun c hc => ?_, pairwise_orderedInsert x l hl⟩
      rcases (List.mem_orderedInsert r).mp hc with rfl | hc
      · exact hxb
      · exact hb c hc

/-- Insertion sort by a strict order puts no element after one the order puts first. -/
theorem pairwise_insertionSort (l : List α) : (l.insertionSort r).Pairwise fun a b => ¬ r b a := by
  induction l with
  | nil => exact List.Pairwise.nil
  | cons x l ih => exact pairwise_orderedInsert r htrans hirr x _ ih

end Sorting

/-! ## The order of intervals -/

namespace Interval

/-- Every point of `i` lies below every point of `j`. -/
def Before (i j : Interval T) : Prop := ∀ x y, i.Mem x → j.Mem y → x < y

/-- `j` starts no earlier than `i`: what lies at or after the start of `j` lies at or after the
start of `i`. -/
def StartsNoLater (i j : Interval T) : Prop := ∀ v, j.AfterStart v → i.AfterStart v

/-- No point of `j` lies below a point of `k` without being one of `k`'s. -/
def Trails (k j : Interval T) : Prop := ∀ v p, j.Mem v → k.Mem p → v < p → k.Mem v

theorem StartsNoLater.trails {i j : Interval T} (h : i.StartsNoLater j) : i.Trails j :=
  fun v _ hv hp hvp => ⟨h v hv.1, BeforeEnd.of_le hp.2 hvp.le⟩

/-- The hull `u` of `P` and `c` keeps behind it what `P` keeps behind it and what starts no
earlier than `c`. -/
theorem trails_hull {P c u y : Interval T} (hu : ∀ v, u.Mem v ↔ P.Mem v ∨ c.Mem v)
    (hP : P.Trails y) (hc : c.StartsNoLater y) : u.Trails y := fun v p hv hp hvp =>
  ((hu p).mp hp).elim (fun hp => (hu v).mpr (.inl (hP v p hv hp hvp)))
    fun hp => (hu v).mpr (.inr (hc.trails v p hv hp hvp))

/-- Two intervals that share a point, the second having no point before the start of the first,
make one interval: the first, if it reaches at least as far, or else the first's start with the
second's end. -/
theorem exists_hull {P c : Interval T} {z : T} (hPz : P.Mem z) (hcz : c.Mem z)
    (hstart : ∀ v, c.Mem v → P.AfterStart v) :
    ∃ k : Interval T, ∀ v, k.Mem v ↔ P.Mem v ∨ c.Mem v := by
  by_cases hext : ∀ v, c.BeforeEnd v → P.BeforeEnd v
  · exact ⟨P, fun v => ⟨.inl, fun h => h.elim id fun hc => ⟨hstart v hc, hext v hc.2⟩⟩⟩
  push_neg at hext
  obtain ⟨w, hcw, hPw⟩ := hext
  refine ⟨⟨P.l, c.r, P.lOpen, c.rOpen⟩, fun v => ⟨fun ⟨hs, he⟩ => ?_, ?_⟩⟩
  · by_cases hPv : P.BeforeEnd v
    · exact .inl ⟨hs, hPv⟩
    · -- past the end of `P`, so past `z`, and so in `c`
      have hzv : z < v := lt_of_not_le fun hvz => hPv (BeforeEnd.of_le hPz.2 hvz)
      exact .inr ⟨AfterStart.of_le hcz.1 hzv.le, he⟩
  · rintro (hP | hc)
    · have hvw : v < w := lt_of_not_le fun hwv => hPw (BeforeEnd.of_le hP.2 hwv)
      exact ⟨hP.1, BeforeEnd.of_le hcw hvw.le⟩
    · exact ⟨hstart v hc, hc.2⟩

/-- A hull `k` of `P` and of an interval `Q` that holds `c` and has no point before `c` starts
gives, with `c`'s end, a hull of `P` and `c`, when `P` lies wholly below `c`. -/
theorem hull_through {P c Q k : Interval T} (hk : ∀ v, k.Mem v ↔ P.Mem v ∨ Q.Mem v)
    (hcQ : ∀ v, c.Mem v → Q.Mem v) (hQc : ∀ v, Q.Mem v → c.AfterStart v) {c0 : T}
    (hc0 : c.Mem c0) (hPc : P.Before c) (v : T) :
    (⟨k.l, c.r, k.lOpen, c.rOpen⟩ : Interval T).Mem v ↔ P.Mem v ∨ c.Mem v := by
  constructor
  · rintro ⟨hs, he⟩
    rcases le_or_lt v c0 with hvc | hcv
    · have hkv : k.Mem v := ⟨hs, BeforeEnd.of_le ((hk c0).mpr (.inr (hcQ c0 hc0))).2 hvc⟩
      exact ((hk v).mp hkv).imp id fun hQ => ⟨hQc v hQ, he⟩
    · exact .inr ⟨AfterStart.of_le hc0.1 hcv.le, he⟩
  · rintro (hP | hc)
    · exact ⟨((hk v).mpr (.inl hP)).1, BeforeEnd.of_le hc0.2 (hPc v c0 hP hc0).le⟩
    · exact ⟨((hk v).mpr (.inr (hcQ v hc))).1, hc.2⟩

end Interval

/-! ## Ordered bases -/

namespace Basis.Ordered

variable {b : Basis T} (ho : b.Ordered)
include ho

theorem startsBefore_irrefl (i : Interval T) : ¬ b.startsBefore i i = true := by
  rw [ho.startsBefore_iff]
  rintro (h | ⟨-, h1, h2⟩)
  · exact lt_irrefl _ h
  · rw [h1] at h2
    exact Bool.false_ne_true h2

theorem startsBefore_trans {i j k : Interval T} (hij : b.startsBefore i j = true)
    (hjk : b.startsBefore j k = true) : b.startsBefore i k = true := by
  rw [ho.startsBefore_iff] at hij hjk ⊢
  rcases hij with h | ⟨h, hi, hj⟩ <;> rcases hjk with h' | ⟨h', hj', hk⟩
  · exact .inl (h.trans h')
  · exact .inl (lt_of_lt_of_eq h h')
  · exact .inl (lt_of_eq_of_lt h h')
  · exact absurd (hj.symm.trans hj') (by decide)

/-- An interval `StartsBefore` does not put before `i` starts no earlier than `i`. -/
theorem startsNoLater {i j : Interval T} (h : ¬ b.startsBefore j i = true) :
    i.StartsNoLater j := by
  rw [ho.startsBefore_iff, not_or, not_lt] at h
  obtain ⟨hle, heq⟩ := h
  intro v hv
  obtain ⟨il, ir, _ | _, iro⟩ := i <;> obtain ⟨jl, jr, _ | _, jro⟩ := j <;>
    simp only [Interval.AfterStart, if_true, if_false, Bool.false_eq_true] at hv heq hle ⊢
  · exact le_trans hle hv
  · exact le_of_lt (lt_of_le_of_lt hle hv)
  · exact lt_of_lt_of_le (lt_of_le_of_ne hle fun e => heq ⟨e.symm, by simp, by simp⟩) hv
  · exact lt_of_le_of_lt hle hv

/-- `Union` fails on a hull and an interval it trails only when both hold points and the hull
lies wholly below the interval. -/
theorem before_of_union_none {P c : Interval T} (ht : P.Trails c) (h : b.union P c = none) :
    (∃ p, P.Mem p) ∧ (∃ x, c.Mem x) ∧ P.Before c := by
  have hjoin : ¬ ∃ k : Interval T, ∀ v, k.Mem v ↔ P.Mem v ∨ c.Mem v := fun ⟨k, hk⟩ => by
    simpa [h] using ho.union_isSome P c k hk
  refine ⟨?_, ?_, fun x y hx hy => lt_of_not_le fun hyx => hjoin ?_⟩
  · by_contra hP
    exact hjoin ⟨c, fun v => ⟨.inr, fun hv => hv.elim (fun hp => absurd ⟨v, hp⟩ hP) id⟩⟩
  · by_contra hc
    exact hjoin ⟨P, fun v => ⟨.inl, fun hv => hv.elim id fun hcv => absurd ⟨v, hcv⟩ hc⟩⟩
  · -- `y ≤ x`: the two share `y`, and `c` has no point before the start of `P`
    have hPy : P.Mem y := (lt_or_eq_of_le hyx).elim (ht y x hy hx) fun e => by rwa [e]
    refine Interval.exists_hull hPy hy fun v hv => ?_
    rcases lt_or_le v y with hvy | hyv
    · exact (ht v y hv hPy hvy).1
    · exact Interval.AfterStart.of_le hPy.1 hyv

end Basis.Ordered

/-! ## The merge -/

section Merge

variable {ib : ParamIntervalBuilder T}

/-- The first interval `mergeSorted` returns holds the hull it starts from. -/
theorem mergeSorted_head (hb : ib.basis.Lawful) (prev : Interval T) (rest : List (Interval T)) :
    ∃ k out, mergeSorted ib.basis prev rest = k :: out ∧ ∀ v, prev.Mem v → k.Mem v := by
  induction rest generalizing prev with
  | nil => exact ⟨prev, [], rfl, fun _ h => h⟩
  | cons curr rest ih =>
    unfold mergeSorted
    split
    · rename_i u hu
      obtain ⟨k, out, heq, hk⟩ := ih u
      exact ⟨k, out, heq, fun v hv => hk v ((hb.union prev curr u hu v).mpr (.inl hv))⟩
    · exact ⟨prev, _, rfl, fun _ h => h⟩

/-- What the merge from `curr` covers lies at or past the start of `curr` when no interval still
to come starts before it. -/
theorem afterStart_of_covers_mergeSorted (hb : ib.basis.Lawful) {curr : Interval T}
    {rest : List (Interval T)} (hc : ∀ y ∈ rest, curr.StartsNoLater y) {v : T}
    (hv : Covers (mergeSorted ib.basis curr rest) v) : curr.AfterStart v := by
  rcases (covers_mergeSorted hb curr rest v).mp hv with hv | ⟨Y, hY, hvY⟩
  · exact hv.1
  · exact hc Y hY v hvY.1

variable (ho : ib.basis.Ordered)
include ho

/-- From a hull that every interval still to come trails, over intervals sorted by their start,
the merge returns intervals each wholly below the next, no two neighbours of which `Union`
joins; all of them hold points when the hull does. -/
theorem mergeSorted_canonical : ∀ (prev : Interval T) (rest : List (Interval T)),
    rest.Pairwise Interval.StartsNoLater → (∀ y ∈ rest, prev.Trails y) →
    (mergeSorted ib.basis prev rest).Pairwise Interval.Before ∧
      (mergeSorted ib.basis prev rest).Chain' (fun i j => ib.basis.union i j = none) ∧
      ((∃ v, prev.Mem v) → ∀ i ∈ mergeSorted ib.basis prev rest, ∃ v, i.Mem v)
  | prev, [], _, _ => ⟨List.pairwise_singleton _ _, List.chain'_singleton _, fun h i hi => by
      rw [mergeSorted, List.mem_singleton] at hi
      exact hi ▸ h⟩
  | prev, curr :: rest, hs, ht => by
    obtain ⟨hc, hrest⟩ := List.pairwise_cons.mp hs
    have hb := ho.lawful
    unfold mergeSorted
    split
    · -- `Union` joins `curr` into the hull
      rename_i u hu
      have hu' := hb.union prev curr u hu
      obtain ⟨hpw, hch, hne⟩ := mergeSorted_canonical u rest hrest fun y hy =>
        Interval.trails_hull hu' (ht y (List.mem_cons_of_mem _ hy)) (hc y hy)
      exact ⟨hpw, hch, fun ⟨v, hv⟩ => hne ⟨v, (hu' v).mpr (.inl hv)⟩⟩
    · -- the hull is final: it holds points and lies wholly below everything still to come
      rename_i hu
      obtain ⟨hP, ⟨c0, hc0⟩, hbefore⟩ :=
        ho.before_of_union_none (ht curr (List.mem_cons_self _ _)) hu
      -- the merge goes on from `curr`, and all it covers starts no earlier
      obtain ⟨hpw, hch, hne⟩ := mergeSorted_canonical curr rest hrest fun y hy => (hc y hy).trails
      have hafter : ∀ v, Covers (mergeSorted ib.basis curr rest) v → curr.AfterStart v :=
        fun _ => afterStart_of_covers_mergeSorted hb hc
      obtain ⟨Q, out, heq, hQ⟩ := mergeSorted_head hb curr rest
      refine ⟨List.pairwise_cons.mpr ⟨fun J hJ x y hx hy => ?_, hpw⟩, ?_,
        fun _ i hi => (List.mem_cons.mp hi).elim (fun e => e ▸ hP) (hne ⟨c0, hc0⟩ i)⟩
      · -- a point of `prev` at or past one of `J` would lie in `curr`
        refine lt_of_not_le fun hyx => lt_irrefl x (hbefore x x hx ⟨?_, ?_⟩)
        · exact Interval.AfterStart.of_le (hafter y ⟨J, hJ, hy⟩) hyx
        · exact Interval.BeforeEnd.of_le hc0.2 (hbefore x c0 hx hc0).le
      · -- `Union` joins `prev` to none of the intervals after it
        rw [heq] at hch ⊢
        refine List.Chain'.cons ?_ hch
        -- a hull of `prev` and `Q` would give one of `prev` and `curr`
        cases hk : ib.basis.union prev Q with
        | none => rfl
        | some k =>
          have hQc : ∀ v, Q.Mem v → curr.AfterStart v := fun v hv =>
            hafter v ⟨Q, heq ▸ List.mem_cons_self Q out, hv⟩
          have := ho.union_isSome prev curr _
            (Interval.hull_through (hb.union prev Q k hk) hQ hQc hc0 hbefore)
          simp [hu] at this

/-- A hull that holds no point is joined to the next interval, so only a lone interval of the
merge's output can hold no point. -/
theorem mergeSorted_single : ∀ (prev : Interval T) (rest : List (Interval T)),
    rest.Pairwise Interval.StartsNoLater → (∀ y ∈ rest, prev.Trails y) →
    ∀ i ∈ mergeSorted ib.basis prev rest, (∃ v, i.Mem v) ∨ mergeSorted ib.basis prev rest = [i]
  | prev, [], _, _, i, hi => .inr (by rw [mergeSorted, List.mem_singleton] at hi; rw [mergeSorted, hi])
  | prev, curr :: rest, hs, ht, i, hi => by
    by_cases hP : ∃ v, prev.Mem v
    · exact .inl ((mergeSorted_canonical ho prev (curr :: rest) hs ht).2.2 hP i hi)
    obtain ⟨hc, hrest⟩ := List.pairwise_cons.mp hs
    -- `prev` holds no point, so the points of `prev` and `curr` are those of `curr`
    obtain ⟨u, hu⟩ := Option.isSome_iff_exists.mp (ho.union_isSome prev curr curr fun v =>
      ⟨.inr, fun h => h.elim (fun hp => absurd ⟨v, hp⟩ hP) id⟩)
    have heq : mergeSorted ib.basis prev (curr :: rest) = mergeSorted ib.basis u rest := by
      rw [mergeSorted, hu]
    rw [heq] at hi ⊢
    exact mergeSorted_single u rest hrest (fun y hy => Interval.trails_hull
      (ho.lawful.union prev curr u hu) (ht y (List.mem_cons_of_mem _ hy)) (hc y hy)) i hi

/-- `union` on an ordered basis returns intervals each wholly below the next, no two neighbours
of which `Union` joins, each holding a point unless it is the only one. -/
theorem ParamIntervalBuilder.union_canonical (L : List (Interval T)) :
    (ib.union L).Pairwise Interval.Before ∧
      (ib.union L).Chain' (fun i j => ib.basis.union i j = none) ∧
      ∀ i ∈ ib.union L, (∃ v, i.Mem v) ∨ ib.union L = [i] := by
  unfold ParamIntervalBuilder.union
  have hs := pairwise_insertionSort (fun i j : Interval T => ib.basis.startsBefore i j = true)
    (fun _ _ _ => ho.startsBefore_trans) ho.startsBefore_irrefl L
  generalize L.insertionSort (fun i j : Interval T => ib.basis.startsBefore i j = true) = s at hs ⊢
  cases s with
  | nil => exact ⟨List.Pairwise.nil, List.chain'_nil, fun _ h => absurd h (List.not_mem_nil _)⟩
  | cons prev rest =>
    obtain ⟨hp, hrest⟩ := List.pairwise_cons.mp (hs.imp ho.startsNoLater)
    have ht : ∀ y ∈ rest, prev.Trails y := fun y hy => (hp y hy).trails
    exact ⟨(mergeSorted_canonical ho prev rest hrest ht).1,
      (mergeSorted_canonical ho prev rest hrest ht).2.1, mergeSorted_single ho prev rest hrest ht⟩

/-- What `Build` accepts on an ordered basis is in canonical form, but for a lone interval that
may hold no point. -/
theorem ParamIntervalBuilder.build_canonical {e : Expression} {L : List (Interval T)}
    (h : ib.build e = .ok L) :
    L.Pairwise Interval.Before ∧ L.Chain' (fun i j => ib.basis.union i j = none) ∧
      ∀ i ∈ L, (∃ v, i.Mem v) ∨ L = [i] := by
  obtain ⟨ors⟩ := e
  obtain ⟨res, -, rfl⟩ := ib.build_eq_ok.mp h
  exact ib.union_canonical ho res

end Merge

/-- The tests' builder over `ordNatBasis 0 100`. -/
def orderedTestBuilder : ParamIntervalBuilder Nat :=
  { testBuilder with basis := ordNatBasis 0 100 }

/-- `build_canonical` on `t < 10 OR t > 5 AND t < 20 OR t = 50` with the ordered tests' builder:
the first two branches overlap and come out merged. -/
theorem build_canonical_overlap :
    orderedTestBuilder.basis.Ordered ∧
    orderedTestBuilder.build (.mk [
      .mk [.cond false ⟨⟨"t", "t", none⟩, "<", some ⟨"const", "10", some (.number 10)⟩⟩],
      .mk [.cond false ⟨⟨"t", "t", none⟩, ">", some ⟨"const", "5", some (.number 5)⟩⟩,
        .cond false ⟨⟨"t", "t", none⟩, "<", some ⟨"const", "20", some (.number 20)⟩⟩],
      .mk [.cond false ⟨⟨"t", "t", none⟩, "=", some ⟨"const", "50", some (.number 50)⟩⟩]]) =
      .ok [⟨0, 20, false, true⟩, ⟨50, 50, false, false⟩] ∧
    ([(⟨0, 20, false, true⟩ : Interval Nat), ⟨50, 50, false, false⟩].Pairwise Interval.Before ∧
      [(⟨0, 20, false, true⟩ : Interval Nat), ⟨50, 50, false, false⟩].Chain'
        (fun i j => orderedTestBuilder.basis.union i j = none) ∧
      ∀ i ∈ [(⟨0, 20, false, true⟩ : Interval Nat), ⟨50, 50, false, false⟩],
        (∃ v, i.Mem v) ∨ [(⟨0, 20, false, true⟩ : Interval Nat), ⟨50, 50, false, false⟩] = [i]) := by
  refine ⟨ordNatBasis_ordered 0 100, ?h, ParamIntervalBuilder.build_canonical (ordNatBasis_ordered 0 100) ?h⟩
  rfl

/-! ## A lone empty interval -/

/-- On an ordered basis over `[0, 100]`, `Build` of `t > 100` returns `OpenL(100, 100)`, an
interval that holds no point. -/
theorem build_greater_than_max_empty :
    orderedTestBuilder.basis.Ordered ∧
      orderedTestBuilder.build (.mk [.mk [.cond false ⟨⟨"t", "t", none⟩, ">",
        some ⟨"const", "100", some (.number 100)⟩⟩]]) = .ok [⟨100, 100, true, false⟩] ∧
      ∀ v, ¬ (⟨100, 100, true, false⟩ : Interval Nat).Mem v :=
  ⟨ordNatBasis_ordered 0 100, rfl, fun v h => by simp [Interval.Mem] at h; omega⟩

end Solaris
