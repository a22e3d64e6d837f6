import Mathlib.Data.List.Sort

/-!
# Intervals and their basis

`pkg/intervals`, on which `ql.ParamIntervalBuilder` builds, is not among this repository's
sources. An `intervals.Interval[T]` is modelled by its two ends and whether each is open, and
what the builder uses of an `intervals.Basis[T]` (the bounds `Min` and `Max`, the constructors
`OpenR`, `OpenL` and `Closed`, and `Negate`, `Union`, `Intersect` and `StartsBefore`) by a
structure of functions, `Basis`. `Basis.Lawful` says that a basis implements exact interval
algebra over a totally ordered domain `[Min, Max]`: each operation covers exactly the points it
should.

`natBasis lo hi` is such a basis over the natural numbers from `lo` to `hi`; `ordNatBasis lo hi`
orders and joins intervals as `Basis.Ordered` asks.

## Key results

- `covers_append`, `covers_flatMap`: what a list of intervals covers, piece by piece.
- `natBasis_lawful`: `natBasis lo hi` implements exact interval algebra.
- `ordNatBasis_ordered`: `ordNatBasis lo hi` is moreover ordered as a canonical `Build` needs.
-/

namespace Solaris

/-- `intervals.Interval[T]`: the ends `L` and `R`, and whether each is open. -/
structure Interval (T : Type) where
  l : T
  r : T
  lOpen : Bool
  rOpen : Bool
  deriving DecidableEq, Repr

section Points

variable {T : Type} [LinearOrder T]

/-- The points of an interval. -/
def Interval.Mem (i : Interval T) (v : T) : Prop :=
  (if i.lOpen then i.l < v else i.l ≤ v) ∧ (if i.rOpen then v < i.r else v ≤ i.r)

instance (i : Interval T) (v : T) : Decidable (i.Mem v) :=
  inferInstanceAs (Decidable (_ ∧ _))

/-- The points that some interval of a list covers. -/
def Covers (is : List (Interval T)) (v : T) : Prop := ∃ i ∈ is, i.Mem v

instance (is : List (Interval T)) (v : T) : Decidable (Covers is v) :=
  inferInstanceAs (Decidable (∃ i ∈ is, i.Mem v))

@[simp] theorem not_covers_nil (v : T) : ¬ Covers ([] : List (Interval T)) v := by
  simp [Covers]

@[simp] theorem covers_cons {i : Interval T} {is : List (Interval T)} {v : T} :
    Covers (i :: is) v ↔ i.Mem v ∨ Covers is v := by
  simp [Covers]

@[simp] theorem covers_append {is js : List (Interval T)} {v : T} :
    Covers (is ++ js) v ↔ Covers is v ∨ Covers js v := by
  simp only [Covers, List.mem_append, or_and_right, exists_or]

theorem covers_flatMap {α : Type} {xs : List α} {f : α → List (Interval T)} {v : T} :
    Covers (xs.flatMap f) v ↔ ∃ x ∈ xs, Covers (f x) v := by
  simp only [Covers, List.mem_flatMap]
  exact ⟨fun ⟨i, ⟨x, hx, hi⟩, hv⟩ => ⟨x, hx, i, hi, hv⟩, fun ⟨x, hx, i, hi, hv⟩ => ⟨i, ⟨x, hx, hi⟩, hv⟩⟩

theorem covers_of_perm {is js : List (Interval T)} (h : is.Perm js) {v : T} :
    Covers is v ↔ Covers js v := by
  simp only [Covers, h.mem_iff]

theorem ne_nil_of_covers {is : List (Interval T)} {v : T} (h : Covers is v) : is ≠ [] := by
  rintro rfl
  exact not_covers_nil v h

/-- `v` lies at or after the lower end of `i`: the first half of `Mem`. -/
def Interval.AfterStart (i : Interval T) (v : T) : Prop := if i.lOpen then i.l < v else i.l ≤ v

/-- `v` lies at or before the upper end of `i`: the second half of `Mem`. -/
def Interval.BeforeEnd (i : Interval T) (v : T) : Prop := if i.rOpen then v < i.r else v ≤ i.r

theorem Interval.mem_iff_afterStart {i : Interval T} {v : T} :
    i.Mem v ↔ i.AfterStart v ∧ i.BeforeEnd v := Iff.rfl

theorem Interval.AfterStart.of_le {i : Interval T} {v w : T} (h : i.AfterStart v) (hvw : v ≤ w) :
    i.AfterStart w := by
  obtain ⟨l, r, _ | _, _⟩ := i <;>
    simp only [Interval.AfterStart, if_true, if_false, Bool.false_eq_true] at h ⊢
  · exact le_trans h hvw
  · exact lt_of_lt_of_le h hvw

theorem Interval.BeforeEnd.of_le {i : Interval T} {v w : T} (h : i.BeforeEnd w) (hvw : v ≤ w) :
    i.BeforeEnd v := by
  obtain ⟨l, r, _, _ | _⟩ := i <;>
    simp only [Interval.BeforeEnd, if_true, if_false, Bool.false_eq_true] at h ⊢
  · exact le_trans hvw h
  · exact lt_of_le_of_lt hvw h

end Points

/-! ## Bases -/

/-- What `ql.ParamIntervalBuilder` uses of `intervals.Basis[T]`. -/
structure Basis (T : Type) where
  min : T
  max : T
  openR : T → T → Interval T
  openL : T → T → Interval T
  closed : T → T → Interval T
  negate : Interval T → List (Interval T)
  union : Interval T → Interval T → Option (Interval T)
  intersect : Interval T → Interval T → Option (Interval T)
  startsBefore : Interval T → Interval T → Bool

section Lawful

variable {T : Type} [LinearOrder T]

/-- A point of the basis's domain `[Min, Max]`. -/
def Basis.InDomain (b : Basis T) (v : T) : Prop := b.min ≤ v ∧ v ≤ b.max

/-- A basis implementing exact interval algebra on `[Min, Max]`: the constructors make the
intervals their names say, `Negate` covers the rest of the domain, `Union` and `Intersect`
return the union and the intersection when they return an interval, and `Intersect` fails
only on disjoint intervals. -/
structure Basis.Lawful (b : Basis T) : Prop where
  openR : ∀ a c v, (b.openR a c).Mem v ↔ a ≤ v ∧ v < c
  openL : ∀ a c v, (b.openL a c).Mem v ↔ a < v ∧ v ≤ c
  closed : ∀ a c v, (b.closed a c).Mem v ↔ a ≤ v ∧ v ≤ c
  negate : ∀ i v, b.InDomain v → (Covers (b.negate i) v ↔ ¬ i.Mem v)
  union : ∀ i j k, b.union i j = some k → ∀ v, k.Mem v ↔ i.Mem v ∨ j.Mem v
  intersect_some : ∀ i j k, b.intersect i j = some k → ∀ v, k.Mem v ↔ i.Mem v ∧ j.Mem v
  intersect_none : ∀ i j, b.intersect i j = none → ∀ v, ¬ (i.Mem v ∧ j.Mem v)

/-- The basis of a canonical `Build`: lawful, with `StartsBefore` ordering intervals by their
lower end, closed before open, and `Union` succeeding whenever the two intervals' points make
one interval. -/
structure Basis.Ordered (b : Basis T) : Prop where
  lawful : b.Lawful
  startsBefore_iff : ∀ i j, b.startsBefore i j = true ↔
    i.l < j.l ∨ (i.l = j.l ∧ i.lOpen = false ∧ j.lOpen = true)
  union_isSome : ∀ i j (k : Interval T), (∀ v, k.Mem v ↔ i.Mem v ∨ j.Mem v) → (b.union i j).isSome

end Lawful

/-! ## A basis over the naturals -/

/-- The first point of an interval of naturals. -/
def Interval.lo (i : Interval Nat) : Nat := if i.lOpen then i.l + 1 else i.l

/-- The point just after the last point of an interval of naturals. -/
def Interval.hi (i : Interval Nat) : Nat := if i.rOpen then i.r else i.r + 1

@[simp] theorem Interval.lo_mk (a c : Nat) (lOpen rOpen : Bool) :
    (⟨a, c, lOpen, rOpen⟩ : Interval Nat).lo = if lOpen then a + 1 else a := rfl

@[simp] theorem Interval.hi_mk (a c : Nat) (lOpen rOpen : Bool) :
    (⟨a, c, lOpen, rOpen⟩ : Interval Nat).hi = if rOpen then c else c + 1 := rfl

theorem Interval.mem_iff_lo_hi (i : Interval Nat) (v : Nat) : i.Mem v ↔ i.lo ≤ v ∧ v < i.hi := by
  unfold Interval.Mem Interval.lo Interval.hi
  split <;> split <;> omega

/-- Exact interval algebra over the naturals from `lo` to `hi`: `Negate` returns the non-empty
parts of the domain on either side, `Union` merges intervals that overlap or touch, and
`Intersect` returns the common part when there is one. -/
def natBasis (lo hi : Nat) : Basis Nat where
  min := lo
  max := hi
  openR a c := ⟨a, c, false, true⟩
  openL a c := ⟨a, c, true, false⟩
  closed a c := ⟨a, c, false, false⟩
  negate i := (if lo < i.lo then [⟨lo, i.lo, false, true⟩] else []) ++
    (if i.hi ≤ hi then [⟨i.hi, hi, false, false⟩] else [])
  union i j := if j.lo ≤ i.hi ∧ i.lo ≤ j.hi then some ⟨min i.lo j.lo, max i.hi j.hi, false, true⟩
    else none
  intersect i j := if max i.lo j.lo < min i.hi j.hi then
    some ⟨max i.lo j.lo, min i.hi j.hi, false, true⟩ else none
  startsBefore i j := decide (i.lo < j.lo)

theorem natBasis_lawful (lo hi : Nat) : (natBasis lo hi).Lawful where
  openR a c v := by simp [natBasis, Interval.Mem]
  openL a c v := by simp [natBasis, Interval.Mem]
  closed a c v := by simp [natBasis, Interval.Mem]
  negate i v hv := by
    have hv : lo ≤ v ∧ v ≤ hi := hv
    simp only [natBasis, covers_append, Interval.mem_iff_lo_hi]
    split <;> split <;> simp [Interval.mem_iff_lo_hi] <;> omega
  union i j k h v := by
    simp only [natBasis, Option.ite_none_right_eq_some, Option.some.injEq] at h
    obtain ⟨hov, rfl⟩ := h
    simp only [Interval.mem_iff_lo_hi, Interval.lo_mk, Interval.hi_mk, if_false, if_true,
      Bool.false_eq_true]
    omega
  intersect_some i j k h v := by
    simp only [natBasis, Option.ite_none_right_eq_some, Option.some.injEq] at h
    obtain ⟨_, rfl⟩ := h
    simp only [Interval.mem_iff_lo_hi, Interval.lo_mk, Interval.hi_mk, if_false, if_true,
      Bool.false_eq_true]
    omega
  intersect_none i j h v := by
    simp only [natBasis, ite_eq_right_iff, reduceCtorEq, imp_false, not_lt] at h
    simp only [Interval.mem_iff_lo_hi]
    omega

/-- `natBasis` with the `StartsBefore` and `Union` of `Basis.Ordered`: intervals ordered by
their lower end, closed before open, and an interval holding no point joined to any other. -/
def ordNatBasis (lo hi : Nat) : Basis Nat :=
  { natBasis lo hi with
    union := fun i j => if j.hi ≤ j.lo then some i else if i.hi ≤ i.lo then some j
      else (natBasis lo hi).union i j
    startsBefore := fun i j => decide (i.l < j.l ∨ (i.l = j.l ∧ i.lOpen = false ∧ j.lOpen = true)) }

theorem ordNatBasis_ordered (lo hi : Nat) : (ordNatBasis lo hi).Ordered where
  lawful := by
    have h := natBasis_lawful lo hi
    refine ⟨h.openR, h.openL, h.closed, h.negate, fun i j k hk v => ?_, h.intersect_some,
      h.intersect_none⟩
    simp only [ordNatBasis] at hk
    split at hk
    · cases hk
      simp only [Interval.mem_iff_lo_hi]
      omega
    · split at hk
      · cases hk
        simp only [Interval.mem_iff_lo_hi]
        omega
      · exact h.union i j k hk v
  startsBefore_iff i j := by simp [ordNatBasis]
  union_isSome i j k hk := by
    simp only [ordNatBasis, natBasis]
    split
    · rfl
    split
    · rfl
    split
    · rfl
    -- two intervals holding points, apart: the point just past the lower one is in neither
    simp only [Interval.mem_iff_lo_hi] at hk
    by_cases hij : i.hi < j.lo
    · have := hk (i.hi - 1); have := hk j.lo; have := hk i.hi
      omega
    · have := hk (j.hi - 1); have := hk i.lo; have := hk j.hi
      omega

end Solaris
