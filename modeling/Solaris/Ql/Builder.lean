import Mathlib.Data.List.Sort
import Solaris.Storage.Chunk
import Solaris.Ql.Interval

/-!
# `ql.ParamIntervalBuilder`

The builder of `pkg/ql` turns a filter expression into the intervals of one parameter's values
that the filter can match. The expression is a list of OR branches, each a list of AND
conjuncts, each a condition or a parenthesised expression, possibly negated. `Build` unions the
intervals of the branches; `buildOR` intersects the interval sets of a branch's conjuncts,
leaving out each conjunct that gives none; `buildXCond` negates a negated conjunct's set one
interval at a time; and `buildCond` checks a condition against the dialect and, when it
compares the target parameter with a constant under an accepted operation, turns it into
intervals with `getIntervals`.

The parser and the dialect's value functions are not among this repository's sources: the AST
is modelled with the fields the builder reads, and `castValueF`, the value function it returns
and the cast to `T` as one function `ParamIntervalBuilder.value` with their errors. Go's
`sort.Slice` is modelled by a stable insertion sort.
-/

namespace Solaris

/-! ## The AST and the dialect -/

/-- `ql.Const`: a string or a number literal. -/
inductive Const where
  | string (s : String)
  | number (n : Nat)
  deriving DecidableEq, Repr

/-- `ql.Param` as the builder reads it: the key `ID()` it looks up in the dialect, the name
`Name(false)` it reports and compares with its target, and its constant, if it is one. -/
structure Param where
  id : String
  name : String
  const : Option Const
  deriving DecidableEq, Repr

/-- `ql.Condition`: the first parameter, the operation and the second parameter, if any. -/
structure Condition where
  firstParam : Param
  op : String
  secondParam : Option Param
  deriving DecidableEq, Repr

mutual
/-- `ql.Expression`: its OR branches. -/
inductive Expression where
  | mk (ors : List OrCondition)
/-- `ql.OrCondition`: one OR branch, its AND conjuncts. -/
inductive OrCondition where
  | mk (ands : List XCondition)
/-- `ql.XCondition`: a parenthesised expression or a condition, negated when `not`. -/
inductive XCondition where
  | expr (not : Bool) (e : Expression)
  | cond (not : Bool) (c : Condition)
end

/-- The flags of a dialect entry (`ql.ParamFlags`) that the builder tests: `PfLValue`,
`PfRValue`, `PfNop`, `PfComparable` and `PfGreaterLess`. -/
structure ParamFlags where
  lValue : Bool
  rValue : Bool
  nop : Bool
  comparable : Bool
  greaterLess : Bool
  deriving DecidableEq, Repr

/-- `ql.ParamDialect`: an entry's flags and value type. -/
structure ParamDialect where
  flags : ParamFlags
  type : String
  deriving DecidableEq, Repr

/-- `ql.ParamIntervalBuilder[T, K]`: the basis, the dialect, the target parameter and the
accepted operations (`NewParamIntervalBuilder` keeps them as a set). `value dp1 dp2 p2` is the
constant of `p2` as a point: `castValueF(dp2.ValueF, dp2.Type, dp1.Type)`, the value function
it returns applied to `p2`, and the cast to `T`, with the error of the first that fails. -/
structure ParamIntervalBuilder (T : Type) where
  basis : Basis T
  dialect : String → Option ParamDialect
  param : String
  ops : List String
  value : ParamDialect → ParamDialect → Param → Except Error T

/-- `OpsAll`. -/
def opsAll : List String := ["<", ">", "<=", ">=", "=", "!="]

/-- `OpsGtLt`. -/
def opsGtLt : List String := ["<", ">"]

/-! ## Conditions -/

variable {T : Type}

/-- An error of `buildCond`: its message wrapped around `errors.ErrInvalid`. -/
def invalidParam (msg : String) : Error := .wrap msg .invalid

/-- The flag check `buildCond` makes of either parameter for the operation `op`: `<` and `>`
need `PfComparable` or `PfGreaterLess`, `<=`, `>=`, `=` and `!=` need `PfComparable`. -/
def comparableFor (op : String) (f : ParamFlags) : Bool :=
  if op = "<" ∨ op = ">" then f.comparable || f.greaterLess
  else if op = "<=" ∨ op = ">=" ∨ op = "=" ∨ op = "!=" then f.comparable
  else true

/-- `ParamIntervalBuilder.getIntervals`. -/
def getIntervals (b : Basis T) (op : String) (val : T) : List (Interval T) :=
  match op with
  | "<" => [b.openR b.min val]
  | ">" => [b.openL val b.max]
  | "<=" => [b.closed b.min val]
  | ">=" => [b.closed val b.max]
  | "=" => [b.closed val val]
  | "!=" => b.negate (b.closed val val)
  | _ => []

/-- `ParamIntervalBuilder.buildCond`: the checks of the first parameter, then nothing for a
condition on another parameter, the checks of the second parameter, nothing for a second
parameter that is not a constant or an operation not accepted, the checks of both parameters
for the operation, and the intervals of the constant's value. -/
def ParamIntervalBuilder.buildCond (ib : ParamIntervalBuilder T) (cond : Condition) :
    Except Error (List (Interval T)) :=
  let p1 := cond.firstParam
  match ib.dialect p1.id with
  | none => .error (invalidParam ("the parameter " ++ p1.name ++ " must be known"))
  | some dp1 =>
    if !dp1.flags.lValue then
      .error (invalidParam ("the parameter " ++ p1.name ++ " must be on the left side of the condition"))
    else if dp1.flags.nop then
      .error (invalidParam ("the parameter " ++ p1.name ++ " must allow operation (" ++ cond.op ++ ")"))
    else if p1.name ≠ ib.param then .ok []
    else
      match cond.secondParam with
      | none => .error (invalidParam ("the second parameter must be specified for the parameter " ++
          p1.name ++ " and the operation \"" ++ cond.op ++ "\""))
      | some p2 =>
        match ib.dialect p2.id with
        | none => .error (invalidParam ("the second parameter " ++ p2.name ++ " must be known"))
        | some dp2 =>
          if !dp2.flags.rValue then
            .error (invalidParam ("the second parameter " ++ p2.name ++
              " must be on the right side of the condition"))
          else if dp2.flags.nop then
            .error (invalidParam ("the second parameter " ++ p2.name ++ " must allow operation (" ++
              cond.op ++ ")"))
          else if p2.const.isNone then .ok []
          else if cond.op ∉ ib.ops then .ok []
          else if !comparableFor cond.op dp1.flags then
            .error (invalidParam ("the first parameter " ++ p1.name ++
              " must be comparable for the operation " ++ cond.op))
          else if !comparableFor cond.op dp2.flags then
            .error (invalidParam ("the second parameter " ++ p2.name ++
              " must be comparable for the operation " ++ cond.op))
          else (ib.value dp1 dp2 p2).map (getIntervals ib.basis cond.op)

/-! ## Union and intersection -/

/-- The merge loop of `ParamIntervalBuilder.union` over sorted intervals: `prev` absorbs each
next interval that `Union` merges with it, and is emitted before the first it does not. -/
def mergeSorted (b : Basis T) : Interval T → List (Interval T) → List (Interval T)
  | prev, [] => [prev]
  | prev, curr :: rest =>
    match b.union prev curr with
    | some u => mergeSorted b u rest
    | none => prev :: mergeSorted b curr rest

/-- `ParamIntervalBuilder.union`: sort by `StartsBefore`, then merge. -/
def ParamIntervalBuilder.union (ib : ParamIntervalBuilder T) (intervalsL : List (Interval T)) :
    List (Interval T) :=
  match intervalsL.insertionSort (fun i j => ib.basis.startsBefore i j = true) with
  | [] => []
  | prev :: rest => mergeSorted ib.basis prev rest

/-- `ParamIntervalBuilder.intersect`: each next group keeps the intersections, in order, of every
interval so far with every interval of the group. -/
def ParamIntervalBuilder.intersect (ib : ParamIntervalBuilder T) :
    List (List (Interval T)) → List (Interval T)
  | [] => []
  | g :: gs => gs.foldl (fun prev curr => prev.flatMap fun p => curr.filterMap (ib.basis.intersect p)) g

/-- The end of `buildXCond`: a negated conjunct's intervals replaced, one by one, by their
`Negate`. -/
def ParamIntervalBuilder.negateIf (ib : ParamIntervalBuilder T) (not : Bool)
    (res : List (Interval T)) : List (Interval T) :=
  if not then res.flatMap ib.basis.negate else res

/-! ## `Build` -/

mutual
/-- `ParamIntervalBuilder.Build`. -/
def ParamIntervalBuilder.build (ib : ParamIntervalBuilder T) :
    Expression → Except Error (List (Interval T))
  | .mk ors => do
    let res ← ib.buildOrs ors
    pure (ib.union res)

/-- The loop of `Build` over the OR branches, collecting their intervals. -/
def ParamIntervalBuilder.buildOrs (ib : ParamIntervalBuilder T) :
    List OrCondition → Except Error (List (Interval T))
  | [] => pure []
  | or :: ors => do
    let tt ← ib.buildOR or
    let res ← ib.buildOrs ors
    pure (tt ++ res)

/-- `ParamIntervalBuilder.buildOR`. -/
def ParamIntervalBuilder.buildOR (ib : ParamIntervalBuilder T) :
    OrCondition → Except Error (List (Interval T))
  | .mk ands => do
    let groups ← ib.buildAnds ands
    pure (ib.intersect groups)

/-- The loop of `buildOR` over the AND conjuncts, keeping the non-empty groups. -/
def ParamIntervalBuilder.buildAnds (ib : ParamIntervalBuilder T) :
    List XCondition → Except Error (List (List (Interval T)))
  | [] => pure []
  | and :: ands => do
    let group ← ib.buildXCond and
    let groups ← ib.buildAnds ands
    pure (if group.isEmpty then groups else group :: groups)

/-- `ParamIntervalBuilder.buildXCond`. -/
def ParamIntervalBuilder.buildXCond (ib : ParamIntervalBuilder T) :
    XCondition → Except Error (List (Interval T))
  | .expr not e => do
    let res ← ib.build e
    pure (ib.negateIf not res)
  | .cond not c => do
    let res ← ib.buildCond c
    pure (ib.negateIf not res)
end

/-! ## One lemma per level of `Build` -/

theorem except_bind_eq_ok {ε α β : Type} {x : Except ε α} {f : α → Except ε β} {b : β} :
    x >>= f = .ok b ↔ ∃ a, x = .ok a ∧ f a = .ok b := by
  cases x <;> simp [bind, Except.bind]

theorem except_pure_eq_ok {ε α : Type} {a b : α} : (pure a : Except ε α) = .ok b ↔ a = b := by
  simp [pure, Except.pure]

section Levels

variable (ib : ParamIntervalBuilder T) {L : List (Interval T)}

theorem ParamIntervalBuilder.build_eq_ok {ors : List OrCondition} :
    ib.build (.mk ors) = .ok L ↔ ∃ res, ib.buildOrs ors = .ok res ∧ L = ib.union res := by
  simp only [build, except_bind_eq_ok, except_pure_eq_ok, eq_comm (a := ib.union _)]

theorem ParamIntervalBuilder.buildOrs_nil_eq_ok : ib.buildOrs [] = .ok L ↔ L = [] :=
  except_pure_eq_ok.trans eq_comm

theorem ParamIntervalBuilder.buildOrs_cons_eq_ok {or : OrCondition} {ors : List OrCondition} :
    ib.buildOrs (or :: ors) = .ok L ↔
      ∃ tt res, ib.buildOR or = .ok tt ∧ ib.buildOrs ors = .ok res ∧ L = tt ++ res := by
  simp only [buildOrs, except_bind_eq_ok, except_pure_eq_ok, eq_comm (b := L), exists_and_left]

theorem ParamIntervalBuilder.buildOR_eq_ok {ands : List XCondition} :
    ib.buildOR (.mk ands) = .ok L ↔ ∃ groups, ib.buildAnds ands = .ok groups ∧ L = ib.intersect groups := by
  simp only [buildOR, except_bind_eq_ok, except_pure_eq_ok, eq_comm (b := L)]

theorem ParamIntervalBuilder.buildAnds_nil_eq_ok {G : List (List (Interval T))} :
    ib.buildAnds [] = .ok G ↔ G = [] :=
  except_pure_eq_ok.trans eq_comm

theorem ParamIntervalBuilder.buildAnds_cons_eq_ok {and : XCondition} {ands : List XCondition}
    {G : List (List (Interval T))} :
    ib.buildAnds (and :: ands) = .ok G ↔ ∃ group groups, ib.buildXCond and = .ok group ∧
      ib.buildAnds ands = .ok groups ∧ G = if group.isEmpty then groups else group :: groups := by
  simp only [buildAnds, except_bind_eq_ok, except_pure_eq_ok, eq_comm (b := G), exists_and_left]

theorem ParamIntervalBuilder.buildXCond_expr_eq_ok {not : Bool} {e : Expression} :
    ib.buildXCond (.expr not e) = .ok L ↔ ∃ res, ib.build e = .ok res ∧ L = ib.negateIf not res := by
  simp only [buildXCond, except_bind_eq_ok, except_pure_eq_ok, eq_comm (b := L)]

theorem ParamIntervalBuilder.buildXCond_cond_eq_ok {not : Bool} {c : Condition} :
    ib.buildXCond (.cond not c) = .ok L ↔ ∃ res, ib.buildCond c = .ok res ∧ L = ib.negateIf not res := by
  simp only [buildXCond, except_bind_eq_ok, except_pure_eq_ok, eq_comm (b := L)]

end Levels

/-! ## The builder of the package's tests -/

/-- The dialect of the package's tests (`testIntervalDialect`): the target `t` on the left and
constants on the right, with a second parameter `x` on the left like `t`. The key of constants,
`StringParamID`, is defined in a file that is not among the sources: it is `"const"` here. -/
def testDialect (id : String) : Option ParamDialect :=
  if id = "t" ∨ id = "x" then some ⟨⟨true, false, false, true, false⟩, "number"⟩
  else if id = "const" then some ⟨⟨false, true, false, true, false⟩, "number"⟩
  else none

/-- The tests' `testIntervalBuilder` for the target `t` and `OpsAll`, over the naturals up to
`100` and reading number constants. -/
def testBuilder : ParamIntervalBuilder Nat where
  basis := natBasis 0 100
  dialect := testDialect
  param := "t"
  ops := opsAll
  value _ _ p := match p.const with
    | some (.number n) => .ok n
    | _ => .error (invalidParam "cannot cast the second parameter value to interval point")

example : testBuilder.build (.mk [.mk [.cond false ⟨⟨"t", "t", none⟩, ">=", some ⟨"const", "2",
    some (.number 2)⟩⟩, .cond false ⟨⟨"t", "t", none⟩, "<", some ⟨"const", "3", some (.number 3)⟩⟩]]) =
    .ok [⟨2, 3, false, true⟩] := rfl

end Solaris
