/-
Whole filters against a schema. The logic of a tree is kept as it is, but a conjunction or
disjunction of one item is that item. A comparable alone is a field that it names, a call, or a text
to search for. As for values, each routine is there with the levels that are left and with a counter
of those that have been entered, and it is the counter that filters are resolved with.
-/
import ListQuery.Filter.Load
import ListQuery.Filter.Resolve.Counted

namespace ListQuery.Filter

namespace Resolver

/-- A comparable alone. -/
def alone (r : Resolver) (levels : Nat) : Comparable → Resolve Expr
  | .member m => do
    if m.value.isIdentifier && (r.root.field? m.value.unquoted).isSome then
      let (s, _) ← r.selectRoot levels m.path
      return .field s
    else return .value (.string (joinPath .unquoted m.path))
  | .call c => r.call (r.innerAt levels) c none ⟨true, false⟩
  | .struct s => Resolve.fail s.span.start .literalAlone
  | .array a => Resolve.fail a.span.start .literalAlone

/-- What is compared, and the field that describes its values. -/
def leftSide (r : Resolver) (levels : Nat) : Comparable → Resolve (Expr × Field)
  | .member m => do
    let (s, f) ← r.selectRoot levels m.path
    return (.field s, f)
  | .call c => do
    let name := joinPath .unquoted c.name
    match (r.options.function? name).bind Signature.result with
    | none => Resolve.fail c.span.start (.noResultType name)
    | some result => return (← r.call (r.innerAt levels) c none ⟨true, false⟩, result)
  | .struct s => Resolve.fail s.span.start .badLeftSide
  | .array a => Resolve.fail a.span.start .badLeftSide

/-- Whether an argument names a repeated field. -/
def namesRepeated (r : Resolver) (levels : Nat) : Arg → Resolve Bool
  | .comparable (.member m) => do
    let (_, f) ← r.selectRoot levels m.path
    return f.isRepeated
  | _ => pure false

/-- The right side of a comparison with values of `target`. -/
def rightSide (r : Resolver) (levels : Nat) (target : Field) (c : Comparison) :
    Resolve Expr := do
  let inner := r.innerAt levels
  let mode : ValueMode := ⟨r.options.allowIndirect, false⟩
  match c.comparator with
  | .has =>
    if target.isMap then
      match target.mapKey with
      | none => throw (.internal "map field without key descriptor")
      | some key => argValue inner key c.arg mode
    else argValue inner target c.arg mode
  | .isIn =>
    let right ← argValue inner target c.arg mode
    let accepted ← match right with
      | .array _ => pure true
      | .call .. => pure true
      | .field _ => r.namesRepeated levels c.arg
      | _ => pure false
    if accepted then return right else Resolve.fail c.pos .needsArray
  | _ => argValue inner target c.arg mode

/-- An argument as a value of a field, with all levels of nesting. -/
def freshValue (r : Resolver) (f : Field) (arg : Arg) (mode : ValueMode) : Resolve Expr :=
  (Counted.argValue (Counted.nested r (r.options.maxDepth + 1)) f arg mode).run' 0

/-- What a field's hook makes of a comparison, if there is a hook. -/
def hooked (r : Resolver) (restriction : Restriction) (c : Comparison) (left : Expr)
    (target : Field) : Resolve (Option Expr) :=
  match restriction.comparable, left with
  | .member m, .field selector =>
    match lookup? (joinPath .unquoted m.path) r.options.fieldHooks with
    | none => pure none
    | some hook =>
      hook {
        restriction
        comparison := c
        field := target
        selector
        allowIndirect := r.options.allowIndirect
        defaultValue := r.freshValue target c.arg ⟨r.options.allowIndirect, false⟩ }
  | _, _ => pure none

def restriction (r : Resolver) (levels : Nat) (x : Restriction) : Resolve Expr := do
  match x.comparison with
  | none => r.alone levels x.comparable
  | some c =>
    let (left, target) ← r.leftSide levels x.comparable
    match ← r.hooked x c left target with
    | some e => return e
    | none => return .compare left c.comparator (← r.rightSide levels target c)

/-- An expression, once its level of nesting has been granted. -/
def expressionBody (r : Resolver) (levels : Nat) (inner : Expression → Resolve Expr)
    (e : Expression) : Resolve Expr := do
  let sequences ← e.sequences.mapM fun s => do
    let factors ← s.factors.mapM fun f => do
      let terms ← f.terms.mapM fun t => do
        let value ← match t.simple with
          | .composite c => inner c.expression
          | .restriction x => r.restriction levels x
        return if t.unary.isSome then .not value else value
      return Expr.disjunction terms
    return Expr.conjunction factors
  return Expr.conjunction sequences

/-- An expression, with so many levels of nesting left. -/
def expression (r : Resolver) : Nat → Expression → Resolve Expr
  | 0, e => r.tooDeep e.span.start
  | levels + 1, e => fun s => r.expressionBody levels (r.expression levels) e s

namespace Counted

variable (r : Resolver) (below : Below)

def alone : Comparable → Counted Expr
  | .member m => do
    if m.value.isIdentifier && (r.root.field? m.value.unquoted).isSome then
      let (s, _) ← below.path m.path
      return .field s
    else return .value (.string (joinPath .unquoted m.path))
  | .call c => call r below c none ⟨true, false⟩
  | .struct s => fail s.span.start .literalAlone
  | .array a => fail a.span.start .literalAlone

def leftSide : Comparable → Counted (Expr × Field)
  | .member m => do
    let (s, f) ← below.path m.path
    return (.field s, f)
  | .call c => do
    let name := joinPath .unquoted c.name
    match (r.options.function? name).bind Signature.result with
    | none => fail c.span.start (.noResultType name)
    | some result => return (← call r below c none ⟨true, false⟩, result)
  | .struct s => fail s.span.start .badLeftSide
  | .array a => fail a.span.start .badLeftSide

def namesRepeated : Arg → Counted Bool
  | .comparable (.member m) => do
    let (_, f) ← below.path m.path
    return f.isRepeated
  | _ => pure false

def rightSide (target : Field) (c : Comparison) : Counted Expr := do
  let mode : ValueMode := ⟨r.options.allowIndirect, false⟩
  match c.comparator with
  | .has =>
    if target.isMap then
      match target.mapKey with
      | none => throw (.internal "map field without key descriptor")
      | some key => argValue below key c.arg mode
    else argValue below target c.arg mode
  | .isIn =>
    let right ← argValue below target c.arg mode
    let accepted ← match right with
      | .array _ => pure true
      | .call .. => pure true
      | .field _ => namesRepeated below c.arg
      | _ => pure false
    if accepted then return right else fail c.pos .needsArray
  | _ => argValue below target c.arg mode

def restriction (x : Restriction) : Counted Expr := do
  match x.comparison with
  | none => alone r below x.comparable
  | some c =>
    let (left, target) ← leftSide r below x.comparable
    match ← r.hooked x c left target with
    | some e => return e
    | none => return .compare left c.comparator (← rightSide r below target c)

/-- An expression, once its level has been entered. -/
def expressionBody (inner : Expression → Counted Expr) (e : Expression) : Counted Expr := do
  let sequences ← e.sequences.mapM fun s => do
    let factors ← s.factors.mapM fun f => do
      let terms ← f.terms.mapM fun t => do
        let value ← match t.simple with
          | .composite c => inner c.expression
          | .restriction x => restriction r below x
        return if t.unary.isSome then .not value else value
      return Expr.disjunction terms
    return Expr.conjunction factors
  return Expr.conjunction sequences

def expression : Nat → Expression → Counted Expr
  | 0, _ => throw (.internal "nesting without end")
  | fuel + 1, e => fun depth => (do
    enter r e.span.start
    let value ← expressionBody r (nested r fuel) (expression fuel) e
    leave
    return value : Counted Expr) depth

end Counted

/-! ## Whole filters -/

/-- A tree, or nothing for a filter without text. -/
def resolveTree (r : Resolver) : Option Expression → Resolve ResolvedFilter
  | none => pure {}
  | some e => do
    let expr ← (Counted.expression r (r.options.maxDepth + 1) e).run' 0
    return ⟨some expr, expr.complexity⟩

/-- A stored tree. -/
def resolve (r : Resolver) (s : Store) : Resolve ResolvedFilter :=
  match s.root with
  | none => r.resolveTree none
  | some h =>
    match s.expression? h with
    | none => throw .invalidSyntaxTree
    | some e => r.resolveTree (some e)

/-- A stored argument as a value of a field, and what has been spent with its cost added. -/
def parseValue (r : Resolver) (s : Store) (field : Option Field) (arg : Option Store.ArgRef)
    (mode : ValueMode) (spent : Nat) : Resolve (Expr × Nat) :=
  match field, arg with
  | none, _ => throw (.internal "missing field descriptor")
  | some _, none => throw (.internal "missing value node")
  | some f, some a =>
    match s.arg? a with
    | none => throw .invalidSyntaxTree
    | some arg => do
      let e ← r.freshValue f arg mode
      return (e, spent + e.complexity)

end Resolver

/-- The outcome of resolution and the reports made on the way. -/
def Resolve.run {α : Type} (x : Resolve α) : Except FilterError α × List (Report ValueCause) :=
  match x [] with
  | .ok a reports => (.ok a, reports)
  | .error e reports => (.error e, reports)

end ListQuery.Filter
