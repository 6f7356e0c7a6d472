/-
The right sides of comparisons as values of the field on the left, one function for each type of
field.

Literals, groups in parentheses and values of any type nest, and each level of nesting uses up one
of the levels that are allowed. So these three are defined by recursion on the levels left, and all
others take the three for one level less.
-/
import ListQuery.Filter.Resolve.Select

namespace ListQuery.Filter

open Time

/-- How a place for a value may be filled. -/
structure ValueMode where
  /-- Fields and calls may stand for a value. -/
  allowIndirect : Bool
  /-- Null is accepted whatever the field says. -/
  optional : Bool
deriving DecidableEq, Repr

namespace ValueMode

/-- Literals only. -/
def direct : ValueMode := ⟨false, false⟩

/-- The same place inside of a literal or an argument list, where null needs the field's leave. -/
def required (m : ValueMode) : ValueMode := { m with optional := false }

end ValueMode

namespace Resolver

/-- Resolution one level of nesting down. -/
structure Inner where
  comparable : Field → Comparable → ValueMode → Resolve Expr
  group : Field → Expression → ValueMode → Resolve Expr
  dynamic : Comparable → ValueMode → Resolve Expr

/-- An argument as a value of a field. -/
def argValue (inner : Inner) (f : Field) (arg : Arg) (mode : ValueMode) : Resolve Expr :=
  match arg with
  | .composite c => inner.group f c.expression mode
  | .comparable c => inner.comparable f c mode

/-- The arguments of a call, the first of them at place `index`. -/
def callArgs (inner : Inner) (s : Signature) (mode : ValueMode) :
    Nat → List Arg → Resolve (List Expr)
  | _, [] => pure []
  | index, arg :: args =>
    match s.parameter? index with
    | none => throw (.internal "missing parameter descriptor")
    | some param => do
      let e ← argValue inner param arg mode.required
      let es ← callArgs inner s mode (index + 1) args
      pure (e :: es)

/-- A call, once no hook has taken it over. -/
def plainCall (r : Resolver) (inner : Inner) (c : Call) (name : String) (target : Option Field)
    (mode : ValueMode) : Resolve Expr :=
  match r.options.function? name with
  | none => Resolve.fail c.span.start (.unknownFunction name)
  | some s =>
    if !s.acceptsArity c.args.length then
      Resolve.fail c.span.start (.arity name s.parameters.length c.args.length)
    else do
      let args ← callArgs inner s mode 0 c.args
      let call := Expr.call s.package s.name args s.complexity
      match target, s.result with
      | some target, some result =>
        if kindsCompatible r.schema result target then pure call
        else Resolve.fail c.span.start (.resultKind name result.kind target.name target.kind)
      | _, _ => pure call

/-- A call whose result goes to `target`, if it goes to a field. -/
def call (r : Resolver) (inner : Inner) (c : Call) (target : Option Field) (mode : ValueMode) :
    Resolve Expr := do
  let name := joinPath .unquoted c.name
  match lookup? name r.options.callHooks with
  | none => r.plainCall inner c name target mode
  | some hook =>
    match ← hook ⟨c, name, target, mode.allowIndirect⟩ with
    | some e => pure e
    | none => r.plainCall inner c name target mode

/-- A call where a value is expected. -/
def callValue (r : Resolver) (inner : Inner) (c : Call) (target : Option Field)
    (mode : ValueMode) : Resolve Expr := do
  let e ← r.call inner c target mode
  if e.isIndirect && !mode.allowIndirect then Resolve.fail c.span.start .indirect else pure e

/-- A value has no fields. -/
def noFields (m : Member) : Resolve Unit :=
  match m.fields with
  | extra :: _ => Resolve.fail extra.pos (.trailingField extra.raw)
  | [] => pure ()

/-- A bare word that stands for another field. -/
def indirect (r : Resolver) (levels : Nat) (m : Member) (mode : ValueMode) : Resolve Expr := do
  if mode.allowIndirect then
    let (s, _) ← r.selectRoot levels m.path
    pure (.field s)
  else Resolve.fail m.value.pos .indirect

/-- Whether a bare word may stand for another field and names one. -/
def namesField (r : Resolver) (m : Member) (mode : ValueMode) : Bool :=
  mode.allowIndirect && m.value.isIdentifier && (r.root.field? m.value.unquoted).isSome

/-- Null where it is accepted. -/
def nullValue (f : Field) (m : Member) (mode : ValueMode) : Resolve Expr := do
  noFields m
  if f.nullable || mode.optional then pure (.value .null)
  else Resolve.fail m.value.pos (.notNullable f.name)

/-- A bare word stands for another field, anything else is no value of the field. -/
def indirectOnly (r : Resolver) (levels : Nat) (f : Field) (m : Member) (mode : ValueMode) :
    Resolve Expr :=
  if m.value.isIdentifier then r.indirect levels m mode else mismatch f m.value

def numericValue (r : Resolver) (levels : Nat) (f : Field) (m : Member) (mode : ValueMode) :
    Resolve Expr := do
  if m.value.kind.isNumber then
    noFields m
    if f.kind.isFloat then return .value (.float64 (← floatLiteral f m.value))
    else return .value (← integerLiteral f m.value).toValue
  else r.indirectOnly levels f m mode

def boolValue (r : Resolver) (levels : Nat) (f : Field) (m : Member) (mode : ValueMode) :
    Resolve Expr := do
  if m.value.kind = .bool then
    noFields m
    return .value (.bool (m.value.raw == "true"))
  else r.indirectOnly levels f m mode

def stringValue (r : Resolver) (levels : Nat) (m : Member) (mode : ValueMode) : Resolve Expr := do
  if r.namesField m mode then r.indirect levels m mode
  else
    noFields m
    return .value (.string m.value.unquoted)

def bytesValue (r : Resolver) (levels : Nat) (f : Field) (m : Member) (mode : ValueMode) :
    Resolve Expr := do
  if r.namesField m mode then r.indirect levels m mode
  else
    noFields m
    match m.value.bytes? with
    | some bs => return .value (.bytes bs)
    | none => mismatch f m.value

def enumValue (r : Resolver) (levels : Nat) (f : Field) (m : Member) (mode : ValueMode) :
    Resolve Expr := do
  if m.value.kind = .string ∨ m.value.isIdentifier = true then
    match r.schema.enumValue? f m.value.unquoted with
    | some n =>
      noFields m
      return .value (.enum n)
    | none =>
      if r.namesField m mode then r.indirect levels m mode
      else Resolve.fail m.value.pos (.unknownEnumValue m.value.unquoted f.name)
  else mismatch f m.value

def timestampValue (r : Resolver) (levels : Nat) (f : Field) (m : Member) (mode : ValueMode) :
    Resolve Expr := do
  if m.value.kind = .timestamp ∨ m.value.kind = .string then
    noFields m
    match Timestamp.parse? m.value.unquoted with
    | some t => return .value (.timestamp t)
    | none => Resolve.fail m.value.pos (.notTimestamp m.value.unquoted)
  else r.indirectOnly levels f m mode

def durationValue (r : Resolver) (levels : Nat) (f : Field) (m : Member) (mode : ValueMode) :
    Resolve Expr := do
  if m.value.kind = .duration ∨ m.value.kind = .string then
    noFields m
    match Duration.parse? m.value.unquoted with
    | some d => return .value (.duration d)
    | none => Resolve.fail m.value.pos (.notDuration m.value.unquoted)
  else r.indirectOnly levels f m mode

/-- The value of a member in a place for any value. -/
def dynamicLeaf (l : Leaf) : Value :=
  match l.kind with
  | .null => .null
  | .bool => .bool (l.raw == "true")
  | .int | .numeric | .hex | .oct =>
    match l.float? with
    | some x => .float64 x
    | none => .string l.raw
  | _ => .string l.unquoted

/-- A member as a value of a field. -/
def memberValue (r : Resolver) (levels : Nat) (f : Field) (m : Member) (mode : ValueMode) :
    Resolve Expr :=
  if m.value.kind = .null then nullValue f m mode
  else if f.isMap then r.indirectOnly levels f m mode
  else
    match r.schema.wellKnownOf? f with
    | some .timestamp => r.timestampValue levels f m mode
    | some .duration => r.durationValue levels f m mode
    | some _ => r.indirectOnly levels f m mode
    | none =>
      match f.kind with
      | .bool => r.boolValue levels f m mode
      | .string => r.stringValue levels m mode
      | .bytes => r.bytesValue levels f m mode
      | .enum => r.enumValue levels f m mode
      | .message | .group => r.indirectOnly levels f m mode
      | _ => r.numericValue levels f m mode

/-! ## Struct literals -/

/-- The type name of a literal has to be the one expected. -/
def checkStructName (s : StructLiteral) (expected : String) (optional : Bool) : Resolve Unit :=
  if s.name.isEmpty then
    if optional then pure () else Resolve.fail s.span.start (.needsTypeName expected)
  else
    let name := joinPath .unquoted s.name
    if name = expected then pure () else Resolve.fail s.span.start (.wrongTypeName expected name)

/-- The entries of a map of any values, behind entries with the keys `seen`. -/
def dynamicEntries (inner : Inner) (mode : ValueMode) :
    List String → List StructEntry → Resolve (List (Expr × Expr))
  | _, [] => pure []
  | seen, entry :: entries => do
    let key := entry.name.unquoted
    if seen.contains key then Resolve.fail entry.name.pos (.duplicateKey key)
    else
      let value ← inner.dynamic entry.value mode
      let rest ← dynamicEntries inner mode (key :: seen) entries
      return (.value (.string key), value) :: rest

/-- A literal as a map of any values. -/
def dynamicMap (inner : Inner) (s : StructLiteral) (mode : ValueMode) : Resolve Expr := do
  checkStructName s WellKnown.struct.fullName true
  return .map (← dynamicEntries inner mode [] s.entries)

/-- The seconds and nanoseconds that entries give, behind those that have been given. -/
def instantEntries (inner : Inner) (w : WellKnown) (message : Message) :
    Option Int → Option Int → List StructEntry → Resolve (Int × Int)
  | seconds, nanos, [] => pure (seconds.getD 0, nanos.getD 0)
  | seconds, nanos, entry :: entries => do
    let name := entry.name.unquoted
    if name ≠ "seconds" ∧ name ≠ "nanos" then
      Resolve.fail entry.name.pos (.unknownField name w.fullName)
    else if (if name = "seconds" then seconds else nanos).isSome then
      Resolve.fail entry.name.pos (.duplicateField name)
    else
      match message.field? name with
      | none => throw (.internal "well-known message is missing a field")
      | some sub =>
        match ← inner.comparable sub entry.value .direct with
        | .value (.int64 n) =>
          if name = "seconds" then instantEntries inner w message (some n) nanos entries
          else instantEntries inner w message seconds (some n) entries
        | _ => Resolve.fail entry.name.pos (.needsInteger name)

/-- The seconds and nanoseconds of a literal. -/
def instant (r : Resolver) (inner : Inner) (f : Field) (s : StructLiteral) (w : WellKnown) :
    Resolve (Int × Int) := do
  checkStructName s w.fullName true
  match r.schema.messageOf? f with
  | none => throw (.internal "well-known field without message descriptor")
  | some message => instantEntries inner w message none none s.entries

def timestampStruct (r : Resolver) (inner : Inner) (f : Field) (s : StructLiteral) :
    Resolve Expr := do
  let (seconds, nanos) ← r.instant inner f s .timestamp
  let moment := if nanos < 0 then none else Timestamp.ofUnix? seconds nanos.toNat
  match moment with
  | some t => return .value (.timestamp t)
  | none => Resolve.fail s.span.start .timestampRange

def durationStruct (r : Resolver) (inner : Inner) (f : Field) (s : StructLiteral) :
    Resolve Expr := do
  let (seconds, nanos) ← r.instant inner f s .duration
  match Duration.ofSum? seconds nanos with
  | some d => return .value (.duration d)
  | none => Resolve.fail s.span.start .durationRange

/-- The fields of a message literal, behind fields with the names `seen`. -/
def messageEntries (inner : Inner) (message : Message) (mode : ValueMode) :
    List String → List StructEntry → Resolve (List (String × Expr))
  | _, [] => pure []
  | seen, entry :: entries => do
    let name := entry.name.unquoted
    match message.field? name with
    | none => Resolve.fail entry.name.pos (.unknownField name message.fullName)
    | some sub =>
      if seen.contains name then Resolve.fail entry.name.pos (.duplicateField name)
      else
        let value ← inner.comparable sub entry.value mode.required
        let rest ← messageEntries inner message mode (name :: seen) entries
        return (name, value) :: rest

def messageStruct (r : Resolver) (inner : Inner) (f : Field) (s : StructLiteral)
    (mode : ValueMode) : Resolve Expr := do
  match r.schema.messageOf? f with
  | none => throw (.internal "message field without message descriptor")
  | some message =>
    checkStructName s message.fullName false
    return .value (.message message.fullName (← messageEntries inner message mode [] s.entries))

/-- The entries of a map literal, behind entries with the keys `seen`. -/
def mapEntries (inner : Inner) (key value : Field) (mode : ValueMode) :
    List MapKey → List StructEntry → Resolve (List (Expr × Expr))
  | _, [] => pure []
  | seen, entry :: entries => do
    let k ← mapKey key entry.name
    if seen.contains k then Resolve.fail entry.name.pos (.duplicateKey entry.name.unquoted)
    else
      let v ← inner.comparable value entry.value mode
      let rest ← mapEntries inner key value mode (k :: seen) entries
      return (.value k.toValue, v) :: rest

def mapStruct (inner : Inner) (f : Field) (s : StructLiteral) (mode : ValueMode) :
    Resolve Expr := do
  if !s.name.isEmpty then Resolve.fail s.span.start (.namedMap f.name)
  else
    match f.mapKey, f.mapValue with
    | none, _ => throw (.internal "map field without key descriptor")
    | some _, none => throw (.internal "map field without value descriptor")
    | some key, some value => return .map (← mapEntries inner key value mode [] s.entries)

/-- A struct literal as a value of a field. -/
def structValue (r : Resolver) (inner : Inner) (f : Field) (s : StructLiteral)
    (mode : ValueMode) : Resolve Expr :=
  if f.isMap then mapStruct inner f s mode
  else
    match r.schema.wellKnownOf? f with
    | some .timestamp => r.timestampStruct inner f s
    | some .duration => r.durationStruct inner f s
    | some .struct => dynamicMap inner s mode
    | some .value => inner.dynamic (.struct s) mode
    | none =>
      if f.kind.isMessage then r.messageStruct inner f s mode
      else Resolve.fail s.span.start (.notScalar f.kind f.name)

/-- A comparable as a value of a field, once its level of nesting has been granted. -/
def comparableBody (r : Resolver) (levels : Nat) (inner : Inner) (f : Field) (c : Comparable)
    (mode : ValueMode) : Resolve Expr :=
  match c with
  | .array a =>
    if f.isMap then Resolve.fail a.span.start (.arrayForMap f.name)
    else do return .array (← a.elements.mapM fun e => inner.comparable f e mode)
  | .call c => r.callValue inner c (some f) mode
  | .struct s => r.structValue inner f s mode
  | .member m =>
    if r.schema.wellKnownOf? f = some .value then inner.dynamic (.member m) mode
    else r.memberValue levels f m mode

/-- A group in parentheses as values of a field, once its level of nesting has been granted. -/
def groupBody (inner : Inner) (f : Field) (e : Expression) (mode : ValueMode) : Resolve Expr := do
  let sequences ← e.sequences.mapM fun s => do
    let factors ← s.factors.mapM fun x => do
      let terms ← x.terms.mapM fun t => do
        let value ← match t.simple with
          | .composite c => inner.group f c.expression mode
          | .restriction r =>
            match r.comparison with
            | some c => Resolve.fail c.pos .comparisonInGroup
            | none => inner.comparable f r.comparable mode
        return if t.unary.isSome then .not value else value
      return Expr.disjunction terms
    return Expr.conjunction factors
  return Expr.conjunction sequences

/-- A comparable as any value, once its level of nesting has been granted. -/
def dynamicBody (r : Resolver) (inner : Inner) (c : Comparable) (mode : ValueMode) :
    Resolve Expr :=
  match c with
  | .member m => do
    noFields m
    return .value (dynamicLeaf m.value)
  | .struct s => dynamicMap inner s mode
  | .array a => do return .array (← a.elements.mapM fun e => inner.dynamic e mode)
  | .call c => r.callValue inner c none mode

mutual

/-- A comparable as a value of a field, with so many levels of nesting left. -/
def comparableValue (r : Resolver) : Nat → Field → Comparable → ValueMode → Resolve Expr
  | 0, _, c, _ => r.tooDeep c.span.start
  | levels + 1, f, c, mode => fun s =>
    r.comparableBody levels
      ⟨r.comparableValue levels, r.groupValue levels, r.dynamicValue levels⟩ f c mode s

/-- A group in parentheses as values of a field, with so many levels of nesting left. -/
def groupValue (r : Resolver) : Nat → Field → Expression → ValueMode → Resolve Expr
  | 0, _, e, _ => r.tooDeep e.span.start
  | levels + 1, f, e, mode => fun s =>
    groupBody ⟨r.comparableValue levels, r.groupValue levels, r.dynamicValue levels⟩ f e mode s

/-- A comparable as any value, with so many levels of nesting left. -/
def dynamicValue (r : Resolver) : Nat → Comparable → ValueMode → Resolve Expr
  | 0, c, _ => r.tooDeep c.span.start
  | levels + 1, c, mode => fun s =>
    r.dynamicBody ⟨r.comparableValue levels, r.groupValue levels, r.dynamicValue levels⟩ c mode s

end

/-- Resolution with so many levels of nesting left. -/
def innerAt (r : Resolver) (levels : Nat) : Inner :=
  ⟨r.comparableValue levels, r.groupValue levels, r.dynamicValue levels⟩

end Resolver

end ListQuery.Filter
