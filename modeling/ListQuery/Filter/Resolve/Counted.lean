/-
Values as they are resolved: one counter holds the levels of nesting that have been entered and not
left. A group, a literal as a value, a value of any type and a segment of a path enter a level each
and leave it when they are done. In all else the routines do what those of the same names do that
are told how many levels are left.
-/
import ListQuery.Filter.Resolve.Value

namespace ListQuery.Filter

open Time

/-- Steps of resolution that count the levels they are in. -/
abbrev Counted := StateT Nat Resolve

namespace Resolver.Counted

/-- Resolution of what is nested. -/
structure Below where
  path : List Leaf → Counted (Selector × Field)
  comparable : Field → Comparable → ValueMode → Counted Expr
  group : Field → Expression → ValueMode → Counted Expr
  dynamic : Comparable → ValueMode → Counted Expr

variable (r : Resolver) (below : Below)

def fail {α : Type} (pos : Position) (cause : ValueCause) : Counted α :=
  liftM (Resolve.fail pos cause : Resolve α)

def enter (pos : Position) : Counted Unit := do
  modify (· + 1)
  if r.options.maxDepth < (← get) then r.tooDeep pos

def leave : Counted Unit := modify (· - 1)

/-! ## Paths -/

/-- A segment of a path, once its level has been entered. -/
def segment (select : Message → List Leaf → Counted (Selector × Field)) (message : Message)
    (leaf : Leaf) (rest : List Leaf) : Counted (Selector × Field) :=
  if !leaf.isIdentifier then fail leaf.pos (.notFieldName leaf.raw)
  else
    match message.field? leaf.unquoted with
    | none => fail leaf.pos (.unknownField leaf.unquoted message.fullName)
    | some field =>
      match rest with
      | [] => pure (⟨.ofField field, []⟩, field)
      | next :: remaining =>
        if field.isMap then
          match field.mapKey, field.mapValue with
          | none, _ => throw (.internal "map field without key descriptor")
          | some _, none => throw (.internal "map field without value descriptor")
          | some key, some value => do
            let k ← mapKey key next
            let step := SelectorStep.key k value.kind
            match remaining with
            | [] => pure (⟨.ofField field, [step]⟩, value)
            | first :: more =>
              match r.schema.messageOf? value with
              | none => fail first.pos (.scalarMapValues leaf.unquoted)
              | some inner => do
                let (sub, last) ← select inner (first :: more)
                pure (⟨.ofField field, step :: .field sub.head :: sub.steps⟩, last)
        else
          match r.schema.messageOf? field with
          | some inner => do
            let (sub, last) ← select inner (next :: remaining)
            pure (stepInto field sub, last)
          | none => fail next.pos (.noSubfield leaf.unquoted field.kind next.unquoted)

/-- The selector of a path in a message, and the field or map value at its end. -/
def select : Nat → Message → List Leaf → Counted (Selector × Field)
  | _, _, [] => throw (.internal "empty field path")
  | 0, _, _ :: _ => throw (.internal "nesting without end")
  | fuel + 1, message, leaf :: rest => do
    enter r leaf.pos
    let found ← segment r (select fuel) message leaf rest
    leave
    return found

def indirect (m : Member) (mode : ValueMode) : Counted Expr := do
  if mode.allowIndirect then
    let (s, _) ← below.path m.path
    return .field s
  else fail m.value.pos .indirect

def indirectOnly (f : Field) (m : Member) (mode : ValueMode) : Counted Expr :=
  if m.value.isIdentifier then indirect below m mode else mismatch f m.value

def numericValue (f : Field) (m : Member) (mode : ValueMode) : Counted Expr := do
  if m.value.kind.isNumber then
    noFields m
    if f.kind.isFloat then return .value (.float64 (← floatLiteral f m.value))
    else return .value (← integerLiteral f m.value).toValue
  else indirectOnly below f m mode

def boolValue (f : Field) (m : Member) (mode : ValueMode) : Counted Expr := do
  if m.value.kind = .bool then
    noFields m
    return .value (.bool (m.value.raw == "true"))
  else indirectOnly below f m mode

def stringValue (m : Member) (mode : ValueMode) : Counted Expr := do
  if r.namesField m mode then indirect below m mode
  else
    noFields m
    return .value (.string m.value.unquoted)

def bytesValue (f : Field) (m : Member) (mode : ValueMode) : Counted Expr := do
  if r.namesField m mode then indirect below m mode
  else
    noFields m
    match m.value.bytes? with
    | some bs => return .value (.bytes bs)
    | none => mismatch f m.value

def enumValue (f : Field) (m : Member) (mode : ValueMode) : Counted Expr := do
  if m.value.kind = .string ∨ m.value.isIdentifier = true then
    match r.schema.enumValue? f m.value.unquoted with
    | some n =>
      noFields m
      return .value (.enum n)
    | none =>
      if r.namesField m mode then indirect below m mode
      else fail m.value.pos (.unknownEnumValue m.value.unquoted f.name)
  else mismatch f m.value

def timestampValue (f : Field) (m : Member) (mode : ValueMode) : Counted Expr := do
  if m.value.kind = .timestamp ∨ m.value.kind = .string then
    noFields m
    match Timestamp.parse? m.value.unquoted with
    | some t => return .value (.timestamp t)
    | none => fail m.value.pos (.notTimestamp m.value.unquoted)
  else indirectOnly below f m mode

def durationValue (f : Field) (m : Member) (mode : ValueMode) : Counted Expr := do
  if m.value.kind = .duration ∨ m.value.kind = .string then
    noFields m
    match Duration.parse? m.value.unquoted with
    | some d => return .value (.duration d)
    | none => fail m.value.pos (.notDuration m.value.unquoted)
  else indirectOnly below f m mode

def memberValue (f : Field) (m : Member) (mode : ValueMode) : Counted Expr :=
  if m.value.kind = .null then nullValue f m mode
  else if f.isMap then indirectOnly below f m mode
  else
    match r.schema.wellKnownOf? f with
    | some .timestamp => timestampValue below f m mode
    | some .duration => durationValue below f m mode
    | some _ => indirectOnly below f m mode
    | none =>
      match f.kind with
      | .bool => boolValue below f m mode
      | .string => stringValue r below m mode
      | .bytes => bytesValue r below f m mode
      | .enum => enumValue r below f m mode
      | .message | .group => indirectOnly below f m mode
      | _ => numericValue below f m mode

def argValue (f : Field) (arg : Arg) (mode : ValueMode) : Counted Expr :=
  match arg with
  | .composite c => below.group f c.expression mode
  | .comparable c => below.comparable f c mode

/-- The arguments of a call, the first of them at place `index`. -/
def callArgs (s : Signature) (mode : ValueMode) : Nat → List Arg → Counted (List Expr)
  | _, [] => pure []
  | index, arg :: args =>
    match s.parameter? index with
    | none => throw (.internal "missing parameter descriptor")
    | some param => do
      let e ← argValue below param arg mode.required
      let es ← callArgs s mode (index + 1) args
      pure (e :: es)

def plainCall (c : Call) (name : String) (target : Option Field) (mode : ValueMode) :
    Counted Expr :=
  match r.options.function? name with
  | none => fail c.span.start (.unknownFunction name)
  | some s =>
    if !s.acceptsArity c.args.length then
      fail c.span.start (.arity name s.parameters.length c.args.length)
    else do
      let args ← callArgs below s mode 0 c.args
      let call := Expr.call s.package s.name args s.complexity
      match target, s.result with
      | some target, some result =>
        if kindsCompatible r.schema result target then pure call
        else fail c.span.start (.resultKind name result.kind target.name target.kind)
      | _, _ => pure call

def call (c : Call) (target : Option Field) (mode : ValueMode) : Counted Expr := do
  let name := joinPath .unquoted c.name
  match lookup? name r.options.callHooks with
  | none => plainCall r below c name target mode
  | some hook =>
    match ← hook ⟨c, name, target, mode.allowIndirect⟩ with
    | some e => pure e
    | none => plainCall r below c name target mode

def callValue (c : Call) (target : Option Field) (mode : ValueMode) : Counted Expr := do
  let e ← call r below c target mode
  if e.isIndirect && !mode.allowIndirect then fail c.span.start .indirect else pure e

/-- The entries of a map of any values, behind entries with the keys `seen`. -/
def dynamicEntries (mode : ValueMode) :
    List String → List StructEntry → Counted (List (Expr × Expr))
  | _, [] => pure []
  | seen, entry :: entries => do
    let key := entry.name.unquoted
    if seen.contains key then fail entry.name.pos (.duplicateKey key)
    else
      let value ← below.dynamic entry.value mode
      let rest ← dynamicEntries mode (key :: seen) entries
      return (.value (.string key), value) :: rest

def dynamicMap (s : StructLiteral) (mode : ValueMode) : Counted Expr := do
  checkStructName s WellKnown.struct.fullName true
  return .map (← dynamicEntries below mode [] s.entries)

/-- The seconds and nanoseconds that entries give, behind those that have been given. -/
def instantEntries (w : WellKnown) (message : Message) :
    Option Int → Option Int → List StructEntry → Counted (Int × Int)
  | seconds, nanos, [] => pure (seconds.getD 0, nanos.getD 0)
  | seconds, nanos, entry :: entries => do
    let name := entry.name.unquoted
    if name ≠ "seconds" ∧ name ≠ "nanos" then
      fail entry.name.pos (.unknownField name w.fullName)
    else if (if name = "seconds" then seconds else nanos).isSome then
      fail entry.name.pos (.duplicateField name)
    else
      match message.field? name with
      | none => throw (.internal "well-known message is missing a field")
      | some sub =>
        match ← below.comparable sub entry.value .direct with
        | .value (.int64 n) =>
          if name = "seconds" then instantEntries w message (some n) nanos entries
          else instantEntries w message seconds (some n) entries
        | _ => fail entry.name.pos (.needsInteger name)

def instant (f : Field) (s : StructLiteral) (w : WellKnown) : Counted (Int × Int) := do
  checkStructName s w.fullName true
  match r.schema.messageOf? f with
  | none => throw (.internal "well-known field without message descriptor")
  | some message => instantEntries below w message none none s.entries

def timestampStruct (f : Field) (s : StructLiteral) : Counted Expr := do
  let (seconds, nanos) ← instant r below f s .timestamp
  let moment := if nanos < 0 then none else Timestamp.ofUnix? seconds nanos.toNat
  match moment with
  | some t => return .value (.timestamp t)
  | none => fail s.span.start .timestampRange

def durationStruct (f : Field) (s : StructLiteral) : Counted Expr := do
  let (seconds, nanos) ← instant r below f s .duration
  match Duration.ofSum? seconds nanos with
  | some d => return .value (.duration d)
  | none => fail s.span.start .durationRange

/-- The fields of a message literal, behind fields with the names `seen`. -/
def messageEntries (message : Message) (mode : ValueMode) :
    List String → List StructEntry → Counted (List (String × Expr))
  | _, [] => pure []
  | seen, entry :: entries => do
    let name := entry.name.unquoted
    match message.field? name with
    | none => fail entry.name.pos (.unknownField name message.fullName)
    | some sub =>
      if seen.contains name then fail entry.name.pos (.duplicateField name)
      else
        let value ← below.comparable sub entry.value mode.required
        let rest ← messageEntries message mode (name :: seen) entries
        return (name, value) :: rest

def messageStruct (f : Field) (s : StructLiteral) (mode : ValueMode) : Counted Expr := do
  match r.schema.messageOf? f with
  | none => throw (.internal "message field without message descriptor")
  | some message =>
    checkStructName s message.fullName false
    return .value (.message message.fullName (← messageEntries below message mode [] s.entries))

/-- The entries of a map literal, behind entries with the keys `seen`. -/
def mapEntries (key value : Field) (mode : ValueMode) :
    List MapKey → List StructEntry → Counted (List (Expr × Expr))
  | _, [] => pure []
  | seen, entry :: entries => do
    let k ← mapKey key entry.name
    if seen.contains k then fail entry.name.pos (.duplicateKey entry.name.unquoted)
    else
      let v ← below.comparable value entry.value mode
      let rest ← mapEntries key value mode (k :: seen) entries
      return (.value k.toValue, v) :: rest

def mapStruct (f : Field) (s : StructLiteral) (mode : ValueMode) : Counted Expr := do
  if !s.name.isEmpty then fail s.span.start (.namedMap f.name)
  else
    match f.mapKey, f.mapValue with
    | none, _ => throw (.internal "map field without key descriptor")
    | some _, none => throw (.internal "map field without value descriptor")
    | some key, some value => return .map (← mapEntries below key value mode [] s.entries)

def structValue (f : Field) (s : StructLiteral) (mode : ValueMode) : Counted Expr :=
  if f.isMap then mapStruct below f s mode
  else
    match r.schema.wellKnownOf? f with
    | some .timestamp => timestampStruct r below f s
    | some .duration => durationStruct r below f s
    | some .struct => dynamicMap below s mode
    | some .value => below.dynamic (.struct s) mode
    | none =>
      if f.kind.isMessage then messageStruct r below f s mode
      else fail s.span.start (.notScalar f.kind f.name)

/-! ## Values -/

/-- A comparable as a value of a field, once its level has been entered. -/
def comparableBody (f : Field) (c : Comparable) (mode : ValueMode) : Counted Expr :=
  match c with
  | .array a =>
    if f.isMap then fail a.span.start (.arrayForMap f.name)
    else do return .array (← a.elements.mapM fun e => below.comparable f e mode)
  | .call c => callValue r below c (some f) mode
  | .struct s => structValue r below f s mode
  | .member m =>
    if r.schema.wellKnownOf? f = some .value then below.dynamic (.member m) mode
    else memberValue r below f m mode

/-- A group in parentheses as values of a field, once its level has been entered. -/
def groupBody (f : Field) (e : Expression) (mode : ValueMode) : Counted Expr := do
  let sequences ← e.sequences.mapM fun s => do
    let factors ← s.factors.mapM fun x => do
      let terms ← x.terms.mapM fun t => do
        let value ← match t.simple with
          | .composite c => below.group f c.expression mode
          | .restriction r =>
            match r.comparison with
            | some c => fail c.pos .comparisonInGroup
            | none => below.comparable f r.comparable mode
        return if t.unary.isSome then .not value else value
      return Expr.disjunction terms
    return Expr.conjunction factors
  return Expr.conjunction sequences

/-- A comparable as any value, once its level has been entered. -/
def dynamicBody (c : Comparable) (mode : ValueMode) : Counted Expr :=
  match c with
  | .member m => do
    noFields m
    return .value (dynamicLeaf m.value)
  | .struct s => dynamicMap below s mode
  | .array a => do return .array (← a.elements.mapM fun e => below.dynamic e mode)
  | .call c => callValue r below c none mode

/-! Each nesting enters a level, so one step of fuel more than there are levels is never used up. -/

mutual

def comparableValue : Nat → Field → Comparable → ValueMode → Counted Expr
  | 0, _, _, _ => throw (.internal "nesting without end")
  | fuel + 1, f, c, mode => fun depth => (do
    enter r c.span.start
    let e ← comparableBody r ⟨select r fuel r.root, comparableValue fuel, groupValue fuel,
      dynamicValue fuel⟩ f c mode
    leave
    return e : Counted Expr) depth

def groupValue : Nat → Field → Expression → ValueMode → Counted Expr
  | 0, _, _, _ => throw (.internal "nesting without end")
  | fuel + 1, f, e, mode => fun depth => (do
    enter r e.span.start
    let e ← groupBody ⟨select r fuel r.root, comparableValue fuel, groupValue fuel,
      dynamicValue fuel⟩ f e mode
    leave
    return e : Counted Expr) depth

def dynamicValue : Nat → Comparable → ValueMode → Counted Expr
  | 0, _, _ => throw (.internal "nesting without end")
  | fuel + 1, c, mode => fun depth => (do
    enter r c.span.start
    let e ← dynamicBody r ⟨select r fuel r.root, comparableValue fuel, groupValue fuel,
      dynamicValue fuel⟩ c mode
    leave
    return e : Counted Expr) depth

end

/-- Resolution of what is nested, with so many steps of fuel. -/
def nested (fuel : Nat) : Below :=
  ⟨select r fuel r.root, comparableValue r fuel, groupValue r fuel, dynamicValue r fuel⟩

end Resolver.Counted

end ListQuery.Filter
