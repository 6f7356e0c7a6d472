/-
What resolving a filter depends on besides its schema: the functions that may be called, and hooks
that take over the resolution of some fields and calls.
-/
import ListQuery.Filter.Expr
import ListQuery.Filter.Parse.Options
import ListQuery.Filter.Resolve.Cause
import ListQuery.Filter.Tree.Written
import ListQuery.Schema.Build

namespace ListQuery.Filter

/-- Steps of resolution. A failure keeps the reports that were made. -/
abbrev Resolve := EStateM FilterError (List (Report ValueCause))

/-- Fails with a report. -/
def Resolve.fail {α : Type} (pos : Position) (cause : ValueCause) : Resolve α := fun reports =>
  .error (.invalidValue pos) (reports ++ [⟨pos, cause⟩])

/-- A function: its parameters and its result are described as fields. -/
structure Signature where
  package : String := ""
  name : String
  parameters : List Field := []
  /-- The last parameter may be given any number of times. -/
  variadic : Bool := false
  result : Option Field := none
  complexity : Nat := 1

namespace Signature

/-- The name with its package. -/
def qualifiedName (s : Signature) : String :=
  if s.package.isEmpty then s.name else s.package ++ "." ++ s.name

/-- A field of a kind, for parameters and results that are in no schema. -/
def scalar (name : String) (kind : FieldKind) (nullable : Bool) : Field := { name, kind, nullable }

/-- Adds a parameter of a kind; it is named by its place. -/
def param (s : Signature) (kind : FieldKind) : Signature :=
  let name := "arg" ++ Text.decimal s.parameters.length
  { s with parameters := s.parameters ++ [scalar name kind false] }

/-- Adds a parameter. -/
def paramField (s : Signature) (f : Field) : Signature :=
  { s with parameters := s.parameters ++ [f] }

def acceptsArity (s : Signature) (count : Nat) : Bool :=
  if s.variadic && !s.parameters.isEmpty then decide (s.parameters.length - 1 ≤ count)
  else count == s.parameters.length

/-- The parameter that takes the argument at a place. -/
def parameter? (s : Signature) (index : Nat) : Option Field :=
  match s.parameters[index]? with
  | some f => some f
  | none => if s.variadic then s.parameters.getLast? else none

end Signature

/-- Whether a value of one field can stand for a value of another. -/
def kindsCompatible (schema : Schema) (source target : Field) : Bool :=
  let a := source.kind
  let b := target.kind
  if a.isMessage && b.isMessage then
    match schema.messageOf? source, schema.messageOf? target with
    | some x, some y => x.fullName == y.fullName
    | _, _ => false
  else
    a == b || (a.isSigned && b.isSigned) || (a.isUnsigned && b.isUnsigned) ||
      (a.isFloat && b.isFloat)

/-- A comparison whose left side is a hooked field. -/
structure FieldHookContext where
  restriction : Restriction
  comparison : Comparison
  /-- The field at the end of the left side. -/
  field : Field
  selector : Selector
  allowIndirect : Bool
  /-- Resolves the right side as a value of the field. -/
  defaultValue : Resolve Expr

/-- The right side as written, without quotes. -/
def FieldHookContext.argText (c : FieldHookContext) : String := c.comparison.arg.render .unquoted

/-- A call of a hooked function. -/
structure CallHookContext where
  call : Call
  /-- The dotted name as written. -/
  name : String
  /-- The field that the result is compared with. -/
  target : Option Field
  allowIndirect : Bool

namespace CallHookContext

def argCount (c : CallHookContext) : Nat := c.call.args.length

/-- An argument as written, without quotes. -/
def argText? (c : CallHookContext) (index : Nat) : Option String :=
  c.call.args[index]?.map (Arg.render .unquoted)

end CallHookContext

/-- A hook that gives nothing leaves the resolution as it is. -/
abbrev FieldHook := FieldHookContext → Resolve (Option Expr)

abbrev CallHook := CallHookContext → Resolve (Option Expr)

/-! ## Options -/

/-- Adds an entry to a table; it replaces one with its name. -/
def register {α : Type} (name : String) (a : α) (table : List (String × α)) : List (String × α) :=
  (name, a) :: table.filter fun e => e.1 != name

def lookup? {α : Type} (name : String) (table : List (String × α)) : Option α :=
  (table.find? fun e => e.1 == name).map (·.2)

structure ResolverOptions where
  /-- Fields may stand where values are expected. -/
  allowIndirect : Bool := false
  maxDepth : Nat := defaultMaxDepth
  fieldHooks : List (String × FieldHook) := []
  callHooks : List (String × CallHook) := []
  functions : List (String × Signature) := []

namespace ResolverOptions

/-- Hooks the comparisons of a dotted field. -/
def withFieldHook (o : ResolverOptions) (path : String) (hook : FieldHook) : ResolverOptions :=
  { o with fieldHooks := register path hook o.fieldHooks }

/-- Hooks the calls of a dotted name. -/
def withCallHook (o : ResolverOptions) (name : String) (hook : CallHook) : ResolverOptions :=
  { o with callHooks := register name hook o.callHooks }

/-- Makes a function known by its name with its package. -/
def withFunction (o : ResolverOptions) (s : Signature) : ResolverOptions :=
  { o with functions := register s.qualifiedName s o.functions }

def function? (o : ResolverOptions) (name : String) : Option Signature := lookup? name o.functions

open Json.Raw (record? defaulted? bool? nat?) in
/-- Options as a record, each member with its default. -/
def ofRaw? (r : Json.Raw) : Option ResolverOptions := do
  match ← record? ["allow_indirect", "max_depth"] Json.maxDepth r with
  | [indirect, depth] =>
    some {
      allowIndirect := ← defaulted? false bool? indirect
      maxDepth := ← defaulted? defaultMaxDepth (nat? Number.Word.maxNat64) depth }
  | _ => none

open Text in
/-- The names of a table in order. -/
def shownNames {α : Type} (table : List (String × α)) : String :=
  shownList (((table.map (·.1)).mergeSort fun a b => decide (a ≤ b)).map shown)

open Text in
/-- Options shown for inspection; `listening` says whether somebody takes the reports. -/
def shown (o : ResolverOptions) (listening : Bool) : String :=
  shownRecord "ResolverOptions" [
    ("allow_indirect", shownBool o.allowIndirect),
    ("max_depth", decimal o.maxDepth),
    ("error_callback", shownBool listening),
    ("field_hooks", shownNames o.fieldHooks),
    ("function_hooks", shownNames o.callHooks),
    ("functions", shownNames o.functions)]

end ResolverOptions

/-- Resolves filters for one root message of a schema. -/
structure Resolver where
  schema : Schema
  root : Message
  options : ResolverOptions := {}

namespace Resolver

/-- The failure of a nesting that goes too deep. -/
def tooDeep {α : Type} (r : Resolver) (pos : Position) : Resolve α :=
  Resolve.fail pos (.tooDeep r.options.maxDepth)

/-- A resolver shown for inspection. -/
def shown (r : Resolver) (listening : Bool) : String :=
  Text.shownRecord "Resolver" [
    ("root", Text.shown r.root.fullName), ("options", r.options.shown listening)]

end Resolver

end ListQuery.Filter
