/-
Binding dotted paths to fields. Each segment that names a field uses up one level of nesting, since
messages may hold themselves and paths may be as long as one likes.
-/
import ListQuery.Filter.Resolve.Literal

namespace ListQuery.Filter

namespace Resolver

/-- A selector whose first step is `f`, put before another selector. -/
def stepInto (f : Field) (s : Selector) : Selector :=
  ⟨.ofField f, .field s.head :: s.steps⟩

/-- The selector of a path in a message, and the field or map value at its end. -/
def select (r : Resolver) (levels : Nat) (message : Message) :
    List Leaf → Resolve (Selector × Field)
  | [] => throw (.internal "empty field path")
  | leaf :: rest =>
    match levels with
    | 0 => r.tooDeep leaf.pos
    | levels + 1 =>
      if !leaf.isIdentifier then Resolve.fail leaf.pos (.notFieldName leaf.raw)
      else
        match message.field? leaf.unquoted with
        | none => Resolve.fail leaf.pos (.unknownField leaf.unquoted message.fullName)
        | some field =>
          match rest with
          | [] => pure (⟨.ofField field, []⟩, field)
          | next :: remaining =>
            if field.isMap then
              match field.mapKey, field.mapValue with
              | none, _ => throw (.internal "map field without key descriptor")
              | some _, none => throw (.internal "map field without value descriptor")
              | some key, some value => do
                let k ← mapKey key next
                let step := SelectorStep.key k value.kind
                match remaining with
                | [] => pure (⟨.ofField field, [step]⟩, value)
                | first :: more =>
                  match r.schema.messageOf? value with
                  | none => Resolve.fail first.pos (.scalarMapValues leaf.unquoted)
                  | some inner => do
                    let (sub, last) ← select r levels inner (first :: more)
                    pure (⟨.ofField field, step :: .field sub.head :: sub.steps⟩, last)
            else
              match r.schema.messageOf? field with
              | some inner => do
                let (sub, last) ← select r levels inner (next :: remaining)
                pure (stepInto field sub, last)
              | none =>
                Resolve.fail next.pos (.noSubfield leaf.unquoted field.kind next.unquoted)

/-- The selector of a path in the root message. -/
def selectRoot (r : Resolver) (levels : Nat) (path : List Leaf) : Resolve (Selector × Field) :=
  r.select levels r.root path

end Resolver

end ListQuery.Filter
