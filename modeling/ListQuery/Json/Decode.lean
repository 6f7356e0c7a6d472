/-
Reading records, choices and numbers from a JSON text. A record is an object, whose members may come
in any order and among others but not twice, or an array of its members in the order in which they
are declared. Each step into an array or an object uses up one level of `depth`.
-/
import ListQuery.Json.Value

namespace ListQuery.Json.Raw

/-- The members of a record that are there, in the order of `names`. -/
def slots? (names : List String) : Raw → Option (List (Option Raw))
  | .array items =>
    if items.length ≤ names.length then
      some (items.map some ++ List.replicate (names.length - items.length) none)
    else none
  | .object members => do
    let members ← members.mapM fun m => do
      let name ← text? m.1
      some (name, m.2)
    names.mapM fun name =>
      match members.filter fun m => m.1 == name with
      | [] => some none
      | [m] => some (some m.2)
      | _ => none
  | _ => none

/-- The members of a record, one level down. -/
def record? (names : List String) (depth : Nat) (r : Raw) : Option (List (Option Raw)) :=
  if depth = 0 then none else slots? names r

/-- A member that has to be there. -/
def required? {α : Type} (decode : Raw → Option α) : Option Raw → Option α
  | some r => decode r
  | none => none

/-- A member that may be left out. -/
def defaulted? {α : Type} (default : α) (decode : Raw → Option α) : Option Raw → Option α
  | some r => decode r
  | none => some default

/-- A member that may be left out or null. -/
def optional? {α : Type} (decode : Raw → Option α) : Option Raw → Option (Option α)
  | none => some none
  | some .null => some none
  | some r => (decode r).map some

def bool? : Raw → Option Bool
  | .bool b => some b
  | _ => none

def str? : Raw → Option String
  | .string content => text? content
  | _ => none

/-- A whole number from `low` to `high`. -/
def int? (low high : Int) : Raw → Option Int
  | .number n =>
    match n.value? with
    | some (.int n) => if low ≤ n ∧ n ≤ high then some n else none
    | _ => none
  | _ => none

def nat? (high : Nat) (r : Raw) : Option Nat := (int? 0 high r).map Int.toNat

/-- The items of an array, one level down. -/
def list? {α : Type} (depth : Nat) (decode : Raw → Option α) : Raw → Option (List α)
  | .array items => if depth = 0 then none else items.mapM decode
  | _ => none

/-- One of a few named choices: its name, or an object with that name and null. -/
def choice? {α : Type} (depth : Nat) (ofName : String → Option α) : Raw → Option α
  | .string content => (text? content).bind ofName
  | .object [(name, .null)] => if depth = 0 then none else (text? name).bind ofName
  | _ => none

end ListQuery.Json.Raw
