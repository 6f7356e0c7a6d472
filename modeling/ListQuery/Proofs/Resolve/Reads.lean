/-
What an expression takes from a record: the fields that it reads and the calls that it makes, at any
depth. An expression without any is the same for all records, and it costs nothing.
-/
import ListQuery.Filter.Expr

namespace ListQuery.Filter

mutual

/-- The fields that are read and the calls that are made, at any depth. -/
def Expr.reads : Expr → List Expr
  | .field s => [.field s]
  | .call package name args cost => .call package name args cost :: itemReads args
  | .value v => v.reads
  | .compare left _ right => left.reads ++ right.reads
  | .not item => item.reads
  | .and items => itemReads items
  | .or items => itemReads items
  | .array items => itemReads items
  | .map entries => entryReads entries

def Value.reads : Value → List Expr
  | .message _ fields => fieldReads fields
  | _ => []

def itemReads : List Expr → List Expr
  | [] => []
  | e :: es => e.reads ++ itemReads es

def entryReads : List (Expr × Expr) → List Expr
  | [] => []
  | (k, v) :: es => k.reads ++ v.reads ++ entryReads es

def fieldReads : List (String × Expr) → List Expr
  | [] => []
  | (_, v) :: fs => v.reads ++ fieldReads fs

end

theorem itemReads_eq_nil {es : List Expr} (h : ∀ e ∈ es, e.reads = []) : itemReads es = [] := by
  induction es with
  | nil => rfl
  | cons e es ih =>
    rw [itemReads, h e List.mem_cons_self, ih fun e he => h e (List.mem_cons_of_mem _ he),
      List.append_nil]

mutual

theorem Expr.plain_of_reads : ∀ e : Expr, e.reads = [] → e.isIndirect = false ∧ e.complexity = 0
  | .field _, h => by cases h
  | .call .., h => by cases h
  | .value v, h => v.plain_of_reads h
  | .compare left c right, h => by
    obtain ⟨hleft, hright⟩ := List.append_eq_nil_iff.1 h
    obtain ⟨-, hcost⟩ := left.plain_of_reads hleft
    obtain ⟨hdirect, hcost'⟩ := right.plain_of_reads hright
    exact ⟨hdirect, by rw [Expr.complexity, hcost, hcost']⟩
  | .not item, h => item.plain_of_reads h
  | .and items, h => plain_of_itemReads items h
  | .or items, h => plain_of_itemReads items h
  | .array items, h => plain_of_itemReads items h
  | .map entries, h => plain_of_entryReads entries h

theorem Value.plain_of_reads : ∀ v : Value, v.reads = [] → v.isIndirect = false ∧ v.complexity = 0
  | .message _ fields, h => plain_of_fieldReads fields h
  | .null, _ | .bool _, _ | .int64 _, _ | .uint64 _, _ | .float64 _, _ | .string _, _ | .bytes _, _
  | .timestamp _, _ | .duration _, _ | .enum _, _ => ⟨rfl, rfl⟩

theorem plain_of_itemReads : ∀ es : List Expr, itemReads es = [] →
    anyIndirect es = false ∧ totalComplexity es = 0
  | [], _ => ⟨rfl, rfl⟩
  | e :: es, h => by
    obtain ⟨he, hes⟩ := List.append_eq_nil_iff.1 h
    obtain ⟨hdirect, hcost⟩ := e.plain_of_reads he
    obtain ⟨hdirect', hcost'⟩ := plain_of_itemReads es hes
    exact ⟨by rw [anyIndirect, hdirect, hdirect']; rfl, by rw [totalComplexity, hcost, hcost']⟩

theorem plain_of_entryReads : ∀ es : List (Expr × Expr), entryReads es = [] →
    anyEntryIndirect es = false ∧ entriesComplexity es = 0
  | [], _ => ⟨rfl, rfl⟩
  | (k, v) :: es, h => by
    obtain ⟨hkv, hes⟩ := List.append_eq_nil_iff.1 h
    obtain ⟨hk, hv⟩ := List.append_eq_nil_iff.1 hkv
    obtain ⟨hdirect, hcost⟩ := k.plain_of_reads hk
    obtain ⟨hdirect', hcost'⟩ := v.plain_of_reads hv
    obtain ⟨hdirect'', hcost''⟩ := plain_of_entryReads es hes
    exact ⟨by rw [anyEntryIndirect, hdirect, hdirect', hdirect'']; rfl,
      by rw [entriesComplexity, hcost, hcost', hcost'']⟩

theorem plain_of_fieldReads : ∀ fs : List (String × Expr), fieldReads fs = [] →
    anyFieldIndirect fs = false ∧ fieldsComplexity fs = 0
  | [], _ => ⟨rfl, rfl⟩
  | (_, v) :: fs, h => by
    obtain ⟨hv, hfs⟩ := List.append_eq_nil_iff.1 h
    obtain ⟨hdirect, hcost⟩ := v.plain_of_reads hv
    obtain ⟨hdirect', hcost'⟩ := plain_of_fieldReads fs hfs
    exact ⟨by rw [anyFieldIndirect, hdirect, hdirect']; rfl,
      by rw [fieldsComplexity, hcost, hcost']⟩

end

end ListQuery.Filter
