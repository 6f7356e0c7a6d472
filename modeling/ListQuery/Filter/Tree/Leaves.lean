/-
The leaves of a tree in the order of the text.
-/
import ListQuery.Filter.Tree

namespace ListQuery.Filter

mutual

def Expression.leaves : Expression → List Leaf
  | ⟨_, sequences⟩ => sequenceLeaves sequences

def sequenceLeaves : List Sequence → List Leaf
  | [] => []
  | s :: ss => s.leaves ++ sequenceLeaves ss

def Sequence.leaves : Sequence → List Leaf
  | ⟨_, factors⟩ => factorLeaves factors

def factorLeaves : List Factor → List Leaf
  | [] => []
  | f :: fs => f.leaves ++ factorLeaves fs

def Factor.leaves : Factor → List Leaf
  | ⟨_, terms⟩ => termLeaves terms

def termLeaves : List Term → List Leaf
  | [] => []
  | t :: ts => t.leaves ++ termLeaves ts

def Term.leaves : Term → List Leaf
  | ⟨_, _, simple, _⟩ => simple.leaves

def Simple.leaves : Simple → List Leaf
  | .restriction r => r.leaves
  | .composite c => c.leaves

def Restriction.leaves : Restriction → List Leaf
  | ⟨_, comparable, none⟩ => comparable.leaves
  | ⟨_, comparable, some comparison⟩ => comparable.leaves ++ comparison.leaves

def Comparison.leaves : Comparison → List Leaf
  | ⟨_, _, arg⟩ => arg.leaves

def Composite.leaves : Composite → List Leaf
  | ⟨_, expression⟩ => expression.leaves

def Comparable.leaves : Comparable → List Leaf
  | .member m => m.path
  | .call c => c.leaves
  | .struct s => s.leaves
  | .array a => a.leaves

def Arg.leaves : Arg → List Leaf
  | .composite c => c.leaves
  | .comparable c => c.leaves

def argLeaves : List Arg → List Leaf
  | [] => []
  | a :: as => a.leaves ++ argLeaves as

def Call.leaves : Call → List Leaf
  | ⟨_, name, args⟩ => name ++ argLeaves args

def StructLiteral.leaves : StructLiteral → List Leaf
  | ⟨_, name, entries⟩ => name ++ entryLeaves entries

def entryLeaves : List StructEntry → List Leaf
  | [] => []
  | e :: es => e.leaves ++ entryLeaves es

def StructEntry.leaves : StructEntry → List Leaf
  | ⟨name, value⟩ => name :: value.leaves

def ArrayLiteral.leaves : ArrayLiteral → List Leaf
  | ⟨_, elements⟩ => elementLeaves elements

def elementLeaves : List Comparable → List Leaf
  | [] => []
  | c :: cs => c.leaves ++ elementLeaves cs

end

end ListQuery.Filter
