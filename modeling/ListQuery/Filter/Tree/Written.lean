/-
The canonical written form of a tree: the tokens that spell it, with one blank where the grammar
wants blanks and none elsewhere. The text of a tree is these tokens one behind the other, and what
the tree was read from is these tokens without the blanks.
-/
import ListQuery.Filter.Tree

namespace ListQuery.Filter

/-- A token of a written form: it has no place yet. -/
structure Piece where
  kind : Kind
  text : String
deriving DecidableEq, Repr

namespace Piece

def blank : Piece := ⟨.whitespace, " "⟩
def comma : Piece := ⟨.comma, ","⟩
def dot : Piece := ⟨.dot, "."⟩
def colon : Piece := ⟨.has, ":"⟩

def ofLeaf (q : Quoting) (l : Leaf) : Piece := ⟨l.kind, l.write q⟩

/-- A dotted name. -/
def ofPath (q : Quoting) (path : List Leaf) : List Piece :=
  [dot].intercalate (path.map fun l => [ofLeaf q l])

def ofUnary : Option UnaryOp → List Piece
  | some .minus => [⟨.minus, "-"⟩]
  | some .not => [⟨.notWord, "NOT"⟩, blank]
  | none => []

/-- A comparator, with blanks around it but for the colon. -/
def ofComparator : Comparator → List Piece
  | .has => [colon]
  | c => [blank, ⟨c.kind, c.text⟩, blank]

/-- The text of a run of pieces. -/
def render (ps : List Piece) : String := String.join (ps.map Piece.text)

end Piece

open Piece

mutual

def Expression.written (q : Quoting) : Expression → List Piece
  | ⟨_, sequences⟩ => [blank, ⟨.andWord, "AND"⟩, blank].intercalate (writtenSequences q sequences)

def writtenSequences (q : Quoting) : List Sequence → List (List Piece)
  | [] => []
  | s :: ss => s.written q :: writtenSequences q ss

def Sequence.written (q : Quoting) : Sequence → List Piece
  | ⟨_, factors⟩ => [blank].intercalate (writtenFactors q factors)

def writtenFactors (q : Quoting) : List Factor → List (List Piece)
  | [] => []
  | f :: fs => f.written q :: writtenFactors q fs

def Factor.written (q : Quoting) : Factor → List Piece
  | ⟨_, terms⟩ => [blank, ⟨.orWord, "OR"⟩, blank].intercalate (writtenTerms q terms)

def writtenTerms (q : Quoting) : List Term → List (List Piece)
  | [] => []
  | t :: ts => t.written q :: writtenTerms q ts

def Term.written (q : Quoting) : Term → List Piece
  | ⟨_, unary, simple, _⟩ => ofUnary unary ++ simple.written q

def Simple.written (q : Quoting) : Simple → List Piece
  | .restriction r => r.written q
  | .composite c => c.written q

def Restriction.written (q : Quoting) : Restriction → List Piece
  | ⟨_, comparable, none⟩ => comparable.written q
  | ⟨_, comparable, some comparison⟩ => comparable.written q ++ comparison.written q

def Comparison.written (q : Quoting) : Comparison → List Piece
  | ⟨comparator, _, arg⟩ => ofComparator comparator ++ arg.written q

def Composite.written (q : Quoting) : Composite → List Piece
  | ⟨_, expression⟩ => ⟨.leftParen, "("⟩ :: expression.written q ++ [⟨.rightParen, ")"⟩]

def Comparable.written (q : Quoting) : Comparable → List Piece
  | .member m => ofPath q m.path
  | .call c => c.written q
  | .struct s => s.written q
  | .array a => a.written q

def Arg.written (q : Quoting) : Arg → List Piece
  | .composite c => c.written q
  | .comparable c => c.written q

def writtenArgs (q : Quoting) : List Arg → List (List Piece)
  | [] => []
  | a :: as => a.written q :: writtenArgs q as

def Call.written (q : Quoting) : Call → List Piece
  | ⟨_, name, args⟩ =>
    ofPath q name ++ ⟨.leftParen, "("⟩ :: [comma].intercalate (writtenArgs q args) ++
      [⟨.rightParen, ")"⟩]

def StructLiteral.written (q : Quoting) : StructLiteral → List Piece
  | ⟨_, name, entries⟩ =>
    ofPath q name ++ ⟨.leftBrace, "\x7b"⟩ :: [comma].intercalate (writtenEntries q entries) ++
      [⟨.rightBrace, "\x7d"⟩]

def writtenEntries (q : Quoting) : List StructEntry → List (List Piece)
  | [] => []
  | e :: es => e.written q :: writtenEntries q es

def StructEntry.written (q : Quoting) : StructEntry → List Piece
  | ⟨name, value⟩ => ofLeaf q name :: colon :: value.written q

def ArrayLiteral.written (q : Quoting) : ArrayLiteral → List Piece
  | ⟨_, elements⟩ =>
    ⟨.leftBracket, "["⟩ :: [comma].intercalate (writtenElements q elements) ++
      [⟨.rightBracket, "]"⟩]

def writtenElements (q : Quoting) : List Comparable → List (List Piece)
  | [] => []
  | c :: cs => c.written q :: writtenElements q cs

end

def Expression.render (q : Quoting) (e : Expression) : String := Piece.render (e.written q)

def Comparable.render (q : Quoting) (c : Comparable) : String := Piece.render (c.written q)

def Arg.render (q : Quoting) (a : Arg) : String := Piece.render (a.written q)

end ListQuery.Filter
