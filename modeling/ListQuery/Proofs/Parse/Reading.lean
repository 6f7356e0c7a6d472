/-
Filters of one comparison are read. Where the grammar takes a text for a comparable, it takes the
comparison of any dotted name with that text for a filter of this one comparison, if it may go one
level deeper (`exists_parse_comparison`). Leaves alone are comparables (`gets_member`), and so are
records of leaves (`gets_record`).
-/
import ListQuery.Proofs.Parse.Comparisons

namespace ListQuery.Filter

open Piece

namespace Parser

variable {α : Type} {o : ParserOptions} {n : Nat} {ps : List Piece}

/-- A step that gives nothing at the end of a text is not repeated there. -/
theorem gets_many_none {step : Parser (Option α)} (h : Gets step ps (· = none) ps) :
    Gets (many step) ps (· = []) ps :=
  (gets_many (u := id) (.nil h) (Nat.zero_le _)).mono fun as has => by simpa using has

theorem gets_nextFactor_none (h : headKind ps ≠ .whitespace) :
    Gets (nextFactor o (innerAt o n)) ps (· = none) ps := by
  unfold nextFactor
  refine gets_get.bind fun saved _ => ?_
  refine (gets_skipBlank_none h).bind fun x hx => ?_
  subst hx
  exact .pure rfl

theorem gets_orTerm_none (h : isOperator .orWord (unblank ps) = false) :
    Gets (orTerm o (innerAt o n)) ps (· = none) ps := by
  unfold orTerm
  refine (gets_joiner_none h).bind fun x hx => ?_
  subst hx
  exact .pure rfl

theorem gets_andSequence_none (h : isOperator .andWord (unblank ps) = false) :
    Gets (andSequence o (innerAt o n)) ps (· = none) ps := by
  unfold andSequence
  refine (gets_joiner_none h).bind fun x hx => ?_
  subst hx
  exact .pure rfl

/-- What is read as a simple expression up to its end is read as a filter. -/
theorem gets_filter_single (hdepth : o.maxDepth = n + 1) {P : Simple → Prop}
    (h : Gets (simple o (innerAt o n)) ps P []) (hblank : headKind ps ≠ .whitespace)
    (hempty : headKind ps ≠ .eof) (hnot : isOperator .notWord ps = false)
    (hminus : headKind ps ≠ .minus) :
    Gets (filter o) ps (fun x => ∃ e y, x = some e ∧ e.Single y ∧ P y) [] := by
  have hterm : Gets (term o (innerAt o n)) ps
      (fun t => ∃ d y, t = ⟨d, none, y, none⟩ ∧ P y) [] := by
    unfold term
    refine gets_peek.bind fun _ _ => (gets_unary_none hnot hminus).bind fun u hu => ?_
    subst hu
    exact h.bind fun y hy => (gets_spanFrom _).bind fun d _ => .pure ⟨d, y, rfl, hy⟩
  have hfactor : Gets (factor o (innerAt o n)) ps
      (fun f => ∃ c d y, f = ⟨c, [⟨d, none, y, none⟩]⟩ ∧ P y) [] := by
    unfold factor
    refine gets_peek.bind fun _ _ => hterm.bind fun t ht => ?_
    obtain ⟨d, y, rfl, hy⟩ := ht
    refine (gets_many_none (gets_orTerm_none rfl)).bind fun ts hts => ?_
    subst hts
    exact (gets_spanFrom _).bind fun c _ => .pure ⟨c, d, y, rfl, hy⟩
  have hsequence : Gets (sequence o (innerAt o n)) ps
      (fun s => ∃ b c d y, s = ⟨b, [⟨c, [⟨d, none, y, none⟩]⟩]⟩ ∧ P y) [] := by
    unfold sequence
    refine gets_peek.bind fun _ _ => hfactor.bind fun f hf => ?_
    obtain ⟨c, d, y, rfl, hy⟩ := hf
    refine (gets_many_none (gets_nextFactor_none (by simp))).bind fun fs hfs => ?_
    subst hfs
    exact (gets_spanFrom _).bind fun b _ => .pure ⟨b, c, d, y, rfl, hy⟩
  have hexpression : Gets (expression o o.maxDepth) ps (fun e => ∃ y, e.Single y ∧ P y) [] := by
    rw [hdepth]
    show Gets (expressionBody o (innerAt o n)) _ _ _
    unfold expressionBody
    refine gets_peek.bind fun _ _ => hsequence.bind fun s hs => ?_
    obtain ⟨b, c, d, y, rfl, hy⟩ := hs
    refine (gets_many_none (gets_andSequence_none rfl)).bind fun ss hss => ?_
    subst hss
    exact (gets_spanFrom _).bind fun a _ => .pure ⟨y, ⟨a, b, c, d, rfl⟩, hy⟩
  unfold filter
  refine (gets_skipBlank_none hblank).bind fun _ _ => gets_peekKind.bind fun k hk => ?_
  rw [if_neg (by rw [hk]; exact hempty)]
  refine hexpression.bind fun e he => ?_
  obtain ⟨y, he, hy⟩ := he
  refine (gets_skipBlank_none (by simp)).bind fun _ _ => gets_next_eof.bind fun t ht => ?_
  rw [if_pos ht]
  refine gets_get.bind fun s hs => ?_
  rw [if_neg (by rw [hs.clean]; omega)]
  exact .pure ⟨e, y, rfl, he, hy⟩

/-! ## Comparisons -/

/-- A keyword before a comparator is a name. -/
theorem endsName_comparisonPieces {op : Comparator} (hop : op ≠ .isIn) (m : Member)
    (right : List Piece) : endsName (secondKind (comparisonPieces m op right)) = true := by
  unfold comparisonPieces secondKind
  rw [Member.path]
  cases m.fields with
  | nil =>
    rw [ofPath_singleton, List.singleton_append, List.tail_cons, unblank_blank]
    cases op <;> first | rfl | exact absurd rfl hop
  | cons l ls =>
    rw [ofPath_cons_cons, List.cons_append, List.cons_append, List.tail_cons]
    rfl

theorem headKind_comparisonPieces (m : Member) (op : Comparator) (right : List Piece) :
    headKind (comparisonPieces m op right) = m.value.kind := by
  rw [comparisonPieces, Member.path, ofPath_cons]
  rfl

/-- A comparison starts with a leaf. -/
theorem headKind_comparisonPieces_ne (m : Member) (op : Comparator) (right : List Piece) {k : Kind}
    (hk : k.isLeaf = false) : headKind (comparisonPieces m op right) ≠ k := by
  intro h
  rw [headKind_comparisonPieces, Leaf.kind] at h
  have hleaf := m.value.leaf
  rw [h, hk] at hleaf
  cases hleaf

theorem comparatorAt_comparator {op : Comparator} (hop : op ≠ .isIn) :
    comparatorAt o (⟨op.kind, op.text⟩ :: ps) = some op := by
  have hkind : op.kind ≠ .inWord := by
    cases op <;> first | decide | exact absurd rfl hop
  rw [comparatorAt, headKind_cons, if_neg hkind, Comparator.ofKind?_kind]

theorem gets_arg {P : Comparable → Prop} (h : Gets (comparable o n) ps P [])
    (hparen : headKind ps ≠ .leftParen) :
    Gets (arg (innerAt o n)) ps (fun a => ∃ c, a = .comparable c ∧ P c) [] := by
  unfold arg
  refine gets_peekKind.bind fun k hk => ?_
  rw [if_neg (by rw [hk]; exact hparen)]
  exact h.bind fun c hc => .pure ⟨c, rfl, hc⟩

theorem gets_restriction {op : Comparator} (hop : op ≠ .isIn) (m : Member) {right : List Piece}
    {P : Comparable → Prop} (h : Gets (comparable o (n + 1)) right P [])
    (hparen : headKind right ≠ .leftParen) :
    Gets (restriction o (innerAt o (n + 1))) (comparisonPieces m op right)
      (fun x => ∃ a left pos c, x = ⟨a, left, some ⟨op, pos, .comparable c⟩⟩ ∧
        left.unplaced = .member m.unplaced ∧ P c) [] := by
  unfold restriction
  refine gets_peek.bind fun _ _ => ?_
  refine (gets_member m (by simp [blank]) (by simp [blank]) (by simp [blank])).bind
    fun left hleft => ?_
  refine gets_get.bind fun _ _ => (gets_skipBlank blank rfl).bind fun _ _ => ?_
  refine gets_peek.bind fun t ht => (gets_comparator? ht).bind fun c hc => ?_
  rw [comparatorAt_comparator hop] at hc
  subst hc
  refine (gets_next _).bind fun _ _ => (gets_skipBlank blank rfl).bind fun _ _ => ?_
  refine (gets_arg h hparen).bind fun a ha => ?_
  obtain ⟨c, rfl, hc⟩ := ha
  exact (gets_spanFrom _).bind fun a _ => .pure ⟨a, left, t.pos, c, rfl, hleft, hc⟩

theorem gets_comparison {op : Comparator} (hop : op ≠ .isIn) (m : Member) {right : List Piece}
    {P : Comparable → Prop} (h : Gets (comparable o (n + 1)) right P [])
    (hparen : headKind right ≠ .leftParen) :
    Gets (simple o (innerAt o (n + 1))) (comparisonPieces m op right)
      (fun x => ∃ a left pos c, x = .restriction ⟨a, left, some ⟨op, pos, .comparable c⟩⟩ ∧
        left.unplaced = .member m.unplaced ∧ P c) [] := by
  unfold simple
  refine gets_peekKind.bind fun k hk => ?_
  rw [if_neg (by rw [hk]; exact headKind_comparisonPieces_ne m op right rfl)]
  refine (gets_restriction hop m h hparen).bind fun x hx => ?_
  obtain ⟨a, left, pos, c, rfl, hx⟩ := hx
  exact .pure ⟨a, left, pos, c, rfl, hx⟩

/-! ## Records -/

/-- What stands behind a colon and behind a comma: a blank or nothing. -/
def gap (spaced : Bool) : List Piece := if spaced then [blank] else []

/-- A name with its value behind a colon. -/
def entryPieces (spaced : Bool) (x : Leaf × Leaf) : List Piece :=
  ofLeaf .quoted x.1 :: colon :: (gap spaced ++ [ofLeaf .quoted x.2])

/-- Entries with commas between them. -/
def entriesPieces (spaced : Bool) (xs : List (Leaf × Leaf)) : List Piece :=
  (comma :: gap spaced).intercalate (xs.map (entryPieces spaced))

/-- A struct literal without a type name whose values are leaves. -/
def recordPieces (spaced : Bool) (xs : List (Leaf × Leaf)) : List Piece :=
  ⟨.leftBrace, "\x7b"⟩ :: (entriesPieces spaced xs ++ [⟨.rightBrace, "\x7d"⟩])

/-- The entry of a name and its value, without places. -/
def entryOf (x : Leaf × Leaf) : StructEntry :=
  ⟨x.1.unplaced, .member (Member.unplaced ⟨.nowhere, x.2, []⟩)⟩

variable {spaced : Bool}

theorem entriesPieces_singleton (x : Leaf × Leaf) :
    entriesPieces spaced [x] = entryPieces spaced x := by
  simp [entriesPieces, List.intercalate]

theorem entriesPieces_cons_cons (x y : Leaf × Leaf) (ys : List (Leaf × Leaf)) :
    entriesPieces spaced (x :: y :: ys) =
      entryPieces spaced x ++ comma :: (gap spaced ++ entriesPieces spaced (y :: ys)) := by
  simp [entriesPieces, List.intercalate]

theorem entriesPieces_cons (x : Leaf × Leaf) (xs : List (Leaf × Leaf)) :
    entriesPieces spaced (x :: xs) = ofLeaf .quoted x.1 :: colon :: (gap spaced ++
      ofLeaf .quoted x.2 :: writtenTail (comma :: gap spaced) (entryPieces spaced) xs) := by
  rw [entriesPieces, List.map_cons, intercalate_eq, entryPieces]
  simp

theorem length_lt_entriesPieces (x : Leaf × Leaf) (xs : List (Leaf × Leaf)) :
    xs.length < (entriesPieces spaced (x :: xs)).length := by
  induction xs generalizing x with
  | nil => simp [entriesPieces_cons]
  | cons y ys ih =>
    have hrest := ih y
    rw [entriesPieces_cons_cons]
    simp only [List.length_append, List.length_cons]
    omega

theorem legal_gap : Legal (gap spaced) := by
  cases spaced with
  | false => exact legal_nil
  | true => exact legal_cons.2 ⟨rfl, legal_nil⟩

theorem legal_entryPieces (x : Leaf × Leaf) : Legal (entryPieces spaced x) := by
  rw [entryPieces, legal_cons, legal_cons, legal_append, legal_cons]
  exact ⟨Kind.isIllegal_of_isLeaf x.1.leaf, rfl, legal_gap, Kind.isIllegal_of_isLeaf x.2.leaf,
    legal_nil⟩

theorem legal_recordPieces (xs : List (Leaf × Leaf)) : Legal (recordPieces spaced xs) := by
  refine legal_cons.2 ⟨rfl, legal_append.2 ⟨?_, legal_cons.2 ⟨rfl, legal_nil⟩⟩⟩
  induction xs with
  | nil => exact legal_nil
  | cons x xs ih =>
    cases xs with
    | nil =>
      rw [entriesPieces_singleton]
      exact legal_entryPieces x
    | cons y ys =>
      rw [entriesPieces_cons_cons, legal_append, legal_cons, legal_append]
      exact ⟨legal_entryPieces x, rfl, legal_gap, ih⟩

/-- The leaves of an entry are read back from their texts alone. -/
def EntryReads (x : Leaf × Leaf) : Prop :=
  (ofLeaf .quoted x.1).Lexes [] ∧ (ofLeaf .quoted x.2).Lexes []

theorem chain_gap {r : List Char} (hr : Dark (chars ps ++ r)) (h : Chain Lexes ps r) :
    Chain Lexes (gap spaced ++ ps) r := by
  cases spaced with
  | false => exact h
  | true => exact ⟨lexes_blank hr, h⟩

theorem chain_entry {x : Leaf × Leaf} (hx : EntryReads x) {r : List Char} (hr : Stops r) :
    Chain Lexes (entryPieces spaced x) r := by
  have hdark : Dark (chars [ofLeaf .quoted x.2] ++ r) := by
    rw [chars_cons, chars_nil, List.append_nil]
    exact hx.2.dark (ofLeaf_kind_ne _ _) r
  refine ⟨hx.1.of_stops x.1.leaf ?_, lexes_colon _, chain_gap hdark
    ⟨hx.2.of_stops x.2.leaf (by simpa using hr), trivial⟩⟩
  exact delimiter_colon.stops _

/-- By induction on the entries behind the first one. -/
theorem chain_entries {x : Leaf × Leaf} {xs : List (Leaf × Leaf)}
    (hxs : ∀ y ∈ x :: xs, EntryReads y) {r : List Char} (hr : Stops r) :
    Chain Lexes (entriesPieces spaced (x :: xs)) r := by
  induction xs generalizing x with
  | nil =>
    rw [entriesPieces_singleton]
    exact chain_entry (hxs x (by simp)) hr
  | cons y ys ih =>
    have hrest := ih fun z hz => hxs z (List.mem_cons_of_mem x hz)
    have hdark : Dark (chars (entriesPieces spaced (y :: ys)) ++ r) := by
      rw [entriesPieces_cons, chars_cons, List.append_assoc]
      exact (hxs y (by simp)).1.dark (ofLeaf_kind_ne _ _) _
    rw [entriesPieces_cons_cons, chain_append]
    refine ⟨chain_entry (hxs x (by simp)) ?_, lexes_comma _, chain_gap hdark hrest⟩
    rw [chars_cons, List.append_assoc]
    exact delimiter_comma.stops _

/-- A record is cut into its pieces. -/
theorem cut_recordPieces {xs : List (Leaf × Leaf)} (hxs : ∀ x ∈ xs, EntryReads x) :
    Cut (recordPieces spaced xs) := by
  refine ⟨lexes_leftBrace _, (chain_append _ _ _).2 ⟨?_, lexes_rightBrace _, trivial⟩⟩
  cases xs with
  | nil => exact trivial
  | cons x xs => exact chain_entries hxs (delimiter_rightBrace.stops [])

/-- A blank is skipped unless blanks are strict. -/
theorem gets_gap (ho : spaced = true → o.strictWhitespace = false)
    (h : headKind ps ≠ .whitespace) (place : String) :
    Gets (innerBlank o place) (gap spaced ++ ps) (fun _ => True) ps := by
  cases spaced with
  | false => exact gets_innerBlank h place
  | true =>
    unfold innerBlank
    refine (gets_skipBlank blank rfl).bind fun x hx => ?_
    obtain ⟨t, rfl, -⟩ := hx
    simp only [ho rfl, Bool.false_eq_true, ↓reduceIte]
    exact .pure trivial

theorem gets_entry (ho : spaced = true → o.strictWhitespace = false) (x : Leaf × Leaf) {p : Piece}
    (hp : p.kind = .comma ∨ p.kind = .rightBrace) :
    Gets (structEntry o (innerAt o (n + 1))) (entryPieces spaced x ++ p :: ps)
      (fun e => e.unplaced = entryOf x) (p :: ps) := by
  obtain ⟨name, value⟩ := x
  have hvalue := @gets_member o ⟨.nowhere, value, []⟩ n (p :: ps)
    (by rcases hp with hp | hp <;> simp [hp]) (by rcases hp with hp | hp <;> simp [hp])
    (by rcases hp with hp | hp <;> simp [hp])
  have hblank : headKind (ofLeaf .quoted value :: p :: ps) ≠ .whitespace :=
    ofLeaf_kind_ne .quoted value
  rw [entryPieces, List.cons_append, List.cons_append, List.append_assoc]
  unfold structEntry
  refine (gets_next _).bind fun t ht => ?_
  refine (gets_leaf ht _).bind fun name' hname' => ?_
  refine (gets_innerBlank (by simp [colon]) _).bind fun _ _ => ?_
  refine (gets_expect colon rfl).bind fun _ _ => ?_
  refine (gets_gap ho hblank _).bind fun _ _ => ?_
  refine hvalue.bind fun value' hvalue' => .pure ?_
  simp only [StructEntry.unplaced, hname', hvalue', entryOf]

theorem headKind_entriesPieces (x : Leaf × Leaf) (xs : List (Leaf × Leaf)) :
    headKind (entriesPieces spaced (x :: xs) ++ ps) = x.1.kind := by
  rw [entriesPieces_cons]
  rfl

/-- By induction on the entries behind the first one. -/
theorem gets_entries (ho : spaced = true → o.strictWhitespace = false) (x : Leaf × Leaf)
    (xs : List (Leaf × Leaf)) {fuel : Nat} (hfuel : xs.length < fuel) :
    Gets (itemsFrom o inStruct (structEntry o (innerAt o (n + 1))) fuel)
      (entriesPieces spaced (x :: xs) ++ [⟨.rightBrace, "\x7d"⟩])
      (fun es => es.map StructEntry.unplaced = (x :: xs).map entryOf) [] := by
  induction xs generalizing x fuel with
  | nil =>
    obtain ⟨fuel, rfl⟩ : ∃ k, fuel = k + 1 := ⟨fuel - 1, by omega⟩
    have hentry : Gets (structEntry o (innerAt o (n + 1)))
        (entryPieces spaced x ++ [⟨.rightBrace, "\x7d"⟩]) (fun e => e.unplaced = entryOf x)
        [⟨.rightBrace, "\x7d"⟩] := gets_entry ho x (.inr rfl)
    rw [entriesPieces_singleton]
    refine (gets_itemsFrom_last hentry rfl (by decide) (by decide) fuel).mono fun es hes => ?_
    obtain ⟨e, rfl, he⟩ := hes
    simp [he]
  | cons y ys ih =>
    obtain ⟨fuel, rfl⟩ : ∃ k, fuel = k + 1 := ⟨fuel - 1, by omega⟩
    have hrest := @ih y fuel (by simpa using hfuel)
    have hblank : headKind (entriesPieces spaced (y :: ys) ++ [⟨.rightBrace, "\x7d"⟩]) ≠
        .whitespace := by
      rw [headKind_entriesPieces]
      exact ofLeaf_kind_ne .quoted y.1
    rw [entriesPieces_cons_cons, List.append_assoc, List.cons_append, List.append_assoc]
    unfold itemsFrom
    refine (gets_entry ho x (.inl rfl)).bind fun e he => ?_
    refine (gets_innerBlank (by simp [comma]) _).bind fun _ _ => ?_
    refine (gets_next comma).bind fun t ht => ?_
    rw [if_pos (show t.kind = .comma from congrArg Piece.kind ht)]
    refine (gets_gap ho hblank _).bind fun _ _ => ?_
    refine hrest.bind fun es hes => .pure ?_
    rw [List.map_cons, he, hes]
    rfl

theorem gets_delimited_entries (ho : spaced = true → o.strictWhitespace = false)
    (xs : List (Leaf × Leaf)) :
    Gets (delimited o inStruct (structEntry o (innerAt o (n + 1))))
      (entriesPieces spaced xs ++ [⟨.rightBrace, "\x7d"⟩])
      (fun es => es.map StructEntry.unplaced = xs.map entryOf) [] := by
  unfold delimited
  cases xs with
  | nil =>
    refine (gets_innerBlank (by simp [entriesPieces, List.intercalate]) _).bind fun _ _ => ?_
    refine (gets_eat (p := ⟨.rightBrace, "\x7d"⟩) rfl).bind fun x hx => ?_
    obtain ⟨t, rfl⟩ := Option.isSome_iff_exists.1 hx
    exact .pure rfl
  | cons x xs =>
    have hhead := @headKind_entriesPieces [⟨.rightBrace, "\x7d"⟩] spaced x xs
    have hleaf : x.1.kind.isLeaf = true := x.1.leaf
    refine (gets_innerBlank (by rw [hhead]; exact ofLeaf_kind_ne .quoted x.1) _).bind fun _ _ => ?_
    refine (gets_eat_none (by rw [hhead]; rintro h; rw [h] at hleaf; cases hleaf)).bind
      fun y hy => ?_
    subst hy
    intro t ht
    refine gets_entries ho x xs ?_ t ht
    have hlength := @length_lt_entriesPieces spaced x xs
    rw [ht.length_rest, List.length_append, List.length_singleton]
    omega

/-- A record is read as a struct literal. -/
theorem gets_record (ho : spaced = true → o.strictWhitespace = false)
    (hstructs : o.enableStructs = true) (xs : List (Leaf × Leaf)) :
    Gets (comparable o (n + 2)) (recordPieces spaced xs)
      (fun c => c.unplaced = .struct ⟨.nowhere, [], xs.map entryOf⟩) [] := by
  show Gets (comparableBody o (innerAt o (n + 1))) _ _ _
  unfold comparableBody structLiteral
  refine gets_peek.bind fun t ht => ?_
  have ht : t.kind = .leftBrace := ht
  rw [if_neg (by rw [ht]; simp), if_pos ⟨ht, hstructs⟩]
  simp only [bind_assoc]
  refine (gets_expect _ rfl).bind fun _ _ => ?_
  refine (gets_delimited_entries ho xs).bind fun es hes => ?_
  refine (gets_spanFrom _).bind fun _ _ => .pure ?_
  simp only [Comparable.unplaced, StructLiteral.unplaced, unplacedEntries_eq, hes, List.map_nil]

end Parser

/-- A text that is a comparable makes a filter of one comparison, behind a dotted name and a
comparator. -/
theorem exists_parse_comparison {o : ParserOptions} {m : Member} {name text : String}
    (hname : m.SpelledBy name) {op : Comparator} (hop : op ≠ .isIn) {levels : Nat}
    (hlevels : 0 < levels ∧ levels < o.maxDepth) {c : Comparable} {s : ParseState}
    (hrun : Parser.comparable o levels (.ofString text) = .ok c s) (hrest : s.rest = []) :
    ∃ e a left pos c', parse o (comparisonText name op text) = .ok (some e) ∧
      e.Single (.restriction ⟨a, left, some ⟨op, pos, .comparable c'⟩⟩) ∧
      left.unplaced = .member m.unplaced ∧ c'.unplaced = c.unplaced := by
  have hc : SpellsComparable o text c := ⟨levels, s, hrun, hrest⟩
  obtain ⟨n, hn⟩ : ∃ n, o.maxDepth = n + 2 := ⟨o.maxDepth - 2, by omega⟩
  have hend : s.pieces = [] := by rw [ParseState.pieces, hrest]; rfl
  have hright := @Parser.gets_comparable o _ _ _ _ hrun (n + 1) (by omega) [] closing_nil
  rw [hend, List.append_nil, List.append_nil] at hright
  have hpieces := pieces_comparisonText hname op (hc.headKind_ne (by decide))
  have hsimple := Parser.gets_comparison hop m hright (hc.headKind_ne (by decide))
  have hfilter := Parser.gets_filter_single hn hsimple
    (Parser.headKind_comparisonPieces_ne m op _ rfl) (Parser.headKind_comparisonPieces_ne m op _ rfl)
    (by rw [Parser.isOperator, Parser.endsName_comparisonPieces hop, Bool.not_true, Bool.and_false])
    (Parser.headKind_comparisonPieces_ne m op _ rfl)
  obtain ⟨x, t, hx, ⟨e, y, rfl, he, a, left, pos, c', rfl, hleft, hc'⟩, -⟩ :=
    hfilter _ ⟨hpieces, Parser.legal_comparisonPieces m op hc.legal, rfl⟩
  exact ⟨e, a, left, pos, c', parse_ok.2 ⟨t, hx⟩, he, hleft, hc'⟩

end ListQuery.Filter
