/-
The spellings of a duration in a filter: its rendered text, that text between quotes, and a struct
literal of its seconds and nanoseconds. Each is read as one comparable, and compared with a field of
durations each is the duration itself. Main statement: `durations_resolve`.
-/
import ListQuery.Proofs.Parse.Loading
import ListQuery.Proofs.Parse.Reading
import ListQuery.Proofs.Resolve.Defaults
import ListQuery.Proofs.Resolve.Paths
import ListQuery.Proofs.Resolve.Unplaced
import ListQuery.Proofs.Time.Rendered
import ListQuery.Proofs.Token.Classify

namespace ListQuery.Filter

open Text Time Number Piece

theorem runKind_decimal (n : Nat) : Lexeme.runKind (decimal n).toList = .int := by
  rw [Lexeme.runKind, if_neg]
  rintro ⟨hlength, hhead, -⟩
  rw [decimal, String.toList_ofList] at hlength hhead
  rw [head_toDigits hhead] at hlength
  exact absurd hlength (by decide)

theorem toList_signedDecimal (n : Int) :
    (signedDecimal n).toList = Lexeme.signed (decide (n < 0)) (decimal n.natAbs).toList := by
  unfold signedDecimal
  by_cases hn : n < 0 <;> simp [hn, Lexeme.signed]

/-- An integer written out is cut into one token. -/
theorem lexes_signedDecimal (n : Int) : Lexes ⟨.int, signedDecimal n⟩ [] := by
  obtain ⟨d, t, ht⟩ := List.exists_cons_of_ne_nil (decimal_ne_nil n.natAbs)
  have hdigits : ∀ c ∈ d :: t, c.isDigit = true := by
    rw [← ht]
    exact fun c hc => isDigit_of_mem_decimal hc
  refine (lexes_nil_iff rfl rfl).2 ⟨decide (n < 0), d, t, ?_, hdigits d (by simp), ?_⟩
  · rw [toList_signedDecimal, ht]
  · rw [Lexeme.number_digits fun c hc => hdigits c (by simp [hc]), ← ht, runKind_decimal]

theorem integerValue?_signed {negative : Bool} {d : Char} {t : List Char} (hd : d.isDigit = true)
    (h : ofDigits 10 (d :: t) ≤ Word.maxInt128) :
    integerValue? .int (Lexeme.signed negative (d :: t)) =
      some (if negative then -(ofDigits 10 (d :: t) : Int) else ofDigits 10 (d :: t)) := by
  cases negative with
  | true => simp [integerValue?, integerDigits, Lexeme.signed, h]
  | false =>
    have hdash : d ≠ '-' := by
      rintro rfl
      exact absurd hd (by decide)
    simp [integerValue?, integerDigits, Lexeme.signed, hdash, h]

theorem integerValue?_signedDecimal {n : Int} (h : n.natAbs ≤ Word.maxInt128) :
    integerValue? .int (signedDecimal n).toList = some n := by
  obtain ⟨d, t, ht⟩ := List.exists_cons_of_ne_nil (decimal_ne_nil n.natAbs)
  have hd : d.isDigit = true := isDigit_of_mem_decimal (n := n.natAbs) (by rw [ht]; simp)
  have hvalue : ofDigits 10 (d :: t) = n.natAbs := by rw [← ht, ofDigits_decimal]
  rw [toList_signedDecimal, ht, integerValue?_signed hd (by rw [hvalue]; exact h), hvalue]
  by_cases hn : n < 0
  · rw [if_pos (decide_eq_true hn), Option.some.injEq]
    omega
  · rw [if_neg (by simpa using hn), Option.some.injEq]
    omega

namespace Resolver

variable {r : Resolver} {f : Field} {spec : SchemaSpec} {levels : Nat} {mode : ValueMode}

/-- A duration without or between quotes. -/
theorem comparableValue_duration (hf : r.schema.wellKnownOf? f = some .duration) {m : Member}
    (hk : m.value.kind = .duration ∨ m.value.kind = .string) (hm : m.fields = []) {d : Duration}
    (hp : Duration.parse? m.value.unquoted = some d) :
    r.comparableValue (levels + 1) f (.member m) mode = pure (.value (.duration d)) := by
  have hnull : m.value.kind ≠ .null := by rcases hk with hk | hk <;> simp [hk]
  funext s
  simp [comparableValue, comparableBody, hf, memberValue, hnull, not_isMap_of_wellKnownOf? hf,
    durationValue, noFields, hk, hm, hp]

theorem integerLiteral_signed {n : Int} (hsigned : f.kind.isSigned = true)
    (hrange : (integerRange f.kind).1 ≤ n ∧ n ≤ (integerRange f.kind).2) {l : Leaf}
    (hk : l.kind = .int) (hl : l.integer? = some n) : integerLiteral f l = pure (.int64 n) := by
  simp [integerLiteral, hk, Kind.isInteger, hl, hsigned, hrange]

theorem not_isFloat_of_isSigned_or {k : FieldKind} (h : (k.isSigned || k.isUnsigned) = true) :
    k.isFloat = false := by
  cases k <;> first | rfl | cases h

/-- A member as a value of a field of integers is a number, if it is not null. -/
theorem memberValue_integer (hkind : (f.kind.isSigned || f.kind.isUnsigned) = true)
    (hmap : f.isMap = false) {m : Member} (hk : m.value.kind ≠ .null) :
    r.memberValue levels f m mode = r.numericValue levels f m mode := by
  have hmessage := not_isMessage_of_isSigned_or hkind
  unfold memberValue
  rw [if_neg hk, if_neg (by simp [hmap]), wellKnownOf?_eq_none hmessage]
  cases hf : f.kind <;> rw [hf] at hkind <;> first | rfl | cases hkind

/-- An integer literal as a value of a field of integers is what the literal is there. -/
theorem comparableValue_integerLiteral (hkind : (f.kind.isSigned || f.kind.isUnsigned) = true)
    (hmap : f.isMap = false) {m : Member} (hk : m.value.kind.isInteger = true)
    (hm : m.fields = []) :
    r.comparableValue (levels + 1) f (.member m) mode =
      integerLiteral f m.value >>= fun key => pure (.value key.toValue) := by
  have hnull : m.value.kind ≠ .null := by
    intro h
    rw [h] at hk
    cases hk
  have hnumber : r.numericValue levels f m mode =
      integerLiteral f m.value >>= fun key => pure (.value key.toValue) := by
    simp [numericValue, hk, Kind.isNumber, noFields, hm, not_isFloat_of_isSigned_or hkind]
  have hmessage := not_isMessage_of_isSigned_or hkind
  funext s
  simp [comparableValue, comparableBody, wellKnownOf?_eq_none hmessage, hnumber,
    memberValue_integer hkind hmap (m := m) hnull]

/-- An integer literal as a value of a field of signed integers. -/
theorem comparableValue_integer {n : Int} (hn : n.natAbs ≤ Word.maxInt128)
    (hsigned : f.kind.isSigned = true)
    (hrange : (integerRange f.kind).1 ≤ n ∧ n ≤ (integerRange f.kind).2) (hmap : f.isMap = false)
    {m : Member} (hk : m.value.kind = .int) (hm : m.fields = [])
    (hraw : m.value.raw = signedDecimal n) :
    r.comparableValue (levels + 1) f (.member m) mode = pure (.value (.int64 n)) := by
  have hinteger : m.value.integer? = some n := by
    rw [Leaf.integer?, hk, hraw, integerValue?_signedDecimal hn]
  rw [comparableValue_integerLiteral (by rw [hsigned, Bool.true_or]) hmap (by rw [hk]; rfl) hm,
    integerLiteral_signed hsigned hrange hk hinteger, pure_bind]
  rfl

end Resolver

/-! ## Records of seconds and nanoseconds -/

/-- An integer written out. -/
def Leaf.integer (n : Int) : Leaf := ⟨⟨.int, signedDecimal n, .start⟩, rfl⟩

/-- The names and values in the record of a duration. -/
def durationEntries (d : Duration) : List (Leaf × Leaf) :=
  [(.word "seconds", .integer d.seconds), (.word "nanos", .integer d.subsecond)]

/-- What is known of a leaf alone from its shape. -/
theorem exists_member {c : Comparable} {l : Leaf}
    (h : c.unplaced = .member (Member.unplaced ⟨.nowhere, l, []⟩)) :
    ∃ m, c = .member m ∧ m.fields = [] ∧ m.value.kind = l.kind ∧ m.value.raw = l.raw := by
  cases c with
  | member m =>
    obtain ⟨span, value, fields⟩ := m
    obtain ⟨-, hvalue, hfields⟩ := Member.mk.inj (Comparable.member.inj h)
    refine ⟨_, rfl, List.map_eq_nil_iff.1 hfields, ?_, ?_⟩
    · show value.kind = _
      rw [← value.unplaced_kind, hvalue, Leaf.unplaced_kind]
    · show value.raw = _
      rw [← value.unplaced_raw, hvalue, Leaf.unplaced_raw]
  | call | struct | array => cases h

/-- What is known of an entry from its shape. -/
theorem exists_member_of_entryOf {e : StructEntry} {x : Leaf × Leaf}
    (h : e.unplaced = Parser.entryOf x) : e.name.unquoted = x.1.unquoted ∧
      ∃ m, e.value = .member m ∧ m.fields = [] ∧ m.value.kind = x.2.kind ∧
        m.value.raw = x.2.raw := by
  obtain ⟨name, value⟩ := e
  obtain ⟨hname, hvalue⟩ := StructEntry.mk.inj h
  refine ⟨?_, exists_member hvalue⟩
  show name.unquoted = _
  rw [← name.unplaced_unquoted, hname, Leaf.unplaced_unquoted]

namespace Resolver

variable {r : Resolver} {f : Field} {spec : SchemaSpec} {levels : Nat} {mode : ValueMode}

theorem instantEntries_seconds {inner : Inner} {w : WellKnown} {message : Message} {e : StructEntry}
    {sub : Field} {n : Int} (hname : e.name.unquoted = "seconds")
    (hsub : message.field? "seconds" = some sub)
    (hvalue : inner.comparable sub e.value .direct = pure (.value (.int64 n)))
    (nanos : Option Int) (entries : List StructEntry) :
    instantEntries inner w message none nanos (e :: entries) =
      instantEntries inner w message (some n) nanos entries := by
  simp [instantEntries, hname, hsub, hvalue]

theorem instantEntries_nanos {inner : Inner} {w : WellKnown} {message : Message} {e : StructEntry}
    {sub : Field} {n : Int} (hname : e.name.unquoted = "nanos")
    (hsub : message.field? "nanos" = some sub)
    (hvalue : inner.comparable sub e.value .direct = pure (.value (.int64 n)))
    (seconds : Option Int) (entries : List StructEntry) :
    instantEntries inner w message seconds none (e :: entries) =
      instantEntries inner w message seconds (some n) entries := by
  simp [instantEntries, hname, hsub, hvalue]

theorem seconds_fits (d : Duration) : d.seconds.natAbs ≤ Word.maxInt128 ∧
    (integerRange .int64).1 ≤ d.seconds ∧ d.seconds ≤ (integerRange .int64).2 := by
  have hseconds := d.natAbs_seconds_le
  show _ ≤ Word.maxInt128 ∧ Word.minInt64 ≤ _ ∧ _ ≤ Word.maxInt64
  simp only [Word.maxInt128, Word.minInt64, Word.maxInt64]
  omega

theorem subsecond_fits (d : Duration) : d.subsecond.natAbs ≤ Word.maxInt128 ∧
    (integerRange .int32).1 ≤ d.subsecond ∧ d.subsecond ≤ (integerRange .int32).2 := by
  have hnanos := d.natAbs_subsecond_lt
  show _ ≤ Word.maxInt128 ∧ Word.minInt32 ≤ _ ∧ _ ≤ Word.maxInt32
  simp only [Word.maxInt128, Word.minInt32, Word.maxInt32, Time.nanosPerSecond] at *
  omega

/-- The record of a duration gives its seconds and nanoseconds. -/
theorem instantEntries_durationEntries {d : Duration} {entries : List StructEntry}
    (h : entries.map StructEntry.unplaced = (durationEntries d).map Parser.entryOf) :
    instantEntries (r.innerAt (levels + 1)) .duration (Schema.numbered (Schema.instant .duration))
      none none entries = pure (d.seconds, d.subsecond) := by
  obtain ⟨e, es, rfl, he, hes⟩ := List.map_eq_cons_iff.1 h
  obtain ⟨e', es', rfl, he', hes'⟩ := List.map_eq_cons_iff.1 hes
  obtain rfl := List.map_eq_nil_iff.1 hes'
  obtain ⟨hname, m, hm, hfields, hkind, hraw⟩ := exists_member_of_entryOf he
  obtain ⟨hname', m', hm', hfields', hkind', hraw'⟩ := exists_member_of_entryOf he'
  have hvalue := @comparableValue_integer r { name := "seconds", kind := .int64, number := 1 } levels
    .direct _ (seconds_fits d).1 rfl (seconds_fits d).2 rfl m hkind hfields hraw
  have hvalue' := @comparableValue_integer r { name := "nanos", kind := .int32, number := 2 } levels
    .direct _ (subsecond_fits d).1 rfl (subsecond_fits d).2 rfl m' hkind' hfields' hraw'
  rw [← hm] at hvalue
  rw [← hm'] at hvalue'
  rw [instantEntries_seconds hname rfl hvalue, instantEntries_nanos hname' rfl hvalue']
  rfl

/-- The record of a duration as a value of a field of durations. -/
theorem comparableValue_record (hbuilt : Schema.build spec = .ok r.schema)
    (hf : r.schema.wellKnownOf? f = some .duration) {d : Duration} {x : StructLiteral}
    (hname : x.name = [])
    (hentries : x.entries.map StructEntry.unplaced = (durationEntries d).map Parser.entryOf) :
    r.comparableValue (levels + 2) f (.struct x) mode = pure (.value (.duration d)) := by
  have hmessage := Schema.messageOf?_instant hbuilt (.inr rfl) hf
  have hinstant : r.instant (r.innerAt (levels + 1)) f x .duration =
      pure (d.seconds, d.subsecond) := by
    simp only [instant, checkStructName, hname, List.isEmpty_nil, ↓reduceIte, pure_bind, hmessage]
    exact instantEntries_durationEntries hentries
  have hstruct : r.structValue (r.innerAt (levels + 1)) f x mode = pure (.value (.duration d)) := by
    simp only [structValue, not_isMap_of_wellKnownOf? hf, hf, durationStruct, hinstant, pure_bind,
      d.ofSum?_seconds, Bool.false_eq_true, ↓reduceIte]
  funext s
  rw [← hstruct]
  rfl

end Resolver

/-- The record of a duration, written with or without blanks. -/
def durationRecord (spaced : Bool) (d : Duration) : String :=
  let gap := if spaced then " " else ""
  "\x7bseconds:" ++ gap ++ signedDecimal d.seconds ++ "," ++ gap ++ "nanos:" ++ gap ++
    signedDecimal d.subsecond ++ "\x7d"

theorem ofLeaf_word (text : String) : ofLeaf .quoted (.word text) = ⟨.text, text⟩ := rfl

theorem ofLeaf_integer (n : Int) : ofLeaf .quoted (.integer n) = ⟨.int, signedDecimal n⟩ := rfl

theorem lexes_seconds : Lexes ⟨.text, "seconds"⟩ [] :=
  ⟨'s', "econds".toList, by simp, by decide⟩

theorem lexes_nanos : Lexes ⟨.text, "nanos"⟩ [] :=
  ⟨'n', "anos".toList, by simp, by decide⟩

theorem pieces_durationRecord (spaced : Bool) (d : Duration) :
    (ParseState.ofString (durationRecord spaced d)).pieces =
      Parser.recordPieces spaced (durationEntries d) := by
  refine scan_pieces_iff.2 ⟨?_, Parser.cut_recordPieces fun x hx => ?_⟩
  · have hseconds : "\x7bseconds:" = "\x7b" ++ "seconds" ++ ":" := rfl
    have hnanos : "nanos:" = "nanos" ++ ":" := rfl
    have hgap : (if spaced then " " else "").toList = chars (Parser.gap spaced) := by
      cases spaced <;> rfl
    unfold durationRecord
    simp only [durationEntries, Parser.recordPieces, Parser.entriesPieces_cons_cons,
      Parser.entriesPieces_singleton, Parser.entryPieces, ofLeaf_word, ofLeaf_integer, hseconds,
      hnanos, String.toList_append, hgap, chars_cons, chars_append, chars_nil, colon, comma,
      List.cons_append, List.nil_append, List.append_nil, List.append_assoc]
  · simp only [durationEntries, List.mem_cons, List.not_mem_nil, or_false] at hx
    rcases hx with rfl | rfl
    · exact ⟨lexes_seconds, lexes_signedDecimal _⟩
    · exact ⟨lexes_nanos, lexes_signedDecimal _⟩

/-- How a duration is spelled in a filter, with the levels of nesting that the spelling takes. -/
inductive SpellsDuration (o : ParserOptions) (d : Duration) : Nat → String → Prop
  | bare : SpellsDuration o d 1 d.render
  | quoted {quote : Char} (hquote : quote = '"' ∨ quote = '\'') :
      SpellsDuration o d 1 (Quoted.wrap quote d.render)
  | record {spaced : Bool} (hstructs : o.enableStructs = true)
      (hblanks : spaced = true → o.strictWhitespace = false) :
      SpellsDuration o d 2 (durationRecord spaced d)

theorem SpellsDuration.pos {o : ParserOptions} {d : Duration} {levels : Nat} {text : String}
    (h : SpellsDuration o d levels text) : 0 < levels := by
  cases h <;> decide

/-- A comparable that is a duration as a value of any field of durations. -/
def Comparable.IsDuration (c : Comparable) (d : Duration) (levels : Nat) : Prop :=
  ∀ (spec : SchemaSpec) (r : Resolver) (f : Field) (n : Nat) (mode : ValueMode),
    Schema.build spec = .ok r.schema → r.schema.wellKnownOf? f = some .duration →
    r.comparableValue (n + levels) f c mode = pure (.value (.duration d))

/-- A text that is a single leaf is read as that leaf alone. -/
theorem exists_comparable_leaf {o : ParserOptions} {k : Kind} (hk : k.isLeaf = true) {text : String}
    (h : Lexes ⟨k, text⟩ []) :
    ∃ c s, Parser.comparable o 1 (.ofString text) = .ok c s ∧ s.rest = [] ∧
      ∀ c' : Comparable, c'.unplaced = c.unplaced →
        ∃ m, c' = .member m ∧ m.fields = [] ∧ m.value.kind = k ∧ m.value.raw = text := by
  have hpieces : (ParseState.ofString text).pieces = [⟨k, text⟩] :=
    scan_pieces_iff.2 ⟨by simp, h, trivial⟩
  have hlegal : Legal [⟨k, text⟩] := by
    intro p hp
    rw [List.mem_singleton.1 hp]
    exact Kind.isIllegal_of_isLeaf hk
  obtain ⟨c, s, hrun, hc, hs⟩ := @Parser.gets_member o ⟨.nowhere, ⟨⟨k, text, .start⟩, hk⟩, []⟩ 0 []
    (by simp) (by simp) (by simp) (.ofString text) ⟨hpieces, hlegal, rfl⟩
  exact ⟨c, s, hrun, List.map_eq_nil_iff.1 hs.pieces, fun c' hc' => exists_member (hc'.trans hc)⟩

/-- Each spelling is read as one comparable, and that is the duration wherever it was read. -/
theorem SpellsDuration.reads {o : ParserOptions} {d : Duration} {levels : Nat} {text : String}
    (h : SpellsDuration o d levels text) : ∃ c s,
      Parser.comparable o levels (.ofString text) = .ok c s ∧ s.rest = [] ∧
        ∀ c' : Comparable, c'.unplaced = c.unplaced → c'.IsDuration d levels := by
  cases h with
  | bare =>
    obtain ⟨c, s, hrun, hrest, hc⟩ := exists_comparable_leaf (o := o) (k := .duration) rfl
      (Lexer.tokenize_single_iff.1 d.tokenize_render)
    refine ⟨c, s, hrun, hrest, fun c' hc' spec r f n mode _ hf => ?_⟩
    obtain ⟨m, rfl, hfields, hkind, hraw⟩ := hc c' hc'
    refine Resolver.comparableValue_duration hf (.inl hkind) hfields ?_
    rw [Leaf.unquoted, if_neg (by rw [hkind]; decide), hraw, d.parse?_render]
  | @quoted quote hquote =>
    obtain ⟨c, s, hrun, hrest, hc⟩ := exists_comparable_leaf (o := o) (k := .string) rfl
      (lexes_wrap hquote d.render [])
    refine ⟨c, s, hrun, hrest, fun c' hc' spec r f n mode _ hf => ?_⟩
    obtain ⟨m, rfl, hfields, hkind, hraw⟩ := hc c' hc'
    refine Resolver.comparableValue_duration hf (.inr hkind) hfields ?_
    rw [Leaf.unquoted, if_pos hkind, hraw, Quoted.value_wrap, d.parse?_render]
  | @record spaced hstructs hblanks =>
    have hgets := @Parser.gets_record o 0 spaced hblanks hstructs (durationEntries d)
    obtain ⟨c, s, hrun, hc, hs⟩ := hgets (.ofString (durationRecord spaced d))
      ⟨pieces_durationRecord spaced d, Parser.legal_recordPieces _, rfl⟩
    refine ⟨c, s, hrun, List.map_eq_nil_iff.1 hs.pieces, fun c' hc' spec r f n mode hbuilt hf => ?_⟩
    cases c' with
    | struct x =>
      have hx : x.unplaced = _ := Comparable.struct.inj (hc'.trans hc)
      refine Resolver.comparableValue_record hbuilt hf ?_ ?_
      · exact List.map_eq_nil_iff.1 (x.unplaced_name.symm.trans (congrArg StructLiteral.name hx))
      · exact x.unplaced_entries.symm.trans (congrArg StructLiteral.entries hx)
    | member | call | array => cases hc'.trans hc

/-! ## Filters -/

/-- A tree that is one comparison of a path without a hook, when its right side is a value with the
levels below the expression. -/
theorem Resolver.resolveTree_compared {r : Resolver} {n : Nat} (hn : r.options.maxDepth = n + 1)
    {m : Member} {c : Comparison} {e : Expression} {span : Span}
    (he : e.Single (.restriction ⟨span, .member m, some c⟩))
    (hhook : lookup? (joinPath .unquoted m.path) r.options.fieldHooks = none) {selector : Selector}
    {f : Field} {s : List (Report ValueCause)} (hpath : r.selectRoot n m.path [] = .ok (selector, f) s)
    {right : Expr} (hright : r.rightSide n f c = pure right) :
    let v := Expr.compare (.field selector) c.comparator right
    (r.resolveTree (some e)).run.1 = .ok ⟨some v, v.complexity⟩ := by
  intro v
  refine Resolve.run_eq_ok.2 (resolveTree_ok.2 ⟨v, ⟨s, ?_⟩, rfl⟩)
  rw [hn, expression_single he, restriction_unhooked hhook hpath, hright]
  rfl

/-- A path that binds to a field of durations and has no hook, in a schema that was built. One level
is for the expression that the path stands in. -/
structure Resolver.SelectsDuration (r : Resolver) (m : Member) (selector : Selector) : Prop where
  built : ∃ spec, Schema.build spec = .ok r.schema
  unhooked : lookup? (joinPath .unquoted m.path) r.options.fieldHooks = none
  binds : ∃ f, (r.selectRoot (r.options.maxDepth - 1) m.path).run.1 = .ok (selector, f) ∧
    r.schema.wellKnownOf? f = some .duration

/-- The places of a path do not matter to what it selects. -/
theorem Resolver.SelectsDuration.of_unplaced {r : Resolver} {m m' : Member} {selector : Selector}
    (h : r.SelectsDuration m selector) (hm : m'.unplaced = m.unplaced) :
    r.SelectsDuration m' selector := by
  have hpath : m'.path.map Leaf.unplaced = m.path.map Leaf.unplaced := by
    rw [← m'.unplaced_path, hm, m.unplaced_path]
  obtain ⟨f, hf, hduration⟩ := h.binds
  refine ⟨h.built, ?_, f, ?_, hduration⟩
  · rw [← joinPath_unplaced, hpath, joinPath_unplaced]
    exact h.unhooked
  · rw [Resolve.run_eq_ok] at hf ⊢
    have hagree := @selectRoot_unplaced r r.options.maxDepth (r.options.maxDepth - 1) m.path
    have hagree' := @selectRoot_unplaced r r.options.maxDepth (r.options.maxDepth - 1) m'.path
    rw [hpath] at hagree'
    exact (hagree.trans hagree'.symm [] [] _).1 hf

/-- A comparison with a comparable that is a duration. -/
theorem Resolver.SelectsDuration.resolveTree {r : Resolver} {m : Member} {selector : Selector}
    (h : r.SelectsDuration m selector) {op : Comparator} (hop : op ≠ .isIn) {e : Expression}
    {span : Span} {pos : Position} {c : Comparable}
    (he : e.Single (.restriction ⟨span, .member m, some ⟨op, pos, .comparable c⟩⟩)) {d : Duration}
    {levels : Nat} (hc : c.IsDuration d levels) (hlevels : levels < r.options.maxDepth) :
    let v := Expr.compare (.field selector) op (.value (.duration d))
    (r.resolveTree (some e)).run.1 = .ok ⟨some v, v.complexity⟩ := by
  intro v
  obtain ⟨spec, hbuilt⟩ := h.built
  obtain ⟨f, hpath, hf⟩ := h.binds
  -- one level is for the expression; what the spelling needs is left for the right side
  obtain ⟨n, hn⟩ : ∃ n, r.options.maxDepth = n + levels + 1 :=
    ⟨r.options.maxDepth - levels - 1, by omega⟩
  obtain ⟨s, hs⟩ := Resolve.run_eq_ok.1 hpath
  rw [hn, Nat.add_sub_cancel] at hs
  have hplain : Plain ⟨op, pos, .comparable c⟩ f := ⟨hop, fun _ => not_isMap_of_wellKnownOf? hf⟩
  refine resolveTree_compared hn he h.unhooked hs ?_
  rw [rightSide_plain hplain]
  exact hc spec r f n _ hbuilt hf

/-- All spellings of a duration mean the duration. Rendered, it is a single token and is read back.
And whichever way it is spelled, the comparison of a name with it is a filter, which compares the
field of durations that the name selects with this duration. -/
theorem durations_resolve (d : Duration) :
    (Lexer.ofString d.render).tokenize =
      [⟨.duration, d.render, .start⟩, .eof (endOf d.render)] ∧
    Duration.parse? d.render = some d ∧
    ∀ (o : ParserOptions) (levels : Nat) (text : String), SpellsDuration o d levels text →
      levels < o.maxDepth →
      ∀ (m : Member) (name : String) (op : Comparator), m.SpelledBy name → op ≠ .isIn →
        ∀ before : Store, ∃ store, before.reparse o (comparisonText name op text) = .ok store ∧
          ∀ (r : Resolver) (selector : Selector), r.SelectsDuration m selector →
            levels < r.options.maxDepth →
            let v := Expr.compare (.field selector) op (.value (.duration d))
            (r.resolve store).run.1 = .ok ⟨some v, v.complexity⟩ := by
  refine ⟨d.tokenize_render, d.parse?_render, ?_⟩
  intro o levels text hspells hlevels m name op hname hop before
  obtain ⟨c, s, hrun, hrest, hc⟩ := hspells.reads
  obtain ⟨e, span, left, pos, c', hparse, he, hleft, hc'⟩ :=
    exists_parse_comparison hname hop ⟨hspells.pos, hlevels⟩ hrun hrest
  refine ⟨before.load (some e), Store.reparse_ok.2 ⟨_, hparse, rfl⟩, ?_⟩
  intro r selector hselects hdepth
  cases left with
  | member m' =>
    have hselects' := hselects.of_unplaced (Comparable.member.inj hleft)
    rw [r.resolve_load]
    exact hselects'.resolveTree hop he (hc c' hc') hdepth
  | call | struct | array => cases hleft

/-- Jobs that may run for a while. -/
def job : Message := ⟨"test.Job", [Field.ofMessage "timeout" WellKnown.duration.fullName]⟩

/-- Filters of jobs. -/
def jobResolver : Resolver where
  schema := ⟨(Schema.wellKnownMessages ++ [job]).map Schema.numbered, []⟩
  root := Schema.numbered job
  options := {}

/-- A nanosecond more than a second, below zero. -/
def overdue : Duration := ⟨-1000000001, by decide⟩

/-- Each spelling of a duration below zero, in a filter. -/
theorem overdue_resolves : ∃ selector,
    jobResolver.SelectsDuration (.ofWords "timeout" []) selector ∧
    ∀ text ∈ ["-1.000000001s", "'-1.000000001s'", "\x7bseconds: -1, nanos: -1\x7d"],
      ∃ store, Store.empty.reparse .allExtensions (comparisonText "timeout" .lessThan text) =
        .ok store ∧ (jobResolver.resolve store).run.1 =
          .ok ⟨some (.compare (.field selector) .lessThan (.value (.duration overdue))), 1⟩ := by
  have hselects : jobResolver.SelectsDuration (.ofWords "timeout" []) _ :=
    ⟨⟨{ messages := [job] }, rfl⟩, rfl, _, rfl, by decide +kernel⟩
  refine ⟨_, hselects, fun text htext => ?_⟩
  have hspells : ∃ levels ≤ 2, SpellsDuration .allExtensions overdue levels text := by
    simp only [List.mem_cons, List.not_mem_nil, or_false] at htext
    rcases htext with rfl | rfl | rfl
    · exact ⟨1, by decide, .bare⟩
    · exact ⟨1, by decide, .quoted (.inr rfl)⟩
    · exact ⟨2, by decide, @SpellsDuration.record .allExtensions overdue true rfl fun _ => rfl⟩
  obtain ⟨levels, hlevels, hspells⟩ := hspells
  obtain ⟨store, hstore, hresolve⟩ := (durations_resolve overdue).2.2 .allExtensions levels text
    hspells (Nat.lt_of_le_of_lt hlevels (by decide)) (.ofWords "timeout" []) "timeout" .lessThan
    (by decide +kernel) (by decide) .empty
  exact ⟨store, hstore, hresolve jobResolver _ hselects (Nat.lt_of_le_of_lt hlevels (by decide))⟩

end ListQuery.Filter
