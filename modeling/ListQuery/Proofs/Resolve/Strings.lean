/-
A text between quotes, from its characters to a filter. The scanner passes every character behind a
backslash, reading drops the backslashes again, and printing puts them back in two steps; on a text
between quotes the three agree. Main statement: `strings_resolve`.
-/
import ListQuery.Filter.Expr.Render
import ListQuery.Proofs.Resolve.Walks
import ListQuery.Proofs.Time.Spellings

namespace ListQuery.Filter

open Piece

/-- A text between quotes is the first token of any text that starts with it. -/
theorem Lexer.scan_wrap {quote : Char} (hquote : quote = '"' ∨ quote = '\'') (text rest : String) :
    ∃ l, (ofString (Quoted.wrap quote text ++ rest)).scan =
      (⟨.string, Quoted.wrap quote text, .start⟩, l) ∧ l.rest = rest.toList := by
  let first : Token := ⟨.string, Quoted.wrap quote text, .start⟩
  have hahead : (ofString (Quoted.wrap quote text ++ rest)).mark.ahead =
      (first, ⟨first.next, rest.toList⟩) := by
    have hfront := front_of_lexes (lexes_wrap hquote text rest.toList) .start
    simp only [Mark.ahead, mark, ofString, String.toList_append, hfront, first]
  rw [scan_eq, hahead]
  exact ⟨_, rfl, rfl⟩

theorem isLeaf_of_word {k : Kind} (h : k = .text ∨ k.isKeyword = true) :
    k.isLeaf = true ∧ k ≠ .string := by
  rcases h with rfl | h
  · exact ⟨rfl, by simp⟩
  · cases k <;> simp [Kind.isKeyword] at h <;> exact ⟨rfl, by simp⟩

/-- A bare word names the field whose name it is written as. -/
theorem Leaf.names_of_word {l : Leaf} (hl : l.kind = .text ∨ l.kind.isKeyword = true) {m : Message}
    {f : Field} (hf : m.field? l.raw = some f) : l.Names m f where
  isIdentifier := Bool.or_eq_true_iff.2 (hl.imp_left beq_iff_eq.2)
  field := by rwa [Leaf.unquoted, if_neg (isLeaf_of_word hl).2]

/-! ## Filters -/

namespace Resolver

variable {r : Resolver} {f : Field} {levels : Nat} {mode : ValueMode}

/-- A string literal as a value of a field of strings is its text: it has no name, so it stands for
no other field. -/
theorem comparableValue_string (hkind : f.kind = .string) (hmap : f.isMap = false) {m : Member}
    (hk : m.value.kind = .string) (hm : m.fields = []) :
    r.comparableValue (levels + 1) f (.member m) mode =
      pure (.value (.string m.value.unquoted)) := by
  have hname : r.namesField m mode = false := by
    simp [namesField, Leaf.isIdentifier, hk, Kind.isKeyword]
  have hvalue : r.memberValue levels f m mode = pure (.value (.string m.value.unquoted)) := by
    simp [memberValue, hk, hmap, hkind, wellKnownOf?_eq_none (f := f) (by rw [hkind]; rfl),
      stringValue, hname, noFields, hm]
  funext s
  simp [comparableValue, comparableBody, wellKnownOf?_eq_none (f := f) (by rw [hkind]; rfl), hvalue]

/-- The name of a field of the root is bound to it. -/
theorem selectRoot_single {l : Leaf} (hl : l.Names r.root f) :
    r.selectRoot (levels + 1) [l] = pure (⟨.ofField f, []⟩, f) := by
  simp [selectRoot, select, hl.isIdentifier, hl.field]

/-- A tree that compares a field of strings with a string literal. -/
theorem resolveTree_string (hhooks : r.options.HookFree) (hdepth : 2 ≤ r.options.maxDepth)
    (hkind : f.kind = .string) (hmap : f.isMap = false) {e : Expression} {span : Span}
    {pos : Position} {left right : Member}
    (he : e.Single (.restriction
      ⟨span, .member left, some ⟨.equals, pos, .comparable (.member right)⟩⟩))
    (hleft : left.value.Names r.root f) (hname : left.fields = [])
    (hright : right.value.kind = .string) (hvalue : right.fields = []) :
    let v := Expr.compare (.field ⟨.ofField f, []⟩) .equals (.value (.string right.value.unquoted))
    (r.resolveTree (some e)).run.1 = .ok ⟨some v, v.complexity⟩ := by
  obtain ⟨n, hn⟩ : ∃ n, r.options.maxDepth = n + 1 + 1 := ⟨r.options.maxDepth - 2, by omega⟩
  have hhook : lookup? (joinPath .unquoted left.path) r.options.fieldHooks = none := by
    rw [hhooks.fieldHooks]
    rfl
  have hpath : r.selectRoot (n + 1) left.path [] = .ok (⟨.ofField f, []⟩, f) [] := by
    rw [Member.path, hname, selectRoot_single hleft]
    rfl
  have hplain : Plain ⟨.equals, pos, .comparable (.member right)⟩ f := ⟨by simp, by simp⟩
  refine resolveTree_compared hn he hhook hpath ?_
  rw [rightSide_plain hplain]
  exact comparableValue_string hkind hmap hright hvalue

end Resolver

/-- Strings survive quoting. A text between quotes is one token wherever it stands, it reads as the
text, and with double quotes it is also how the text is printed. And behind the name of a field of
strings it makes a filter, which compares the field with the text, whether or not names may stand
for values. -/
theorem strings_resolve (text : String) {quote : Char} (hquote : quote = '"' ∨ quote = '\'') :
    let raw := Quoted.wrap quote text
    (∀ rest : String, ∃ l, (Lexer.ofString (raw ++ rest)).scan = (⟨.string, raw, .start⟩, l) ∧
      l.rest = rest.toList) ∧
    Quoted.value raw = text ∧
    (Value.string text).render = Quoted.wrap '"' text ∧
    ∀ (r : Resolver) (f : Field) (name : String) (k : Kind), r.options.HookFree →
      2 ≤ r.options.maxDepth → r.root.field? name = some f → f.kind = .string → f.isMap = false →
      (Lexer.ofString name).tokenize = [⟨k, name, .start⟩, .eof (endOf name)] →
      k = .text ∨ k.isKeyword = true →
      ∀ (o : ParserOptions) (before : Store), 2 ≤ o.maxDepth →
        ∃ store, before.reparse o (comparisonText name .equals raw) = .ok store ∧
          let v := Expr.compare (.field ⟨.ofField f, []⟩) .equals (.value (.string text))
          (r.resolve store).run.1 = .ok ⟨some v, v.complexity⟩ := by
  intro raw
  refine ⟨Lexer.scan_wrap hquote text, Quoted.value_wrap quote text, ?_, ?_⟩
  · rw [Value.render, Quoted.shown_eq_wrap]
  intro r f name k hhooks hdepth hf hkind hmap hname hword o before ho
  -- the text is read as the name's leaf, the comparator and the string's leaf
  have hpieces : (ParseState.ofString name).pieces = [⟨k, name⟩] :=
    scan_pieces_iff.2 ⟨by simp, Lexer.tokenize_single_iff.1 hname, trivial⟩
  obtain ⟨c, s, hrun, hrest, hc⟩ := exists_comparable_leaf (o := o) (k := .string) rfl
    (lexes_wrap hquote text [])
  obtain ⟨e, span, left, pos, right, hparse, he, hleft, hright⟩ :=
    @exists_parse_comparison o ⟨.nowhere, ⟨⟨k, name, .start⟩, (isLeaf_of_word hword).1⟩, []⟩
      name raw hpieces .equals (by decide) 1 ⟨by decide, ho⟩ c s hrun hrest
  obtain ⟨left, rfl, hleftFields, hleftKind, hleftRaw⟩ := exists_member hleft
  obtain ⟨right, rfl, hrightFields, hrightKind, hrightRaw⟩ := hc right hright
  have hnames : left.value.Names r.root f := by
    refine Leaf.names_of_word ?_ ?_
    · rw [hleftKind]
      exact hword
    · rw [hleftRaw]
      exact hf
  have hresolve := Resolver.resolveTree_string hhooks hdepth hkind hmap he hnames hleftFields
    hrightKind hrightFields
  rw [Leaf.unquoted, if_pos hrightKind, hrightRaw, Quoted.value_wrap] at hresolve
  refine ⟨before.load (some e), Store.reparse_ok.2 ⟨_, hparse, rfl⟩, ?_⟩
  rw [r.resolve_load]
  exact hresolve

/-- The names of events. -/
def eventName : Field := { name := "name", kind := .string, nullable := true, number := 1 }

/-- Both quotes between backslashes, as the name of an event. -/
theorem quotes_and_backslashes_resolve :
    Quoted.value "'\\\\\"\\'\\\\'" = "\\\"'\\" ∧
    ∀ r ∈ [eventResolver, directEventResolver], r.root.field? "name" = some eventName ∧
      ∃ store, Store.empty.reparse {} "name = '\\\\\"\\'\\\\'" = .ok store ∧
        (r.resolve store).run.1 =
          .ok ⟨some (.compare (.field ⟨.ofField eventName, []⟩) .equals
            (.value (.string "\\\"'\\"))), 1⟩ := by
  have hraw : Quoted.wrap '\'' "\\\"'\\" = "'\\\\\"\\'\\\\'" := rfl
  obtain ⟨-, hvalue, -, hresolve⟩ := strings_resolve "\\\"'\\" (.inr rfl)
  rw [hraw] at hvalue hresolve
  have hname : (Lexer.ofString "name").tokenize = [⟨.text, "name", .start⟩, .eof (endOf "name")] :=
    Lexer.tokenize_single_iff.2 ⟨'n', "ame".toList, by simp, by decide⟩
  refine ⟨hvalue, fun r hr => ?_⟩
  have hevents : r.root.field? "name" = some eventName ∧ r.options.HookFree ∧
      2 ≤ r.options.maxDepth := by
    simp only [List.mem_cons, List.not_mem_nil, or_false] at hr
    rcases hr with rfl | rfl
    · exact ⟨rfl, eventResolver_hookFree, by decide⟩
    · exact ⟨rfl, ⟨rfl, rfl⟩, by decide⟩
  obtain ⟨hf, hhooks, hdepth⟩ := hevents
  exact ⟨hf, hresolve r eventName "name" .text hhooks hdepth hf rfl rfl hname (.inl rfl) {} .empty
    (by decide)⟩

end ListQuery.Filter
