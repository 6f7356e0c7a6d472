/-
What a list can be sorted by is a filter of its own. A path of a sort clause is cut into names and
dots (`spelledBy_ofNames`), read as a dotted name alone, and bound to the same fields that the check
of the clause has followed (`Resolver.select_of_checkSegments`).

The words of operators name fields as well: in a path a dot or the end of the text follows each of
them, and there no operator stands. Three words are constants in filters and names in sort clauses,
and paths with these are left out (`sorted_paths_filter`).
-/
import ListQuery.Filter.Expr.Render
import ListQuery.Proofs.OrderBy.Grammar
import ListQuery.Proofs.Parse.Reading
import ListQuery.Proofs.Resolve.Filters
import ListQuery.Proofs.Resolve.Unplaced
import ListQuery.Proofs.Text.Pieces

namespace ListQuery

open Text

namespace OrderBy

theorem dot_not_mem {n : List Char} (h : IsName n) : '.' ∉ n := by
  intro hdot
  exact absurd (h.isWordChar '.' hdot) (by decide)

/-- The pieces of a path between its dots are its names. -/
theorem IsPath.isName_of_mem {p : List Char} (h : IsPath p) : ∀ n ∈ split '.' p, IsName n := by
  induction h with
  | name hn =>
    rw [split_of_not_mem (dot_not_mem hn)]
    simpa using hn
  | dotted hn _ ih =>
    rw [split_append, split_of_not_mem (dot_not_mem hn)]
    exact List.forall_mem_cons.2 ⟨hn, ih⟩

theorem WritesItems.isPath {w : List Char} {fs : List OrderField} (h : WritesItems w fs) :
    ∀ f ∈ fs, IsPath f.path.toList := by
  have hitem : ∀ {w f}, WritesItem w f → IsPath f.path.toList := by
    intro w f hf
    cases hf with
    | path hp => rwa [String.toList_ofList]
    | directed hp => rwa [String.toList_ofList]
  induction h with
  | last hf => simpa using hitem hf
  | cons hf _ _ _ ih => exact List.forall_mem_cons.2 ⟨hitem hf, ih⟩

/-- A clause that was read has paths. -/
theorem isPath_of_parse {text : String} {clause : OrderBy} (h : parse text = .ok clause) :
    ∀ f ∈ clause.fields, IsPath f.path.toList := by
  obtain ⟨fs⟩ := clause
  have hwrites := writes_of_parse h
  generalize text.toList = cs at hwrites
  cases hwrites with
  | blank => simp
  | items _ hfs => exact hfs.isPath

end OrderBy

namespace Filter

open Piece

/-- Words that are constants. -/
def constants : List String := ["true", "false", "null"]

theorem isLeaf_wordKind (w : String) : (Lexeme.wordKind w).isLeaf = true := by
  unfold Lexeme.wordKind
  split <;> rfl

/-- A name as it is cut out of a text, whatever kind of word it is. -/
def Leaf.name (w : String) : Leaf := ⟨⟨Lexeme.wordKind w, w, .start⟩, isLeaf_wordKind w⟩

def Member.ofNames (first : String) (others : List String) : Member :=
  ⟨.nowhere, .name first, others.map .name⟩

theorem Leaf.unquoted_name (w : String) : (Leaf.name w).unquoted = w := by
  refine if_neg ?_
  show Lexeme.wordKind w ≠ .string
  unfold Lexeme.wordKind
  split <;> simp

theorem Leaf.isIdentifier_name {w : String} (h : w ∉ constants) :
    (Leaf.name w).isIdentifier = true := by
  show (Lexeme.wordKind w == .text || (Lexeme.wordKind w).isKeyword) = true
  unfold Lexeme.wordKind
  split <;> first | rfl | exact absurd (by decide) h

theorem lexes_name {n : List Char} (hn : OrderBy.IsName n) {r : List Char}
    (hr : ∀ c ∈ r.head?, isWordChar c = false) :
    (ofLeaf .quoted (.name (String.ofList n))).Lexes r := by
  obtain ⟨c, w, rfl, hc, hw⟩ := hn
  obtain ⟨htake, hdrop⟩ := run_append hw hr
  have hdash : c ≠ '-' ∧ c ≠ '"' ∧ c ≠ '\'' := by
    refine ⟨?_, ?_, ?_⟩ <;> rintro rfl <;> exact absurd hc (by decide)
  refine ⟨c, w, String.toList_ofList, ?_⟩
  show lexeme c (w ++ r) = (Lexeme.wordKind _, r)
  simp [lexeme, isWhite_of_isWordChar (isWordChar_of_isWordStart hc), isDigit_of_isWordStart hc,
    hdash, hc, Lexeme.word, htake, hdrop]

/-- Names with dots between them are cut into these names. -/
theorem cut_names {n : List Char} {ns : List (List Char)}
    (h : ∀ x ∈ n :: ns, OrderBy.IsName x) :
    chars (ofPath .quoted ((n :: ns).map fun x => Leaf.name (.ofList x))) = join '.' (n :: ns) ∧
      Cut (ofPath .quoted ((n :: ns).map fun x => Leaf.name (.ofList x))) := by
  induction ns generalizing n with
  | nil =>
    have hlexes := lexes_name (h n (by simp)) (r := []) (by simp)
    refine ⟨?_, hlexes, trivial⟩
    simp [ofLeaf, Leaf.write, Leaf.raw, Leaf.name, join]
  | cons n' ns ih =>
    obtain ⟨hchars, hcut⟩ := ih fun x hx => h x (List.mem_cons_of_mem n hx)
    have hdot : isWordChar '.' = false := by decide
    rw [List.map_cons] at hchars hcut ⊢
    rw [List.map_cons, ofPath_cons_cons]
    refine ⟨?_, lexes_name (h n (by simp)) ?_, lexes_dot _, hcut⟩
    · rw [chars_cons, chars_cons, hchars]
      simp [ofLeaf, Leaf.write, Leaf.raw, Leaf.name, join, dot]
    · simp [dot, hdot]

theorem spelledBy_ofNames {n : List Char} {ns : List (List Char)}
    (h : ∀ x ∈ n :: ns, OrderBy.IsName x) {text : String} (ht : text.toList = join '.' (n :: ns)) :
    (Member.ofNames (.ofList n) (ns.map .ofList)).SpelledBy text := by
  obtain ⟨hchars, hcut⟩ := cut_names h
  have hpath : (Member.ofNames (.ofList n) (ns.map .ofList)).path =
      (n :: ns).map fun x => Leaf.name (.ofList x) := by
    simp [Member.ofNames, Member.path, Function.comp_def]
  rw [← hpath] at hchars hcut
  exact scan_pieces_iff.2 ⟨ht.trans hchars.symm, hcut⟩

namespace Parser

variable {o : ParserOptions} {n : Nat}

/-- A keyword alone is a name, and so is one before a dot. -/
theorem endsName_path (m : Member) : endsName (secondKind (ofPath .quoted m.path)) = true := by
  unfold secondKind
  rw [Member.path]
  cases m.fields with
  | nil => rfl
  | cons l ls =>
    rw [ofPath_cons_cons, List.tail_cons]
    rfl

theorem headKind_ofPath_ne (m : Member) {k : Kind} (hk : k.isLeaf = false) :
    headKind (ofPath .quoted m.path) ≠ k := by
  rintro rfl
  have hleaf : m.value.kind.isLeaf = true := m.value.leaf
  rw [Member.path, ofPath_cons, headKind_cons] at hk
  exact absurd (hleaf.symm.trans hk) (by decide)

theorem gets_restriction_alone (m : Member) :
    Gets (restriction o (innerAt o (n + 1))) (ofPath .quoted m.path)
      (fun x => ∃ a left, x = ⟨a, left, none⟩ ∧ left.unplaced = .member m.unplaced) [] := by
  have hmember := @gets_member o m n [] (by simp) (by simp) (by simp)
  rw [List.append_nil] at hmember
  unfold restriction
  refine gets_peek.bind fun _ _ => hmember.bind fun left hleft => gets_get.bind fun saved hs => ?_
  refine (gets_skipBlank_none (by simp)).bind fun _ _ => ?_
  refine gets_peek.bind fun t ht => (gets_comparator? ht).bind fun c hc => ?_
  have hnone : c = none := hc
  subst hnone
  refine (gets_restore hs).bind fun _ _ => (gets_spanFrom _).bind fun a _ => ?_
  exact .pure ⟨a, left, rfl, hleft⟩

theorem gets_alone (m : Member) :
    Gets (simple o (innerAt o (n + 1))) (ofPath .quoted m.path)
      (fun x => ∃ a left, x = .restriction ⟨a, left, none⟩ ∧ left.unplaced = .member m.unplaced)
      [] := by
  unfold simple
  refine gets_peekKind.bind fun k hk => ?_
  rw [if_neg (by rw [hk]; exact headKind_ofPath_ne m rfl)]
  refine (gets_restriction_alone m).bind fun x hx => ?_
  obtain ⟨a, left, rfl, hleft⟩ := hx
  exact .pure ⟨a, left, rfl, hleft⟩

end Parser

/-- Names with dots between them make a filter of one dotted name. -/
theorem exists_parse_alone {o : ParserOptions} (ho : 2 ≤ o.maxDepth) {m : Member} {text : String}
    (hm : m.SpelledBy text) :
    ∃ e a m', parse o text = .ok (some e) ∧ e.Single (.restriction ⟨a, .member m', none⟩) ∧
      m'.unplaced = m.unplaced := by
  obtain ⟨n, hn⟩ : ∃ n, o.maxDepth = n + 2 := ⟨o.maxDepth - 2, by omega⟩
  have hnot : Parser.isOperator .notWord (ofPath .quoted m.path) = false := by
    rw [Parser.isOperator, Parser.endsName_path, Bool.not_true, Bool.and_false]
  have hfilter := Parser.gets_filter_single hn (Parser.gets_alone m)
    (Parser.headKind_ofPath_ne m rfl) (Parser.headKind_ofPath_ne m rfl) hnot
    (Parser.headKind_ofPath_ne m rfl)
  obtain ⟨x, t, hx, ⟨e, y, rfl, he, a, left, rfl, hleft⟩, -⟩ :=
    hfilter _ ⟨hm, legal_ofPath m.path, rfl⟩
  cases left with
  | member m' => exact ⟨e, a, m', parse_ok.2 ⟨t, hx⟩, he, Comparable.member.inj hleft⟩
  | call | struct | array => cases hleft

/-! ## Following a path through messages -/

theorem toList_render_stepInto (f : Field) (s : Selector) :
    (Resolver.stepInto f s).render.toList = f.name.toList ++ '.' :: s.render.toList := by
  simp [Resolver.stepInto, Selector.render, SelectorStep.render, FieldStep.ofField]

/-- Where the check of a path goes on, the selection of its leaves goes on. -/
theorem select_of_checkSegments {r : Resolver} {path : String} {levels : Nat} {message : Message}
    {l : Leaf} {ls : List Leaf} {f : Field} (hids : ∀ x ∈ l :: ls, x.isIdentifier = true)
    (hf : message.field? l.unquoted = some f)
    (hcheck : OrderBy.checkSegments r.schema path f (ls.map Leaf.unquoted) = .ok ())
    (hlevels : (l :: ls).length ≤ levels) :
    ∃ s last, r.select levels message (l :: ls) = pure (s, last) ∧
      s.render.toList = join '.' ((l :: ls).map fun x => x.unquoted.toList) := by
  induction ls generalizing levels message l f with
  | nil =>
    obtain ⟨k, rfl⟩ : ∃ k, levels = k + 1 := ⟨levels - 1, by simp at hlevels; omega⟩
    refine ⟨⟨.ofField f, []⟩, f, ?_, ?_⟩
    · simp [Resolver.select, hids l (by simp), hf]
    · simp [Selector.render, FieldStep.ofField, join, Message.name_of_field? hf]
  | cons next ls ih =>
    obtain ⟨k, rfl⟩ : ∃ k, levels = k + 1 := ⟨levels - 1, by simp at hlevels; omega⟩
    rw [List.map_cons, OrderBy.checkSegments] at hcheck
    split at hcheck
    · cases hcheck
    · next inner hinner =>
      split at hcheck
      · cases hcheck
      · next sub hsub =>
        obtain ⟨s, last, hselect, hrender⟩ :=
          ih (fun x hx => hids x (List.mem_cons_of_mem l hx)) hsub hcheck (by simpa using hlevels)
        have hsingular : f.isMap = false ∧ r.schema.messageOf? f = some inner := by
          unfold OrderBy.singularMessage? at hinner
          split at hinner
          · next hc =>
            exact ⟨by simp [Field.isMap, hc], hinner⟩
          · cases hinner
        refine ⟨Resolver.stepInto f s, last, ?_, ?_⟩
        · simp [Resolver.select, hids l (by simp), hf, hsingular, hselect]
        · rw [toList_render_stepInto, hrender, Message.name_of_field? hf]
          simp [join]

/-- What does not depend on places is the same along both paths. -/
theorem map_path_of_unplaced {α : Type} (g : Leaf → α) (hg : ∀ l, g l.unplaced = g l)
    {m m' : Member} (h : m'.unplaced = m.unplaced) : m'.path.map g = m.path.map g := by
  have hforget : ∀ m : Member, m.unplaced.path.map g = m.path.map g := by
    intro m
    simp [Function.comp_def, hg]
  rw [← hforget m', h, hforget m]

/-- Names that are no constants come back from a text as names. -/
theorem Member.leaves_of_names {m : Member} {first : String} {others : List String}
    (hm : m.unplaced = (ofNames first others).unplaced)
    (h : ∀ w ∈ first :: others, w ∉ constants) :
    m.path.map Leaf.unquoted = first :: others ∧ ∀ x ∈ m.path, x.isIdentifier = true := by
  have hpath : (ofNames first others).path = (first :: others).map Leaf.name := rfl
  refine ⟨?_, fun x hx => ?_⟩
  · rw [map_path_of_unplaced Leaf.unquoted Leaf.unplaced_unquoted hm, hpath, List.map_map]
    simp [Function.comp_def, Leaf.unquoted_name]
  · have hmem := List.mem_map_of_mem (f := Leaf.isIdentifier) hx
    rw [map_path_of_unplaced Leaf.isIdentifier (fun _ => rfl) hm, hpath, List.map_map] at hmem
    obtain ⟨w, hw, hid⟩ := List.mem_map.1 hmem
    rw [← hid]
    exact Leaf.isIdentifier_name (h w hw)

/-- A path that passes the check is the path of what its leaves select. -/
theorem Resolver.select_of_checkPath {r : Resolver} {f : OrderField} {m : Member}
    (hids : ∀ x ∈ m.path, x.isIdentifier = true) (hm : m.path.map Leaf.unquoted = f.segments)
    (hcheck : OrderBy.checkPath r.schema r.root f = .ok ()) {levels : Nat}
    (hlevels : f.segments.length ≤ levels) :
    (r.root.field? m.value.unquoted).isSome = true ∧
      ∃ s last, r.select levels r.root m.path = pure (s, last) ∧ s.render = f.path := by
  rw [← hm, List.length_map] at hlevels
  have hpath : f.path.toList = join '.' (m.path.map fun x => x.unquoted.toList) := by
    have htexts := congrArg (List.map String.toList) hm
    rw [OrderField.segments, splitText, List.map_map, List.map_map] at htexts
    simp only [Function.comp_def, String.toList_ofList, List.map_id'] at htexts
    rw [htexts, join_split]
  unfold OrderBy.checkPath at hcheck
  rw [← hm, Member.path, List.map_cons] at hcheck
  simp only at hcheck
  split at hcheck
  · cases hcheck
  · next g hg =>
    obtain ⟨s, last, hselect, hrender⟩ := select_of_checkSegments hids hg hcheck hlevels
    refine ⟨by rw [hg]; rfl, s, last, hselect, ?_⟩
    rw [← String.toList_inj, hpath]
    exact hrender

/-- A dotted name alone whose first leaf names a field is the field that the path selects. -/
theorem Resolver.resolveTree_alone {r : Resolver} {e : Expression} {a : Span} {m : Member}
    (he : e.Single (.restriction ⟨a, .member m, none⟩)) {levels : Nat}
    (hdepth : r.options.maxDepth = levels + 1) (hid : m.value.isIdentifier = true)
    (hfield : (r.root.field? m.value.unquoted).isSome = true) {s : Selector} {last : Field}
    (hselect : r.select levels r.root m.path = pure (s, last)) :
    (r.resolveTree (some e)).run.1 = .ok ⟨some (.field s), (Expr.field s).complexity⟩ := by
  refine Resolve.run_eq_ok.2 (resolveTree_ok.2 ⟨_, ⟨[], ?_⟩, rfl⟩)
  rw [hdepth, expression_single he]
  simp only [restriction, alone, hid, hfield, selectRoot, hselect]
  rfl

end Filter

namespace OrderBy

open ListQuery.Filter

theorem checkPath_of_validate {schema : Schema} {root : Message} {fields : List OrderField}
    (h : fields.forM (checkPath schema root) = .ok ()) {f : OrderField} (hf : f ∈ fields) :
    checkPath schema root f = .ok () := by
  induction fields with
  | nil => cases hf
  | cons g fields ih =>
    have h : (checkPath schema root g >>= fun _ => fields.forM (checkPath schema root)) = .ok () :=
      h
    cases hg : checkPath schema root g with
    | error e =>
      rw [hg] at h
      cases h
    | ok u =>
      rw [hg] at h
      rcases List.mem_cons.1 hf with rfl | hf
      · exact hg
      · exact ih h hf

/-- The names of a path. -/
theorem exists_names {f : OrderField} (h : IsPath f.path.toList) :
    ∃ n ns, (∀ x ∈ n :: ns, IsName x) ∧ f.path.toList = join '.' (n :: ns) ∧
      f.segments = (n :: ns).map String.ofList := by
  obtain ⟨n, ns, hsplit⟩ := List.exists_cons_of_ne_nil (split_ne_nil '.' f.path.toList)
  refine ⟨n, ns, ?_, ?_, ?_⟩
  · rw [← hsplit]
    exact h.isName_of_mem
  · rw [← hsplit, join_split]
  · rw [OrderField.segments, splitText, hsplit]

/-- What a list can be sorted by it can be filtered by: a path that was read and checked, without
constants among its names, is a filter that resolves to the field with this path. One level is for
the expression that the path stands in, and one for each name. -/
theorem sorted_paths_filter {schema : Schema} {root : Message} {text : String} {clause : OrderBy}
    (hparse : parse text = .ok clause) (hvalid : validate schema root clause = .ok ()) :
    ∀ f ∈ clause.fields, (∀ segment ∈ f.segments, segment ∉ constants) →
      ∀ o : ParserOptions, 2 ≤ o.maxDepth → ∀ before : Store,
        ∃ store, before.reparse o f.path = .ok store ∧
          ∀ options : ResolverOptions, f.segments.length + 1 ≤ options.maxDepth →
            ∃ selector, ((Resolver.mk schema root options).resolve store).run.1 =
                .ok ⟨some (.field selector), (Expr.field selector).complexity⟩ ∧
              selector.render = f.path := by
  intro f hf hconstants o ho before
  obtain ⟨n, ns, hnames, hjoin, hsegments⟩ := exists_names (isPath_of_parse hparse f hf)
  obtain ⟨e, a, m, hread, he, hm⟩ := exists_parse_alone ho (spelledBy_ofNames hnames hjoin)
  refine ⟨before.load (some e), Store.reparse_ok.2 ⟨_, hread, rfl⟩, fun options hdepth => ?_⟩
  rw [hsegments, List.map_cons] at hconstants
  obtain ⟨hunquoted, hids⟩ := Member.leaves_of_names hm hconstants
  rw [← List.map_cons, ← hsegments] at hunquoted
  obtain ⟨levels, hlevels⟩ : ∃ levels, options.maxDepth = levels + 1 :=
    ⟨options.maxDepth - 1, by omega⟩
  have hlength : f.segments.length ≤ levels := by omega
  obtain ⟨hroot, selector, last, hselect, hrender⟩ :=
    Resolver.select_of_checkPath (r := ⟨schema, root, options⟩) hids hunquoted
      (checkPath_of_validate hvalid hf) hlength
  rw [Resolver.resolve_load]
  exact ⟨selector,
    Resolver.resolveTree_alone he hlevels (hids _ List.mem_cons_self) hroot hselect, hrender⟩

/-- Articles with names that are operators in other places. -/
def article : Message :=
  ⟨"test.Article", [Field.ofMessage "NOT" "test.Article", { name := "IN", kind := .string }]⟩

/-- A path of operators is a filter, for parser and resolver with as few levels as may be. -/
theorem operators_filter : ∃ store selector,
    Store.empty.reparse { maxDepth := 2 } "NOT.NOT.IN" = .ok store ∧
      (Resolver.resolve ⟨⟨[article], []⟩, article, { maxDepth := 4 }⟩ store).run.1 =
        .ok ⟨some (.field selector), (Expr.field selector).complexity⟩ ∧
      selector.render = "NOT.NOT.IN" := by
  have hnot : IsName ['N', 'O', 'T'] :=
    ⟨'N', ['O', 'T'], rfl, rfl, by simp [isWordChar, isAlphanumeric, isAlphabetic]⟩
  have hin : IsName ['I', 'N'] :=
    ⟨'I', ['N'], rfl, rfl, by simp [isWordChar, isAlphanumeric, isAlphabetic]⟩
  have hpath : IsPath "NOT.NOT.IN".toList := .dotted hnot (.dotted hnot (.name hin))
  let clause : OrderBy := ⟨[⟨"NOT.NOT.IN", .desc⟩]⟩
  have hparse : parse clause.render = .ok clause :=
    parse_of_writes (writes_render clause (by simpa [clause] using hpath))
  have hvalid : validate ⟨[article], []⟩ article clause = .ok () := by rfl
  obtain ⟨store, hstore, hresolve⟩ := sorted_paths_filter hparse hvalid
    ⟨"NOT.NOT.IN", .desc⟩ (by simp [clause]) (by decide) { maxDepth := 2 } (by decide) .empty
  obtain ⟨selector, hselector, hrender⟩ := hresolve { maxDepth := 4 } (by decide)
  exact ⟨store, selector, hstore, hselector, hrender⟩

end OrderBy

end ListQuery
