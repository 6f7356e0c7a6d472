/-
The grammar of sort clauses (`OrderBy.Writes`): items with commas between them, each a path of names
and a direction at will, and blanks around items and commas. Reading a clause and the grammar agree,
and a clause whose paths are paths is read back from its text (`OrderBy.parse_grammar`).

The reader takes names, blanks and words as long as they are. So each part of the grammar is read
back before any text that cannot go on with it, and for items that is text whose first character
behind blanks is a comma (`EndsItem`).
-/
import Mathlib
import ListQuery.OrderBy
import ListQuery.Proofs.Text.Classes

namespace ListQuery

open Text

/-- A lower letter is what it and its upper form are in lower case. -/
theorem toLower_eq_iff {c l : Char} (hl : l.isLower = true) :
    c.toLower = l ↔ c = l ∨ c = l.toUpper := by
  have hlower : l.toLower = l := Char.toLower_eq_of_not_isUpper fun hu => by
    have hnot := Char.not_isLower_of_isUpper hu
    exact hnot hl
  constructor
  · rintro rfl
    by_cases hu : c.isUpper = true
    · right
      rw [Char.toUpper_toLower_eq_toUpper]
      exact (Char.toUpper_eq_of_not_isLower (Char.not_isLower_of_isUpper hu)).symm
    · left
      exact (Char.toLower_eq_of_not_isUpper hu).symm
  · rintro (rfl | rfl)
    · exact hlower
    · rw [Char.toLower_toUpper_eq_toLower, hlower]

namespace OrderBy

/-- A name: a letter or an underscore, and characters of words behind it. -/
def IsName (cs : List Char) : Prop :=
  ∃ c w, cs = c :: w ∧ isWordStart c = true ∧ ∀ x ∈ w, isWordChar x = true

/-- Names with dots between them, at least one. -/
inductive IsPath : List Char → Prop
  | name {n : List Char} (hn : IsName n) : IsPath n
  | dotted {n p : List Char} (hn : IsName n) (hp : IsPath p) : IsPath (n ++ '.' :: p)

def IsBlank (cs : List Char) : Prop := ∀ c ∈ cs, isWhite c = true

/-- A word that spells a direction, each letter in either case. -/
def SpellsDirection (w : List Char) (d : Direction) : Prop :=
  List.Forall₂ (fun c l => c = l ∨ c = l.toUpper) w d.name.toList

/-- An item: a path alone, or a path and behind blanks a direction. -/
inductive WritesItem : List Char → OrderField → Prop
  | path {p : List Char} (hp : IsPath p) : WritesItem p ⟨String.ofList p, .asc⟩
  | directed {p b w : List Char} {d : Direction} (hp : IsPath p) (hb : IsBlank b) (hne : b ≠ [])
      (hw : SpellsDirection w d) : WritesItem (p ++ (b ++ w)) ⟨String.ofList p, d⟩

/-- Items with commas between them, blanks around each comma. -/
inductive WritesItems : List Char → List OrderField → Prop
  | last {w : List Char} {f : OrderField} (hf : WritesItem w f) : WritesItems w [f]
  | cons {w b b' r : List Char} {f : OrderField} {fs : List OrderField} (hf : WritesItem w f)
      (hb : IsBlank b) (hb' : IsBlank b') (hfs : WritesItems r fs) :
      WritesItems (w ++ (b ++ ',' :: (b' ++ r))) (f :: fs)

/-- A clause: blanks alone, or items with blanks around them. -/
inductive Writes : List Char → List OrderField → Prop
  | blank {b : List Char} (hb : IsBlank b) : Writes b []
  | items {b w b' : List Char} {fs : List OrderField} (hb : IsBlank b) (hfs : WritesItems w fs)
      (hb' : IsBlank b') : Writes (b ++ (w ++ b')) fs

theorem IsName.isWordChar {n : List Char} (h : IsName n) : ∀ c ∈ n, isWordChar c = true := by
  obtain ⟨c, w, rfl, hc, hw⟩ := h
  intro x hx
  rcases List.mem_cons.1 hx with rfl | hx
  · exact isWordChar_of_isWordStart hc
  · exact hw x hx

theorem IsPath.head {p : List Char} (h : IsPath p) :
    ∃ c w, p = c :: w ∧ isWordStart c = true := by
  cases h with
  | name hn =>
    obtain ⟨c, w, rfl, hc, -⟩ := hn
    exact ⟨c, w, rfl, hc⟩
  | dotted hn _ =>
    obtain ⟨c, w, rfl, hc, -⟩ := hn
    exact ⟨c, _, rfl, hc⟩

/-- A name that nothing goes on with is a path of its own. -/
theorem readPath_name {n r : List Char} (hn : IsName n)
    (hr : ∀ c ∈ r.head?, isWordChar c = false ∧ c ≠ '.') : readPath (n ++ r) = .ok (n, r) := by
  obtain ⟨c, w, rfl, hc, hw⟩ := hn
  obtain ⟨htake, hdrop⟩ := run_append hw fun x hx => (hr x hx).1
  rw [List.cons_append, readPath, if_pos hc, htake, hdrop]
  split
  · exact absurd rfl (hr '.' rfl).2
  · rfl

/-- A name before a dot starts a longer path. -/
theorem readPath_dotted {n r p rest : List Char} (hn : IsName n)
    (hr : readPath r = .ok (p, rest)) : readPath (n ++ '.' :: r) = .ok (n ++ '.' :: p, rest) := by
  obtain ⟨c, w, rfl, hc, hw⟩ := hn
  have hdot : isWordChar '.' = false := by decide
  obtain ⟨htake, hdrop⟩ := run_append (r := '.' :: r) hw (by simpa using hdot)
  rw [List.cons_append, readPath, if_pos hc, htake, hdrop]
  simp only [hr]

theorem readPath_of_isPath {p r : List Char} (hp : IsPath p)
    (hr : ∀ c ∈ r.head?, isWordChar c = false ∧ c ≠ '.') : readPath (p ++ r) = .ok (p, r) := by
  induction hp with
  | name hn => exact readPath_name hn hr
  | dotted hn _ ih =>
    rw [List.append_assoc, List.cons_append]
    exact readPath_dotted hn ih

theorem isPath_of_readPath {cs p r : List Char} (h : readPath cs = .ok (p, r)) :
    IsPath p ∧ ∀ c ∈ r.head?, isWordChar c = false := by
  fun_induction readPath cs generalizing p r with
  | case1 => cases h
  | case2 c cs hc r' hr p' rest hp ih =>
    cases h
    obtain ⟨hpath, hrest⟩ := ih hp
    exact ⟨.dotted ⟨c, _, rfl, hc, List.all_eq_true.1 List.all_takeWhile⟩ hpath, hrest⟩
  | case3 => cases h
  | case4 c cs hc =>
    cases h
    exact ⟨.name ⟨c, _, rfl, hc, List.all_eq_true.1 List.all_takeWhile⟩, head_dropWhile _ _⟩
  | case5 => cases h

theorem ofName?_eq_some_iff {s : String} {d : Direction} :
    Direction.ofName? s = some d ↔ s = d.name := by
  constructor
  · intro h
    unfold Direction.ofName? at h
    split at h <;> cases h <;> rfl
  · rintro rfl
    cases d <;> rfl

theorem isLower_of_mem_name {d : Direction} {l : Char} (h : l ∈ d.name.toList) :
    l.isLower = true := by
  have hall : d.name.toList.all Char.isLower = true := by cases d <;> decide
  exact List.all_eq_true.1 hall l h

theorem map_toLower_eq_iff {w ls : List Char} (hls : ∀ l ∈ ls, l.isLower = true) :
    w.map Char.toLower = ls ↔ List.Forall₂ (fun c l => c = l ∨ c = l.toUpper) w ls := by
  induction ls generalizing w with
  | nil => rw [List.map_eq_nil_iff, List.forall₂_nil_right_iff]
  | cons l ls ih =>
    cases w with
    | nil =>
      constructor
      · intro h
        cases h
      · intro h
        cases h
    | cons c w =>
      rw [List.map_cons, List.cons.injEq, List.forall₂_cons, toLower_eq_iff (hls l (by simp)),
        ih fun x hx => hls x (by simp [hx])]

theorem ofWord?_eq_some_iff {w : List Char} {d : Direction} :
    Direction.ofWord? w = some d ↔ SpellsDirection w d := by
  rw [Direction.ofWord?, ofName?_eq_some_iff, ← String.toList_inj, String.toList_ofList]
  exact map_toLower_eq_iff fun _ => isLower_of_mem_name

theorem SpellsDirection.ne_nil {w : List Char} {d : Direction} (h : SpellsDirection w d) :
    w ≠ [] := by
  rintro rfl
  have hname : d.name.toList = [] := List.forall₂_nil_left_iff.1 h
  cases d <;> exact absurd hname (by decide)

theorem isWordChar_of_mem_direction {w : List Char} {d : Direction} (h : SpellsDirection w d)
    {c : Char} (hc : c ∈ w) : isWordChar c = true := by
  have hmem : c.toLower ∈ d.name.toList := by
    rw [← (map_toLower_eq_iff fun _ => isLower_of_mem_name).2 h]
    exact List.mem_map_of_mem hc
  have hlower := isLower_of_mem_name hmem
  rw [Char.isLower_toLower_eq_isAlpha] at hlower
  exact isWordChar_of_isAlpha hlower

theorem isBlank_nil : IsBlank [] := by
  simp [IsBlank]

theorem isBlank_space : IsBlank [' '] := by
  simp [IsBlank, isWhite]

theorem isBlank_takeWhile (cs : List Char) : IsBlank (cs.takeWhile isWhite) :=
  List.all_eq_true.1 List.all_takeWhile

theorem IsBlank.append {b b' : List Char} (hb : IsBlank b) (hb' : IsBlank b') :
    IsBlank (b ++ b') := by
  intro c hc
  rcases List.mem_append.1 hc with hc | hc
  · exact hb c hc
  · exact hb' c hc

theorem IsBlank.dropWhile {b : List Char} (hb : IsBlank b) (r : List Char) :
    (b ++ r).dropWhile isWhite = r.dropWhile isWhite :=
  List.dropWhile_append_of_pos hb

theorem IsBlank.dropWhile_eq_nil {b : List Char} (hb : IsBlank b) : b.dropWhile isWhite = [] :=
  List.dropWhile_eq_nil_iff.2 hb

/-- No path goes on with a blank. -/
theorem ends_path_of_isWhite {c : Char} (h : isWhite c = true) :
    isWordChar c = false ∧ c ≠ '.' := by
  refine ⟨isWordChar_of_isWhite h, ?_⟩
  rintro rfl
  exact absurd h (by decide)

/-! ## Items -/

/-- Behind blanks, the text ends or goes on with a comma. -/
def EndsItem (r : List Char) : Prop := ∀ c ∈ (r.dropWhile isWhite).head?, c = ','

theorem IsBlank.endsItem {b : List Char} (hb : IsBlank b) : EndsItem b := by
  simp [EndsItem, hb.dropWhile_eq_nil]

theorem IsBlank.endsItem_comma {b : List Char} (hb : IsBlank b) (r : List Char) :
    EndsItem (b ++ ',' :: r) := by
  have hcomma : isWhite ',' = false := by decide
  simp [EndsItem, hb.dropWhile, hcomma]

/-- What ends an item goes on with no path. -/
theorem EndsItem.head {r : List Char} (h : EndsItem r) :
    ∀ c ∈ r.head?, isWordChar c = false ∧ c ≠ '.' := by
  intro c hc
  obtain ⟨t, rfl⟩ := List.head?_eq_some_iff.1 hc
  cases hw : isWhite c with
  | true => exact ends_path_of_isWhite hw
  | false =>
    have hcomma : c = ',' := h c (by simp [hw])
    subst hcomma
    decide

/-- What ends an item starts no word behind its blanks. -/
theorem EndsItem.takeWhile {r : List Char} (h : EndsItem r) :
    (r.dropWhile isWhite).takeWhile isWordChar = [] := by
  have hcomma : isWordChar ',' = false := by decide
  have hrun := run_append (p := isWordChar) (w := []) (r := r.dropWhile isWhite) (by simp)
    fun c hc => by rw [h c hc, hcomma]
  exact hrun.1

theorem WritesItem.head {w : List Char} {f : OrderField} (h : WritesItem w f) :
    ∃ c t, w = c :: t ∧ isWordStart c = true := by
  cases h with
  | path hp => exact hp.head
  | directed hp =>
    obtain ⟨c, t, rfl, hc⟩ := hp.head
    exact ⟨c, _, rfl, hc⟩

theorem readField_of_writesItem {w r : List Char} {f : OrderField} (h : WritesItem w f)
    (hr : EndsItem r) : readField (w ++ r) = .ok (f, r) := by
  cases h with
  | path hp =>
    unfold readField
    rw [readPath_of_isPath hp hr.head]
    simp only [hr.takeWhile]
  | @directed p b w d hp hb hne hw =>
    have hword : ∀ c ∈ w, isWordChar c = true := fun c => isWordChar_of_mem_direction hw
    obtain ⟨x, b, rfl⟩ := List.exists_cons_of_ne_nil hne
    have hx : isWhite x = true := hb x List.mem_cons_self
    obtain ⟨y, w, rfl⟩ := List.exists_cons_of_ne_nil hw.ne_nil
    have hblank : ∀ c ∈ (x :: b ++ (y :: w ++ r)).head?, isWordChar c = false ∧ c ≠ '.' := by
      intro c hc
      cases hc
      exact ends_path_of_isWhite hx
    have hdark : (x :: b ++ (y :: w ++ r)).dropWhile isWhite = y :: w ++ r :=
      (run_append hb fun c hc => by
        cases hc
        exact isWhite_of_isWordChar (hword y List.mem_cons_self)).2
    obtain ⟨htake, hdrop⟩ := run_append hword fun c hc => (hr.head c hc).1
    rw [List.append_assoc, List.append_assoc]
    unfold readField
    rw [readPath_of_isPath hp hblank]
    simp only [hdark, htake, hdrop, ofWord?_eq_some_iff.2 hw]

theorem exists_of_readField {cs r : List Char} {f : OrderField}
    (h : readField cs = .ok (f, r)) : ∃ w, cs = w ++ r ∧ WritesItem w f := by
  unfold readField at h
  split at h
  · cases h
  · next path rest hp =>
    obtain ⟨hpath, hstop⟩ := isPath_of_readPath hp
    obtain ⟨rfl, -⟩ := readPath_append hp
    simp only at h
    split at h
    · cases h
      exact ⟨path, rfl, .path hpath⟩
    · next hword =>
      split at h
      · next d hd =>
        cases h
        refine ⟨path ++ (rest.takeWhile isWhite ++
          (rest.dropWhile isWhite).takeWhile isWordChar), ?_,
          .directed hpath (isBlank_takeWhile _) ?_ (ofWord?_eq_some_iff.1 hd)⟩
        · rw [List.append_assoc, List.append_assoc, List.takeWhile_append_dropWhile,
            List.takeWhile_append_dropWhile]
        · -- Without a blank the path would have gone on with the word.
          intro hnil
          refine hword ?_
          have hrest : rest.dropWhile isWhite = rest := by
            have hcut := List.takeWhile_append_dropWhile (p := isWhite) (l := rest)
            rwa [hnil, List.nil_append] at hcut
          rw [hrest]
          exact (run_append (w := []) (by simp) hstop).1
      · cases h

/-! ## Clauses -/

theorem WritesItems.head {w : List Char} {fs : List OrderField} (h : WritesItems w fs) :
    ∃ c t, w = c :: t ∧ isWordStart c = true := by
  cases h with
  | last hf => exact hf.head
  | cons hf =>
    obtain ⟨c, t, rfl, hc⟩ := hf.head
    exact ⟨c, _, rfl, hc⟩

/-- Blanks before a text that starts a word are all that is dropped. -/
theorem IsBlank.dropWhile_start {b w : List Char} (hb : IsBlank b)
    (hw : ∃ c t, w = c :: t ∧ isWordStart c = true) (r : List Char) :
    (b ++ (w ++ r)).dropWhile isWhite = w ++ r := by
  obtain ⟨c, t, rfl, hc⟩ := hw
  refine (run_append hb fun x hx => ?_).2
  cases hx
  exact isWhite_of_isWordChar (isWordChar_of_isWordStart hc)

theorem readFields_of_writesItems {b w b' : List Char} {fs : List OrderField} (hb : IsBlank b)
    (h : WritesItems w fs) (hb' : IsBlank b') : readFields (b ++ (w ++ b')) = .ok fs := by
  induction h generalizing b with
  | last hf =>
    rw [readFields, hb.dropWhile_start hf.head, readField_of_writesItem hf hb'.endsItem]
    simp only
    rw [hb'.dropWhile_eq_nil]
  | @cons w a a' r f fs hf ha ha' hfs ih =>
    have hcomma : isWhite ',' = false := by decide
    have htail : (a ++ ',' :: (a' ++ r)) ++ b' = a ++ ',' :: (a' ++ (r ++ b')) := by
      simp only [List.append_assoc, List.cons_append]
    have hend : (a ++ ',' :: (a' ++ (r ++ b'))).dropWhile isWhite = ',' :: (a' ++ (r ++ b')) := by
      rw [ha.dropWhile, List.dropWhile_cons_of_neg (by simp [hcomma])]
    rw [readFields, List.append_assoc, htail, hb.dropWhile_start hf.head,
      readField_of_writesItem hf (ha.endsItem_comma _)]
    simp only
    rw [hend]
    simp only [ih ha']

theorem exists_of_readFields {cs : List Char} {fs : List OrderField}
    (h : readFields cs = .ok fs) :
    ∃ b w b', cs = b ++ (w ++ b') ∧ IsBlank b ∧ WritesItems w fs ∧ IsBlank b' := by
  fun_induction readFields cs generalizing fs with
  | case1 => cases h
  | case2 cs f rest hf hend =>
    cases h
    obtain ⟨w, hcut, hw⟩ := exists_of_readField hf
    refine ⟨cs.takeWhile isWhite, w, rest, ?_, isBlank_takeWhile cs, .last hw,
      List.dropWhile_eq_nil_iff.1 hend⟩
    rw [← hcut, List.takeWhile_append_dropWhile]
  | case3 cs f rest hf r hr fs hfs ih =>
    cases h
    obtain ⟨w, hcut, hw⟩ := exists_of_readField hf
    obtain ⟨b, t, b', rfl, hb, ht, hb'⟩ := ih hfs
    have hrest := List.takeWhile_append_dropWhile (p := isWhite) (l := rest)
    rw [hr] at hrest
    have hgap := isBlank_takeWhile rest
    generalize rest.takeWhile isWhite = gap at hrest hgap
    subst hrest
    refine ⟨cs.takeWhile isWhite, w ++ (gap ++ ',' :: (b ++ t)), b', ?_, isBlank_takeWhile cs,
      .cons hw hgap hb ht, hb'⟩
    calc cs = cs.takeWhile isWhite ++ (w ++ (gap ++ ',' :: (b ++ (t ++ b')))) := by
          rw [← hcut, List.takeWhile_append_dropWhile]
      _ = _ := by simp only [List.append_assoc, List.cons_append]
  | case4 => cases h
  | case5 => cases h

theorem parse_of_writes {text : String} {fs : List OrderField} (h : Writes text.toList fs) :
    parse text = .ok ⟨fs⟩ := by
  unfold parse
  generalize text.toList = cs at h
  cases h with
  | blank hb => simp only [hb.dropWhile_eq_nil]
  | @items b w b' _ hb hfs hb' =>
    have hstart := hb.dropWhile_start hfs.head b'
    have hread := readFields_of_writesItems isBlank_nil hfs hb'
    rw [List.nil_append] at hread
    obtain ⟨c, t, rfl, -⟩ := hfs.head
    rw [List.cons_append] at hstart hread
    simp only [List.cons_append, hstart, hread]

theorem writes_of_parse {text : String} {clause : OrderBy} (h : parse text = .ok clause) :
    Writes text.toList clause.fields := by
  unfold parse at h
  extract_lets cs at h
  have hcut := List.takeWhile_append_dropWhile (p := isWhite) (l := text.toList)
  have hblank := isBlank_takeWhile text.toList
  generalize cs.dropWhile isWhite = rest at h hcut
  rw [← hcut]
  split at h
  · cases h
    rw [List.append_nil]
    exact .blank hblank
  · split at h
    · next hread =>
      cases h
      obtain ⟨b, w, b', rfl, hb, hw, hb'⟩ := exists_of_readFields hread
      rw [← List.append_assoc]
      exact .items (hblank.append hb) hw hb'
    · cases h

theorem writesItem_render {f : OrderField} (hf : IsPath f.path.toList) :
    WritesItem f.render.toList f := by
  obtain ⟨path, direction⟩ := f
  cases direction with
  | asc =>
    have hitem := WritesItem.path hf
    rw [String.ofList_toList] at hitem
    simpa [OrderField.render, Direction.isDescending] using hitem
  | desc =>
    have hword : SpellsDirection "desc".toList .desc :=
      List.forall₂_same.2 fun _ _ => .inl rfl
    have hitem := WritesItem.directed hf isBlank_space (by simp) hword
    rw [String.ofList_toList] at hitem
    simpa [OrderField.render, Direction.isDescending] using hitem

theorem writesItems_render {fs : List OrderField} (hne : fs ≠ [])
    (h : ∀ f ∈ fs, IsPath f.path.toList) :
    WritesItems (OrderBy.mk fs).render.toList fs := by
  induction fs with
  | nil => exact absurd rfl hne
  | cons f fs ih =>
    have hf := writesItem_render (h f List.mem_cons_self)
    cases fs with
    | nil => exact .last hf
    | cons g fs =>
      have hrest := ih (List.cons_ne_nil g fs) fun x hx => h x (List.mem_cons_of_mem f hx)
      have hitems := WritesItems.cons hf isBlank_nil isBlank_space hrest
      simpa [OrderBy.render, String.intercalate_cons_cons] using hitems

theorem writes_render (clause : OrderBy) (h : ∀ f ∈ clause.fields, IsPath f.path.toList) :
    Writes clause.render.toList clause.fields := by
  obtain ⟨fs⟩ := clause
  by_cases hnil : fs = []
  · subst hnil
    exact .blank isBlank_nil
  · have hitems := writesItems_render hnil h
    have hclause := Writes.items isBlank_nil hitems isBlank_nil
    rwa [List.nil_append, List.append_nil] at hclause

/-- A text is read as a clause if and only if the grammar writes that clause so, and a clause whose
paths are paths is read back from its text. -/
theorem parse_grammar (clause : OrderBy) :
    (∀ text, parse text = .ok clause ↔ Writes text.toList clause.fields) ∧
      ((∀ f ∈ clause.fields, IsPath f.path.toList) → parse clause.render = .ok clause) :=
  ⟨fun _ => ⟨writes_of_parse, parse_of_writes⟩, fun h => parse_of_writes (writes_render clause h)⟩

/-- Fields may be called as directions are. -/
theorem parse_grammar_direction_names :
    parse (OrderBy.mk [⟨"desc", .desc⟩, ⟨"名.asc", .asc⟩]).render =
      .ok ⟨[⟨"desc", .desc⟩, ⟨"名.asc", .asc⟩]⟩ := by
  refine (parse_grammar _).2 ?_
  have hdesc : IsPath "desc".toList :=
    .name ⟨'d', ['e', 's', 'c'], rfl, rfl, by simp [isWordChar, isAlphanumeric, isAlphabetic]⟩
  have hasc : IsPath "asc".toList :=
    .name ⟨'a', ['s', 'c'], rfl, rfl, by simp [isWordChar, isAlphanumeric, isAlphabetic]⟩
  have hletter : isWordStart '名' = true := by decide +kernel
  have hdotted : IsPath "名.asc".toList := .dotted (n := ['名']) ⟨'名', [], rfl, hletter, by simp⟩ hasc
  intro f hf
  rcases List.mem_pair.1 hf with rfl | rfl
  · exact hdesc
  · exact hdotted

end OrderBy

end ListQuery
