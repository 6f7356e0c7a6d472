/-
Names made of fragments. What a fragment adds to a name is its text without the slashes at its ends,
and of that all segments (`segments_join`); so fragments can be joined in groups. The name of
fragments is valid if something is left of them and no two slashes stand in a row inside of one, and
a valid name is the join of its segments (`fragments_join`).
-/
import ListQuery.Proofs.Text.Pieces
import ListQuery.ResourceName

namespace ListQuery.ResourceName

open Text

variable {ps qs : List String}

/-- A fragment without the slashes at its ends. -/
def trimmed (fragment : String) : String := String.ofList (trim '/' fragment.toList)

@[simp] theorem toList_trimmed (fragment : String) :
    (trimmed fragment).toList = trim '/' fragment.toList := String.toList_ofList

theorem trimmed_eq_empty_iff {fragment : String} :
    trimmed fragment = "" ↔ trim '/' fragment.toList = [] := by
  rw [← toList_trimmed, String.toList_eq_nil_iff]

/-- The parts of a name that fragments make. -/
def pieces (ps : List String) : List (List Char) :=
  (ps.map fun p => trim '/' p.toList).filter fun p => !p.isEmpty

theorem toList_join (ps : List String) : (join ps).toList = Text.join '/' (pieces ps) :=
  String.toList_ofList

theorem pieces_append (ps qs : List String) : pieces (ps ++ qs) = pieces ps ++ pieces qs := by
  simp [pieces]

theorem mem_pieces {p : List Char} :
    p ∈ pieces ps ↔ (∃ f ∈ ps, trim '/' f.toList = p) ∧ p ≠ [] := by
  simp [pieces]

theorem trimmed_of_mem {p : List Char} (h : p ∈ pieces ps) : p ≠ [] ∧ Trimmed '/' p := by
  obtain ⟨⟨f, -, rfl⟩, hne⟩ := mem_pieces.1 h
  exact ⟨hne, trimmed_trim '/' f.toList⟩

theorem trimmed_join (ps : List String) : Trimmed '/' (join ps).toList := by
  rw [toList_join]
  exact Text.trimmed_join fun p hp => trimmed_of_mem hp

theorem join_eq_empty_iff : join ps = "" ↔ pieces ps = [] := by
  rw [← String.toList_eq_nil_iff, toList_join]
  constructor
  · intro h
    by_contra hne
    exact Text.join_ne_nil hne (fun p hp => (trimmed_of_mem hp).1) h
  · intro h
    rw [h]
    rfl

theorem pieces_singleton (p : String) :
    pieces [p] = if trim '/' p.toList = [] then [] else [trim '/' p.toList] := by
  by_cases h : trim '/' p.toList = [] <;> simp [pieces, h]

/-- Joined fragments are a fragment that nothing is trimmed off. -/
theorem pieces_join (ps : List String) :
    pieces [join ps] = if pieces ps = [] then [] else [Text.join '/' (pieces ps)] := by
  rw [pieces_singleton, (trimmed_join ps).trim_eq, toList_join]
  by_cases h : pieces ps = []
  · rw [h]
    rfl
  · have hne := @Text.join_ne_nil '/' _ h fun p hp => (trimmed_of_mem hp).1
    rw [if_neg hne, if_neg h]

/-- Fragments may be joined in two groups first. -/
theorem join_append (ps qs : List String) : join (ps ++ qs) = join [join ps, join qs] := by
  have hgroups : pieces [join ps, join qs] = pieces [join ps] ++ pieces [join qs] :=
    pieces_append [join ps] [join qs]
  rw [← String.toList_inj, toList_join, toList_join, hgroups, pieces_append, pieces_join,
    pieces_join]
  by_cases hps : pieces ps = []
  · by_cases hqs : pieces qs = []
    · simp [hps, hqs]
    · simp [hps, hqs, Text.join]
  · by_cases hqs : pieces qs = []
    · simp [hps, hqs, Text.join]
    · rw [if_neg hps, if_neg hqs, Text.join_append hps hqs]
      rfl

theorem segments_of_ne {name : String} (h : name ≠ "") :
    segments name = (split '/' name.toList).map String.ofList := if_neg h

theorem segments_trimmed (p : String) :
    segments (trimmed p) = (pieces [p]).flatMap fun cs => (split '/' cs).map String.ofList := by
  rw [pieces_singleton]
  by_cases h : trim '/' p.toList = []
  · rw [trimmed_eq_empty_iff.2 h, if_pos h]
    rfl
  · have hne : trimmed p ≠ "" := fun he => h (trimmed_eq_empty_iff.1 he)
    rw [segments_of_ne hne, toList_trimmed, if_neg h, List.flatMap_singleton]

theorem flatMap_pieces {α : Type} (f : List Char → List α) (ps : List String) :
    (pieces ps).flatMap f = ps.flatMap fun p => (pieces [p]).flatMap f := by
  induction ps with
  | nil => rfl
  | cons p ps ih =>
    rw [← List.singleton_append, pieces_append, List.flatMap_append, ih, List.flatMap_append,
      List.flatMap_singleton]

/-- The segments of joined fragments are those of the fragments, one behind the other. -/
theorem segments_join (ps : List String) :
    segments (join ps) = ps.flatMap fun p => segments (trimmed p) := by
  simp only [segments_trimmed]
  rw [← flatMap_pieces]
  by_cases h : pieces ps = []
  · rw [join_eq_empty_iff.2 h, h]
    rfl
  · rw [segments_of_ne fun he => h (join_eq_empty_iff.1 he), toList_join, split_join h,
      List.map_flatMap]

/-! ## Valid names -/

theorem empty_mem_segments {name : String} (h : name ≠ "") :
    "" ∈ segments name ↔ [] ∈ split '/' name.toList := by
  simp [segments_of_ne h]

theorem validate_iff {name : String} :
    validate name = .ok () ↔ segments name ≠ [] ∧ "" ∉ segments name := by
  by_cases hname : name = ""
  · subst hname
    simp [validate, segments]
  · have hne : segments name ≠ [] := by
      rw [segments_of_ne hname]
      simpa using split_ne_nil '/' name.toList
    simp only [ne_eq, hne, not_false_eq_true, true_and]
    unfold validate
    rw [if_neg hname]
    split
    · next hhead =>
      -- the first segment is empty
      obtain ⟨cs, hcs⟩ : ∃ cs, name.toList = '/' :: cs := List.head?_eq_some_iff.1 hhead
      simp [empty_mem_segments hname, hcs, split]
    split
    · next hlast =>
      -- the last segment is empty
      obtain ⟨cs, hcs⟩ := List.getLast?_eq_some_iff.1 hlast
      have hempty : [] ∈ split '/' name.toList := by
        rw [hcs, split_append]
        simp [split]
      simp [empty_mem_segments hname, hempty]
    split
    · next index hindex =>
      have hempty : "" ∈ segments name := by
        obtain ⟨hlt, hget, -⟩ := List.findIdx?_eq_some_iff_getElem.1 hindex
        rw [← String.isEmpty_iff.1 hget]
        exact List.getElem_mem hlt
      simp [hempty]
    · next hnone =>
      have hfull : "" ∉ segments name := by
        intro hmem
        have := List.findIdx?_eq_none_iff.1 hnone "" hmem
        simp at this
      simp [hfull]

/-- The name of fragments is valid if something is left of one of them and no two slashes stand in a
row in what is left. -/
theorem validate_join_iff : validate (join ps) = .ok () ↔
    (∃ p ∈ ps, trimmed p ≠ "") ∧ ∀ p ∈ ps, ¬ ['/', '/'] <:+: (trimmed p).toList := by
  have hsegments (p : String) : "" ∉ segments (trimmed p) ↔
      ¬ ['/', '/'] <:+: (trimmed p).toList := by
    by_cases h : trimmed p = ""
    · simp [h, segments]
    · have hne : trim '/' p.toList ≠ [] := fun he => h (trimmed_eq_empty_iff.2 he)
      rw [empty_mem_segments h, toList_trimmed, nil_mem_split_iff hne (trimmed_trim '/' _)]
  have hsome : segments (join ps) ≠ [] ↔ ∃ p ∈ ps, trimmed p ≠ "" := by
    rw [segments_join, ne_eq, List.flatMap_eq_nil_iff]
    simp only [not_forall, exists_prop]
    refine exists_congr fun p => and_congr_right fun _ => not_congr ?_
    constructor
    · intro hnil
      by_contra hne
      rw [segments_of_ne hne, List.map_eq_nil_iff] at hnil
      exact split_ne_nil '/' _ hnil
    · intro he
      simp [he, segments]
  rw [validate_iff, hsome, segments_join]
  simp only [List.mem_flatMap, not_exists, not_and, hsegments]

/-- A valid name is the join of its segments. -/
theorem join_segments {name : String} (h : validate name = .ok ()) :
    join (segments name) = name := by
  obtain ⟨hne, hfull⟩ := validate_iff.1 h
  have hname : name ≠ "" := by
    rintro rfl
    exact hne rfl
  rw [empty_mem_segments hname] at hfull
  have hpieces : pieces (segments name) = split '/' name.toList := by
    rw [pieces, segments_of_ne hname, List.map_map]
    have hsame : ∀ p ∈ split '/' name.toList,
        ((fun p : String => trim '/' p.toList) ∘ String.ofList) p = p := by
      intro p hp
      simp only [Function.comp_apply, String.toList_ofList]
      exact (trimmed_of_not_mem (not_mem_of_mem_split hp)).trim_eq
    rw [List.map_congr_left hsame, List.map_id', List.filter_eq_self]
    intro p hp
    have hp' : p ≠ [] := fun he => hfull (he ▸ hp)
    simpa using hp'
  rw [← String.toList_inj, toList_join, hpieces, join_split]

/-- Joining fragments, cutting a name into segments and checking it go together: a join has the
segments of its fragments, can be made in two groups, and is valid if something is left of a
fragment and no two slashes stand in a row inside of one; and the valid names are those with
segments of which none is empty, and each is the join of them. -/
theorem fragments_join (ps : List String) :
    segments (join ps) = (ps.flatMap fun p => segments (trimmed p)) ∧
    (∀ qs, join (ps ++ qs) = join [join ps, join qs]) ∧
    (validate (join ps) = .ok () ↔
      (∃ p ∈ ps, trimmed p ≠ "") ∧ ∀ p ∈ ps, ¬ ['/', '/'] <:+: (trimmed p).toList) ∧
    ∀ name, (validate name = .ok () ↔ segments name ≠ [] ∧ "" ∉ segments name) ∧
      (validate name = .ok () → join (segments name) = name) :=
  ⟨segments_join ps, join_append ps, validate_join_iff, fun _ => ⟨validate_iff, join_segments⟩⟩

/-- Fragments with slashes at their ends, some of which have nothing else. -/
theorem fragments_join_edges :
    let ps := ["/publishers/", "", "//", "1/books///"]
    let name := "publishers/1/books"
    join ps = name ∧ validate name = .ok () ∧ segments (join ps) = ["publishers", "1", "books"] ∧
      join (segments name) = name := by
  intro ps name
  have hjoin : join ps = name := by decide
  have hsegments : segments name = ["publishers", "1", "books"] := by decide
  obtain ⟨-, -, -, hvalid⟩ := fragments_join ps
  have hname : validate name = .ok () := (hvalid name).1.2 (by rw [hsegments]; decide)
  exact ⟨hjoin, hname, by rw [hjoin, hsegments], (hvalid name).2 hname⟩

end ListQuery.ResourceName
