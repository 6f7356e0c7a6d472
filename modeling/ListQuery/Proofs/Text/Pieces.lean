/-
Pieces of a text between separators. A separator in a text cuts it in two texts that are cut each on
its own (`split_append`), so pieces that are joined come apart again, each into its own pieces
(`split_join`). Between a piece's own ends an empty piece is two separators in a row
(`nil_mem_split_iff`).
-/
import Mathlib.Data.List.Infix
import ListQuery.Proofs.Text.Classes
import ListQuery.Text.Split

namespace ListQuery.Text

variable {sep : Char} {cs : List Char} {ps qs : List (List Char)}

theorem consPiece_append (c : Char) (h : ps ≠ []) (qs : List (List Char)) :
    consPiece c (ps ++ qs) = consPiece c ps ++ qs := by
  cases ps with
  | nil => exact absurd rfl h
  | cons p ps => rfl

theorem split_append (cs ds : List Char) :
    split sep (cs ++ sep :: ds) = split sep cs ++ split sep ds := by
  induction cs with
  | nil => simp [split]
  | cons c cs ih =>
    rw [List.cons_append, split, split, ih]
    split
    · rfl
    · exact consPiece_append c (split_ne_nil sep cs) _

theorem split_of_not_mem (h : sep ∉ cs) : split sep cs = [cs] := by
  induction cs with
  | nil => rfl
  | cons c cs ih =>
    rw [List.mem_cons, not_or] at h
    obtain ⟨hc, hcs⟩ := h
    rw [split, if_neg (Ne.symm hc), ih hcs]
    rfl

theorem not_mem_of_mem_split {p : List Char} (h : p ∈ split sep cs) : sep ∉ p := by
  induction cs generalizing p with
  | nil =>
    obtain rfl : p = [] := by simpa [split] using h
    exact List.not_mem_nil
  | cons c cs ih =>
    rw [split] at h
    split at h
    · rcases List.mem_cons.1 h with rfl | h
      · exact List.not_mem_nil
      · exact ih h
    · next hc =>
      obtain ⟨q, qs, hsplit⟩ := List.exists_cons_of_ne_nil (split_ne_nil sep cs)
      rw [hsplit, consPiece] at h
      rw [hsplit] at ih
      rcases List.mem_cons.1 h with rfl | h
      · rw [List.mem_cons, not_or]
        exact ⟨Ne.symm hc, ih List.mem_cons_self⟩
      · exact ih (List.mem_cons_of_mem q h)

theorem join_cons (p : List Char) (h : ps ≠ []) : join sep (p :: ps) = p ++ sep :: join sep ps := by
  cases ps with
  | nil => exact absurd rfl h
  | cons q ps => rfl

theorem join_append (hps : ps ≠ []) (hqs : qs ≠ []) :
    join sep (ps ++ qs) = join sep ps ++ sep :: join sep qs := by
  induction ps with
  | nil => exact absurd rfl hps
  | cons p ps ih =>
    by_cases h : ps = []
    · subst h
      exact join_cons p hqs
    · rw [List.cons_append, join_cons p (List.append_ne_nil_of_left_ne_nil h qs), ih h,
        join_cons p h, List.append_assoc, List.cons_append]

theorem split_join (h : ps ≠ []) : split sep (join sep ps) = ps.flatMap (split sep) := by
  induction ps with
  | nil => exact absurd rfl h
  | cons p ps ih =>
    by_cases hps : ps = []
    · subst hps
      simp [join]
    · rw [join_cons p hps, split_append, ih hps, List.flatMap_cons]

/-! ## Ends -/

/-- No separator stands at either end. -/
structure Trimmed (sep : Char) (cs : List Char) : Prop where
  head : cs.head? ≠ some sep
  last : cs.getLast? ≠ some sep

theorem trimmed_of_not_mem (h : sep ∉ cs) : Trimmed sep cs where
  head := fun hhead => h (List.mem_of_head? hhead)
  last := fun hlast => h (List.mem_of_getLast? hlast)

theorem head?_dropWhile_ne (cs : List Char) : (cs.dropWhile (· == sep)).head? ≠ some sep := by
  intro h
  have hnot := head_dropWhile (· == sep) cs sep h
  rw [beq_self_eq_true] at hnot
  cases hnot

theorem trimmed_trim (sep : Char) (cs : List Char) : Trimmed sep (trim sep cs) := by
  let front := cs.dropWhile (· == sep)
  let back := front.reverse.dropWhile (· == sep)
  have hsuffix : back <:+ front.reverse := List.dropWhile_suffix _
  have hlast : back.getLast? ≠ some sep := by
    intro h
    have hfront : front.reverse.getLast? = some sep := by
      obtain ⟨before, hbefore⟩ := hsuffix
      rw [← hbefore, List.getLast?_append, h]
      rfl
    rw [List.getLast?_reverse] at hfront
    exact head?_dropWhile_ne cs hfront
  constructor
  · show back.reverse.head? ≠ some sep
    rw [List.head?_reverse]
    exact hlast
  · show back.reverse.getLast? ≠ some sep
    rw [List.getLast?_reverse]
    exact head?_dropWhile_ne front.reverse

theorem Trimmed.trim_eq (h : Trimmed sep cs) : trim sep cs = cs := by
  have hkeep : ∀ ds : List Char, ds.head? ≠ some sep → ds.dropWhile (· == sep) = ds := by
    intro ds hds
    refine dropWhile_eq_self fun c hc => ?_
    rw [beq_eq_false_iff_ne]
    rintro rfl
    exact hds hc
  have hlast : cs.reverse.head? ≠ some sep := by
    rw [List.head?_reverse]
    exact h.last
  simp only [trim, hkeep cs h.head, hkeep cs.reverse hlast, List.reverse_reverse]

theorem join_ne_nil (hps : ps ≠ []) (h : ∀ p ∈ ps, p ≠ []) : join sep ps ≠ [] := by
  obtain ⟨p, ps, rfl⟩ := List.exists_cons_of_ne_nil hps
  have hp := h p (by simp)
  cases ps with
  | nil => exact hp
  | cons q ps => exact List.append_ne_nil_of_left_ne_nil hp _

theorem trimmed_join (h : ∀ p ∈ ps, p ≠ [] ∧ Trimmed sep p) : Trimmed sep (join sep ps) := by
  induction ps with
  | nil => exact ⟨by simp [join], by simp [join]⟩
  | cons p ps ih =>
    obtain ⟨hne, hp⟩ := h p (by simp)
    have htail : ∀ q ∈ ps, q ≠ [] ∧ Trimmed sep q := fun q hq => h q (List.mem_cons_of_mem p hq)
    by_cases hps : ps = []
    · subst hps
      exact hp
    · rw [join_cons p hps]
      refine ⟨?_, ?_⟩
      · rw [List.head?_append_of_ne_nil p hne]
        exact hp.head
      · have hrest : join sep ps ≠ [] := join_ne_nil hps fun q hq => (htail q hq).1
        rw [List.getLast?_append_of_ne_nil _ (List.cons_ne_nil _ _),
          List.getLast?_cons_of_ne_nil hrest]
        exact (ih htail).last

/-- Where a text neither starts nor ends with a separator, an empty piece stands between two of them
in a row. -/
theorem nil_mem_split_iff (hne : cs ≠ []) (h : Trimmed sep cs) :
    [] ∈ split sep cs ↔ [sep, sep] <:+: cs := by
  constructor
  · intro hmem
    obtain ⟨ps, qs, hsplit⟩ := List.append_of_mem hmem
    have hcs := join_split sep cs
    rw [hsplit] at hcs
    by_cases hps : ps = []
    · subst hps
      by_cases hqs : qs = []
      · subst hqs
        exact absurd hcs.symm hne
      · -- the first piece is empty, so a separator stands in front
        rw [List.nil_append, join_cons [] hqs] at hcs
        exact absurd (by rw [← hcs]; rfl) h.head
    · rw [join_append hps (List.cons_ne_nil _ _)] at hcs
      by_cases hqs : qs = []
      · subst hqs
        exact absurd (by rw [← hcs]; simp [join]) h.last
      · rw [join_cons [] hqs] at hcs
        exact ⟨join sep ps, join sep qs, by rw [← hcs]; simp⟩
  · rintro ⟨before, behind, rfl⟩
    have hsplit : split sep (before ++ [sep, sep] ++ behind) =
        split sep before ++ split sep (sep :: behind) := by
      rw [List.append_assoc]
      exact split_append before (sep :: behind)
    rw [hsplit, split, if_pos rfl]
    simp

end ListQuery.Text
