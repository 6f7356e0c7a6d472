/-
Durations are cut and read alike. A text is cut into one duration exactly when it is written with
ordered components behind at most one sign (`tokenize_duration_iff`), and only such a text spells
the length of a duration. The length can be out of range, but not when each component, rounded up
to the next whole unit, still fits (`readings_agree`).
-/
import ListQuery.Proofs.Time.Words
import ListQuery.Proofs.Token.Cover
import ListQuery.Proofs.Token.Number

namespace ListQuery.Filter

/-- The whole text is one token. -/
theorem Lexer.tokenize_single_iff {k : Kind} {s : String} :
    (ofString s).tokenize = [⟨k, s, .start⟩, .eof (endOf s)] ↔ Piece.Lexes ⟨k, s⟩ [] := by
  rw [tokenize_ofString]
  constructor
  · intro h
    have htokens : Token.scan .start s.toList ++ [.eof (endOf s)] =
        [⟨k, s, .start⟩] ++ [.eof (endOf s)] := h
    have hscan := List.append_cancel_right htokens
    have hcut := (Piece.chain_scan .start s.toList).2
    rw [hscan] at hcut
    exact hcut.head
  · intro h
    have hfront := Piece.front_of_lexes h .start
    obtain ⟨c, cs, ht, -⟩ := h
    have hs : s.toList = c :: cs := ht
    simp only [List.append_nil, hs] at hfront
    rw [Filter.tokenize, hs, Piece.scan_cons, hfront, Token.scan]
    rfl

end ListQuery.Filter

namespace ListQuery.Time.Duration

open Text ListQuery.Filter ListQuery.Filter.Lexeme

/-- The text is written with these components, behind a minus sign if it is negative. -/
structure Spells (text : String) (negative : Bool) (cs : List Component) : Prop where
  ne_nil : cs ≠ []
  written : ∃ w, text.toList = signed negative w ∧ Written cs w
  ordered : Ordered cs

/-- The components start with a digit and are read back from their text. -/
theorem Spells.text {s : String} {negative : Bool} {cs : List Component}
    (h : Spells s negative cs) : ∃ d t, s.toList = signed negative (d :: t) ∧ d.isDigit = true ∧
      components? none (d :: t) = some cs := by
  obtain ⟨w, hs, hw⟩ := h.written
  obtain ⟨d, t, rfl, hd⟩ := hw.cons_of_ne_nil h.ne_nil
  exact ⟨d, t, hs, hd, components?_eq_some_iff.2 ⟨hw, h.ordered⟩⟩

theorem spells_of_components? {s : String} {negative : Bool} {d : Char} {t : List Char}
    {cs : List Component} (hs : s.toList = signed negative (d :: t))
    (h : components? none (d :: t) = some cs) : Spells s negative cs := by
  obtain ⟨hw, ho⟩ := components?_eq_some_iff.1 h
  refine ⟨?_, ⟨d :: t, hs, hw⟩, ho⟩
  rintro rfl
  cases hw

/-- A text is cut into one duration exactly when it is written as one. -/
theorem tokenize_duration_iff {s : String} :
    (Lexer.ofString s).tokenize = [⟨.duration, s, .start⟩, .eof (endOf s)] ↔
      ∃ negative cs, Spells s negative cs := by
  rw [Lexer.tokenize_single_iff, Piece.lexes_nil_iff rfl rfl]
  constructor
  · rintro ⟨negative, d, t, hs, hd, hn⟩
    obtain ⟨cs, hcs⟩ := Option.isSome_iff_exists.1 ((number_eq_duration_iff hd t).1 hn)
    exact ⟨negative, cs, spells_of_components? hs hcs⟩
  · rintro ⟨negative, cs, h⟩
    obtain ⟨d, t, hs, hd, hcs⟩ := h.text
    exact ⟨negative, d, t, hs, hd, (number_eq_duration_iff hd t).2 (by rw [hcs]; rfl)⟩

/-- The length of a text that is written as a duration. -/
theorem parse?_of_spells {s : String} {negative : Bool} {cs : List Component}
    (h : Spells s negative cs) :
    parse? s = ofNanos? (if negative then -(totalNanos cs : Int) else totalNanos cs) := by
  obtain ⟨d, t, hs, hd, hcs⟩ := h.text
  rw [← unsigned?_of_components? hcs]
  cases negative with
  | true => simp only [parse?, hs, signed, ↓reduceIte]
  | false =>
    simp only [parse?, hs, signed, Bool.false_eq_true, ↓reduceIte]
    split
    · rename_i he
      cases he
      exact absurd hd (by decide)
    · rfl

theorem spells_of_parse? {s : String} (h : (parse? s).isSome = true) :
    ∃ negative cs, Spells s negative cs := by
  have key : ∀ (negative : Bool) {w : List Char}, s.toList = signed negative w →
      (unsigned? negative w).isSome = true → ∃ negative cs, Spells s negative cs := by
    intro negative w hs hu
    unfold unsigned? at hu
    split at hu
    · cases hu
    · cases hu
    · rename_i cs hne hcs
      obtain ⟨hw, ho⟩ := components?_eq_some_iff.1 hcs
      exact ⟨negative, cs, hne, ⟨w, hs, hw⟩, ho⟩
  unfold parse? at h
  split at h
  · rename_i w hs
    exact key true hs h
  · exact key false rfl h

/-- The length of components, each rounded up to the next whole unit. -/
def roundedUp : List Component → Nat
  | [] => 0
  | c :: cs => (ofDigits 10 c.whole + 1) * c.unit.nanos + roundedUp cs

theorem totalNanos_le_roundedUp {cs : List Component} {w : List Char} (h : Written cs w) :
    totalNanos cs ≤ roundedUp cs := by
  induction h with
  | nil => exact Nat.le_refl 0
  | cons hc _ ih =>
    rw [totalNanos, roundedUp]
    exact Nat.add_le_add (Component.nanos_le hc.fraction_digits) ih

/-- Cutting and reading agree. What spells the length of a duration is cut into one duration token.
What is cut so is written with components, and spells a length if each component, rounded up to the
next whole unit, still fits. No operation on the way to the length overflows. -/
theorem readings_agree (s : String) :
    ((parse? s).isSome = true →
      (Lexer.ofString s).tokenize = [⟨.duration, s, .start⟩, .eof (endOf s)]) ∧
    ((Lexer.ofString s).tokenize = [⟨.duration, s, .start⟩, .eof (endOf s)] →
      (∃ negative cs, Spells s negative cs) ∧
      ∀ negative cs, Spells s negative cs → roundedUp cs ≤ maxNanos →
        (parse? s).isSome = true) ∧
    parseWords s ≠ .error .overflow ∧ ∀ d, parseWords s = .ok d ↔ parse? s = some d := by
  refine ⟨fun h => tokenize_duration_iff.2 (spells_of_parse? h),
    fun h => ⟨tokenize_duration_iff.1 h, fun negative cs hs hround => ?_⟩, ?_, fun d => ?_⟩
  · obtain ⟨w, -, hw⟩ := hs.written
    have hle : totalNanos cs ≤ maxNanos := Nat.le_trans (totalNanos_le_roundedUp hw) hround
    rw [parse?_of_spells hs, ofNanos?, dif_pos]
    · rfl
    · cases negative with
      | false => simpa using hle
      | true => simpa using hle
  · rw [parseWords_eq]
    cases parse? s <;> simp [orRefused]
  · rw [parseWords_eq]
    cases parse? s <;> simp [orRefused]

/-- A negative duration with a fraction. -/
theorem negative_hours_agree :
    (Lexer.ofString "-1h30.5m").tokenize =
        [⟨.duration, "-1h30.5m", .start⟩, .eof (endOf "-1h30.5m")] ∧
      (parse? "-1h30.5m").isSome = true := by
  have hhours : Component.Writes ⟨['1'], [], .hour⟩ ['1', 'h'] :=
    ⟨by simp, List.all_eq_true.1 rfl, by simp, "h", by simp [TimeUnit.spellings], rfl⟩
  have hminutes : Component.Writes ⟨['3', '0'], ['5'], .minute⟩ ['3', '0', '.', '5', 'm'] :=
    ⟨by simp, List.all_eq_true.1 rfl, List.all_eq_true.1 rfl, "m", by simp [TimeUnit.spellings],
      rfl⟩
  have hspells : Spells "-1h30.5m" true [⟨['1'], [], .hour⟩, ⟨['3', '0'], ['5'], .minute⟩] :=
    ⟨by simp, ⟨_, rfl, .cons hhours (.cons hminutes .nil)⟩, by decide⟩
  have htokens := tokenize_duration_iff.2 ⟨_, _, hspells⟩
  exact ⟨htokens, ((readings_agree "-1h30.5m").2.1 htokens).2 _ _ hspells (by decide)⟩

end ListQuery.Time.Duration
