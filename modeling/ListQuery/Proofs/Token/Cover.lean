/-
The tokens of a text stand one behind the other and leave nothing out. Each token but the last has
text, starts at the position that the text before it leads to, and is no blank behind a blank
(`Token.Follows`, `chain_tokens`). From this come the positions of all tokens, counted from the
text alone (`Position.behind`), and their order.
-/
import Mathlib.Data.List.Chain
import Mathlib.Data.List.DropRight
import ListQuery.Filter.Lexer
import ListQuery.Proofs.Token.Chain

namespace ListQuery.Filter

namespace Position

/-- The position behind a text: its bytes, the line feeds in it, and the characters behind the last
one of them. -/
def behind (text : List Char) : Position where
  offset := (String.ofList text).utf8ByteSize
  line := 1 + text.count '\n'
  column := 1 + (text.rtakeWhile (· != '\n')).length

theorem start_after (text : List Char) : start.after text = behind text := by
  -- the last character decides whether the column starts anew, so the text is taken apart there
  induction text using List.reverseRecOn with
  | nil => rfl
  | append_singleton text c ih =>
    rw [after_append, ih, after_cons, after_nil]
    have hbytes : (String.ofList (text ++ [c])).utf8ByteSize =
        (String.ofList text).utf8ByteSize + c.utf8Size := by
      rw [String.ofList_append, String.utf8ByteSize_append]
      exact congrArg _ String.utf8ByteSize_singleton
    by_cases hc : c = '\n'
    · simp only [advance, behind, hc, if_true, Position.mk.injEq]
      refine ⟨?_, ?_, ?_⟩
      · rw [← hc, hbytes]
      · simp only [List.count_append, List.count_singleton_self]
        omega
      · rw [List.rtakeWhile_concat_neg _ _ _ (by simp)]
        rfl
    · simp only [advance, behind, hc, if_false, Position.mk.injEq]
      refine ⟨hbytes.symm, ?_, ?_⟩
      · rw [List.count_append, List.count_singleton, if_neg (by simpa using hc), Nat.add_zero]
      · rw [List.rtakeWhile_concat_pos _ _ _ (by simpa using hc), List.length_append,
          List.length_singleton]
        omega

theorem utf8ByteSize_cons (c : Char) (cs : List Char) : (String.ofList (c :: cs)).utf8ByteSize =
    c.utf8Size + (String.ofList cs).utf8ByteSize := by
  rw [← List.singleton_append, String.ofList_append, String.utf8ByteSize_append]
  exact congrArg (· + _) String.utf8ByteSize_singleton

theorem after_offset (p : Position) (text : List Char) :
    (p.after text).offset = p.offset + (String.ofList text).utf8ByteSize := by
  induction text generalizing p with
  | nil => rfl
  | cons c text ih =>
    have hstep : (p.advance c).offset = p.offset + c.utf8Size := by
      unfold advance
      split <;> rfl
    rw [after_cons, ih, hstep, utf8ByteSize_cons, Nat.add_assoc]

/-- Lines and columns count no further than the characters, and both start at one. -/
theorem behind_le (text : List Char) :
    (behind text).line ≤ 1 + text.length ∧ (behind text).column ≤ 1 + text.length :=
  ⟨Nat.add_le_add_left List.count_le_length 1,
    Nat.add_le_add_left (List.rtakeWhile_suffix _ _).length_le 1⟩

end Position

/-! ## One token behind the other -/

namespace Token

/-- The characters of a run of tokens. -/
def chars (ts : List Token) : List Char := ts.flatMap fun t => t.text.toList

theorem next_offset (t : Token) : t.next.offset = t.stop := by
  rw [next, Position.after_offset, String.ofList_toList]
  rfl

/-- The token in front of a text and what is left behind it lead to the end of the text. -/
theorem front_after (pos : Position) (c : Char) (cs : List Char) :
    (front pos (c :: cs)).1.next.after (lexeme c cs).2 = pos.after (c :: cs) := by
  rw [next, ← Position.after_append]
  exact congrArg pos.after (front_covers pos (c :: cs))

/-- How the token behind another one stands to it. -/
structure Follows (a b : Token) : Prop where
  pos : b.pos = a.next
  kind : a.kind ≠ .eof
  text : a.text ≠ ""
  blank : a.kind = .whitespace → b.kind ≠ .whitespace

theorem Follows.offset {a b : Token} (h : a.Follows b) : b.pos.offset = a.stop := by
  rw [h.pos, next_offset]

theorem Follows.offset_lt {a b : Token} (h : a.Follows b) : a.pos.offset < b.pos.offset := by
  have hpos : a.text.utf8ByteSize ≠ 0 := fun h0 => h.text (String.utf8ByteSize_eq_zero_iff.1 h0)
  rw [h.offset, stop]
  omega

/-- What comes behind the token in front of a text follows it. -/
theorem front_follows (pos : Position) (c : Char) (cs : List Char) :
    let t := (front pos (c :: cs)).1
    ∀ b ∈ (scan t.next (lexeme c cs).2 ++ [eof (t.next.after (lexeme c cs).2)]).head?,
      t.Follows b := by
  intro t b hb
  have hlex : t.piece.Lexes (lexeme c cs).2 := Piece.lexes_front
  -- nothing else about the token counts
  clear_value t
  have htext : t.text ≠ "" := by
    obtain ⟨d, ds, hd, -⟩ := hlex
    intro he
    rw [piece, he] at hd
    cases hd
  cases hrest : (lexeme c cs).2 with
  | nil =>
    rw [hrest, scan, List.nil_append, List.head?_cons, Option.mem_some_iff] at hb
    subst hb
    exact ⟨Position.after_nil _, hlex.ne_eof, htext, fun _ => by simp [eof]⟩
  | cons d ds =>
    rw [hrest, Piece.scan_cons, List.cons_append, List.head?_cons, Option.mem_some_iff] at hb
    subst hb
    refine ⟨rfl, hlex.ne_eof, htext, fun hk hblank => ?_⟩
    rw [hrest] at hlex
    have hdark := hlex.after_blank hk d rfl
    have hsolid := lexeme_isSolid hdark ds
    rw [show (lexeme d ds).1 = .whitespace from hblank] at hsolid
    cases hsolid

theorem chain_scan (pos : Position) (cs : List Char) :
    (scan pos cs ++ [eof (pos.after cs)]).IsChain Follows := by
  fun_induction scan pos cs with
  | case1 pos => exact List.isChain_singleton _
  | case2 pos c cs t ih =>
    rw [← front_after, List.cons_append, List.isChain_cons]
    exact ⟨front_follows pos c cs, ih⟩

/-- All but the last token of a run have one that follows them. -/
theorem exists_follows {ts : List Token} {last t : Token} (h : (ts ++ [last]).IsChain Follows)
    (ht : t ∈ ts) : ∃ b, t.Follows b := by
  obtain ⟨before, after, rfl⟩ := List.append_of_mem ht
  rw [List.append_assoc, List.cons_append] at h
  have hsuffix := h.right_of_append
  cases after with
  | nil => exact ⟨last, (List.isChain_cons.1 hsuffix).1 _ rfl⟩
  | cons b after => exact ⟨b, (List.isChain_cons.1 hsuffix).1 _ rfl⟩

/-- In a run that follows a position each token stands where the text before it leads to. -/
theorem pos_of_chain : ∀ {before : List Token} {t : Token} {after : List Token} {p : Position},
    (before ++ t :: after).IsChain Follows → (∀ a ∈ (before ++ t :: after).head?, a.pos = p) →
      t.pos = p.after (chars before)
  | [], t, _, _, _, hp => hp t rfl
  | a :: before, t, after, p, h, hp => by
    rw [List.cons_append, List.isChain_cons] at h
    rw [pos_of_chain h.2 fun b hb => (h.1 b hb).pos, next, hp a rfl, ← Position.after_append]
    rfl

end Token

open Token

theorem chain_tokens (input : String) : (tokenize input).IsChain Follows := chain_scan _ _

theorem chars_tokens (input : String) : chars (tokenize input) = input.toList := by
  have h := (Piece.chain_scan .start input.toList).1
  simp only [Piece.chars, List.flatMap_map] at h
  rw [tokenize, chars, List.flatMap_append]
  exact (List.append_nil _).trans h.symm

theorem head_tokens (input : String) : ∀ t ∈ (tokenize input).head?, t.pos = .start := by
  intro t ht
  rw [tokenize, endOf] at ht
  cases hcs : input.toList with
  | nil =>
    rw [hcs, scan] at ht
    cases ht
    rfl
  | cons c cs =>
    rw [hcs, Piece.scan_cons] at ht
    cases ht
    rfl

theorem pos_of_tokens {input : String} {before : List Token} {t : Token} {after : List Token}
    (h : tokenize input = before ++ t :: after) : t.pos = .behind (chars before) := by
  rw [← Position.start_after]
  exact pos_of_chain (h ▸ chain_tokens input) fun a ha => head_tokens input a (h ▸ ha)

/-- Later tokens start behind earlier ones. -/
theorem tokens_pairwise (input : String) :
    (tokenize input).Pairwise fun a b => a.pos.offset < b.pos.offset :=
  ((chain_tokens input).imp fun _ _ h => h.offset_lt).pairwise

theorem tokens_nodup (input : String) : (tokenize input).Nodup := by
  refine List.nodup_iff_pairwise_ne.2 ((tokens_pairwise input).imp fun hlt he => ?_)
  rw [he] at hlt
  exact Nat.lt_irrefl _ hlt

namespace Lexer

/-- All tokens from a place on. -/
def Mark.tokens (m : Mark) : List Token :=
  Token.scan m.position m.rest ++ [eof (m.position.after m.rest)]

theorem Mark.ahead_eof_iff (m : Mark) : m.ahead.1.kind = .eof ↔ m.rest = [] := by
  obtain ⟨position, rest⟩ := m
  cases rest with
  | nil => exact iff_of_true rfl rfl
  | cons c cs =>
    have hlex : (front position (c :: cs)).1.piece.Lexes (lexeme c cs).2 := Piece.lexes_front
    exact iff_of_false hlex.ne_eof (List.cons_ne_nil c cs)

/-- The tokens from a place on are the one in front and those behind it. -/
theorem Mark.tokens_eq (m : Mark) :
    m.tokens = m.ahead.1 :: if m.ahead.1.kind = .eof then [] else m.ahead.2.tokens := by
  obtain ⟨position, rest⟩ := m
  cases rest with
  | nil =>
    rw [tokens, Token.scan]
    rfl
  | cons c cs =>
    have hkind := (ahead_eof_iff ⟨position, c :: cs⟩).not.2 (List.cons_ne_nil c cs)
    rw [if_neg hkind, tokens, Piece.scan_cons, List.cons_append, ← front_after]
    rfl

theorem tokenize_eq (l : Lexer) : l.tokenize = l.mark.tokens := by
  fun_induction tokenize l with
  | case1 l h =>
    rw [scan_eq] at h ⊢
    rw [l.mark.tokens_eq, if_pos h]
  | case2 l h ih =>
    rw [scan_eq] at h ih ⊢
    rw [l.mark.tokens_eq, if_neg h, ih]
    rfl

theorem tokenize_ofString (input : String) :
    (ofString input).tokenize = Filter.tokenize input :=
  tokenize_eq (ofString input)

end Lexer

/-- The tokens cut the text: nothing is left out, only the last one is an end and empty, and each
stands where the text before it leads to. -/
structure Token.Covers (input : String) (tokens : List Token) : Prop where
  texts : String.join (tokens.map Token.text) = input
  ends : ∃ ts last, tokens = ts ++ [last] ∧
    (last.kind = .eof ∧ last.text = "" ∧ last.pos.offset = input.utf8ByteSize) ∧
    ∀ t ∈ ts, t.kind ≠ .eof ∧ t.text ≠ ""
  adjacent : tokens.IsChain fun a b =>
    b.pos.offset = a.stop ∧ ¬(a.kind = .whitespace ∧ b.kind = .whitespace)
  pos : ∀ before t after, tokens = before ++ t :: after → t.pos = .behind (chars before)
  /-- Lines and columns of a text that is not too long fit into words. -/
  words : input.length < UInt32.size - 1 →
    ∀ t ∈ tokens, t.pos.line < UInt32.size ∧ t.pos.column < UInt32.size

theorem join_texts (input : String) :
    String.join ((tokenize input).map Token.text) = input := by
  rw [← String.toList_inj, String.toList_join, List.flatMap_map]
  exact chars_tokens input

/-- The counts of a token's position go no further than the characters of the text. -/
theorem pos_le_length {input : String} {t : Token} (ht : t ∈ tokenize input) :
    t.pos.line ≤ 1 + input.length ∧ t.pos.column ≤ 1 + input.length := by
  obtain ⟨before, after, h⟩ := List.append_of_mem ht
  have hlength : (chars before).length ≤ input.length := by
    have hchars := chars_tokens input
    rw [h, chars, List.flatMap_append] at hchars
    rw [← String.length_toList, ← hchars, List.length_append]
    exact Nat.le_add_right _ _
  rw [pos_of_tokens h]
  obtain ⟨hline, hcolumn⟩ := Position.behind_le (chars before)
  omega

/-- Scanning a text to its end cuts the text. -/
theorem Lexer.tokenize_covers (input : String) : Covers input (ofString input).tokenize := by
  rw [tokenize_ofString]
  have hchain := chain_tokens input
  refine ⟨join_texts input,
    ⟨Token.scan .start input.toList, eof (endOf input), rfl, ?_, ?_⟩, ?_, ?_, ?_⟩
  · refine ⟨rfl, rfl, ?_⟩
    rw [eof, endOf, Position.after_offset, String.ofList_toList]
    exact Nat.zero_add _
  · intro t ht
    obtain ⟨b, hb⟩ := exists_follows hchain ht
    exact ⟨hb.kind, hb.text⟩
  · exact hchain.imp fun a b h => ⟨h.offset, fun hblank => h.blank hblank.1 hblank.2⟩
  · exact fun before t after h => pos_of_tokens h
  · intro hlength t ht
    obtain ⟨hline, hcolumn⟩ := pos_le_length ht
    omega

end ListQuery.Filter
