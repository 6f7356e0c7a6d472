/-
A token reads the same before any text that cannot continue it. `lexeme_local` is the statement:
when a legal token stands before a text `r`, it stands before every `r'` that starts no word, and no
negative number and no fraction that `r` does not start (`Closes r r'`).

Each way to read a token is run on two texts with one front part, `y ++ r` and `y ++ r'`. The run on
the first leaves at least `r`, so it has read nothing of `r`, and the run on the second does the
same. That the first run leaves `r` is what rules out the readings that look past the token.
-/
import ListQuery.Filter.Token.Tokenize
import ListQuery.Proofs.Text.Classes

namespace ListQuery.Filter

open Text Time

/-- What `r'` must not start so that a token before `r` is one before `r'` too. -/
structure Closes (r r' : List Char) : Prop where
  word : Lexeme.startsWord r' = false
  dash : r'.head? = some '-' → r.head? = some '-'
  point : (Lexeme.fraction? r').isSome = true → (Lexeme.fraction? r).isSome = true

namespace Lexeme

theorem not_isDigit_of_not_isWordChar {c : Char} (h : isWordChar c = false) :
    c.isDigit = false := by
  cases hd : c.isDigit with
  | false => rfl
  | true => rw [isWordChar_of_isDigit hd] at h; cases h

theorem isWordChar_of_isOctalDigit {c : Char} (h : isOctalDigit c = true) :
    isWordChar c = true := by
  refine isWordChar_of_isDigit ?_
  simp only [isOctalDigit, Bool.and_eq_true, decide_eq_true_eq] at h
  simp only [Char.isDigit, Bool.and_eq_true, decide_eq_true_eq]
  exact ⟨h.1, Char.le_trans h.2 (by decide)⟩

theorem isWordChar_of_isHexDigit {c : Char} (h : isHexDigit c = true) : isWordChar c = true := by
  simp only [isHexDigit, Bool.or_eq_true, Bool.and_eq_true, decide_eq_true_eq] at h
  rcases h with (h | h) | h
  · exact isWordChar_of_isDigit h
  · refine isWordChar_of_isAlpha (Bool.or_eq_true_iff.2 (.inr (Bool.and_eq_true_iff.2 ⟨?_, ?_⟩)))
    · exact decide_eq_true h.1
    · exact decide_eq_true (Char.le_trans h.2 (by decide))
  · refine isWordChar_of_isAlpha (Bool.or_eq_true_iff.2 (.inl (decide_eq_true ?_)))
    exact ⟨h.1, Char.le_trans h.2 (by decide)⟩

/-- A text that starts no word starts with no character of a class of word characters. -/
theorem head_of_not_startsWord {p : Char → Bool} (hp : ∀ c, p c = true → isWordChar c = true)
    {r : List Char} (h : startsWord r = false) : ∀ c ∈ r.head?, p c = false := by
  intro c hc
  cases hpc : p c with
  | false => rfl
  | true =>
    rw [Option.mem_def] at hc
    simp [startsWord, hc, hp c hpc] at h

/-- An illegal token is not legal. -/
theorem not_illegal {fault : Fault} {cs r : List Char} {k : Kind}
    (h : illegal fault cs = (k, r)) (hk : k.isIllegal = false) : False := by
  rw [← (Prod.mk.inj h).1] at hk
  cases hk

/-- A run that leaves `r` does not go into `r`. -/
theorem head_of_suffix_dropWhile {p : Char → Bool} {y r : List Char}
    (h : r <:+ (y ++ r).dropWhile p) (hy : y.dropWhile p = []) : ∀ c ∈ r.head?, p c = false := by
  intro c hc
  cases r with
  | nil => simp at hc
  | cons d r =>
    simp only [List.head?_cons, Option.mem_def, Option.some.injEq] at hc
    subst hc
    cases hp : p d with
    | false => rfl
    | true =>
      rw [List.dropWhile_append, hy] at h
      simp only [List.isEmpty_nil, ↓reduceIte, List.dropWhile_cons_of_pos hp] at h
      have h1 := h.length_le
      have h2 := (List.dropWhile_suffix (l := r) p).length_le
      simp only [List.length_cons] at h1
      omega

theorem dropWhile_append_of_suffix {p : Char → Bool} {y r : List Char}
    (h : r <:+ (y ++ r).dropWhile p) : (y ++ r).dropWhile p = y.dropWhile p ++ r := by
  cases hy : y.dropWhile p with
  | nil =>
    rw [List.dropWhile_append, hy]
    simpa using dropWhile_eq_self (head_of_suffix_dropWhile h hy)
  | cons c cs => rw [List.dropWhile_append, hy]; simp

/-- A text that starts with no character of a class ends a run of the class. -/
theorem suffix_dropWhile_append {p : Char → Bool} {r : List Char} (h : ∀ c ∈ r.head?, p c = false)
    (y : List Char) : r <:+ (y ++ r).dropWhile p := by
  rw [List.dropWhile_append]
  split
  · simp only [dropWhile_eq_self h, List.suffix_refl]
  · exact List.suffix_append _ _

/-- The front part is at least as long as what has been read. -/
theorem length_le_of_suffix {x y m r : List Char} (h : y ++ r = x ++ m) (hm : r <:+ m) :
    x.length ≤ y.length := by
  have h1 := congrArg List.length h
  have h2 := hm.length_le
  simp only [List.length_append] at h1
  omega

/-- What has been read is a piece of the front part. -/
theorem exists_front {x y m r : List Char} (h : y ++ r = x ++ m) (hm : r <:+ m) :
    ∃ z, y = x ++ z ∧ m = z ++ r := by
  have hl := length_le_of_suffix h hm
  obtain ⟨z, hz⟩ := List.prefix_of_prefix_length_le (List.prefix_append x m)
    (h ▸ List.prefix_append y r) hl
  refine ⟨z, hz.symm, ?_⟩
  rw [← hz, List.append_assoc] at h
  exact (List.append_cancel_left h).symm

/-! ## Parts of numbers -/

theorem fraction?_local_some {y r m : List Char} (h : fraction? (y ++ r) = some m)
    (hm : r <:+ m) :
    ∃ z, m = z ++ r ∧ ∀ r', startsWord r' = false → fraction? (y ++ r') = some (z ++ r') := by
  unfold fraction? at h
  split at h
  · rename_i d cs he
    split at h
    · rename_i hd
      cases h
      obtain ⟨z, rfl, rfl⟩ := exists_front (x := ['.', d]) he (hm.trans (List.dropWhile_suffix _))
      refine ⟨z.dropWhile Char.isDigit, dropWhile_append_of_suffix hm, fun r' hr => ?_⟩
      have hs := suffix_dropWhile_append
        (head_of_not_startsWord (fun _ => isWordChar_of_isDigit) hr) z
      simp [fraction?, hd, dropWhile_append_of_suffix hs]
    · cases h
  · cases h

theorem fraction?_local_none {y r r' : List Char} (hc : Closes r r')
    (h : fraction? (y ++ r) = none) : fraction? (y ++ r') = none := by
  have hw := head_of_not_startsWord (p := Char.isDigit) (fun _ => isWordChar_of_isDigit) hc.word
  rcases y with _ | ⟨c, _ | ⟨d, y⟩⟩
  · have := hc.point
    simp only [List.nil_append] at h ⊢
    cases hf : fraction? r' with
    | none => rfl
    | some m => simp [hf, h] at this
  · by_cases hp : c = '.'
    · subst hp
      cases r' with
      | nil => rfl
      | cons d r' => simp [fraction?, hw d (by simp)]
    · simp [fraction?, hp]
  · by_cases hp : c = '.'
    · subst hp
      simpa [fraction?] using h
    · simp [fraction?, hp]

theorem exponent?_local_some {y r m : List Char} (h : exponent? (y ++ r) = some m)
    (hm : r <:+ m) :
    ∃ z, m = z ++ r ∧ ∀ r', startsWord r' = false → exponent? (y ++ r') = some (z ++ r') := by
  have hrun : ∀ r', startsWord r' = false → ∀ z : List Char,
      (z ++ r').dropWhile Char.isDigit = z.dropWhile Char.isDigit ++ r' := fun r' hr z =>
    dropWhile_append_of_suffix (suffix_dropWhile_append
      (head_of_not_startsWord (fun _ => isWordChar_of_isDigit) hr) z)
  unfold exponent? at h
  split at h
  · rename_i e s cs he
    split at h
    · rename_i hexp
      split at h
      · rename_i hsign
        split at h
        · rename_i d cs
          split at h
          · rename_i hd
            cases h
            obtain ⟨z, rfl, rfl⟩ :=
              exists_front (x := [e, s, d]) he (hm.trans (List.dropWhile_suffix _))
            refine ⟨z.dropWhile Char.isDigit, dropWhile_append_of_suffix hm, fun r' hr => ?_⟩
            simp [exponent?, hexp, hsign, hd, hrun r' hr]
          · cases h
        · cases h
      · rename_i hsign
        split at h
        · rename_i hd
          cases h
          obtain ⟨z, rfl, rfl⟩ :=
            exists_front (x := [e, s]) he (hm.trans (List.dropWhile_suffix _))
          refine ⟨z.dropWhile Char.isDigit, dropWhile_append_of_suffix hm, fun r' hr => ?_⟩
          simp [exponent?, hexp, hsign, hd, hrun r' hr]
        · cases h
    · cases h
  · cases h

/-- Only a text that starts with the mark of an exponent starts an exponent. -/
theorem exponent?_eq_none {cs : List Char} (h : ∀ c ∈ cs.head?, c ≠ 'e' ∧ c ≠ 'E') :
    exponent? cs = none := by
  rcases cs with _ | ⟨c, _ | ⟨d, cs⟩⟩
  · rfl
  · rfl
  · simp [exponent?, h c (by simp)]

theorem unit_local {y r m : List Char} {u : TimeUnit} (h : TimeUnit.read? (y ++ r) = some (u, m))
    (hm : r <:+ m) :
    ∃ z, m = z ++ r ∧
      ∀ r', startsWord r' = false → TimeUnit.read? (y ++ r') = some (u, z ++ r') := by
  unfold TimeUnit.read? at h
  split at h <;> simp only [Option.some.injEq, Prod.mk.injEq, reduceCtorEq] at h
  case h_7 r₀ hs he =>
    obtain ⟨rfl, rfl⟩ := h
    obtain ⟨z, rfl, rfl⟩ := exists_front (x := ['m']) he hm
    refine ⟨z, rfl, fun r' hr => ?_⟩
    -- The minute's letter must not become the first of a millisecond's.
    have hns : ∀ t, z ++ r' ≠ 's' :: t := by
      intro t ht
      cases z with
      | nil =>
        have := head_of_not_startsWord (p := isWordChar) (fun _ h => h) hr 's' (by simp_all)
        exact absurd this (by decide)
      | cons c z =>
        simp only [List.cons_append, List.cons.injEq] at ht
        exact hs (z ++ r) (by rw [ht.1]; rfl)
    unfold TimeUnit.read?
    split <;> simp_all
  all_goals
    obtain ⟨rfl, rfl⟩ := h
    rename_i he
    first
    | obtain ⟨z, rfl, rfl⟩ := exists_front (x := [_, _]) he hm
      exact ⟨z, rfl, fun _ _ => rfl⟩
    | obtain ⟨z, rfl, rfl⟩ := exists_front (x := [_]) he hm
      exact ⟨z, rfl, fun _ _ => rfl⟩

/-- A unit starts a word, and not the mark of an exponent. -/
theorem head_of_unit {cs m : List Char} {u : TimeUnit} (h : TimeUnit.read? cs = some (u, m)) :
    ∃ c t, cs = c :: t ∧ isWordChar c = true ∧ c ≠ 'e' ∧ c ≠ 'E' := by
  unfold TimeUnit.read? at h
  split at h
  case h_9 => cases h
  all_goals exact ⟨_, _, rfl, by decide, by decide, by decide⟩

theorem unit_eq_none {r : List Char} (h : startsWord r = false) : TimeUnit.read? r = none := by
  cases hu : TimeUnit.read? r with
  | none => rfl
  | some um =>
    obtain ⟨c, t, rfl, hc, -⟩ := head_of_unit (u := um.1) (m := um.2) hu
    simp [startsWord, hc] at h

theorem decimalEnd_local {y r : List Char} (h : r <:+ (decimalEnd (y ++ r)).1) :
    ∃ z b, decimalEnd (y ++ r) = (z ++ r, b) ∧
      ∀ r', Closes r r' → decimalEnd (y ++ r') = (z ++ r', b) := by
  have hd : r <:+ (y ++ r).dropWhile Char.isDigit := by
    refine h.trans ?_
    simp only [decimalEnd]
    split
    · rename_i hf
      exact fraction?_suffix hf
    · exact List.suffix_refl _
  have hrun : ∀ r', Closes r r' →
      (y ++ r').dropWhile Char.isDigit = y.dropWhile Char.isDigit ++ r' := fun r' hc =>
    dropWhile_append_of_suffix (suffix_dropWhile_append
      (head_of_not_startsWord (fun _ => isWordChar_of_isDigit) hc.word) y)
  simp only [decimalEnd, dropWhile_append_of_suffix hd] at h ⊢
  cases hf : fraction? (y.dropWhile Char.isDigit ++ r) with
  | none =>
    refine ⟨y.dropWhile Char.isDigit, false, rfl, fun r' hc => ?_⟩
    rw [hrun r' hc, fraction?_local_none hc hf]
  | some m =>
    simp only [hf] at h
    obtain ⟨z, rfl, hz⟩ := fraction?_local_some hf h
    refine ⟨z, true, rfl, fun r' hc => ?_⟩
    rw [hrun r' hc, hz r' hc.word]

/-! ## Timestamps -/

namespace Reader

/-- A reader that looks at nothing behind what it reads. -/
def Exact {α : Type} (p : Reader α) : Prop :=
  ∀ cs a r, p cs = .ok a r → ∃ y, cs = y ++ r ∧ ∀ r', p (y ++ r') = .ok a r'

theorem Exact.pure {α : Type} (a : α) : Exact (Pure.pure a : Reader α) := by
  intro cs b r h
  cases h
  exact ⟨[], rfl, fun _ => rfl⟩

theorem Exact.throw {α : Type} (f : Fault) : Exact (MonadExcept.throw f : Reader α) := by
  intro cs a r h
  cases h

theorem Exact.bind {α β : Type} {p : Reader α} {q : α → Reader β} (hp : p.Exact)
    (hq : ∀ a, (q a).Exact) : Exact (p >>= q) := by
  intro cs b r h
  simp only [Bind.bind, EStateM.bind] at h ⊢
  split at h
  · rename_i a m ha
    obtain ⟨y₁, rfl, h₁⟩ := hp _ _ _ ha
    obtain ⟨y₂, rfl, h₂⟩ := hq a _ _ _ h
    refine ⟨y₁ ++ y₂, by simp, fun r' => ?_⟩
    rw [List.append_assoc, h₁ (y₂ ++ r')]
    exact h₂ r'
  · cases h

theorem expect_exact (accept : Char → Bool) (fault : Fault) : (expect accept fault).Exact := by
  intro cs a r h
  rcases cs with _ | ⟨c, cs⟩
  · cases h
  · simp only [expect] at h
    split at h
    · rename_i hc
      cases h
      exact ⟨[c], rfl, fun r' => by simp [expect, hc]⟩
    · cases h

theorem twoDigits_exact (fault : Fault) : (twoDigits fault).Exact := by
  intro cs n r h
  rcases cs with _ | ⟨a, _ | ⟨b, cs⟩⟩
  · cases h
  · cases h
  · simp only [twoDigits] at h
    split at h
    · rename_i hd
      cases h
      exact ⟨[a, b], rfl, fun r' => by simp [twoDigits, hd]⟩
    · cases h

theorem ranged_exact (invalid outside : Fault) (low high : Nat) :
    (ranged invalid outside low high).Exact := by
  refine Exact.bind (twoDigits_exact _) fun n => ?_
  split
  · exact Exact.pure _
  · exact Exact.throw _

theorem zone_exact : zone.Exact := by
  intro cs a r h
  rcases cs with _ | ⟨c, cs⟩
  · cases h
  · simp only [zone] at h
    split at h
    · rename_i hz
      cases h
      exact ⟨[c], rfl, fun r' => by simp [zone, hz]⟩
    · rename_i hz
      split at h
      · rename_i hs
        obtain ⟨y, rfl, hy⟩ := Exact.bind (ranged_exact _ _ _ _) (fun _ =>
          Exact.bind (expect_exact _ _) fun _ =>
            Exact.bind (ranged_exact _ _ _ _) fun _ => Exact.pure ()) _ _ _ h
        refine ⟨c :: y, rfl, fun r' => ?_⟩
        simp only [zone, List.cons_append, hz, hs, ↓reduceIte]
        exact hy r'
      · cases h

/-- The fraction of a second ends where the zone starts, so that nothing behind the zone counts. -/
theorem fraction_zone_exact : Exact (fraction >>= fun _ => zone) := by
  intro cs a r h
  simp only [Bind.bind, EStateM.bind] at h
  split at h
  · rename_i _ m hf
    obtain ⟨y, rfl, hy⟩ := zone_exact _ _ _ h
    obtain ⟨c, y, rfl⟩ : ∃ c t, y = c :: t := by
      cases y with
      | nil => cases hy []
      | cons c t => exact ⟨c, t, rfl⟩
    rcases cs with _ | ⟨d, cs⟩
    · cases hf
    · by_cases hd : d = '.'
      · subst hd
        simp only [fraction] at hf
        split at hf
        · rename_i hcount
          have he := (EStateM.Result.ok.inj hf).2
          have hc : c.isDigit = false := by
            have := List.head?_dropWhile_not Char.isDigit cs
            rw [he] at this
            simpa using this
          refine ⟨'.' :: cs.takeWhile Char.isDigit ++ c :: y, ?_, fun r' => ?_⟩
          · have := List.takeWhile_append_dropWhile (p := Char.isDigit) (l := cs)
            rw [he] at this
            simpa using this.symm
          · have hall : ∀ x ∈ cs.takeWhile Char.isDigit, x.isDigit = true := 
              List.all_eq_true.1 List.all_takeWhile
            have ht : (cs.takeWhile Char.isDigit ++ c :: (y ++ r')).takeWhile Char.isDigit =
                cs.takeWhile Char.isDigit := by
              rw [List.takeWhile_append_of_pos hall]
              simp [hc]
            have hdr : (cs.takeWhile Char.isDigit ++ c :: (y ++ r')).dropWhile Char.isDigit =
                c :: (y ++ r') := by
              rw [List.dropWhile_append_of_pos hall]
              simp [hc]
            simp only [Bind.bind, EStateM.bind, fraction, List.cons_append, List.append_assoc, ht,
              hdr, hcount, and_self, ↓reduceIte]
            exact hy r'
        · cases hf
      · have he : d :: cs = c :: y ++ r := by
          have : fraction (d :: cs) = .ok () (d :: cs) := by simp [fraction, hd]
          rw [this] at hf
          exact (EStateM.Result.ok.inj hf).2
        refine ⟨c :: y, he, fun r' => ?_⟩
        have hdc : d = c := (List.cons.inj he).1
        subst hdc
        have : fraction (d :: (y ++ r')) = .ok () (d :: (y ++ r')) := by simp [fraction, hd]
        simp only [Bind.bind, EStateM.bind, List.cons_append, this]
        exact hy r'
  · cases h

theorem afterYear_exact (year : Nat) : (afterYear year).Exact := by
  unfold afterYear
  refine Exact.bind (ranged_exact _ _ _ _) fun _ => ?_
  refine Exact.bind (expect_exact _ _) fun _ => ?_
  refine Exact.bind (ranged_exact _ _ _ _) fun _ => ?_
  refine Exact.bind (expect_exact _ _) fun _ => ?_
  refine Exact.bind (ranged_exact _ _ _ _) fun _ => ?_
  refine Exact.bind (expect_exact _ _) fun _ => ?_
  refine Exact.bind (ranged_exact _ _ _ _) fun _ => ?_
  refine Exact.bind (expect_exact _ _) fun _ => ?_
  exact Exact.bind (ranged_exact _ _ _ _) fun _ => fraction_zone_exact

end Reader

theorem timestamp_local {year : Nat} {cs r : List Char} {k : Kind}
    (h : timestamp year cs = (k, r)) (hk : k.isIllegal = false) :
    ∃ y, cs = y ++ r ∧ ∀ r', Closes r r' → timestamp year (y ++ r') = (k, r') := by
  simp only [timestamp] at h
  split at h
  · rename_i hr
    split at h
    · cases h
      cases hk
    · cases h
      obtain ⟨y, rfl, hy⟩ := Reader.afterYear_exact year _ _ _ hr
      refine ⟨y, rfl, fun r' hc => ?_⟩
      simp [timestamp, hy r', hc.word]
  · cases h
    cases hk

/-! ## Numbers and durations -/

theorem duration_local {previous : Option TimeUnit} {fractional : Bool} {unit : TimeUnit}
    {here rest r : List Char} {k : Kind} (h : duration previous fractional unit here rest = (k, r))
    (hk : k.isIllegal = false) :
    ∃ y, rest = y ++ r ∧ ∀ r' here', Closes r r' →
      duration previous fractional unit here' (y ++ r') = (k, r') := by
  fun_induction duration previous fractional unit here rest with
  | case1 => cases h; cases hk
  | case2 => cases h; cases hk
  | case3 previous fractional unit here hp hf =>
    cases h
    refine ⟨[], rfl, fun r' here' hc => ?_⟩
    cases r' with
    | nil => simp [duration, hp, hf]
    | cons c r' =>
      have hw : isWordChar c = false := by simpa [startsWord] using hc.word
      simp [duration, hp, hf, hw, not_isDigit_of_not_isWordChar hw]
  | case4 previous fractional unit here hp hf c cs hd next after hu ih =>
    obtain ⟨y₂, rfl, hy₂⟩ := ih h
    have hs := (List.suffix_append y₂ r).trans (unit_suffix hu)
    obtain ⟨x, hx⟩ := hs.trans (decimalEnd_suffix cs)
    rw [← hx] at hs hu hy₂
    obtain ⟨z, b, hz, hz'⟩ := decimalEnd_local hs
    rw [hz] at hu hy₂
    obtain ⟨w, hw, hw'⟩ := unit_local hu (List.suffix_append y₂ r)
    have hwy := List.append_cancel_right hw
    subst hwy
    refine ⟨c :: x, by rw [← hx]; rfl, fun r' here' hc => ?_⟩
    rw [List.cons_append, duration]
    simp only [hp, hf, hd, ↓reduceIte, Bool.false_eq_true]
    split
    · rename_i u m hum
      rw [hz' r' hc, hw' r' hc.word] at hum
      cases hum
      rw [hz' r' hc]
      exact hy₂ r' _ hc
    · rename_i hum
      rw [hz' r' hc, hw' r' hc.word] at hum
      cases hum
  | case5 => cases h; cases hk
  | case6 => cases h; cases hk
  | case7 previous fractional unit here hp hf c cs hd hw =>
    cases h
    refine ⟨[], rfl, fun r' here' hc => ?_⟩
    cases r' with
    | nil => simp [duration, hp, hf]
    | cons c r' =>
      have hw : isWordChar c = false := by simpa [startsWord] using hc.word
      simp [duration, hp, hf, hw, not_isDigit_of_not_isWordChar hw]

theorem radix_local {kind k : Kind} {p : Char → Bool} (hp : ∀ c, p c = true → isWordChar c = true)
    {cs r : List Char} (h : radix kind p cs = (k, r)) (hk : k.isIllegal = false) :
    ∃ y, cs = y ++ r ∧ ∀ r', Closes r r' → radix kind p (y ++ r') = (k, r') := by
  unfold radix at h
  split at h
  · rename_i hd
    simp only at h
    split at h
    · cases h
      cases hk
    · cases h
      have hcs := List.takeWhile_append_dropWhile (p := p) (l := cs)
      refine ⟨cs.takeWhile p, hcs.symm, fun r' hc => ?_⟩
      have hall : ∀ x ∈ cs.takeWhile p, p x = true := List.all_eq_true.1 List.all_takeWhile
      obtain ⟨c, t, rfl, hpc⟩ : ∃ c t, cs = c :: t ∧ p c = true := by
        cases cs with
        | nil => simp at hd
        | cons c t => exact ⟨c, t, rfl, by simpa using hd⟩
      have hdr := (run_append hall (head_of_not_startsWord hp hc.word)).2
      have hh : ((c :: t).takeWhile p ++ r').head?.any p = true := by
        simp [List.takeWhile_cons_of_pos hpc, hpc]
      simp only [radix, hh, hdr, hc.word, ↓reduceIte, Bool.false_eq_true]
  · cases h
    cases hk

/-- Whether a fraction comes, and what is left behind it. -/
theorem fraction?_getD_local {y r : List Char}
    (h : r <:+ (fraction? (y ++ r)).getD (y ++ r)) :
    ∃ z, (fraction? (y ++ r)).getD (y ++ r) = z ++ r ∧ ∀ r', Closes r r' →
      (fraction? (y ++ r')).isSome = (fraction? (y ++ r)).isSome ∧
        (fraction? (y ++ r')).getD (y ++ r') = z ++ r' := by
  cases hf : fraction? (y ++ r) with
  | none =>
    refine ⟨y, rfl, fun r' hc => ?_⟩
    simp [fraction?_local_none hc hf]
  | some m =>
    rw [hf] at h
    obtain ⟨z, rfl, hz⟩ := fraction?_local_some hf h
    refine ⟨z, rfl, fun r' hc => ?_⟩
    simp [hz r' hc.word]

theorem decimal_local {digits rest r : List Char} {k : Kind} (h : decimal digits rest = (k, r))
    (hk : k.isIllegal = false) :
    ∃ y, rest = y ++ r ∧ ∀ r', Closes r r' → decimal digits (y ++ r') = (k, r') := by
  obtain ⟨y, rfl⟩ : r <:+ rest := by
    have := decimal_suffix digits rest
    rwa [h] at this
  refine ⟨y, rfl, fun r' hc => ?_⟩
  simp only [decimal] at h
  -- What is left behind the exponent holds all of `r`.
  have hs : r <:+ (exponent? ((fraction? (y ++ r)).getD (y ++ r))).getD
      ((fraction? (y ++ r)).getD (y ++ r)) := by
    split at h
    · rename_i unit after hu
      split at h
      · exact (not_illegal h hk).elim
      · have := duration_suffix none (fraction? (y ++ r)).isSome unit _ after (unit_suffix hu)
        rwa [h] at this
    · split at h
      · exact (not_illegal h hk).elim
      · simp only [(Prod.mk.inj h).2, List.suffix_refl]
  obtain ⟨z, hz, hz'⟩ := fraction?_getD_local (hs.trans (getD_suffix fun _ => exponent?_suffix))
  obtain ⟨hsome, hget⟩ := hz' r' hc
  rw [hz] at h hs
  simp only [decimal, hsome, hget]
  cases he : exponent? (z ++ r) with
  | some m =>
    rw [he] at h hs
    obtain ⟨w, rfl, hw⟩ := exponent?_local_some he hs
    simp only [Option.getD_some, Option.isSome_some, ↓reduceIte, Bool.or_true] at h
    split at h
    · exact (not_illegal h hk).elim
    · split at h
      · exact (not_illegal h hk).elim
      · obtain ⟨rfl, hr⟩ := Prod.mk.inj h
        have hw0 : w = [] := List.append_cancel_right (show w ++ r = [] ++ r from hr)
        subst hw0
        simp [hw r' hc.word, unit_eq_none hc.word, hc.word]
  | none =>
    rw [he] at h
    simp only [Option.getD_none, Option.isSome_none, Bool.false_eq_true, ↓reduceIte,
      Bool.or_false] at h
    split at h
    · rename_i u after hu
      obtain ⟨x, rfl, hx⟩ := duration_local h hk
      obtain ⟨w, hw, hw'⟩ := unit_local hu (List.suffix_append x r)
      have hwx := List.append_cancel_right hw
      subst hwx
      have hu' := hw' r' hc.word
      have hne : exponent? (z ++ r') = none := by
        obtain ⟨c, t, hct, -, h1, h2⟩ := head_of_unit hu'
        rw [hct]
        exact exponent?_eq_none (by simp [h1, h2])
      simp only [hne, Option.getD_none, hu', Option.isSome_none, Bool.false_eq_true, ↓reduceIte]
      exact hx r' _ hc
    · split at h
      · exact (not_illegal h hk).elim
      · obtain ⟨rfl, hr⟩ := Prod.mk.inj h
        have hz0 : z = [] := List.append_cancel_right (show z ++ r = [] ++ r from hr)
        subst hz0
        have hne : exponent? r' = none := exponent?_eq_none fun c hcr => by
          have := head_of_not_startsWord (p := isWordChar) (fun _ h => h) hc.word c hcr
          constructor <;> (intro hce; subst hce; exact absurd this (by decide))
        simp [hne, unit_eq_none hc.word, hc.word]

/-- The marks of other bases. -/
def isRadixMark (c : Char) : Prop := c = 'x' ∨ c = 'X' ∨ c = 'o' ∨ c = 'O'

/-- A number without the mark of another base: its digits, then a timestamp's or a number's rest. -/
theorem number_plain {negative : Bool} {d : Char} {ds x : List Char}
    (hds : ∀ c ∈ ds, c.isDigit = true) (hx : ∀ c ∈ x.head?, c.isDigit = false)
    (hm : d = '0' → ∀ c ∈ (ds ++ x).head?, ¬ isRadixMark c) :
    number negative d (ds ++ x) =
      if x.head? = some '-' ∧ (!negative && (d :: ds).length == 4) = true then
        timestamp (ofDigits 10 (d :: ds)) x.tail
      else decimal (d :: ds) x := by
  obtain ⟨ht, hdr⟩ := run_append hds hx
  unfold number
  split
  · rename_i he
    exact absurd (.inl rfl) (hm rfl 'x' (by rw [he]; rfl))
  · rename_i he
    exact absurd (.inr (.inl rfl)) (hm rfl 'X' (by rw [he]; rfl))
  · rename_i he
    exact absurd (.inr (.inr (.inl rfl))) (hm rfl 'o' (by rw [he]; rfl))
  · rename_i he
    exact absurd (.inr (.inr (.inr rfl))) (hm rfl 'O' (by rw [he]; rfl))
  · simp only [ht, hdr]
    split
    · simp
    · rename_i hn
      have : x.head? ≠ some '-' := by
        cases x with
        | nil => simp
        | cons c x => simpa using fun he => hn x (by rw [he])
      simp [this]

theorem radix_mark_local {negative : Bool} {c : Char} {cs r : List Char} {k : Kind}
    (hm : isRadixMark c) (h : number negative '0' (c :: cs) = (k, r)) (hk : k.isIllegal = false) :
    ∃ y, c :: cs = y ++ r ∧ ∀ r', Closes r r' → number negative '0' (y ++ r') = (k, r') := by
  have key : ∀ {kind : Kind} {p : Char → Bool}, (∀ c, p c = true → isWordChar c = true) →
      (∀ t, number negative '0' (c :: t) = radix kind p t) →
      ∃ y, c :: cs = y ++ r ∧ ∀ r', Closes r r' → number negative '0' (y ++ r') = (k, r') := by
    intro kind p hp hn
    rw [hn] at h
    obtain ⟨y, rfl, hy⟩ := radix_local hp h hk
    exact ⟨c :: y, rfl, fun r' hc => (hn _).trans (hy r' hc)⟩
  rcases hm with rfl | rfl | rfl | rfl
  · exact key (fun _ => isWordChar_of_isHexDigit) fun _ => rfl
  · exact key (fun _ => isWordChar_of_isHexDigit) fun _ => rfl
  · exact key (fun _ => isWordChar_of_isOctalDigit) fun _ => rfl
  · exact key (fun _ => isWordChar_of_isOctalDigit) fun _ => rfl

theorem number_local {negative : Bool} {d : Char} {cs r : List Char} {k : Kind}
    (h : number negative d cs = (k, r)) (hk : k.isIllegal = false) :
    ∃ y, cs = y ++ r ∧ ∀ r', Closes r r' → number negative d (y ++ r') = (k, r') := by
  by_cases hmark : ∃ c t, d = '0' ∧ cs = c :: t ∧ isRadixMark c
  · obtain ⟨c, t, rfl, rfl, hm⟩ := hmark
    exact radix_mark_local hm h hk
  have hm : d = '0' → ∀ c ∈ cs.head?, ¬ isRadixMark c := by
    rintro rfl c hc hmc
    cases cs with
    | nil => simp at hc
    | cons c' t =>
      simp only [List.head?_cons, Option.mem_def, Option.some.injEq] at hc
      exact hmark ⟨c', t, rfl, rfl, hc ▸ hmc⟩
  obtain ⟨ds, x, rfl, hds, hx⟩ : ∃ ds x, cs = ds ++ x ∧ (∀ c ∈ ds, c.isDigit = true) ∧
      ∀ c ∈ x.head?, c.isDigit = false := by
    refine ⟨cs.takeWhile Char.isDigit, cs.dropWhile Char.isDigit,
      List.takeWhile_append_dropWhile.symm, List.all_eq_true.1 List.all_takeWhile, ?_⟩
    intro c hc
    have := List.head?_dropWhile_not Char.isDigit cs
    rw [Option.mem_def.1 hc] at this
    simpa using this
  rw [number_plain hds hx hm] at h
  -- The digits and the start of what follows them are the same before `r'`.
  have hm' : ∀ y r', Closes r r' → ds ++ x = y ++ r →
      d = '0' → ∀ c ∈ (y ++ r').head?, ¬ isRadixMark c := by
    rintro y r' hc he hd c hcy
    cases y with
    | nil =>
      have := head_of_not_startsWord (p := isWordChar) (fun _ h => h) hc.word c (by simpa using hcy)
      rintro (rfl | rfl | rfl | rfl) <;> exact absurd this (by decide)
    | cons c' y =>
      refine hm hd c ?_
      rw [he]
      simpa using hcy
  split at h
  · rename_i hcond
    obtain ⟨y, hy, hy'⟩ := timestamp_local h hk
    obtain ⟨t, rfl⟩ : ∃ t, x = '-' :: t := by
      cases x with
      | nil => simp at hcond
      | cons c t => exact ⟨t, by rw [show c = '-' by simpa using hcond.1]⟩
    simp only [List.tail_cons] at hy
    subst hy
    refine ⟨ds ++ '-' :: y, by simp, fun r' hc => ?_⟩
    have := @number_plain negative d ds ('-' :: (y ++ r')) hds (by simp)
      (by simpa using hm' (ds ++ '-' :: y) r' hc (by simp))
    rw [List.append_assoc, List.cons_append, this, if_pos ⟨rfl, hcond.2⟩]
    exact hy' r' hc
  · rename_i hcond
    obtain ⟨y, rfl, hy'⟩ := decimal_local h hk
    refine ⟨ds ++ y, by simp, fun r' hc => ?_⟩
    have hhead : ∀ c ∈ (y ++ r').head?, c.isDigit = false := by
      cases y with
      | nil => exact head_of_not_startsWord (fun _ => isWordChar_of_isDigit) hc.word
      | cons c y => simpa using hx
    have := @number_plain negative d ds (y ++ r') hds hhead
      (by simpa using hm' (ds ++ y) r' hc (by simp))
    rw [List.append_assoc, this, if_neg]
    · exact hy' r' hc
    · rintro ⟨h1, h2⟩
      cases y with
      | nil => exact hcond ⟨hc.dash h1, h2⟩
      | cons c y => exact hcond ⟨by simpa using h1, h2⟩

theorem string_cons {quote c : Char} (hc : c ≠ '\\') (cs : List Char) :
    string quote (c :: cs) = if c = quote then (.string, cs) else string quote cs :=
  string.eq_4 _ _ _ (fun he _ => hc he) fun _ _ he _ => hc he

theorem string_local {quote : Char} {cs r : List Char} {k : Kind} (h : string quote cs = (k, r))
    (hk : k.isIllegal = false) :
    ∃ y, cs = y ++ r ∧ ∀ r', string quote (y ++ r') = (k, r') := by
  fun_induction string quote cs with
  | case1 => cases h; cases hk
  | case2 => cases h; cases hk
  | case3 c cs ih =>
    obtain ⟨y, rfl, hy⟩ := ih h
    exact ⟨'\\' :: c :: y, rfl, fun r' => by simpa [string] using hy r'⟩
  | case4 cs h1 h2 =>
    have hb : quote ≠ '\\' := by
      intro he
      cases cs with
      | nil => exact h1 he rfl
      | cons a t => exact h2 a t he rfl
    cases h
    exact ⟨[quote], rfl, fun r' => by simp [string_cons hb]⟩
  | case5 c cs h1 h2 hq ih =>
    have hb : c ≠ '\\' := by
      intro he
      cases cs with
      | nil => exact h1 he rfl
      | cons a t => exact h2 a t he rfl
    obtain ⟨y, rfl, hy⟩ := ih h
    exact ⟨c :: y, rfl, fun r' => by simpa [string_cons hb, hq] using hy r'⟩

theorem word_local {c : Char} {cs r : List Char} {k : Kind} (h : word c cs = (k, r)) :
    ∃ y, cs = y ++ r ∧ ∀ r', startsWord r' = false → word c (y ++ r') = (k, r') := by
  obtain ⟨rfl, rfl⟩ := Prod.mk.inj h
  refine ⟨cs.takeWhile isWordChar, List.takeWhile_append_dropWhile.symm, fun r' hr => ?_⟩
  have hall : ∀ x ∈ cs.takeWhile isWordChar, isWordChar x = true :=
    List.all_eq_true.1 List.all_takeWhile
  have hhead := head_of_not_startsWord (p := isWordChar) (fun _ h => h) hr
  obtain ⟨htake, hdrop⟩ := run_append hall hhead
  simp only [word, htake, hdrop]

/-- Punctuation is no leaf. -/
theorem symbol_not_isLeaf (c : Char) (cs : List Char) : (symbol c cs).1.isLeaf = false := by
  unfold symbol
  split <;> rfl

end Lexeme

theorem Kind.isIllegal_of_isLeaf {k : Kind} (h : k.isLeaf = true) : k.isIllegal = false := by
  cases k <;> first | rfl | cases h

open Lexeme in
/-- A leaf reads the same before any text that cannot continue it. -/
theorem lexeme_local {c : Char} {cs r : List Char} {k : Kind} (h : lexeme c cs = (k, r))
    (hk : k.isLeaf = true) :
    ∃ y, cs = y ++ r ∧ ∀ r', Closes r r' → lexeme c (y ++ r') = (k, r') := by
  have hill := Kind.isIllegal_of_isLeaf hk
  simp only [lexeme] at h ⊢
  split at h
  · rw [← (Prod.mk.inj h).1] at hk
    cases hk
  rename_i hwhite
  split at h
  · rename_i hd
    simpa [hwhite, hd] using number_local h hill
  rename_i hd
  split at h
  · rename_i hdash
    subst hdash
    cases cs with
    | nil =>
      have := symbol_not_isLeaf '-' []
      rw [show symbol '-' [] = (k, r) from h, hk] at this
      cases this
    | cons d cs =>
      simp only [dash] at h
      split at h
      · rename_i hdd
        obtain ⟨y, rfl, hy⟩ := number_local h hill
        refine ⟨d :: y, rfl, fun r' hc => ?_⟩
        simpa [hwhite, hd, dash, hdd] using hy r' hc
      · have := symbol_not_isLeaf '-' (d :: cs)
        rw [h, hk] at this
        cases this
  rename_i hdash
  split at h
  · rename_i hq
    obtain ⟨y, rfl, hy⟩ := string_local h hill
    exact ⟨y, rfl, fun r' _ => by simpa [hwhite, hd, hdash, hq] using hy r'⟩
  rename_i hq
  split at h
  · rename_i hw
    obtain ⟨y, rfl, hy⟩ := word_local h
    exact ⟨y, rfl, fun r' hc => by simpa [hwhite, hd, hdash, hq, hw] using hy r' hc.word⟩
  · have := symbol_not_isLeaf c cs
    rw [h, hk] at this
    cases this

end ListQuery.Filter
