/-
Written durations. A duration is written as components, one behind the other (`Written`): digits,
digits behind a point at will, and a spelling of a unit. Units go strictly down, and no component
has a fraction after a unit below the second (`Ordered`).

`components?_eq_some_iff`: reading the components of a text gives exactly the ordered components
that the text is written with, so a text has at most one reading. A component starts with a digit,
which no unit goes on with, so the unit in front of it is the longest spelling there.
-/
import ListQuery.Time.Duration

namespace ListQuery.Time

namespace TimeUnit

/-- How a unit is spelled. -/
def spellings : TimeUnit → List String
  | .hour => ["h"]
  | .minute => ["m"]
  | .second => ["s"]
  | .millisecond => ["ms"]
  | .microsecond => ["us", "µs", "μs"]
  | .nanosecond => ["ns"]

/-- A spelling is read as its unit unless an `s` makes it a longer one. -/
theorem read?_spelling {u : TimeUnit} {s : String} (hs : s ∈ u.spellings) {r : List Char}
    (hr : r.head? ≠ some 's') : read? (s.toList ++ r) = some (u, r) := by
  have hm : ∀ t, r ≠ 's' :: t := fun t he => hr (by rw [he]; rfl)
  cases u <;> simp only [spellings, List.mem_cons, List.not_mem_nil, or_false] at hs
  case minute =>
    subst hs
    show read? ('m' :: r) = _
    unfold read?
    split <;> simp_all
  case microsecond => rcases hs with rfl | rfl | rfl <;> rfl
  all_goals subst hs; rfl

theorem spelling_of_read? {u : TimeUnit} {cs r : List Char} (h : read? cs = some (u, r)) :
    ∃ s ∈ u.spellings, cs = s.toList ++ r := by
  unfold read? at h
  split at h <;> simp only [Option.some.injEq, Prod.mk.injEq, reduceCtorEq] at h <;>
    obtain ⟨rfl, rfl⟩ := h
  · exact ⟨"ns", by decide, rfl⟩
  · exact ⟨"us", by decide, rfl⟩
  · exact ⟨"µs", by decide, rfl⟩
  · exact ⟨"μs", by decide, rfl⟩
  · exact ⟨"ms", by decide, rfl⟩
  · exact ⟨"h", by decide, rfl⟩
  · exact ⟨"m", by decide, rfl⟩
  · exact ⟨"s", by decide, rfl⟩

/-- A spelling starts with neither a digit nor a point. -/
theorem head_of_spelling {u : TimeUnit} {s : String} (hs : s ∈ u.spellings) :
    ∃ c t, s.toList = c :: t ∧ c.isDigit = false ∧ c ≠ '.' := by
  cases u <;> simp only [spellings, List.mem_cons, List.not_mem_nil, or_false] at hs
  case microsecond =>
    rcases hs with rfl | rfl | rfl <;> exact ⟨_, _, rfl, by decide, by decide⟩
  all_goals subst hs; exact ⟨_, _, rfl, by decide, by decide⟩

end TimeUnit

namespace Duration

/-- The digits of a fraction behind their point; nothing when there are none. -/
def pointed (digits : List Char) : List Char :=
  if digits.isEmpty then [] else '.' :: digits

/-- The text of a component: digits, digits behind a point at will, a spelling of the unit. -/
structure Component.Writes (c : Component) (w : List Char) : Prop where
  whole_ne : c.whole ≠ []
  whole_digits : ∀ d ∈ c.whole, d.isDigit = true
  fraction_digits : ∀ d ∈ c.fraction, d.isDigit = true
  text : ∃ s ∈ c.unit.spellings, w = c.whole ++ (pointed c.fraction ++ s.toList)

theorem Component.Writes.head {c : Component} {w : List Char} (h : c.Writes w) :
    ∃ d t, w = d :: t ∧ d.isDigit = true := by
  obtain ⟨s, -, rfl⟩ := h.text
  cases hw : c.whole with
  | nil => exact absurd hw h.whole_ne
  | cons d t =>
    exact ⟨d, t ++ (pointed c.fraction ++ s.toList), rfl, h.whole_digits d (by simp [hw])⟩

/-- A run of digits before a text that starts with none. -/
theorem takeWhile_digits {ds x : List Char} (hds : ∀ d ∈ ds, d.isDigit = true)
    (hx : ∃ c t, x = c :: t ∧ c.isDigit = false) :
    (ds ++ x).takeWhile Char.isDigit = ds ∧ (ds ++ x).dropWhile Char.isDigit = x := by
  obtain ⟨c, t, rfl, hc⟩ := hx
  rw [List.takeWhile_append_of_pos hds, List.dropWhile_append_of_pos hds]
  simp [hc]

theorem fraction?_pointed {ds : List Char} (hds : ∀ d ∈ ds, d.isDigit = true) {x : List Char}
    (hx : ∃ a t, x = a :: t ∧ a.isDigit = false ∧ a ≠ '.') :
    fraction? (pointed ds ++ x) = some (ds, x) := by
  obtain ⟨a, t, rfl, ha, hp⟩ := hx
  obtain ⟨h1, h2⟩ := takeWhile_digits (x := a :: t) hds ⟨a, t, rfl, ha⟩
  cases ds with
  | nil => simp [pointed, fraction?, hp]
  | cons d ds =>
    show fraction? ('.' :: (d :: ds ++ a :: t)) = _
    rw [fraction?, h1, h2]

theorem pointed_of_fraction? {cs ds r : List Char} (h : fraction? cs = some (ds, r)) :
    (∀ d ∈ ds, d.isDigit = true) ∧ cs = pointed ds ++ r := by
  unfold fraction? at h
  split at h
  · rename_i cs
    split at h
    · cases h
    · rename_i hne
      cases h
      have hemp : (cs.takeWhile Char.isDigit).isEmpty = false := by simpa using hne
      refine ⟨List.all_eq_true.1 List.all_takeWhile, ?_⟩
      simp [pointed, hemp, List.takeWhile_append_dropWhile]
  · cases h
    exact ⟨by simp, rfl⟩

theorem component?_of_writes {c : Component} {w r : List Char} (h : c.Writes w)
    (hr : r.head? ≠ some 's') : component? (w ++ r) = some (c, r) := by
  obtain ⟨s, hs, rfl⟩ := h.text
  obtain ⟨a, t, hat, ha, hp⟩ := TimeUnit.head_of_spelling hs
  have hsr : s.toList ++ r = a :: (t ++ r) := by rw [hat]; rfl
  have hx : ∃ b v, pointed c.fraction ++ (s.toList ++ r) = b :: v ∧ b.isDigit = false := by
    unfold pointed
    split
    · exact ⟨a, t ++ r, hsr, ha⟩
    · exact ⟨'.', c.fraction ++ (s.toList ++ r), rfl, by decide⟩
  obtain ⟨h1, h2⟩ := takeWhile_digits h.whole_digits hx
  have h3 := fraction?_pointed h.fraction_digits ⟨a, t ++ r, hsr, ha, hp⟩
  rw [List.append_assoc, List.append_assoc, component?, h1, h2]
  cases hw : c.whole with
  | nil => exact absurd hw h.whole_ne
  | cons d ds => simp only [h3, TimeUnit.read?_spelling hs hr, ← hw]

theorem writes_of_component? {c : Component} {cs r : List Char} (h : component? cs = some (c, r)) :
    ∃ w, c.Writes w ∧ cs = w ++ r := by
  unfold component? at h
  split at h
  · cases h
  rename_i hwhole
  split at h
  · cases h
  rename_i fraction rest hf
  split at h
  · cases h
  rename_i unit after hu
  cases h
  obtain ⟨s, hs, rfl⟩ := TimeUnit.spelling_of_read? hu
  obtain ⟨hfd, hfr⟩ := pointed_of_fraction? hf
  refine ⟨_, ⟨hwhole, List.all_eq_true.1 List.all_takeWhile, hfd, s, hs, rfl⟩, ?_⟩
  rw [List.append_assoc, List.append_assoc, ← hfr, List.takeWhile_append_dropWhile]

/-! ## Components one behind the other -/

/-- The text of components, one behind the other. -/
inductive Written : List Component → List Char → Prop
  | nil : Written [] []
  | cons {c : Component} {cs : List Component} {w v : List Char} :
      c.Writes w → Written cs v → Written (c :: cs) (w ++ v)

/-- Units go strictly down, and no component has a fraction after a unit below the second. -/
def Ordered (cs : List Component) : Prop :=
  cs.Pairwise fun a b =>
    b.unit.rank < a.unit.rank ∧ (a.unit.isSubsecond = true → b.fraction = [])

instance (cs : List Component) : Decidable (Ordered cs) :=
  inferInstanceAs (Decidable (List.Pairwise _ cs))

/-- Each component may follow the unit of the one before it. -/
def InTurn : Option TimeUnit → List Component → Prop
  | _, [] => True
  | previous, c :: cs => previous.all c.follows = true ∧ InTurn (some c.unit) cs

theorem Component.follows_iff {c : Component} {u : TimeUnit} :
    c.follows u = true ↔ c.unit.rank < u.rank ∧ (u.isSubsecond = true → c.fraction = []) := by
  cases hu : u.isSubsecond <;> simp [follows, hu]

/-- Below a unit below the second there are only units below the second. -/
theorem Component.follows_trans {a b : Component} {u : TimeUnit} (hb : b.follows a.unit = true)
    (ha : a.follows u = true) : b.follows u = true := by
  rw [follows_iff] at *
  refine ⟨Nat.lt_trans hb.1 ha.1, fun hu => hb.2 ?_⟩
  simp only [TimeUnit.isSubsecond, decide_eq_true_eq] at hu ⊢
  exact Nat.lt_trans ha.1 hu

/-- To follow the last unit is to follow them all. -/
theorem inTurn_iff {previous : Option TimeUnit} {cs : List Component} :
    InTurn previous cs ↔ (∀ u ∈ previous, ∀ c ∈ cs, c.follows u = true) ∧ Ordered cs := by
  induction cs generalizing previous with
  | nil => simp [InTurn, Ordered]
  | cons c cs ih =>
    have hhead : previous.all c.follows = true ↔ ∀ u ∈ previous, c.follows u = true := by
      cases previous <;> simp
    have hord : Ordered (c :: cs) ↔ (∀ b ∈ cs, b.follows c.unit = true) ∧ Ordered cs := by
      simp only [Ordered, List.pairwise_cons, Component.follows_iff]
    rw [InTurn, ih, hhead, hord]
    constructor
    · rintro ⟨hc, hcs, ho⟩
      have hcs := hcs c.unit rfl
      refine ⟨fun u hu b hb => ?_, hcs, ho⟩
      rcases List.mem_cons.1 hb with rfl | hb
      · exact hc u hu
      · exact Component.follows_trans (hcs b hb) (hc u hu)
    · rintro ⟨hc, hcs, ho⟩
      exact ⟨fun u hu => hc u hu c (by simp), by rintro u ⟨⟩; exact hcs, ho⟩

theorem inTurn_none {cs : List Component} : InTurn none cs ↔ Ordered cs := by
  simp [inTurn_iff]

/-- Components start with a digit. -/
theorem Written.cons_of_ne_nil {cs : List Component} {w : List Char} (h : Written cs w)
    (hne : cs ≠ []) : ∃ d t, w = d :: t ∧ d.isDigit = true := by
  cases h with
  | nil => exact absurd rfl hne
  | @cons c cs w v hc _ =>
    obtain ⟨d, t, rfl, hd⟩ := hc.head
    exact ⟨d, t ++ v, rfl, hd⟩

theorem Written.head {cs : List Component} {w : List Char} (h : Written cs w) :
    ∀ c ∈ w.head?, c.isDigit = true := by
  by_cases hne : cs = []
  · subst hne
    cases h
    simp
  · obtain ⟨d, t, rfl, hd⟩ := h.cons_of_ne_nil hne
    simpa using hd

theorem components?_of_written {cs : List Component} {w : List Char} (hw : Written cs w)
    {previous : Option TimeUnit} (hcs : InTurn previous cs) : components? previous w = some cs := by
  induction hw generalizing previous with
  | nil => rw [components?]
  | @cons c cs w v hc hv ih =>
    obtain ⟨d, t, rfl, -⟩ := hc.head
    have hs : v.head? ≠ some 's' := fun he => by
      have := hv.head 's' he
      exact absurd this (by decide)
    have hfirst := component?_of_writes hc hs
    rw [List.cons_append] at hfirst ⊢
    rw [components?]
    split
    · rename_i hnone
      rw [hfirst] at hnone
      cases hnone
    · rename_i hsome
      rw [hfirst] at hsome
      cases hsome
      rw [if_pos hcs.1, ih hcs.2]
      rfl

theorem written_of_components? {previous : Option TimeUnit} {w : List Char} {cs : List Component}
    (h : components? previous w = some cs) : Written cs w ∧ InTurn previous cs := by
  fun_induction components? previous w generalizing cs with
  | case1 =>
    cases h
    exact ⟨.nil, trivial⟩
  | case2 => cases h
  | case3 previous a t first rest hfirst hfollows ih =>
    obtain ⟨cs, hcs, rfl⟩ := Option.map_eq_some_iff.1 h
    obtain ⟨hw, hturn⟩ := ih hcs
    obtain ⟨v, hv, he⟩ := writes_of_component? hfirst
    rw [he]
    exact ⟨.cons hv hw, hfollows, hturn⟩
  | case4 => cases h

/-- Reading a text gives the ordered components that it is written with. -/
theorem components?_eq_some_iff {w : List Char} {cs : List Component} :
    components? none w = some cs ↔ Written cs w ∧ Ordered cs := by
  rw [← inTurn_none]
  exact ⟨written_of_components?, fun h => components?_of_written h.1 h.2⟩

end Duration

end ListQuery.Time
