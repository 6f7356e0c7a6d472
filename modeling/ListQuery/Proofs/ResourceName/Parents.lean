/-
Segments by their index, and parents. An index counts from either end, so each segment has two
(`segment?_ofNat`, `segment?_fromEnd`), and no other index has a segment. A parent is what stands
before the last slash but one, if that is not empty (`parent?_iff`); so a name has the segments of
its parent and two more, and of the valid names those with three segments have a parent
(`segments_indexed`).
-/
import ListQuery.Proofs.ResourceName.Fragments

namespace ListQuery.ResourceName

open Text

variable {name p : String} {ps : List (List Char)} {c i : List Char}

theorem segment?_ofNat (name : String) (k : Nat) : segment? name k = (segments name)[k]? := by
  have hk : ¬(k : Int) < 0 := Int.not_lt.2 (Int.natCast_nonneg k)
  simp only [segment?, if_neg hk, Int.toNat_natCast]

/-- A negative index stands for the index from the front that is as many more as there are
segments. -/
theorem segment?_of_neg {index : Int} (h : index < 0) :
    segment? name index =
      if segmentCount name + index < 0 then none
      else (segments name)[(segmentCount name + index).toNat]? := by
  simp only [segment?, if_pos h]

theorem segment?_fromEnd {k : Nat} (h : k < segmentCount name) :
    segment? name (k - segmentCount name) = (segments name)[k]? := by
  have hposition : segmentCount name + ((k : Int) - segmentCount name) = k := by omega
  have hk : ¬(k : Int) < 0 := Int.not_lt.2 (Int.natCast_nonneg k)
  rw [segment?_of_neg (by omega), hposition, if_neg hk, Int.toNat_natCast]

theorem segment?_eq_none {index : Int}
    (h : index < -segmentCount name ∨ segmentCount name ≤ index) : segment? name index = none := by
  rcases h with h | h
  · rw [segment?_of_neg (by omega), if_pos (by omega)]
  · obtain ⟨k, rfl⟩ := Int.eq_ofNat_of_zero_le (Int.le_trans (Int.natCast_nonneg _) h)
    rw [segment?_ofNat]
    exact List.getElem?_eq_none (Int.ofNat_le.1 h)

/-- A segment is found from the end by the number of segments behind it. -/
theorem segment?_of_append {ss rest : List String} {s : String} {index : Int}
    (h : segments name = ss ++ s :: rest) (hindex : index = -(rest.length + 1)) :
    segment? name index = some s := by
  have hcount : segmentCount name = ss.length + (rest.length + 1) := by
    rw [segmentCount, h, List.length_append, List.length_cons]
  obtain rfl : index = (ss.length : Int) - segmentCount name := by omega
  rw [segment?_fromEnd (by omega), h, List.getElem?_append_right (Nat.le_refl _), Nat.sub_self,
    List.getElem?_cons_zero]

/-! ## Parents -/

/-- The parent is what stands before the last two pieces, if something does. -/
theorem parent?_of_split (h : split '/' name.toList = ps ++ [c, i]) :
    parent? name =
      if Text.join '/' ps = [] then none else some (String.ofList (Text.join '/' ps)) := by
  have hreverse : (split '/' name.toList).reverse = i :: c :: ps.reverse := by simp [h]
  unfold parent?
  rw [hreverse]
  dsimp only
  rw [List.reverse_reverse]
  split
  · next hnil => rw [if_pos hnil]
  · next hne => rw [if_neg hne]

theorem parent?_of_split_single (h : split '/' name.toList = [i]) : parent? name = none := by
  rw [parent?, h]
  rfl

/-- The parent is what stands before the last slash but one, as if the name were cut from its
end. -/
theorem parent?_iff : parent? name = some p ↔ p ≠ "" ∧ ∃ c i : List Char,
    '/' ∉ c ∧ '/' ∉ i ∧ name.toList = p.toList ++ '/' :: (c ++ '/' :: i) := by
  constructor
  · intro h
    have hmem : ∀ q ∈ split '/' name.toList, '/' ∉ q := fun q => not_mem_of_mem_split
    have hname := join_split '/' name.toList
    obtain hnil | ⟨qs, i, hsplit⟩ := List.eq_nil_or_concat' (split '/' name.toList)
    · exact absurd hnil (split_ne_nil '/' _)
    obtain rfl | ⟨ps, c, rfl⟩ := List.eq_nil_or_concat' qs
    · rw [parent?_of_split_single hsplit] at h
      cases h
    rw [List.append_assoc, List.singleton_append] at hsplit
    rw [parent?_of_split hsplit] at h
    split at h
    · cases h
    · next hne =>
      have hps : ps ≠ [] := fun he => hne (by rw [he]; rfl)
      obtain rfl := Option.some.inj h
      rw [hsplit] at hmem hname
      refine ⟨fun he => hne (by simpa using congrArg String.toList he), c, i, hmem c (by simp),
        hmem i (by simp), ?_⟩
      rw [← hname, Text.join_append hps (List.cons_ne_nil _ _), String.toList_ofList]
      rfl
  · rintro ⟨hne, c, i, hc, hi, hname⟩
    have hsplit : split '/' name.toList = split '/' p.toList ++ [c, i] := by
      rw [hname, split_append, split_append, split_of_not_mem hc, split_of_not_mem hi]
      rfl
    rw [parent?_of_split hsplit, join_split, if_neg fun he => hne (String.toList_eq_nil_iff.1 he),
      String.ofList_toList]

theorem join_join (ps : List String) : join [join ps] = join ps := by
  rw [← String.toList_inj, toList_join, toList_join, pieces_join]
  split
  · next h => rw [h]
  · rfl

/-- A parent that is joined with two segments has them at its end. -/
theorem join_parent (hp : validate p = .ok ()) (hname : validate name = .ok ())
    {collection id : String} (h : segments name = segments p ++ [collection, id]) :
    join [p, collection, id] = name := by
  have hjoin : join [p] = p := by
    conv => lhs; rw [← join_segments hp, join_join, join_segments hp]
  calc join [p, collection, id]
      = join [join [p], join [collection, id]] := join_append [p] [collection, id]
    _ = join [join (segments p), join [collection, id]] := by rw [hjoin, join_segments hp]
    _ = join (segments p ++ [collection, id]) := (join_append _ _).symm
    _ = name := by rw [← h, join_segments hname]

/-- A name has the segments of its parent and two more. -/
theorem segments_of_parent? (h : parent? name = some p) :
    segments p ≠ [] ∧ ∃ collection id, segments name = segments p ++ [collection, id] := by
  obtain ⟨hne, c, i, hc, hi, hname⟩ := parent?_iff.1 h
  have hname' : name ≠ "" := by
    rintro rfl
    simp at hname
  refine ⟨?_, String.ofList c, String.ofList i, ?_⟩
  · rw [segments_of_ne hne]
    simpa using split_ne_nil '/' p.toList
  · rw [segments_of_ne hname', segments_of_ne hne, hname, split_append, split_append,
      split_of_not_mem hc, split_of_not_mem hi, List.map_append]
    rfl

/-- A valid name of three segments has a parent, since what stands before its last two segments is
not empty. -/
theorem exists_parent?_iff (h : validate name = .ok ()) :
    (∃ p, parent? name = some p) ↔ 3 ≤ segmentCount name := by
  constructor
  · rintro ⟨p, hp⟩
    obtain ⟨hne, collection, id, hsegments⟩ := segments_of_parent? hp
    have hpos := List.length_pos_of_ne_nil hne
    rw [segmentCount, hsegments, List.length_append]
    exact Nat.add_le_add_right hpos 2
  · intro hthree
    obtain ⟨hne, hfull⟩ := validate_iff.1 h
    have hname : name ≠ "" := by
      rintro rfl
      exact hne rfl
    rw [empty_mem_segments hname] at hfull
    rw [segmentCount, segments_of_ne hname, List.length_map] at hthree
    obtain ⟨ps, us, hsplit, hus⟩ : ∃ ps us, split '/' name.toList = ps ++ us ∧ us.length = 2 :=
      ⟨_, _, (List.take_append_drop ((split '/' name.toList).length - 2) _).symm, by
        rw [List.length_drop]; omega⟩
    obtain ⟨c, i, rfl⟩ := List.length_eq_two.1 hus
    have hps : ps ≠ [] := by
      rintro rfl
      rw [hsplit] at hthree
      exact absurd hthree (by simp)
    have hjoin : Text.join '/' ps ≠ [] := by
      refine Text.join_ne_nil hps fun q hq he => hfull ?_
      rw [hsplit]
      exact List.mem_append_left _ (he ▸ hq)
    exact ⟨_, (parent?_of_split hsplit).trans (if_neg hjoin)⟩

/-- A segment has two indices, the number of segments before it and that less the number of all of
them, and no other index has a segment. A valid name has a parent just when it has three segments;
the parent is valid, has all segments but the last two, and makes the name when it is joined with
these. -/
theorem segments_indexed (name : String) :
    (∀ (k : Nat) (hk : k < (segments name).length),
      segment? name k = some (segments name)[k] ∧
      segment? name (k - segmentCount name) = some (segments name)[k]) ∧
    (∀ index : Int, index < -segmentCount name ∨ segmentCount name ≤ index →
      segment? name index = none) ∧
    (validate name = .ok () →
      ((∃ p, parent? name = some p) ↔ 3 ≤ segmentCount name) ∧
      ∀ p, parent? name = some p →
        validate p = .ok () ∧ segments p = (segments name).take (segmentCount name - 2) ∧
        ∃ collection id, segment? name (-2) = some collection ∧ segment? name (-1) = some id ∧
          join [p, collection, id] = name) := by
  refine ⟨fun k hk => ?_, fun index => segment?_eq_none, fun h => ?_⟩
  · rw [segment?_ofNat, segment?_fromEnd hk]
    exact ⟨List.getElem?_eq_getElem hk, List.getElem?_eq_getElem hk⟩
  refine ⟨exists_parent?_iff h, fun p hp => ?_⟩
  obtain ⟨hne, collection, id, hsegments⟩ := segments_of_parent? hp
  have hfull : "" ∉ segments p := fun hmem =>
    (validate_iff.1 h).2 (hsegments ▸ List.mem_append_left _ hmem)
  have hvalid : validate p = .ok () := validate_iff.2 ⟨hne, hfull⟩
  have hcount : segmentCount name - 2 = (segments p).length := by
    rw [segmentCount, hsegments, List.length_append]
    rfl
  have hid : segments name = (segments p ++ [collection]) ++ [id] := by simpa using hsegments
  refine ⟨hvalid, ?_, collection, id, segment?_of_append hsegments rfl,
    segment?_of_append hid rfl, join_parent hvalid h hsegments⟩
  rw [hcount, hsegments, List.take_left]

/-- A name of four segments, its parent, and an index that no name has a segment at. -/
theorem segments_indexed_book :
    let name := "publishers/123/books/les-miserables"
    validate name = .ok () ∧ segment? name 1 = some "123" ∧ segment? name (-3) = some "123" ∧
      segment? name (-9223372036854775808) = none ∧
      ∃ p, parent? name = some p ∧ validate p = .ok () ∧ segments p = ["publishers", "123"] := by
  intro name
  have hname : validate name = .ok () := by decide
  have hsegments : segments name = ["publishers", "123", "books", "les-miserables"] := by decide
  have hcount : segmentCount name = 4 := congrArg List.length hsegments
  obtain ⟨hindex, hnone, hparent⟩ := segments_indexed name
  have hlt : 1 < (segments name).length := by rw [hsegments]; decide
  have hget : (segments name)[1] = "123" := List.getElem_of_eq hsegments hlt
  obtain ⟨hfront, hback⟩ := hindex 1 hlt
  rw [hget] at hfront hback
  rw [hcount] at hback
  obtain ⟨hsome, hparts⟩ := hparent hname
  obtain ⟨p, hp⟩ := hsome.2 (by rw [hcount]; decide)
  obtain ⟨hvalid, htake, -⟩ := hparts p hp
  rw [hcount, hsegments] at htake
  exact ⟨hname, hfront, hback, hnone _ (by rw [hcount]; decide), p, hp, hvalid, htake⟩

end ListQuery.ResourceName
