import PackageScript.Proofs.Text.Edges
import PackageScript.Selector
/-! Selectors and their spellings: each selector that a document can spell is read back from its
source, apart from the conjunction of the one tag that is called like the fallback. -/
namespace PackageScript.Selector
open Text

/-- A text that can stand between ampersands: not empty, without blank edges or an ampersand. -/
def IsTag (t : String) : Prop :=
  t.toList ≠ [] ∧ Trimmed t.toList ∧ ∀ c ∈ t.toList, (c == '&') = false

/-- A selector that a document can spell: the fallback, or some tags in ascending order,
each once. -/
def Canonical : Selector → Prop
  | .fallback => True
  | .all tags => tags ≠ [] ∧ tags.Pairwise (· < ·) ∧ ∀ t ∈ tags, IsTag t

/-- The conjunction of the one tag that is called like the fallback. -/
def loneDefault : Selector := .all [fallbackName]

private theorem mem_insertTag {tag t : String} {tags : List String} :
    t ∈ insertTag tag tags ↔ t = tag ∨ t ∈ tags := by
  induction tags with
  | nil => simp [insertTag]
  | cons u rest ih =>
    rw [insertTag]
    split
    · simp
    · split
      · rename_i h
        simp [h]
      · simp [ih, or_left_comm]

/-- Sorting keeps the tags. -/
theorem mem_ascending {t : String} {tags : List String} : t ∈ ascending tags ↔ t ∈ tags := by
  induction tags with
  | nil => simp [ascending]
  | cons u rest ih =>
    rw [ascending, List.foldr_cons, mem_insertTag, List.mem_cons]
    exact or_congr_right ih

private theorem insertTag_sorted (tag : String) {tags : List String}
    (h : tags.Pairwise (· < ·)) : (insertTag tag tags).Pairwise (· < ·) := by
  induction tags with
  | nil => simp [insertTag]
  | cons u rest ih =>
    obtain ⟨hu, hrest⟩ := List.pairwise_cons.mp h
    rw [insertTag]
    split
    · rename_i hlt
      refine List.pairwise_cons.mpr ⟨fun t ht => ?_, h⟩
      rcases List.mem_cons.mp ht with rfl | ht
      · exact hlt
      · exact String.lt_trans hlt (hu t ht)
    · split
      · exact h
      · rename_i hlt hne
        have hut : u < tag := Std.lt_of_le_of_ne (Std.not_lt.mp hlt) (Ne.symm hne)
        refine List.pairwise_cons.mpr ⟨fun t ht => ?_, ih hrest⟩
        rcases mem_insertTag.mp ht with rfl | ht
        · exact hut
        · exact hu t ht

/-- Sorted tags ascend strictly. -/
theorem ascending_sorted (tags : List String) : (ascending tags).Pairwise (· < ·) := by
  induction tags with
  | nil => exact List.Pairwise.nil
  | cons t rest ih => exact insertTag_sorted t ih

private theorem ascending_of_sorted {tags : List String} (h : tags.Pairwise (· < ·)) :
    ascending tags = tags := by
  induction tags with
  | nil => rfl
  | cons t rest ih =>
    obtain ⟨ht, hrest⟩ := List.pairwise_cons.mp h
    rw [ascending, List.foldr_cons, ← ascending, ih hrest]
    cases rest with
    | nil => rfl
    | cons u more => rw [insertTag, if_pos (ht u List.mem_cons_self)]

private theorem ofTags_of_sorted {tags : List String} (hne : tags ≠ [])
    (h : tags.Pairwise (· < ·)) :
    ofTags tags = .all tags := by
  obtain ⟨t, rest, rfl⟩ := List.exists_cons_of_ne_nil hne
  rw [ofTags, ascending_of_sorted h]

private theorem isTag_of_mem_tagsOf {t source : String} (h : t ∈ tagsOf source) : IsTag t := by
  obtain ⟨cs, hcs, rfl⟩ := List.mem_map.mp h
  obtain ⟨hmem, hne⟩ := List.mem_filter.mp hcs
  obtain ⟨piece, hpiece, rfl⟩ := List.mem_map.mp hmem
  refine ⟨by simpa using hne, by simpa using trimmed_strip piece, ?_⟩
  intro c hc
  rw [String.toList_ofList, strip, dropEndWhile_eq_rdropWhile] at hc
  exact not_of_mem_pieces hpiece c
    ((List.dropWhile_sublist _).mem ((List.rdropWhile_prefix _ _).mem hc))

/-- Only selectors of the normal kind can be spelled. -/
theorem canonical_parse (source : String) : (parse source).Canonical := by
  rw [parse]
  split
  · trivial
  · rw [ofTags]
    split
    · trivial
    · rename_i tags _ htags
      refine ⟨fun h => htags h, ?_, fun t ht => ?_⟩
      · exact ascending_sorted _
      · exact isTag_of_mem_tagsOf (mem_ascending.mp ht)

theorem isBlank_ne_ampersand {c : Char} (h : isBlank c = true) : (c == '&') = false := by
  by_contra hc
  rw [Bool.not_eq_false, beq_iff_eq] at hc
  subst hc
  exact absurd h (by decide)

private theorem trimmed_around {first last : List Char} (middle : List Char) (hf : first ≠ [])
    (hl : last ≠ []) (h : Trimmed first) (h' : Trimmed last) :
    Trimmed (first ++ (middle ++ last)) := by
  constructor
  · rw [List.head?_append_of_ne_nil _ hf]
    exact h.1
  · rw [← List.append_assoc, List.getLast?_append_of_ne_nil _ hl]
    exact h'.2

private theorem join_ne_nil {separator t : String} {rest : List String} (h : t.toList ≠ []) :
    (joinWith separator (t :: rest)).toList ≠ [] := by
  cases rest with
  | nil => exact h
  | cons u more =>
    rw [toList_joinWith_cons]
    exact List.append_ne_nil_of_left_ne_nil h _

private theorem trimmed_join (separator t : String) (rest : List String)
    (h : ∀ s ∈ t :: rest, IsTag s) : Trimmed (joinWith separator (t :: rest)).toList := by
  induction rest generalizing t with
  | nil => exact (h t List.mem_cons_self).2.1
  | cons u more ih =>
    have ht := h t List.mem_cons_self
    have hrest : ∀ s ∈ u :: more, IsTag s := fun s hs => h s (List.mem_cons_of_mem _ hs)
    rw [toList_joinWith_cons]
    exact trimmed_around _ ht.1 (join_ne_nil (hrest u List.mem_cons_self).1) ht.2.1 (ih u hrest)

section Joined

variable {separator : String} {before after : List Char}
  (hsep : separator.toList = before ++ '&' :: after)
  (hb : ∀ c ∈ before, isBlank c = true) (ha : ∀ c ∈ after, isBlank c = true)
include hsep hb ha

private theorem strip_pieces_join (t : String) (rest : List String)
    (h : ∀ s ∈ t :: rest, IsTag s) (lead : List Char) (hl : ∀ c ∈ lead, isBlank c = true) :
    (pieces (· == '&') (lead ++ (joinWith separator (t :: rest)).toList)).map strip =
      (t :: rest).map String.toList := by
  induction rest generalizing t lead with
  | nil =>
    have ht := h t List.mem_cons_self
    have hnone : ∀ c ∈ lead ++ t.toList, (c == '&') = false := by
      intro c hc
      rcases List.mem_append.mp hc with hc | hc
      · exact isBlank_ne_ampersand (hl c hc)
      · exact ht.2.2 c hc
    have hstrip : strip (lead ++ t.toList ++ []) = t.toList :=
      strip_padded hl (by simp) ht.1 ht.2.1
    rw [joinWith, pieces_of_none hnone]
    simpa using hstrip
  | cons u more ih =>
    have ht := h t List.mem_cons_self
    have hnone : ∀ c ∈ lead ++ t.toList ++ before, (c == '&') = false := by
      intro c hc
      rcases List.mem_append.mp hc with hc | hc
      · rcases List.mem_append.mp hc with hc | hc
        · exact isBlank_ne_ampersand (hl c hc)
        · exact ht.2.2 c hc
      · exact isBlank_ne_ampersand (hb c hc)
    have hsplit : lead ++ (joinWith separator (t :: u :: more)).toList =
        (lead ++ t.toList ++ before) ++
          '&' :: (after ++ (joinWith separator (u :: more)).toList) := by
      rw [toList_joinWith_cons, hsep]
      simp
    rw [hsplit, pieces_append hnone (by rfl), List.map_cons, List.map_cons,
      strip_padded hl hb ht.1 ht.2.1,
      ih u (fun s hs => h s (List.mem_cons_of_mem _ hs)) after ha]

private theorem tagsOf_join {tags : List String} (hne : tags ≠ []) (h : ∀ t ∈ tags, IsTag t) :
    tagsOf (joinWith separator tags) = tags := by
  obtain ⟨t, rest, rfl⟩ := List.exists_cons_of_ne_nil hne
  have hpieces := strip_pieces_join hsep hb ha t rest h [] (by simp)
  rw [List.nil_append] at hpieces
  rw [tagsOf, strip_of_trimmed (trimmed_join separator t rest h), hpieces, List.filter_eq_self.mpr]
  · rw [List.map_map]
    simp
  · intro cs hcs
    obtain ⟨s, hs, rfl⟩ := List.mem_map.mp hcs
    simpa using (h s hs).1

private theorem parse_join {tags : List String} (hne : tags ≠ []) (hs : tags.Pairwise (· < ·))
    (h : ∀ t ∈ tags, IsTag t) :
    parse (joinWith separator tags) = if tags = [fallbackName] then .fallback else .all tags := by
  obtain ⟨t, rest, rfl⟩ := List.exists_cons_of_ne_nil hne
  have htrim : trim (joinWith separator (t :: rest)) = joinWith separator (t :: rest) := by
    rw [trim, strip_of_trimmed (trimmed_join separator t rest h), String.ofList_toList]
  rw [parse, htrim, tagsOf_join hsep hb ha hne h, ofTags_of_sorted hne hs]
  congr 1
  cases rest with
  | nil => simp [joinWith]
  | cons u more =>
    -- the ampersand of the separator is in the joined text and not in the fallback's name
    have hamp : '&' ∈ (joinWith separator (t :: u :: more)).toList := by
      rw [toList_joinWith_cons, hsep]
      simp
    have hne' : joinWith separator (t :: u :: more) ≠ fallbackName := by
      intro heq
      rw [heq] at hamp
      exact absurd hamp (by decide)
    simp [hne']

end Joined

/-- A selector is read back from its source, unless its source is the name of the fallback. -/
theorem parse_source {e : Selector} (h : e.Canonical) :
    parse e.source = if e = loneDefault then .fallback else e := by
  cases e with
  | fallback => decide
  | all tags =>
    have hsep : (" & " : String).toList = [' '] ++ '&' :: [' '] := by decide
    have hblank : ∀ c ∈ [' '], isBlank c = true := by
      intro c hc
      rw [List.mem_singleton.mp hc]
      decide
    have hparse := parse_join hsep hblank hblank h.1 h.2.1 h.2.2
    simpa [loneDefault, source] using hparse

/-- The same of its spelling in a script. -/
theorem parse_compact {e : Selector} (h : e.Canonical) :
    parse e.compact = if e = loneDefault then .fallback else e := by
  cases e with
  | fallback => decide
  | all tags =>
    have hsep : ("&" : String).toList = [] ++ '&' :: [] := by decide
    have hparse := parse_join hsep (by simp) (by simp) h.1 h.2.1 h.2.2
    simpa [loneDefault, compact] using hparse

/-- A canonical selector is read back from its spelling, unless it is the conjunction that is
spelled like the fallback. -/
theorem parse_source_of_ne {e : Selector} (h : e.Canonical) (hne : e ≠ loneDefault) :
    parse e.source = e := by
  rw [parse_source h, if_neg hne]

/-- Different selectors have different sources, apart from the fallback and the conjunction of the
one tag that is called like it. -/
theorem source_injective {e f : Selector} (he : e.Canonical) (hf : f.Canonical) (hde : e ≠ loneDefault)
    (hdf : f ≠ loneDefault) (h : e.source = f.source) : e = f := by
  rw [← parse_source_of_ne he hde, ← parse_source_of_ne hf hdf, h]

/-- What a source spells is spelled by its own source in turn. -/
theorem source_parse_source {e : Selector} (h : e.Canonical) : (parse e.source).source = e.source := by
  rw [parse_source h]
  split
  · rename_i heq
    rw [heq]
    rfl
  · rfl

/-- Two canonical selectors are spelled like the fallback: itself, and the conjunction of a tag of
that name. -/
theorem source_eq_fallbackName_iff {e : Selector} (h : e.Canonical) :
    e.source = fallbackName ↔ e = .fallback ∨ e = loneDefault := by
  constructor
  · intro hs
    by_cases hd : e = loneDefault
    · exact Or.inr hd
    · left
      rw [← parse_source_of_ne h hd, hs]
      decide
  · rintro (rfl | rfl) <;> rfl

end PackageScript.Selector
