import Mathlib.Data.List.DropRight
import PackageScript.Text.Blank
/-! Edges and pieces of texts: what trimming leaves alone, and pieces that are put together again. -/
namespace PackageScript.Text

variable {α : Type}

theorem dropEndWhile_eq_rdropWhile (p : α → Bool) (l : List α) :
    dropEndWhile p l = l.rdropWhile p := by
  induction l with
  | nil => simp [dropEndWhile]
  | cons a rest ih =>
    rw [dropEndWhile, ih, List.rdropWhile, List.rdropWhile, List.reverse_cons,
      List.dropWhile_append]
    cases h : rest.reverse.dropWhile p with
    | nil => cases hp : p a <;> simp [hp]
    | cons b kept =>
      have hne : (b :: kept).reverse ≠ [] := by simp
      obtain ⟨c, more, hc⟩ := List.exists_cons_of_ne_nil hne
      rw [List.isEmpty_cons, if_neg Bool.false_ne_true, List.reverse_append, hc]
      rfl

/-- What is dropped at the end satisfies `p`. -/
theorem exists_dropEndWhile_append (p : α → Bool) (l : List α) :
    ∃ rest, l = dropEndWhile p l ++ rest ∧ ∀ a ∈ rest, p a = true := by
  refine ⟨l.rtakeWhile p, ?_, fun a ha => List.mem_rtakeWhile_imp ha⟩
  rw [dropEndWhile_eq_rdropWhile]
  exact (List.rdropWhile_append_rtakeWhile).symm

/-- What is dropped from the end stops at the last element to be kept. -/
theorem dropEndWhile_append_cons {p : α → Bool} (l : List α) {a : α} {rest : List α}
    (ha : p a = false) (hrest : ∀ b ∈ rest, p b = true) :
    dropEndWhile p (l ++ a :: rest) = l ++ [a] := by
  have hreverse : (l ++ a :: rest).reverse = rest.reverse ++ (l ++ [a]).reverse := by simp
  rw [dropEndWhile_eq_rdropWhile, List.rdropWhile, hreverse,
    List.dropWhile_append_of_pos (by simpa using hrest), List.reverse_append, List.reverse_singleton,
    List.singleton_append, List.dropWhile_cons_of_neg (by simp [ha])]
  simp

/-- Whether a list starts and ends without a blank character. -/
def Trimmed (cs : List Char) : Prop :=
  (∀ c ∈ cs.head?, isBlank c = false) ∧ ∀ c ∈ cs.getLast?, isBlank c = false

private theorem dropWhile_eq_self (p : α → Bool) {l : List α} (h : ∀ a ∈ l.head?, p a = false) :
    l.dropWhile p = l := by
  cases l with
  | nil => rfl
  | cons a rest => simp [h a rfl]

private theorem rdropWhile_eq_self (p : α → Bool) {l : List α}
    (h : ∀ a ∈ l.getLast?, p a = false) : l.rdropWhile p = l := by
  rw [List.rdropWhile_eq_self_iff]
  intro hne
  simp [h _ (List.getLast?_eq_some_getLast hne)]

theorem strip_of_trimmed {cs : List Char} (h : Trimmed cs) : strip cs = cs := by
  rw [strip, dropWhile_eq_self isBlank h.1, dropEndWhile_eq_rdropWhile, rdropWhile_eq_self _ h.2]

/-- What is stripped has no blank edges. -/
theorem trimmed_strip (cs : List Char) : Trimmed (strip cs) := by
  rw [strip, dropEndWhile_eq_rdropWhile]
  set inner := cs.dropWhile isBlank with hinner
  have hlead : ∀ c ∈ inner.head?, isBlank c = false := by
    intro c hc
    have := List.head?_dropWhile_not isBlank cs
    rw [← hinner, hc] at this
    simpa using this
  constructor
  · intro c hc
    obtain ⟨tail, htail⟩ := List.rdropWhile_prefix isBlank (l := inner)
    apply hlead c
    rw [← htail, List.head?_append, hc]
    rfl
  · intro c hc
    have hne : inner.rdropWhile isBlank ≠ [] := by
      intro h
      simp [h] at hc
    have hlast := List.rdropWhile_last_not isBlank inner hne
    rw [List.getLast?_eq_some_getLast hne] at hc
    cases hc
    simpa using hlast

/-- Stripping leaves alone what has no blank edges. -/
theorem strip_eq_self_iff {cs : List Char} : strip cs = cs ↔ Trimmed cs :=
  ⟨fun h => h ▸ trimmed_strip cs, strip_of_trimmed⟩

theorem strip_strip (cs : List Char) : strip (strip cs) = strip cs :=
  strip_of_trimmed (trimmed_strip cs)

theorem strip_eq_nil_iff {cs : List Char} : strip cs = [] ↔ ∀ c ∈ cs, isBlank c = true := by
  rw [strip, dropEndWhile_eq_rdropWhile, List.rdropWhile_eq_nil_iff]
  refine ⟨fun h => List.dropWhile_eq_nil_iff.mp ?_, fun h c hc =>
    h c (List.dropWhile_sublist _ |>.mem hc)⟩
  by_contra hne
  have hfirst := List.head_dropWhile_not isBlank hne
  rw [h _ (List.head_mem hne)] at hfirst
  cases hfirst

theorem isEmpty_trim_iff {s : String} :
    (trim s).isEmpty = true ↔ ∀ c ∈ s.toList, isBlank c = true := by
  rw [← strip_eq_nil_iff, trim, String.isEmpty_iff, ← String.toList_eq_nil_iff,
    String.toList_ofList]

theorem trim_trim (s : String) : trim (trim s) = trim s := by
  simp [trim, strip_strip]

theorem trimmed_of_no_blank {cs : List Char} (h : ∀ c ∈ cs, isBlank c = false) : Trimmed cs :=
  ⟨fun c hc => h c (List.mem_of_mem_head? hc), fun c hc => h c (List.mem_of_mem_getLast? hc)⟩

/-- Blank characters around a text with clean edges do not survive trimming. -/
theorem strip_padded {before cs after : List Char} (hb : ∀ c ∈ before, isBlank c = true)
    (ha : ∀ c ∈ after, isBlank c = true) (hne : cs ≠ []) (h : Trimmed cs) :
    strip (before ++ cs ++ after) = cs := by
  obtain ⟨first, rest, rfl⟩ := List.exists_cons_of_ne_nil hne
  have hlead : isBlank first = false := h.1 first rfl
  rw [strip, List.append_assoc, List.dropWhile_append_of_pos hb, dropEndWhile_eq_rdropWhile]
  rw [List.cons_append, List.dropWhile_cons_of_neg (by simp [hlead]), ← List.cons_append]
  rw [List.rdropWhile, List.reverse_append,
    List.dropWhile_append_of_pos (by simpa using ha), ← List.rdropWhile]
  exact rdropWhile_eq_self _ h.2

private theorem strip_cons_of_blank {c : Char} (h : isBlank c = true) (cs : List Char) :
    strip (c :: cs) = strip cs := by
  rw [strip, List.dropWhile_cons_of_pos h, ← strip]

private theorem strip_concat_of_blank {c : Char} (h : isBlank c = true) (cs : List Char) :
    strip (cs ++ [c]) = strip cs := by
  rw [strip, strip, List.dropWhile_append]
  split
  · rename_i hempty
    rw [List.isEmpty_iff.mp hempty, List.dropWhile_cons_of_pos h]
    rfl
  · rw [dropEndWhile_eq_rdropWhile, dropEndWhile_eq_rdropWhile,
      List.rdropWhile_concat_pos _ _ _ h]

theorem pieces_ne_nil (p : Char → Bool) (cs : List Char) : pieces p cs ≠ [] := by
  cases cs with
  | nil => simp [pieces]
  | cons c rest =>
    rw [pieces]
    split
    · simp
    · split <;> simp

/-- Without a separator there is one piece. -/
theorem pieces_of_none {p : Char → Bool} {cs : List Char} (h : ∀ c ∈ cs, p c = false) :
    pieces p cs = [cs] := by
  induction cs with
  | nil => rfl
  | cons c rest ih =>
    rw [pieces, h c List.mem_cons_self, ih fun x hx => h x (List.mem_cons_of_mem _ hx)]
    rfl

/-- Pieces are cut at each separator on its own. -/
theorem pieces_separator {p : Char → Bool} {cs rest : List Char} {c : Char} (hc : p c = true) :
    pieces p (cs ++ c :: rest) = pieces p cs ++ pieces p rest := by
  induction cs with
  | nil => simp [pieces, hc]
  | cons a more ih =>
    obtain ⟨first, others, hmore⟩ := List.exists_cons_of_ne_nil (pieces_ne_nil p more)
    rw [List.cons_append, pieces, pieces, ih, hmore]
    split <;> rfl

/-- A piece ends at the first separator. -/
theorem pieces_append {p : Char → Bool} {cs rest : List Char} {c : Char}
    (h : ∀ x ∈ cs, p x = false) (hc : p c = true) :
    pieces p (cs ++ c :: rest) = cs :: pieces p rest := by
  rw [pieces_separator hc, pieces_of_none h, List.singleton_append]

/-- A last character that is no separator goes to the last piece. -/
theorem exists_pieces_concat {p : Char → Bool} {c : Char} (hc : p c = false) (cs : List Char) :
    ∃ front last, pieces p cs = front ++ [last] ∧
      pieces p (cs ++ [c]) = front ++ [last ++ [c]] := by
  induction cs with
  | nil => exact ⟨[], [], rfl, by simp [pieces, hc]⟩
  | cons a rest ih =>
    obtain ⟨front, last, hrest, hconcat⟩ := ih
    rw [List.cons_append, pieces, pieces, hrest, hconcat]
    split
    · exact ⟨[] :: front, last, rfl, rfl⟩
    · cases front with
      | nil => exact ⟨[], a :: last, rfl, rfl⟩
      | cons piece more => exact ⟨(a :: piece) :: more, last, rfl, rfl⟩

section Stripped

variable {p : Char → Bool} (hp : ∀ c, isBlank c = true → p c = false)
include hp

private theorem map_strip_pieces_cons {c : Char} (hc : isBlank c = true) (cs : List Char) :
    (pieces p (c :: cs)).map strip = (pieces p cs).map strip := by
  obtain ⟨first, more, hcs⟩ := List.exists_cons_of_ne_nil (pieces_ne_nil p cs)
  rw [pieces, hp c hc, hcs]
  simp [strip_cons_of_blank hc]

private theorem map_strip_pieces_concat {c : Char} (hc : isBlank c = true) (cs : List Char) :
    (pieces p (cs ++ [c])).map strip = (pieces p cs).map strip := by
  obtain ⟨front, last, hcs, hconcat⟩ := exists_pieces_concat (hp c hc) cs
  rw [hcs, hconcat, List.map_append, List.map_append]
  simp [strip_concat_of_blank hc]

/-- Blank characters around a text do not show in its trimmed pieces. -/
theorem map_strip_pieces_strip (cs : List Char) :
    (pieces p (strip cs)).map strip = (pieces p cs).map strip := by
  have hlead : ∀ cs, (pieces p (cs.dropWhile isBlank)).map strip = (pieces p cs).map strip := by
    intro cs
    induction cs with
    | nil => rfl
    | cons c rest ih =>
      cases hc : isBlank c with
      | true => rw [List.dropWhile_cons_of_pos hc, ih, map_strip_pieces_cons hp hc]
      | false => rw [List.dropWhile_cons_of_neg (by simp [hc])]
  have htail : ∀ rest : List Char, (∀ c ∈ rest, isBlank c = true) → ∀ cs,
      (pieces p (cs ++ rest)).map strip = (pieces p cs).map strip := by
    intro rest
    induction rest with
    | nil => simp
    | cons c rest ih =>
      intro h cs
      obtain ⟨hc, hrest⟩ := List.forall_mem_cons.mp h
      rw [← List.singleton_append, ← List.append_assoc, ih hrest, map_strip_pieces_concat hp hc]
  obtain ⟨rest, hrest, hblank⟩ := exists_dropEndWhile_append isBlank (cs.dropWhile isBlank)
  have hkept := htail rest hblank (strip cs)
  rw [strip, ← hrest, hlead] at hkept
  exact hkept.symm

end Stripped

/-- Where there are two pieces, a separator stands between the first one and the others. -/
theorem exists_of_pieces_cons {p : Char → Bool} {cs first second : List Char}
    {rest : List (List Char)} (h : pieces p cs = first :: second :: rest) :
    ∃ c more, p c = true ∧ cs = first ++ c :: more ∧ pieces p more = second :: rest := by
  induction cs generalizing first with
  | nil => simp [pieces] at h
  | cons a tail ih =>
    obtain ⟨piece, others, htail⟩ := List.exists_cons_of_ne_nil (pieces_ne_nil p tail)
    by_cases ha : p a = true
    · rw [pieces, if_pos ha, List.cons.injEq] at h
      exact ⟨a, tail, ha, by rw [← h.1]; rfl, h.2⟩
    · rw [pieces, if_neg ha, htail] at h
      simp only [List.cons.injEq] at h
      obtain ⟨rfl, rfl⟩ := h
      obtain ⟨c, more, hc, rfl, hmore⟩ := ih htail
      exact ⟨c, more, hc, rfl, hmore⟩

/-- Where there is one piece, it is everything. -/
theorem eq_of_pieces_singleton {p : Char → Bool} {cs first : List Char}
    (h : pieces p cs = [first]) : cs = first := by
  induction cs generalizing first with
  | nil => simpa [pieces] using h
  | cons a tail ih =>
    obtain ⟨piece, others, htail⟩ := List.exists_cons_of_ne_nil (pieces_ne_nil p tail)
    by_cases ha : p a = true
    · rw [pieces, if_pos ha, htail] at h
      cases h
    · rw [pieces, if_neg ha, htail] at h
      simp only [List.cons.injEq] at h
      obtain ⟨rfl, rfl⟩ := h
      rw [ih htail]

/-- The last piece goes up to the end. -/
theorem getLast?_pieces {p : Char → Bool} {cs : List Char} {c : Char} (hc : p c = false) :
    ∀ piece ∈ (pieces p (cs ++ [c])).getLast?, piece ≠ [] := by
  induction cs with
  | nil => simp [pieces, hc]
  | cons a rest ih =>
    obtain ⟨first, others, hrest⟩ := List.exists_cons_of_ne_nil (pieces_ne_nil p (rest ++ [c]))
    rw [hrest] at ih
    rw [List.cons_append, pieces, hrest]
    split
    · exact ih
    · cases others with
      | nil => simp
      | cons => simpa using ih

theorem not_of_mem_pieces {p : Char → Bool} {cs piece : List Char} (h : piece ∈ pieces p cs) :
    ∀ c ∈ piece, p c = false := by
  induction cs generalizing piece with
  | nil =>
    simp only [pieces, List.mem_singleton] at h
    simp [h]
  | cons a rest ih =>
    obtain ⟨first, more, hpieces⟩ := List.exists_cons_of_ne_nil (pieces_ne_nil p rest)
    rw [pieces, hpieces] at h
    rw [hpieces] at ih
    by_cases ha : p a = true
    · rw [if_pos ha] at h
      rcases List.mem_cons.mp h with rfl | h
      · simp
      · exact ih h
    · rw [if_neg ha] at h
      rcases List.mem_cons.mp h with rfl | h
      · intro c hc
        rcases List.mem_cons.mp hc with rfl | hc
        · simpa using ha
        · exact ih List.mem_cons_self c hc
      · exact ih (List.mem_cons_of_mem _ h)

/-- Joining texts puts the separator between any two of them. -/
theorem joinWith_eq_intercalate (separator : String) (texts : List String) :
    joinWith separator texts = separator.intercalate texts := by
  induction texts with
  | nil => simp [joinWith]
  | cons s rest ih => cases rest <;> simp_all [joinWith]

theorem toList_joinWith_cons (separator s t : String) (rest : List String) :
    (joinWith separator (s :: t :: rest)).toList =
      s.toList ++ (separator.toList ++ (joinWith separator (t :: rest)).toList) := by
  simp [joinWith]

/-- A word: it has characters, and none of them is blank. -/
def IsWord (s : String) : Prop :=
  s.toList ≠ [] ∧ ∀ c ∈ s.toList, isBlank c = false

/-- The words of a text are words. -/
theorem isWord_of_mem_words {s w : String} (h : w ∈ words s) : IsWord w := by
  obtain ⟨piece, hpiece, rfl⟩ := List.mem_map.mp h
  rw [List.mem_filter] at hpiece
  constructor
  · simpa using hpiece.2
  · simpa using not_of_mem_pieces hpiece.1

/-- A word is its own only word. -/
theorem words_of_isWord {w : String} (h : IsWord w) : words w = [w] := by
  simp [words, pieces_of_none h.2, h.1]

theorem dropLead?_eq_some {lead s rest : String} :
    dropLead? lead s = some rest ↔ s = lead ++ rest := by
  rw [dropLead?, ← String.toList_inj, String.toList_append]
  split
  · rename_i hlead
    obtain ⟨after, hs⟩ := List.isPrefixOf_iff_prefix.mp hlead
    rw [← hs, List.drop_left, Option.some.injEq, List.append_cancel_left_eq, ← String.toList_inj,
      String.toList_ofList]
  · rename_i hlead
    refine iff_of_false (by simp) fun hs => hlead ?_
    rw [hs]
    exact List.isPrefixOf_iff_prefix.mpr (List.prefix_append _ _)

theorem dropTail?_eq_some {tail s front : String} :
    dropTail? tail s = some front ↔ s = front ++ tail := by
  rw [dropTail?, ← String.toList_inj, String.toList_append]
  split
  · rename_i htail
    obtain ⟨before, hs⟩ := List.isSuffixOf_iff_suffix.mp htail
    rw [← hs, List.length_append, Nat.add_sub_cancel, List.take_left, Option.some.injEq,
      List.append_cancel_right_eq, ← String.toList_inj, String.toList_ofList]
  · rename_i htail
    refine iff_of_false (by simp) fun hs => htail ?_
    rw [hs]
    exact List.isSuffixOf_iff_suffix.mpr (List.suffix_append _ _)

end PackageScript.Text
