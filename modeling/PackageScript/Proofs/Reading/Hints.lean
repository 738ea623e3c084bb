import PackageScript.Proofs.Text.Distance
import PackageScript.Reading.Expect
/-! Which of the known names is suggested for an unknown one. -/
namespace PackageScript

/-- A text has at least as many bytes as characters. -/
theorem Text.length_le_utf8ByteSize (s : String) : s.length ≤ s.utf8ByteSize := by
  rw [← String.ofList_toList (s := s)]
  induction s.toList with
  | nil => exact Nat.le_refl 0
  | cons c cs ih =>
    have hc := c.utf8Size_pos
    rw [String.length_ofList] at ih ⊢
    rw [String.ofList_cons, String.utf8ByteSize_append, String.utf8ByteSize_singleton,
      List.length_cons]
    omega

namespace Reading
open Text

def hint (what word name : String) : String :=
  "unknown " ++ what ++ " '" ++ word ++ ("' (did you mean '" ++ name ++ "'?)")

def listing (what word : String) (known : List String) : String :=
  "unknown " ++ what ++ " '" ++ word ++ ("' (expected one of: " ++ Text.joinWith ", " known ++ ")")

/-- A known name with its distance from a word, such that those before it are farther away and none
of those after it is nearer. -/
structure Nearest (word : String) (known : List String) (name : String) (distance : Nat) : Prop where
  fewest : IsLeast {n | Edits n word.toList name.toList} distance
  first : ∃ before after, known = before ++ name :: after ∧
    (∀ other ∈ before, ∀ n, Edits n word.toList other.toList → distance < n) ∧
    ∀ other ∈ after, ∀ n, Edits n word.toList other.toList → distance ≤ n

section FirstNearest

private def FirstLeast (candidates : List (String × Nat)) (best : String × Nat) : Prop :=
  ∃ before after, candidates = before ++ best :: after ∧
    (∀ c ∈ before, best.2 < c.2) ∧ ∀ c ∈ best :: after, best.2 ≤ c.2

variable {candidates rest : List (String × Nat)} {best c : String × Nat}

private theorem FirstLeast.le (h : FirstLeast candidates best) :
    ∀ c ∈ candidates, best.2 ≤ c.2 := by
  obtain ⟨before, after, rfl, hbefore, hafter⟩ := h
  intro c hc
  exact (List.mem_append.mp hc).elim (fun hc => (hbefore c hc).le) (hafter c)

private theorem firstLeast_cons :
    FirstLeast (c :: rest) best ↔
      best = c ∧ (∀ d ∈ rest, c.2 ≤ d.2) ∨ best.2 < c.2 ∧ FirstLeast rest best := by
  constructor
  · rintro ⟨before, after, heq, hbefore, hafter⟩
    cases before with
    | nil =>
      cases heq
      exact Or.inl ⟨rfl, (List.forall_mem_cons.mp hafter).2⟩
    | cons first before =>
      cases heq
      obtain ⟨hfirst, hbefore⟩ := List.forall_mem_cons.mp hbefore
      exact Or.inr ⟨hfirst, before, after, rfl, hbefore, hafter⟩
  · rintro (⟨rfl, hrest⟩ | ⟨hfirst, before, after, rfl, hbefore, hafter⟩)
    · exact ⟨[], rest, rfl, by simp, List.forall_mem_cons.mpr ⟨le_rfl, hrest⟩⟩
    · exact ⟨c :: before, after, rfl, List.forall_mem_cons.mpr ⟨hfirst, hbefore⟩, hafter⟩

private theorem firstNearest_eq_none (h : firstNearest candidates = none) : candidates = [] := by
  cases candidates with
  | nil => rfl
  | cons c rest =>
    rw [firstNearest] at h
    split at h
    · split at h <;> cases h
    · cases h

private theorem firstNearest_eq_some_iff :
    firstNearest candidates = some best ↔ FirstLeast candidates best := by
  induction candidates generalizing best with
  | nil => simp [firstNearest, FirstLeast]
  | cons c rest ih =>
    rw [firstNearest, firstLeast_cons, ← ih]
    cases hrest : firstNearest rest with
    | none => simp [firstNearest_eq_none hrest, eq_comm]
    | some other =>
      have hother := (ih.mp hrest).le
      by_cases hcloser : other.2 < c.2
      · have hc : ¬ ∀ d ∈ rest, c.2 ≤ d.2 := by
          intro hc
          obtain ⟨before, after, rfl, -⟩ := ih.mp hrest
          have hle := hc other (by simp)
          omega
        simp only [if_pos hcloser, hc, and_false, false_or, Option.some.injEq]
        exact ⟨fun heq => ⟨heq ▸ hcloser, heq⟩, fun h => h.2⟩
      · have hc : ∀ d ∈ rest, c.2 ≤ d.2 := fun d hd => (not_lt.mp hcloser).trans (hother d hd)
        simp only [if_neg hcloser, Option.some.injEq]
        refine ⟨fun heq => Or.inl ⟨heq.symm, hc⟩, ?_⟩
        rintro (⟨rfl, -⟩ | ⟨hlt, rfl⟩)
        · rfl
        · exact absurd hlt hcloser

private theorem firstNearest_filter (limit : Nat) (candidates : List (String × Nat)) :
    firstNearest (candidates.filter (·.2 ≤ limit)) =
      (firstNearest candidates).filter (·.2 ≤ limit) := by
  induction candidates with
  | nil => rfl
  | cons c rest ih =>
    rw [List.filter_cons]
    by_cases hc : c.2 ≤ limit
    · rw [if_pos (by simpa using hc), firstNearest, firstNearest, ih]
      cases firstNearest rest with
      | none => simp [Option.filter, hc]
      | some other =>
        by_cases hother : other.2 ≤ limit
        · by_cases hcloser : other.2 < c.2 <;> simp [Option.filter, hother, hcloser, hc]
        · -- What is too far away is no nearer than this candidate, so leaving it out changes nothing.
          have hfarther : ¬ other.2 < c.2 := by omega
          simp [Option.filter, hother, hfarther, hc]
    · rw [if_neg (by simpa using hc), ih, firstNearest]
      cases firstNearest rest with
      | none => simp [Option.filter, hc]
      | some other =>
        by_cases hcloser : other.2 < c.2
        · simp [hcloser]
        · have hother : ¬ other.2 ≤ limit := by omega
          simp [Option.filter, hother, hcloser, hc]

end FirstNearest

section Nearest

variable {word name : String} {known : List String} {distance : Nat}

private def measured (word name : String) : String × Nat :=
  (name, editDistance word.toList name.toList)

private theorem nearest_iff : Nearest word known name distance ↔
    FirstLeast (known.map (measured word)) (name, distance) := by
  constructor
  · rintro ⟨hfewest, before, after, rfl, hbefore, hafter⟩
    obtain rfl := hfewest.unique (isLeast_editDistance _ _)
    refine ⟨before.map (measured word), after.map (measured word), List.map_append, ?_, ?_⟩
    · exact List.forall_mem_map.mpr fun other hother => le_editDistance_iff.mpr (hbefore other hother)
    · refine List.forall_mem_cons.mpr ⟨le_rfl, List.forall_mem_map.mpr fun other hother => ?_⟩
      exact le_editDistance_iff.mpr (hafter other hother)
  · rintro ⟨before, after, heq, hbefore, hafter⟩
    obtain ⟨front, back, rfl, rfl, hback⟩ := List.map_eq_append_iff.mp heq
    obtain ⟨other, back, rfl, hother, rfl⟩ := List.map_eq_cons_iff.mp hback
    cases hother
    rw [List.forall_mem_map] at hbefore
    rw [List.forall_mem_cons, List.forall_mem_map] at hafter
    exact ⟨isLeast_editDistance _ _, front, back, rfl,
      fun other hother => le_editDistance_iff.mp (hbefore other hother),
      fun other hother => le_editDistance_iff.mp (hafter.2 other hother)⟩

/-- A name is suggested if it is the nearest one and not too far away. -/
theorem nearestName?_eq_some_iff : nearestName? word known = some name ↔
    ∃ distance ≤ word.utf8ByteSize / 2, Nearest word known name distance := by
  show (firstNearest ((known.map (measured word)).filter (·.2 ≤ word.utf8ByteSize / 2))).map
    Prod.fst = some name ↔ _
  rw [firstNearest_filter, Option.map_eq_some_iff]
  simp only [Option.filter_eq_some_iff, firstNearest_eq_some_iff, nearest_iff, decide_eq_true_eq]
  constructor
  · rintro ⟨⟨name, distance⟩, ⟨hfirst, hlimit⟩, rfl⟩
    exact ⟨distance, hlimit, hfirst⟩
  · rintro ⟨distance, hlimit, hfirst⟩
    exact ⟨(name, distance), ⟨hfirst, hlimit⟩, rfl⟩

theorem Nearest.mem (h : Nearest word known name distance) : name ∈ known := by
  obtain ⟨before, after, rfl, -⟩ := h.first
  exact List.mem_append_cons_self

end Nearest

section Message

variable (what word : String) (known : List String)

private theorem unknownName_eq_listing (h : nearestName? word known = none) :
    unknownName what word known = listing what word known := by
  rw [unknownName, listing, h]

private theorem listing_ne_hint (name : String) :
    listing what word known ≠ hint what word name := by
  simp [listing, hint, ← String.toList_inj]

/-- The message suggests a name exactly if it is the nearest one and not too far away. -/
theorem unknownName_eq_hint_iff (name : String) :
    unknownName what word known = hint what word name ↔
      ∃ distance ≤ word.utf8ByteSize / 2, Nearest word known name distance := by
  rw [← nearestName?_eq_some_iff]
  cases h : nearestName? word known with
  | none => simp [unknownName_eq_listing what word known h, listing_ne_hint]
  | some other => simp [unknownName, hint, h, String.append_right_inj, String.append_left_inj]

/-- The message lists all names exactly if each one is too far away. -/
theorem unknownName_eq_listing_iff :
    unknownName what word known = listing what word known ↔
      ¬ ∃ name, ∃ distance ≤ word.utf8ByteSize / 2, Nearest word known name distance := by
  simp only [← nearestName?_eq_some_iff]
  cases h : nearestName? word known with
  | none => simp [unknownName_eq_listing what word known h]
  | some name =>
    have hhint : unknownName what word known = hint what word name :=
      (unknownName_eq_hint_iff what word known name).mpr (nearestName?_eq_some_iff.mp h)
    rw [hhint]
    exact iff_of_false (listing_ne_hint what word known name).symm (not_not_intro ⟨name, rfl⟩)

/-- A known name is suggested exactly if it is the first of the nearest ones and its distance, in
characters, is at most half the number of bytes of the word. Otherwise all known names are listed.
The distance is compared with half the number of characters instead exactly if it is not between
the two. -/
theorem suggested_iff :
    (∀ name, unknownName what word known = hint what word name ↔
      ∃ distance ≤ word.utf8ByteSize / 2, Nearest word known name distance) ∧
    (unknownName what word known = listing what word known ↔
      ¬ ∃ name, ∃ distance ≤ word.utf8ByteSize / 2, Nearest word known name distance) ∧
    ((∀ name, unknownName what word known = hint what word name ↔
        ∃ distance ≤ word.length / 2, Nearest word known name distance) ↔
      ¬ ∃ name distance, Nearest word known name distance ∧ word.length / 2 < distance ∧
        distance ≤ word.utf8ByteSize / 2) := by
  refine ⟨unknownName_eq_hint_iff what word known, unknownName_eq_listing_iff what word known, ?_⟩
  simp only [unknownName_eq_hint_iff]
  have hbytes := Text.length_le_utf8ByteSize word
  constructor
  · rintro h ⟨name, distance, hnearest, hfar, hnear⟩
    obtain ⟨other, hother, hnearest'⟩ := (h name).mp ⟨distance, hnear, hnearest⟩
    have hsame := hnearest.fewest.unique hnearest'.fewest
    omega
  · intro h name
    refine ⟨?_, fun ⟨distance, hle, hnearest⟩ => ⟨distance, by omega, hnearest⟩⟩
    rintro ⟨distance, hle, hnearest⟩
    by_contra hnone
    refine h ⟨name, distance, hnearest, ?_, hle⟩
    by_contra hnear
    exact hnone ⟨distance, not_lt.mp hnear, hnearest⟩

/-- A section is suggested for a word of five characters and eight bytes, three of which have to be
replaced. -/
theorem suggested_too_far :
    ¬ ∀ what word known name, unknownName what word known = hint what word name ↔
      ∃ distance ≤ word.length / 2, Nearest word known name distance := by
  intro h
  have hhint : unknownName "top-level section" "büïłd" ["package", "options", "configure", "build"] =
      hint "top-level section" "büïłd" "build" := by decide
  obtain ⟨distance, hle, hnearest⟩ := (h _ _ _ _).mp hhint
  have hfewest : 3 ≤ distance := hnearest.fewest.1.editDistance_le
  have hlength : "büïłd".length = 5 := by decide
  omega

end Message

end Reading
end PackageScript
