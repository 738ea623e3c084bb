import PackageScript.Proofs.List.Repetitions
import PackageScript.Setting
/-! What a sequence of bindings adds up to: the strings of each selector together, in the order in
which the selectors are first bound. -/
namespace PackageScript.Setting

/-- Strings for a selector, as they are given to `bind`. -/
abbrev Contribution := Selector × List String

/-- All strings for a selector, in order. -/
def gathered (contributions : List Contribution) (selector : Selector) : List String :=
  (contributions.filter (·.1 = selector)).flatMap (·.2)

def grouped (contributions : List Contribution) : List Binding :=
  (contributions.map (·.1)).eraseDups.map fun e => ⟨e, gathered contributions e⟩

private theorem gathered_concat (contributions : List Contribution) (c : Contribution)
    (selector : Selector) : gathered (contributions ++ [c]) selector =
      gathered contributions selector ++ if c.1 = selector then c.2 else [] := by
  rw [gathered, List.filter_append, List.flatMap_append, ← gathered]
  split
  · rename_i h
    simp [h]
  · rename_i h
    simp [h]

private theorem gathered_eq_nil {contributions : List Contribution} {selector : Selector}
    (h : selector ∉ contributions.map (·.1)) : gathered contributions selector = [] := by
  have hnone : contributions.filter (·.1 = selector) = [] :=
    List.filter_eq_nil_iff.mpr fun c hc => by
      simpa using fun hsame => h (List.mem_map.mpr ⟨c, hc, hsame⟩)
  rw [gathered, hnone]
  rfl

private theorem bindIn_map_of_mem {e : Selector} (strings : List String)
    {bound more : Selector → List String} (hown : more e = bound e ++ strings)
    (hother : ∀ s, s ≠ e → more s = bound s) {selectors : List Selector} (hd : selectors.Nodup)
    (he : e ∈ selectors) :
    bindIn e strings (selectors.map fun s => ⟨s, bound s⟩) = selectors.map fun s => ⟨s, more s⟩ := by
  induction selectors with
  | nil => cases he
  | cons s rest ih =>
    obtain ⟨hs, hrest⟩ := List.nodup_cons.mp hd
    rw [List.map_cons, List.map_cons, bindIn]
    split
    · rename_i hse
      obtain rfl : s = e := hse
      have hsame : ∀ t ∈ rest, (⟨t, bound t⟩ : Binding) = ⟨t, more t⟩ := fun t ht => by
        rw [hother t fun hts => hs (hts ▸ ht)]
      rw [hown, List.map_congr_left hsame]
    · rename_i hse
      have hmem : e ∈ rest := (List.mem_cons.mp he).resolve_left fun h => hse h.symm
      rw [hother s hse, ih hrest hmem]

/-- A selector that is new is bound at the end. -/
theorem bindIn_of_notMem {e : Selector} (strings : List String) {bindings : List Binding}
    (h : e ∉ bindings.map Binding.selector) :
    bindIn e strings bindings = bindings ++ [⟨e, strings⟩] := by
  induction bindings with
  | nil => rfl
  | cons b rest ih =>
    simp only [List.map_cons, List.mem_cons, not_or] at h
    rw [bindIn, if_neg (Ne.symm h.1), ih h.2, List.cons_append]

/-- One more contribution is gathered with the others. -/
theorem bindIn_grouped (contributions : List Contribution) (c : Contribution) :
    bindIn c.1 c.2 (grouped contributions) = grouped (contributions ++ [c]) := by
  have hother : ∀ s, s ≠ c.1 →
      gathered (contributions ++ [c]) s = gathered contributions s := fun s hs => by
    rw [gathered_concat, if_neg (Ne.symm hs), List.append_nil]
  have hown : gathered (contributions ++ [c]) c.1 = gathered contributions c.1 ++ c.2 := by
    rw [gathered_concat, if_pos rfl]
  rw [grouped, grouped, List.map_append, List.map_singleton, eraseDups_concat]
  split
  · rename_i hmem
    exact bindIn_map_of_mem c.2 hown hother (nodup_eraseDups _) (List.mem_eraseDups.mpr hmem)
  · rename_i hnew
    have hfirst : c.1 ∉ (contributions.map (·.1)).eraseDups :=
      fun h => hnew (List.mem_eraseDups.mp h)
    have hsame : ∀ s ∈ (contributions.map (·.1)).eraseDups,
        (⟨s, gathered contributions s⟩ : Binding) = ⟨s, gathered (contributions ++ [c]) s⟩ :=
      fun s hs => by rw [hother s fun h => hfirst (h ▸ hs)]
    rw [bindIn_of_notMem c.2 (by simpa using hfirst), List.map_congr_left hsame, List.map_append,
      List.map_singleton, hown, gathered_eq_nil hnew, List.nil_append]

end PackageScript.Setting
