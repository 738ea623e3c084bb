import PackageScript.Proofs.Setting.Grouping
/-! What a setting tells of everything that has been bound to it. -/
namespace PackageScript.Setting

/-- Whether bindings hold what has been contributed: each selector once, in the order of their
first contributions, with the strings of all contributions to it one after the other. -/
structure Collects (history : List Contribution) (bindings : List Binding) : Prop where
  bound : ∀ e, e ∈ bindings.map Binding.selector ↔ e ∈ history.map Prod.fst
  distinct : (bindings.map Binding.selector).Nodup
  inOrder : (bindings.map Binding.selector).Pairwise fun a b =>
    (history.map Prod.fst).idxOf a < (history.map Prod.fst).idxOf b
  strings : ∀ b ∈ bindings, b.strings = gathered history b.selector

private theorem selectors_grouped (history : List Contribution) :
    (grouped history).map Binding.selector = (history.map Prod.fst).eraseDups := by
  rw [grouped, List.map_map]
  exact List.map_id _

private theorem collects_grouped (history : List Contribution) :
    Collects history (grouped history) where
  bound e := by rw [selectors_grouped, List.mem_eraseDups]
  distinct := by
    rw [selectors_grouped]
    exact nodup_eraseDups _
  inOrder := by
    rw [selectors_grouped]
    exact pairwise_idxOf_eraseDups _
  strings b hb := by
    obtain ⟨e, -, rfl⟩ := List.mem_map.mp hb
    rfl

/-- Contributions are grouped with those that came before them. -/
theorem foldl_bind {s : Setting} {history : List Contribution}
    (h : s.bindings = grouped history) (more : List Contribution) :
    more.foldl (fun s c => s.bind c.1 c.2) s = ⟨s.name, grouped (history ++ more)⟩ := by
  induction more generalizing s history with
  | nil => rw [List.append_nil, ← h, List.foldl_nil]
  | cons c rest ih =>
    have hstep : (s.bind c.1 c.2).bindings = grouped (history ++ [c]) := by
      rw [← bindIn_grouped, ← h, bind]
    rw [List.foldl_cons, ih hstep, List.append_assoc, List.singleton_append]
    rfl

private theorem isUnconditional_iff_selectors {s : Setting} :
    s.isUnconditional = true ↔ s.bindings.map Binding.selector = [.fallback] := by
  rw [isUnconditional, unconditional?]
  constructor
  · intro hsome
    split at hsome
    · rename_i heq
      rw [heq]
      rfl
    · cases hsome
  · intro hselectors
    obtain ⟨⟨selector, strings⟩, hb, hbe⟩ := List.map_eq_singleton_iff.mp hselectors
    obtain rfl : selector = .fallback := hbe
    rw [hb]
    rfl

section Observers

variable {s : Setting} {history : List Contribution} (h : Collects history s.bindings)
include h

private theorem get?_of_collects (e : Selector) :
    s.get? e = if e ∈ history.map Prod.fst then some (gathered history e) else none := by
  rw [get?]
  cases hfind : s.bindings.find? fun b => b.selector = e with
  | none =>
    have hnone : e ∉ history.map Prod.fst := fun hmem => by
      obtain ⟨b, hb, hbe⟩ := List.mem_map.mp ((h.bound e).mpr hmem)
      exact List.find?_eq_none.mp hfind b hb (decide_eq_true hbe)
    rw [if_neg hnone, Option.map_none]
  | some b =>
    have hb := List.mem_of_find?_eq_some hfind
    have hbe : b.selector = e := by simpa using List.find?_some hfind
    have hmem := (h.bound e).mp (List.mem_map.mpr ⟨b, hb, hbe⟩)
    rw [if_pos hmem, Option.map_some, h.strings b hb, hbe]

private theorem isUnconditional_of_collects :
    s.isUnconditional = true ↔ ∀ e, e ∈ history.map Prod.fst ↔ e = .fallback := by
  rw [isUnconditional_iff_selectors]
  constructor
  · intro hselectors e
    rw [← h.bound, hselectors, List.mem_singleton]
  · intro hall
    have hperm : (s.bindings.map Binding.selector).Perm [.fallback] :=
      (List.perm_ext_iff_of_nodup h.distinct (List.nodup_singleton _)).mpr fun e => by
        rw [h.bound, hall, List.mem_singleton]
    exact List.perm_singleton.mp hperm

end Observers

/-- However a setting starts and whatever is bound to it, its bindings hold all contributions, it
answers for each selector with what was bound to it, and it is unconditional exactly if the
fallback, and nothing else, has been bound. What it starts with counts as bound first. -/
theorem tells_history (name : String) (start : Option (List String))
    (binds : List Contribution) :
    let history := start.toList.map (fun strings => (Selector.fallback, strings)) ++ binds
    let s := binds.foldl (fun s c => s.bind c.1 c.2) (start.elim ⟨name, []⟩ (plain name))
    s.name = name ∧ Collects history s.bindings ∧
      (∀ e, s.get? e = if e ∈ history.map Prod.fst then some (gathered history e) else none) ∧
      (s.isUnconditional = true ↔ ∀ e, e ∈ history.map Prod.fst ↔ e = .fallback) := by
  intro history s
  have hs : s = ⟨name, grouped history⟩ := by
    cases start with
    | none =>
      have hempty : (⟨name, []⟩ : Setting).bindings = grouped [] := rfl
      exact foldl_bind hempty binds
    | some strings =>
      have hplain : (plain name strings).bindings = grouped [(.fallback, strings)] := by
        simp [plain, grouped, gathered, List.eraseDups_cons]
      exact foldl_bind hplain binds
  have hcollects : Collects history s.bindings := by
    rw [hs]
    exact collects_grouped history
  exact ⟨by rw [hs], hcollects, get?_of_collects hcollects,
    isUnconditional_of_collects hcollects⟩

end PackageScript.Setting
