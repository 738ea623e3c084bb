import PackageScript.Proofs.Files.Lexical
import Mathlib.Data.List.Lex
import Mathlib.Order.Basic
/-! The components of paths: what they tell of a path, and their order. -/
namespace PackageScript

namespace Path

/-- The component of a segment that leads somewhere else. -/
def componentOf (segment : String) : Component :=
  if segment = ".." then .parent else .name segment

def leadComponents (p : Path) : List Component :=
  match p.lead with
  | "/" => [.root]
  | "." => [.current]
  | _ => []

private theorem components_eq (p : Path) :
    p.components = p.leadComponents ++ (p.segments.filter (!isIdle ·)).map componentOf := by
  rw [components, filter_body]
  rfl

private theorem filter_front (p : Path) :
    p.front.filter (!isIdle ·) = p.segments.filter (!isIdle ·) := by
  rw [front]
  split
  · rename_i hlast
    obtain ⟨before, hsegments⟩ := List.getLast?_eq_some_iff.mp hlast
    rw [hsegments, List.dropLast_concat, List.filter_append]
    exact (List.append_nil _).symm
  · rfl

private theorem lead_join (p : Path) {name : String} (h : IsName name) :
    (p.join name).lead = p.lead := by
  have hname : name ≠ "" ∧ name ≠ "." := by simpa [isIdle] using h.entry.notIdle
  have hfront : (p.join name).front = p.front ++ [name] := by
    rw [front, segments_join p h.slashless, if_neg (by simp [hname])]
  rw [lead_eq_front, lead_eq_front p, hfront]
  cases p.front with
  | nil => simp [hname]
  | cons s rest => rfl

private theorem components_join (p : Path) {name : String} (h : IsName name) :
    (p.join name).components = p.components ++ [Component.name name] := by
  have hlead : (p.join name).leadComponents = p.leadComponents := by
    rw [leadComponents, lead_join p h, leadComponents]
  rw [components_eq, components_eq, hlead, segments_join p h.slashless, List.filter_append,
    filter_front, List.map_append, List.append_assoc]
  simp [h.entry.notIdle, componentOf, h.entry.notParent]

/-- A path is absolute, or it starts with a dot, or neither. -/
theorem lead_cases (p : Path) :
    p.lead = "/" ∧ p.leadComponents = [.root] ∨ p.lead = "." ∧ p.leadComponents = [.current] ∨
      p.lead = "" ∧ p.leadComponents = [] := by
  rw [leadComponents, lead_eq_front]
  split
  · exact Or.inl ⟨rfl, rfl⟩
  · exact Or.inr (Or.inl ⟨rfl, rfl⟩)
  · exact Or.inr (Or.inr ⟨rfl, rfl⟩)

def under (p : Path) (l : Location) : Path :=
  l.foldl join p

@[simp] theorem under_nil (p : Path) : p.under [] = p := rfl

private theorem under_cons (p : Path) (name : String) (l : Location) :
    p.under (name :: l) = (p.join name).under l := rfl

/-- Names that are joined to a path are its last components. -/
theorem components_under (p : Path) {l : Location} (h : ∀ name ∈ l, IsName name) :
    (p.under l).components = p.components ++ l.map .name := by
  induction l generalizing p with
  | nil => simp
  | cons name rest ih =>
    obtain ⟨hname, hrest⟩ := List.forall_mem_cons.mp h
    rw [under_cons, ih _ hrest, components_join p hname, List.append_assoc, List.map_cons]
    rfl

theorem lead_under (p : Path) {l : Location} (h : ∀ name ∈ l, IsName name) :
    (p.under l).lead = p.lead := by
  induction l generalizing p with
  | nil => rfl
  | cons name rest ih =>
    obtain ⟨hname, hrest⟩ := List.forall_mem_cons.mp h
    rw [under_cons, ih _ hrest, lead_join p hname]

section Order

/-- The place of a kind of component among the others. -/
def Component.rank : Component → Nat
  | .root => 0
  | .current => 1
  | .parent => 2
  | .name _ => 3

/-- The order of components. Names come in their order, after all else. -/
def Component.Before : Component → Component → Prop
  | .name a, .name b => a < b
  | a, b => a.rank < b.rank

instance : Std.Asymm Component.Before where
  asymm a b h := by
    cases a <;> cases b
    case name.name => exact String.lt_asymm h
    all_goals simp only [Component.Before, Component.rank] at h ⊢; omega

/-- The order of paths, component by component. -/
def Before (p q : Path) : Prop :=
  List.Lex Component.Before p.components q.components

instance : Std.Asymm Before where
  asymm _ _ h := asymm_of (List.Lex Component.Before) h

/-- Below one path, names decide the order. -/
theorem before_under (p : Path) {a b : String} {l m : Location} (h : a < b)
    (hl : ∀ name ∈ a :: l, IsName name) (hm : ∀ name ∈ b :: m, IsName name) :
    (p.under (a :: l)).Before (p.under (b :: m)) := by
  have hname : Component.Before (.name a) (.name b) := h
  rw [Before, components_under p hl, components_under p hm]
  exact List.Lex.append_left _ (.rel hname) _

end Order

end Path

namespace Disk
open PackageScript.Path

/-- The location reached from another one by a component, whatever is there. -/
def goTo (here : Location) : Component → Location
  | .root => []
  | .current => here
  | .parent => here.dropLast
  | .name name => here ++ [name]

private theorem goTo_componentOf (here : Location) {segment : String} (h : isIdle segment = false) :
    goTo here (componentOf segment) = stepped here segment := by
  rw [stepped, if_neg (by simp [h]), componentOf]
  split <;> rfl

private theorem foldl_goTo (segments : List String) (here : Location) :
    ((segments.filter (!isIdle ·)).map componentOf).foldl goTo here =
      segments.foldl stepped here := by
  induction segments generalizing here with
  | nil => rfl
  | cons s rest ih =>
    cases hs : isIdle s with
    | true => simp [hs, ih, stepped]
    | false => simp [hs, ih, goTo_componentOf here hs]

private theorem foldl_leadComponents (d : Disk) (p : Path) :
    p.leadComponents.foldl goTo d.current = d.startOf p := by
  rw [startOf]
  rcases p.lead_cases with ⟨hlead, hcomponents⟩ | ⟨hlead, hcomponents⟩ | ⟨hlead, hcomponents⟩
  all_goals rw [hlead, hcomponents]; rfl

/-- The components of a path tell where it leads. -/
theorem place_eq_components (d : Disk) (p : Path) :
    d.place p = p.components.foldl goTo d.current := by
  rw [components_eq, List.foldl_append, foldl_leadComponents, foldl_goTo, place]

private theorem foldl_goTo_names (here : Location) (names : List String) :
    (names.map Component.name).foldl goTo here = here ++ names := by
  induction names generalizing here with
  | nil => simp
  | cons name rest ih => rw [List.map_cons, List.foldl_cons, ih, goTo, List.append_assoc]; rfl

/-- Names that are joined to a path lead on from where it leads. -/
theorem place_under (d : Disk) (p : Path) {l : Location} (h : ∀ name ∈ l, IsName name) :
    d.place (p.under l) = d.place p ++ l := by
  rw [place_eq_components, components_under p h, List.foldl_append, foldl_goTo_names,
    place_eq_components]

/-- Without `..`, the names of a path lead on from where it starts. -/
theorem exists_names (d : Disk) {p : Path} (h : Component.parent ∉ p.components) :
    ∃ names : List String, p.components = p.leadComponents ++ names.map .name ∧
      d.place p = d.startOf p ++ names := by
  rw [components_eq, List.mem_append, not_or] at h
  have hnames : (p.segments.filter (!isIdle ·)).map componentOf =
      (p.segments.filter (!isIdle ·)).map .name := by
    refine List.map_congr_left fun s hs => if_neg fun hparent => h.2 ?_
    exact List.mem_map.mpr ⟨s, hs, if_pos hparent⟩
  have hcomponents := (components_eq p).trans (by rw [hnames])
  refine ⟨_, hcomponents, ?_⟩
  rw [place_eq_components, hcomponents, List.foldl_append, foldl_leadComponents, foldl_goTo_names]

end Disk

end PackageScript
