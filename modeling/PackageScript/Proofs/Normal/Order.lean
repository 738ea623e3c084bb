import PackageScript.Proofs.Normal.Settled
/-! What the normal form does to the order of the effects on one variable. -/
namespace PackageScript
open Yaml PackageScript.Normal

namespace Statement

def changes (name : String) : Statement → Bool
  | .change _ s => s.name = name
  | _ => false

/-- The effects on a variable, in the order of the statements. -/
def effects (name : String) (statements : List Statement) : List Statement :=
  statements.filter (changes name)

/-- Whether the environment can express a statement. -/
def isExpressible (s : Statement) : Bool :=
  s.envPair?.isSome

/-- The effects with the first one that the environment can express before all others. -/
def expressibleFirst (effects : List Statement) : List Statement :=
  (effects.find? isExpressible).toList ++ effects.eraseP isExpressible

private theorem expresses_eq (name : String) (s : Statement) :
    expresses name s = (changes name s && s.isExpressible) := by
  cases s with
  | change how setting =>
    rw [expresses, isExpressible, envPair?, changes]
    cases Normal.envText? how setting <;> simp
  | _ => rfl

private theorem startsVariable_eq {name : String} {s : Statement} (before : List Statement)
    (hs : changes name s = true) :
    startsVariable before s = (s.isExpressible && !before.any (expresses name)) := by
  cases s with
  | change how setting =>
    have hname : setting.name = name := of_decide_eq_true hs
    rw [startsVariable, isExpressible, envPair?, ← hname]
    cases Normal.envText? how setting <;> simp
  | _ => cases hs

private theorem staysChange_eq {name : String} {s : Statement} (before : List Statement)
    (hs : changes name s = true) :
    staysChange before s = !(s.isExpressible && !before.any (expresses name)) := by
  rw [← startsVariable_eq before hs]
  cases s with
  | change => rfl
  | _ => cases hs

private theorem filter_picked (name : String) (before l : List Statement) :
    (picked startsVariable before l).filter (changes name) =
        (if before.any (expresses name) then []
          else ((l.filter (changes name)).find? isExpressible).toList) ∧
      (picked staysChange before l).filter (changes name) =
        if before.any (expresses name) then l.filter (changes name)
        else (l.filter (changes name)).eraseP isExpressible := by
  induction l generalizing before with
  | nil => simp [picked]
  | cons s rest ih =>
    obtain ⟨hstarts, hstays⟩ := ih (before ++ [s])
    rw [picked, picked, List.filter_append, List.filter_append, hstarts, hstays, List.any_append,
      List.any_cons, List.any_nil, Bool.or_false, expresses_eq name s]
    cases hs : changes name s with
    | false =>
      have hnone : ∀ test : Bool, (if test then [s] else []).filter (changes name) = [] := by
        intro test
        cases test <;> simp [hs]
      simp [hnone, hs]
    | true =>
      rw [startsVariable_eq before hs, staysChange_eq before hs]
      cases hx : s.isExpressible <;> cases hb : before.any (expresses name) <;>
        simp [hs, hx]

/-- Grouping moves the first effect that the environment can express to the front, and keeps the
order of all others. -/
theorem effects_regrouped (name : String) (l : List Statement) :
    effects name (regrouped l) = expressibleFirst (effects name l) := by
  have hdeclared : (l.filter (·.declaredTag?.isSome)).filter (changes name) = [] := by
    refine List.filter_eq_nil_iff.mpr fun s hs => ?_
    cases s with
    | change => simp [declaredTag?] at hs
    | _ => simp [changes]
  have happlied : (l.filter (·.appliedTag?.isSome)).filter (changes name) = [] := by
    refine List.filter_eq_nil_iff.mpr fun s hs => ?_
    cases s with
    | change => simp [appliedTag?] at hs
    | _ => simp [changes]
  obtain ⟨hstarts, hstays⟩ := filter_picked name [] l
  rw [effects, regrouped, List.filter_append, List.filter_append, List.filter_append, hstarts,
    hdeclared, happlied, hstays]
  simp [expressibleFirst, effects]

private theorem effects_map_settled (name : String) (l : List Statement) :
    effects name (l.map settled) = (effects name l).map settled := by
  rw [effects, List.filter_map]
  refine congrArg _ (List.filter_congr fun s _ => ?_)
  cases s <;> rfl

private theorem settled_of_isExpressible {s : Statement} (h : s.isExpressible = true) :
    s.settled = s :=
  Reading.settled_of_envPair? h

private theorem expressibleFirst_cons {s : Statement} (hs : s.isExpressible = true)
    (rest : List Statement) : expressibleFirst (s :: rest) = s :: rest := by
  simp [expressibleFirst, hs]

private theorem expressibleFirst_of_none {l : List Statement} (h : l.find? isExpressible = none) :
    expressibleFirst l = l := by
  rw [expressibleFirst, h, List.eraseP_of_forall_not (by simpa using h)]
  rfl

/-- Effects stay in their order if the first one can be expressed or none of the later ones can. -/
theorem expressibleFirst_eq_self_iff {l : List Statement} :
    expressibleFirst l = l ↔
      (∃ s ∈ l.head?, s.isExpressible = true) ∨ ∀ s ∈ l.tail, s.isExpressible = false := by
  cases l with
  | nil => simp [expressibleFirst]
  | cons s rest =>
    cases hs : s.isExpressible with
    | true => exact iff_of_true (expressibleFirst_cons hs rest) (Or.inl ⟨s, rfl, hs⟩)
    | false =>
      cases hfind : rest.find? isExpressible with
      | none =>
        refine iff_of_true (expressibleFirst_of_none ?_) (Or.inr (by simpa using hfind))
        rwa [List.find?_cons_of_neg (by simp [hs])]
      | some first =>
        have hfirst := List.find?_some hfind
        have hmem := List.mem_of_find?_eq_some hfind
        have hne : first ≠ s := by
          rintro rfl
          rw [hs] at hfirst
          cases hfirst
        refine iff_of_false (by simp [expressibleFirst, hs, hfind, hne]) ?_
        rintro (⟨t, ht, hexpressible⟩ | hnone)
        · obtain rfl : s = t := Option.some.inj ht
          rw [hs] at hexpressible
          cases hexpressible
        · rw [hnone first hmem] at hfirst
          cases hfirst

/-- Effects come back in their order if they stay in it and each comes back as it is. -/
theorem map_settled_expressibleFirst {l : List Statement} :
    (expressibleFirst l).map settled = l ↔
      (∀ s ∈ l, s.settled = s) ∧ expressibleFirst l = l := by
  constructor
  · intro h
    have horder : expressibleFirst l = l := by
      cases hfind : l.find? isExpressible with
      | none => exact expressibleFirst_of_none hfind
      | some first =>
        -- what can be expressed comes back as it is, so it is the head of the list
        have hfirst := List.find?_some hfind
        rw [expressibleFirst, hfind, Option.toList_some, List.singleton_append, List.map_cons,
          settled_of_isExpressible hfirst] at h
        rw [← h]
        exact expressibleFirst_cons hfirst _
    rw [horder] at h
    exact ⟨List.map_inj_left.mp (h.trans (List.map_id l).symm), horder⟩
  · rintro ⟨hsettled, horder⟩
    rw [horder, List.map_congr_left hsettled, List.map_id']

private theorem settled_change_iff {how : Change} {s : Setting} (h : s.Canonical) :
    (Statement.change how s).settled = .change how s ↔ s.Unambiguous := by
  rw [settled]
  constructor
  · intro hsame
    injection hsame with _ hsame
    exact hsame ▸ Setting.unambiguous_settled h
  · intro hu
    rw [Setting.settled_eq h hu]

end Statement

/-- The effects on a variable come back with the first one that the environment can express before
all others. So they come back as they were exactly if none of their settings is ambiguous, and
the first effect can be expressed or none of the later ones can. -/
theorem effects_normal {t : Tree} {d : Descriptor} (h : (Reading.descriptor t).outcome = .ok d) :
    ∃ d', Reading.descriptor (Normal.descriptor d) = .ok d' ∧ ∀ name,
      let before := Statement.effects name d.configuration.statements
      let after := Statement.effects name d'.configuration.statements
      after = (Statement.expressibleFirst before).map Statement.settled ∧
        (after = before ↔ (∀ how s, Statement.change how s ∈ before → s.Unambiguous) ∧
          ((∃ s ∈ before.head?, s.isExpressible = true) ∨
            ∀ s ∈ before.tail, s.isExpressible = false)) := by
  have hd := Reading.canonical_descriptor h
  refine ⟨d.settled, Reading.descriptor_descriptor hd, fun name => ?_⟩
  intro before after
  have hafter : after = (Statement.expressibleFirst before).map Statement.settled := by
    show Statement.effects name ((Statement.regrouped _).map Statement.settled) = _
    rw [Statement.effects_map_settled, Statement.effects_regrouped]
  refine ⟨hafter, ?_⟩
  rw [hafter, Statement.map_settled_expressibleFirst, Statement.expressibleFirst_eq_self_iff]
  refine and_congr_left fun _ => ?_
  have hcanonical : ∀ how s, Statement.change how s ∈ before → s.Canonical := fun how s hs =>
    hd.statements.settings how s (List.mem_of_mem_filter hs)
  constructor
  · intro hsettled how s hs
    exact (Statement.settled_change_iff (hcanonical how s hs)).mp (hsettled _ hs)
  · intro hunambiguous s hs
    cases s with
    | change how setting =>
      exact (Statement.settled_change_iff (hcanonical how setting hs)).mpr
        (hunambiguous how setting hs)
    | _ => rfl

/-- A directory that is taken out of a path before it is put at its end. -/
def movedTree : Tree :=
  .map [(.text "package", .map [(.text "name", .text "p")]),
    (.text "configure", .map [(.text "statements", .list [
      .map [(.text "path-remove", .map [(.text "PATH", .text "/opt")])],
      .map [(.text "path-append", .map [(.text "PATH", .text "/opt")])]])])]

/-- The descriptor in that tree. -/
def movedDescriptor : Descriptor where
  package := { name := "p" }
  configuration :=
    { statements :=
        [.change .removePath (.plain "PATH" ["/opt"]), .change .appendPath (.plain "PATH" ["/opt"])] }

/-- The directory is put at the end before it is taken out. -/
theorem effects_normal_moved :
    (Reading.descriptor movedTree).outcome = .ok movedDescriptor ∧
      ∃ d', Reading.descriptor (Normal.descriptor movedDescriptor) = .ok d' ∧
        Statement.effects "PATH" d'.configuration.statements =
          [.change .appendPath (.plain "PATH" ["/opt"]),
            .change .removePath (.plain "PATH" ["/opt"])] := by
  have hread : (Reading.descriptor movedTree).outcome = .ok movedDescriptor := rfl
  obtain ⟨d', hd', heffects⟩ := effects_normal hread
  exact ⟨hread, d', hd', (heffects "PATH").1⟩

/-- The two effects on that path come back in the opposite order. -/
theorem effects_change_places :
    ¬ ∀ t d d' name, (Reading.descriptor t).outcome = .ok d →
      (Reading.descriptor (Normal.descriptor d)).outcome = .ok d' →
        Statement.effects name d'.configuration.statements =
          Statement.effects name d.configuration.statements := by
  intro hall
  have hread : (Reading.descriptor movedTree).outcome = .ok movedDescriptor := rfl
  have hsame := hall _ _ movedDescriptor.settled "PATH" hread rfl
  injection hsame with hfirst
  cases hfirst

end PackageScript
