import PackageScript.Normal
/-! The groups that statements are written in: the environment takes the first statement for each
variable that it can express, and nothing is lost. -/
namespace PackageScript

/-- The elements that pass a test which also sees all elements before them. -/
def picked {α : Type} (test : List α → α → Bool) (before : List α) : List α → List α
  | [] => []
  | a :: rest => (if test before a then [a] else []) ++ picked test (before ++ [a]) rest

section Picked

variable {α : Type} {test : List α → α → Bool}

private theorem picked_append (before xs ys : List α) :
    picked test before (xs ++ ys) = picked test before xs ++ picked test (before ++ xs) ys := by
  induction xs generalizing before with
  | nil => simp [picked]
  | cons a rest ih => simp [picked, ih, List.append_assoc]

private theorem picked_concat (before xs : List α) (a : α) :
    picked test before (xs ++ [a]) =
      picked test before xs ++ if test (before ++ xs) a then [a] else [] := by
  rw [picked_append, picked, picked, List.append_nil]

theorem picked_sublist (before xs : List α) : (picked test before xs).Sublist xs := by
  induction xs generalizing before with
  | nil => exact List.Sublist.refl _
  | cons a rest ih =>
    rw [picked]
    split
    · exact (ih _).cons_cons a
    · exact (ih _).cons a

private theorem test_of_mem_picked {before xs : List α} {a : α} (h : a ∈ picked test before xs) :
    ∃ seen, test seen a = true := by
  induction xs generalizing before with
  | nil => cases h
  | cons b rest ih =>
    rw [picked] at h
    split at h
    · rename_i hb
      rcases List.mem_cons.mp h with rfl | h
      · exact ⟨before, hb⟩
      · exact ih h
    · exact ih h

private theorem picked_eq_nil {before xs : List α}
    (h : ∀ seen : List α, ∀ a ∈ xs, before <+: seen → test seen a = false) :
    picked test before xs = [] := by
  induction xs generalizing before with
  | nil => rfl
  | cons a rest ih =>
    rw [picked, h before a List.mem_cons_self (List.prefix_refl _),
      ih fun seen b hb hs => h seen b (List.mem_cons_of_mem a hb)
        ((List.prefix_append before [a]).trans hs)]
    rfl

private theorem picked_eq_self {before xs : List α}
    (h : ∀ seen : List α, ∀ a ∈ xs, before <+: seen → test seen a = true) :
    picked test before xs = xs := by
  induction xs generalizing before with
  | nil => rfl
  | cons a rest ih =>
    rw [picked, h before a List.mem_cons_self (List.prefix_refl _),
      ih fun seen b hb hs => h seen b (List.mem_cons_of_mem a hb)
        ((List.prefix_append before [a]).trans hs)]
    rfl

/-- What is picked passes the test again where less stands before it. -/
theorem picked_picked (hmono : ∀ (seen fewer : List α) (a : α), fewer.Sublist seen →
      test seen a = true → test fewer a = true) (before fewer xs : List α)
    (hfewer : fewer.Sublist before) :
    picked test fewer (picked test before xs) = picked test before xs := by
  induction xs generalizing before fewer with
  | nil => rfl
  | cons a rest ih =>
    rw [picked]
    cases h : test before a with
    | true =>
      rw [if_pos rfl, List.singleton_append, picked, if_pos (hmono before fewer a hfewer h),
        List.singleton_append, ih _ _ (hfewer.append (List.Sublist.refl [a]))]
    | false =>
      exact ih _ _ (hfewer.trans (List.sublist_append_left before [a]))

/-- Where a test picks everything, one that it excludes picks nothing. -/
theorem picked_eq_nil_of_picked {other : List α → α → Bool} {before xs : List α}
    (hother : ∀ seen a, test seen a = true → other seen a = false)
    (h : picked test before xs = xs) : picked other before xs = [] := by
  induction xs generalizing before with
  | nil => rfl
  | cons a rest ih =>
    rw [picked] at h ⊢
    cases ha : test before a with
    | true =>
      rw [ha, if_pos rfl, List.singleton_append] at h
      rw [hother before a ha, ih (List.cons.inj h).2]
      rfl
    | false =>
      rw [ha, if_neg (by simp), List.nil_append] at h
      have hlength : (picked test (before ++ [a]) rest).length ≤ rest.length :=
        (picked_sublist _ rest).length_le
      rw [h, List.length_cons] at hlength
      omega

end Picked

namespace Statement

/-- The variable of a change that the environment can express, with the text for it. -/
def envPair? : Statement → Option (String × String)
  | .change how s => (Normal.envText? how s).map (s.name, ·)
  | _ => none

/-- Whether a statement is a change of this variable that the environment can express. -/
def expresses (name : String) (s : Statement) : Bool :=
  s.envPair?.any (·.1 = name)

/-- Whether a statement is the first one for its variable that the environment can express. -/
def startsVariable (before : List Statement) (s : Statement) : Bool :=
  s.envPair?.any fun e => !before.any (expresses e.1)

/-- Whether a statement is a change that the environment does not take. -/
def staysChange (before : List Statement) (s : Statement) : Bool :=
  match s with
  | .change .. => !startsVariable before s
  | _ => false

def regrouped (l : List Statement) : List Statement :=
  picked startsVariable [] l ++ l.filter (·.declaredTag?.isSome) ++
    l.filter (·.appliedTag?.isSome) ++ picked staysChange [] l

/-- Grouping adds no statement. -/
theorem mem_of_mem_regrouped {l : List Statement} {s : Statement} (h : s ∈ regrouped l) : s ∈ l := by
  simp only [regrouped, List.mem_append] at h
  rcases h with ((h | h) | h) | h
  · exact (picked_sublist [] l).mem h
  · exact (List.mem_filter.mp h).1
  · exact (List.mem_filter.mp h).1
  · exact (picked_sublist [] l).mem h

private theorem perm_picked (before l : List Statement) :
    (picked startsVariable before l ++ l.filter (·.declaredTag?.isSome) ++
      l.filter (·.appliedTag?.isSome) ++ picked staysChange before l).Perm l := by
  induction l generalizing before with
  | nil => exact List.Perm.refl []
  | cons s rest ih =>
    refine List.Perm.trans ?_ ((ih (before ++ [s])).cons s)
    rw [picked, picked]
    generalize picked startsVariable (before ++ [s]) rest = front
    generalize picked staysChange (before ++ [s]) rest = back
    cases s with
    | declareTag name content =>
      rw [List.filter_cons_of_pos (by rfl), List.filter_cons_of_neg (by simp [appliedTag?])]
      simp [startsVariable, staysChange, envPair?, List.perm_middle]
    | applyTag name =>
      rw [List.filter_cons_of_neg (by simp [declaredTag?]), List.filter_cons_of_pos (by rfl)]
      have hmiddle := @List.perm_middle _ (applyTag name)
        (front ++ rest.filter (·.declaredTag?.isSome)) (rest.filter (·.appliedTag?.isSome) ++ back)
      simpa [startsVariable, staysChange, envPair?] using hmiddle
    | change how setting =>
      rw [List.filter_cons_of_neg (by simp [declaredTag?]),
        List.filter_cons_of_neg (by simp [appliedTag?])]
      cases hs : startsVariable before (.change how setting) with
      | true => simp [staysChange, hs]
      | false =>
        have hmiddle := @List.perm_middle _ (change how setting)
          (front ++ rest.filter (·.declaredTag?.isSome) ++ rest.filter (·.appliedTag?.isSome)) back
        simpa [staysChange, hs] using hmiddle

/-- Grouping changes nothing but the order. -/
theorem perm_regrouped (l : List Statement) : (regrouped l).Perm l :=
  perm_picked [] l

/-- A change that the environment expresses is read back from its text. -/
theorem envStatement_of_envPair? {s : Statement} {e : String × String} (h : s.envPair? = some e) :
    Reading.envStatement e.1 e.2 = some s := by
  cases s with
  | change how setting =>
    obtain ⟨text, htext, rfl⟩ := Option.map_eq_some_iff.mp h
    rw [Normal.envText?] at htext
    split at htext
    · exact of_decide_eq_true (Option.filter_eq_some_iff.mp htext).2
    · cases htext
  | _ => cases h

private theorem startsVariable_mono (seen fewer : List Statement) (s : Statement)
    (hsub : fewer.Sublist seen) (h : startsVariable seen s = true) :
    startsVariable fewer s = true := by
  rw [startsVariable, Option.any_eq_true_iff_get] at h ⊢
  obtain ⟨hsome, h⟩ := h
  refine ⟨hsome, ?_⟩
  simp only [Bool.not_eq_true', List.any_eq_false] at h ⊢
  exact fun t ht => h t (hsub.mem ht)

/-- The statements that start their variables can be expressed. -/
theorem envPair?_of_mem_picked {l : List Statement} {s : Statement}
    (h : s ∈ picked startsVariable [] l) : s.envPair?.isSome = true := by
  obtain ⟨before, hs⟩ := test_of_mem_picked h
  rw [startsVariable, Option.any_eq_true_iff_get] at hs
  exact hs.1

private theorem change_of_mem_picked {l : List Statement} {s : Statement}
    (h : s ∈ picked startsVariable [] l) : ∃ how setting, s = .change how setting := by
  have hpair := envPair?_of_mem_picked h
  cases s with
  | change how setting => exact ⟨how, setting, rfl⟩
  | _ => simp [envPair?] at hpair

private theorem declareTag_of_mem_filter {l : List Statement} {s : Statement}
    (h : s ∈ l.filter (·.declaredTag?.isSome)) : ∃ name content, s = .declareTag name content := by
  cases s with
  | declareTag name content => exact ⟨name, content, rfl⟩
  | _ => simp [declaredTag?] at h

private theorem applyTag_of_mem_filter {l : List Statement} {s : Statement}
    (h : s ∈ l.filter (·.appliedTag?.isSome)) : ∃ name, s = .applyTag name := by
  cases s with
  | applyTag name => exact ⟨name, rfl⟩
  | _ => simp [appliedTag?] at h

theorem staysChange_of_starts (before : List Statement) (s : Statement)
    (h : startsVariable before s = true) : staysChange before s = false := by
  cases s <;> simp [staysChange, h]

/-- If some statement can express a variable, then so can one that starts it. -/
theorem expresses_picked {name : String} (before l : List Statement)
    (h : l.any (expresses name) = true) :
    before.any (expresses name) = true ∨
      (picked startsVariable before l).any (expresses name) = true := by
  induction l generalizing before with
  | nil => simp at h
  | cons s rest ih =>
    by_cases hbefore : before.any (expresses name) = true
    · exact Or.inl hbefore
    right
    rw [picked, List.any_append, Bool.or_eq_true]
    rw [List.any_cons, Bool.or_eq_true] at h
    by_cases hs : expresses name s = true
    · left
      have hstart : startsVariable before s = true := by
        rw [expresses] at hs
        rw [startsVariable]
        cases he : s.envPair? with
        | none => simp [he] at hs
        | some e =>
          have : e.1 = name := by simpa [he] using hs
          simpa [this] using hbefore
      simp [hstart, hs]
    · have hrest := h.resolve_left hs
      rcases ih (before ++ [s]) hrest with hb | hp
      · simp [hs, hbefore] at hb
      · exact Or.inr hp

/-- The statements that start their variables express all that the list can express. -/
theorem any_expresses_picked (name : String) (l : List Statement) :
    (picked startsVariable [] l).any (expresses name) = l.any (expresses name) := by
  refine Bool.eq_iff_iff.mpr ⟨fun h => ?_, fun h => ?_⟩
  · obtain ⟨s, hs, hname⟩ := List.any_eq_true.mp h
    exact List.any_eq_true.mpr ⟨s, (picked_sublist [] l).mem hs, hname⟩
  · exact (expresses_picked [] l h).resolve_left (by simp)

section Segments

variable {front tags applied rest : List Statement}
  (hchange : ∀ s ∈ front ++ rest, ∃ how setting, s = .change how setting)
  (htags : ∀ s ∈ tags, ∃ name content, s = .declareTag name content)
  (happlied : ∀ s ∈ applied, ∃ name, s = .applyTag name)
include htags happlied

private theorem picked_segments {test : List Statement → Statement → Bool}
    (hdeclare : ∀ seen name content, test seen (.declareTag name content) = false)
    (happly : ∀ seen name, test seen (.applyTag name) = false) :
    picked test [] (front ++ tags ++ applied ++ rest) =
      picked test [] front ++ picked test (front ++ tags ++ applied) rest := by
  have hnoTags (before : List Statement) : picked test before tags = [] := by
    refine picked_eq_nil fun seen s hs _ => ?_
    obtain ⟨name, content, rfl⟩ := htags s hs
    exact hdeclare seen name content
  have hnoApplied (before : List Statement) : picked test before applied = [] := by
    refine picked_eq_nil fun seen s hs _ => ?_
    obtain ⟨name, rfl⟩ := happlied s hs
    exact happly seen name
  simp only [picked_append, List.nil_append, hnoTags, hnoApplied, List.append_nil]

include hchange

private theorem filter_declaredTag?_segments :
    (front ++ tags ++ applied ++ rest).filter (·.declaredTag?.isSome) = tags := by
  have hchanges : (front ++ rest).filter (·.declaredTag?.isSome) = [] := by
    refine List.filter_eq_nil_iff.mpr fun s hs => ?_
    obtain ⟨how, setting, rfl⟩ := hchange s hs
    simp [declaredTag?]
  have hself : tags.filter (·.declaredTag?.isSome) = tags := by
    refine List.filter_eq_self.mpr fun s hs => ?_
    obtain ⟨name, content, rfl⟩ := htags s hs
    rfl
  have hnoApplied : applied.filter (·.declaredTag?.isSome) = [] := by
    refine List.filter_eq_nil_iff.mpr fun s hs => ?_
    obtain ⟨name, rfl⟩ := happlied s hs
    simp [declaredTag?]
  rw [List.filter_append, List.append_eq_nil_iff] at hchanges
  simp only [List.filter_append, hchanges.1, hchanges.2, hself, hnoApplied, List.nil_append,
    List.append_nil]

private theorem filter_appliedTag?_segments :
    (front ++ tags ++ applied ++ rest).filter (·.appliedTag?.isSome) = applied := by
  have hchanges : (front ++ rest).filter (·.appliedTag?.isSome) = [] := by
    refine List.filter_eq_nil_iff.mpr fun s hs => ?_
    obtain ⟨how, setting, rfl⟩ := hchange s hs
    simp [appliedTag?]
  have hnoTags : tags.filter (·.appliedTag?.isSome) = [] := by
    refine List.filter_eq_nil_iff.mpr fun s hs => ?_
    obtain ⟨name, content, rfl⟩ := htags s hs
    simp [appliedTag?]
  have hself : applied.filter (·.appliedTag?.isSome) = applied := by
    refine List.filter_eq_self.mpr fun s hs => ?_
    obtain ⟨name, rfl⟩ := happlied s hs
    rfl
  rw [List.filter_append, List.append_eq_nil_iff] at hchanges
  simp only [List.filter_append, hchanges.1, hchanges.2, hself, hnoTags, List.nil_append,
    List.append_nil]

end Segments

/-- Groups are kept by grouping again, also if the last one holds other changes, as long as the
variables that they can express are already expressed. -/
theorem regrouped_again {l rest : List Statement}
    (hchange : ∀ s ∈ rest, ∃ how setting, s = .change how setting)
    (hrest : ∀ s ∈ rest, ∀ e ∈ s.envPair?, l.any (expresses e.1) = true) :
    let again := picked startsVariable [] l ++ l.filter (·.declaredTag?.isSome) ++
      l.filter (·.appliedTag?.isSome) ++ rest
    picked startsVariable [] again = picked startsVariable [] l ∧
      again.filter (·.declaredTag?.isSome) = l.filter (·.declaredTag?.isSome) ∧
      again.filter (·.appliedTag?.isSome) = l.filter (·.appliedTag?.isSome) ∧
      picked staysChange [] again = rest := by
  have hfront : picked startsVariable [] (picked startsVariable [] l) = picked startsVariable [] l :=
    picked_picked startsVariable_mono [] [] l (List.Sublist.refl [])
  have hchanges : ∀ s ∈ picked startsVariable [] l ++ rest, ∃ how setting,
      s = .change how setting :=
    List.forall_mem_append.mpr ⟨fun _ => change_of_mem_picked, hchange⟩
  have htags : ∀ s ∈ l.filter (·.declaredTag?.isSome), ∃ name content,
      s = .declareTag name content := fun _ => declareTag_of_mem_filter
  have happlied : ∀ s ∈ l.filter (·.appliedTag?.isSome), ∃ name, s = .applyTag name :=
    fun _ => applyTag_of_mem_filter
  -- the first group expresses whatever the rest can express
  have hstarts : ∀ seen : List Statement, ∀ s ∈ rest, picked startsVariable [] l <+: seen →
      startsVariable seen s = false := by
    intro seen s hs hseen
    rw [startsVariable]
    cases he : s.envPair? with
    | none => rfl
    | some e =>
      have hexpressed := hrest s hs e he
      rw [← any_expresses_picked] at hexpressed
      obtain ⟨t, ht, hte⟩ := List.any_eq_true.mp hexpressed
      have hany : seen.any (expresses e.1) = true := List.any_eq_true.mpr ⟨t, hseen.mem ht, hte⟩
      simp [hany]
  refine ⟨?_, filter_declaredTag?_segments hchanges htags happlied,
    filter_appliedTag?_segments hchanges htags happlied, ?_⟩
  · rw [picked_segments htags happlied (fun _ _ _ => rfl) (fun _ _ => rfl), hfront,
      picked_eq_nil fun seen s hs hseen => hstarts seen s hs ?_, List.append_nil]
    rw [List.append_assoc] at hseen
    exact (List.prefix_append _ _).trans hseen
  · rw [picked_segments htags happlied (fun _ _ _ => rfl) (fun _ _ => rfl),
      picked_eq_nil_of_picked staysChange_of_starts hfront, List.nil_append]
    refine picked_eq_self fun seen s hs hseen => ?_
    obtain ⟨how, setting, rfl⟩ := hchange s hs
    rw [List.append_assoc] at hseen
    simp [staysChange, hstarts seen _ hs ((List.prefix_append _ _).trans hseen)]

end Statement

namespace Normal
open Statement

private theorem add_change {g : Groups} {before : List Statement} (how : Change) (s : Setting)
    (h : ∀ name, g.env.any (·.1 = name) = before.any (expresses name)) :
    g.add (.change how s) =
      if startsVariable before (.change how s) then
        { g with env := g.env ++ (Statement.change how s).envPair?.toList }
      else { g with changes := g.changes ++ [(how, s)] } := by
  rw [Groups.add]
  cases ht : envText? how s with
  | none => simp [startsVariable, envPair?, ht]
  | some text =>
    have hs := h s.name
    cases hb : before.any (expresses s.name) <;> simp_all [startsVariable, envPair?]

/-- The groups that a list of statements is written in. -/
structure Gathered (g : Groups) (l : List Statement) : Prop where
  env : g.env = (picked startsVariable [] l).filterMap envPair?
  declaredTags : g.declaredTags.map (fun t => Statement.declareTag t.1 t.2) =
    l.filter (·.declaredTag?.isSome)
  appliedTags : g.appliedTags.map Statement.applyTag = l.filter (·.appliedTag?.isSome)
  changes : g.changes.map (fun c => Statement.change c.1 c.2) = picked staysChange [] l

/-- The environment has a variable exactly when some statement can express it. -/
theorem Gathered.any_env {g : Groups} {l : List Statement} (h : Gathered g l) (name : String) :
    g.env.any (·.1 = name) = l.any (expresses name) := by
  rw [h.env, List.any_filterMap]
  exact any_expresses_picked name l

/-- One more statement is added to the group that it belongs to. -/
theorem Gathered.add {g : Groups} {l : List Statement} (h : Gathered g l) (s : Statement) :
    Gathered (g.add s) (l ++ [s]) := by
  have hany := h.any_env
  obtain ⟨henv, hdeclared, happlied, hchanges⟩ := h
  cases s with
  | declareTag name content =>
    refine ⟨?_, ?_, ?_, ?_⟩ <;> rw [Groups.add]
    · simpa [picked_concat, startsVariable, envPair?] using henv
    · simpa [declaredTag?] using hdeclared
    · simpa [appliedTag?] using happlied
    · simpa [picked_concat, staysChange] using hchanges
  | applyTag name =>
    refine ⟨?_, ?_, ?_, ?_⟩ <;> rw [Groups.add]
    · simpa [picked_concat, startsVariable, envPair?] using henv
    · simpa [declaredTag?] using hdeclared
    · simpa [appliedTag?] using happlied
    · simpa [picked_concat, staysChange] using hchanges
  | change how setting =>
    rw [add_change how setting hany]
    cases hstart : startsVariable l (.change how setting) with
    | true =>
      obtain ⟨e, hpair⟩ := Option.isSome_iff_exists.mp (Option.isSome_of_any hstart)
      rw [if_pos rfl, hpair]
      refine ⟨?_, ?_, ?_, ?_⟩
      · simp [picked_concat, hstart, hpair, henv]
      · simpa [declaredTag?] using hdeclared
      · simpa [appliedTag?] using happlied
      · simpa [picked_concat, staysChange, hstart] using hchanges
    | false =>
      rw [if_neg Bool.false_ne_true]
      refine ⟨?_, ?_, ?_, ?_⟩
      · simpa [picked_concat, hstart] using henv
      · simpa [declaredTag?] using hdeclared
      · simpa [appliedTag?] using happlied
      · simp [picked_concat, staysChange, hstart, hchanges]

private theorem Gathered.foldl {g : Groups} {before : List Statement} (h : Gathered g before)
    (l : List Statement) : Gathered (l.foldl Groups.add g) (before ++ l) := by
  induction l generalizing g before with
  | nil => rwa [List.append_nil]
  | cons s rest ih =>
    rw [List.foldl_cons, List.append_cons]
    exact ih (h.add s)

private theorem gathered_groups (l : List Statement) : Gathered (groups l) l := by
  have hempty : Gathered {} [] := ⟨rfl, rfl, rfl, rfl⟩
  exact hempty.foldl l

/-- The groups of a list are the only ones that it is written in. -/
theorem Gathered.eq_groups {g : Groups} {l : List Statement} (h : Gathered g l) : g = groups l := by
  have h' := gathered_groups l
  have henv := h.env.trans h'.env.symm
  have hdeclared := h.declaredTags.trans h'.declaredTags.symm
  have happlied := h.appliedTags.trans h'.appliedTags.symm
  have hchanges := h.changes.trans h'.changes.symm
  rw [List.map_inj_right fun t t' => by simp [Prod.ext_iff]] at hdeclared hchanges
  rw [List.map_inj_right fun name name' => by simp] at happlied
  generalize groups l = other at henv hdeclared happlied hchanges ⊢
  cases g
  cases henv
  cases hdeclared
  cases happlied
  cases hchanges
  rfl

/-- The environment has the statements that start their variables. -/
theorem env_groups (l : List Statement) :
    (groups l).env = (picked startsVariable [] l).filterMap envPair? :=
  (gathered_groups l).env

/-- The declared tags are written in their order. -/
theorem declaredTags_groups (l : List Statement) :
    (groups l).declaredTags.map (fun t => Statement.declareTag t.1 t.2) =
      l.filter (·.declaredTag?.isSome) :=
  (gathered_groups l).declaredTags

/-- The applied tags are written in their order. -/
theorem appliedTags_groups (l : List Statement) :
    (groups l).appliedTags.map Statement.applyTag = l.filter (·.appliedTag?.isSome) :=
  (gathered_groups l).appliedTags

/-- The list of changes has those that the environment does not take. -/
theorem changes_groups (l : List Statement) :
    (groups l).changes.map (fun c => Statement.change c.1 c.2) = picked staysChange [] l :=
  (gathered_groups l).changes

end Normal

end PackageScript
