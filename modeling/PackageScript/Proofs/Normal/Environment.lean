import PackageScript.Proofs.Normal.Fixpoint
import PackageScript.Proofs.Reading.KeyOrder
import PackageScript.Proofs.Text.Edges
/-! The map from variables to texts in the normal form of a document that has one. -/
namespace PackageScript
open Yaml

namespace Statement
open Reading

/-- What is said of a variable by a text can be expressed by that text again, whichever of its
edges were taken for the present value. -/
theorem envPair?_of_envStatement {name text : String} {s : Statement}
    (h : envStatement name text = some s) : s.envPair? = some (name, text) := by
  have hfilter : ∀ {respelled : String}, respelled = text →
      (Option.filter (fun text => envStatement name text = some s) (some respelled)).map
        (name, ·) = some (name, text) := by
    rintro _ rfl
    exact Option.map_eq_some_iff.mpr
      ⟨_, Option.filter_eq_some_iff.mpr ⟨rfl, decide_eq_true h⟩, rfl⟩
  have hread := h
  simp only [envStatement] at hread
  split at hread
  · cases hread
  split at hread
  · rename_i suffix hlead
    cases hread
    exact hfilter (Text.dropLead?_eq_some.mp hlead).symm
  split at hread
  · rename_i lead htail
    have htext := Text.dropTail?_eq_some.mp htail
    rw [← String.append_assoc] at htext
    cases hread
    exact hfilter htext.symm
  · cases hread
    exact hfilter rfl

private theorem startsVariable_of_distinct {before rest : List Statement} {s : Statement}
    {e : String × String} (he : s.envPair? = some e)
    (hdistinct : (((before ++ s :: rest).filterMap envPair?).map Prod.fst).Nodup) :
    startsVariable before s = true := by
  rw [List.filterMap_append, List.filterMap_cons_some he, List.map_append, List.map_cons,
    List.nodup_append] at hdistinct
  have hnew : before.any (expresses e.1) = false := by
    rw [List.any_eq_false]
    intro t ht hexpresses
    cases hearlier : t.envPair? with
    | none => simp [expresses, hearlier] at hexpresses
    | some e' =>
      have hname : e'.1 = e.1 := by simpa [expresses, hearlier] using hexpresses
      exact hdistinct.2.2 _ (List.mem_map_of_mem (List.mem_filterMap.mpr ⟨t, ht, hearlier⟩)) _
        List.mem_cons_self hname
  rw [startsVariable, he, Option.any_some, hnew]
  rfl

private theorem picked_of_distinct (before l : List Statement)
    (hdistinct : (((before ++ l).filterMap envPair?).map Prod.fst).Nodup)
    (hexpressed : ∀ s ∈ l, s.setting?.isSome = true → s.envPair?.isSome = true) :
    (picked startsVariable before l).filterMap envPair? = l.filterMap envPair? ∧
      picked staysChange before l = [] := by
  induction l generalizing before with
  | nil => exact ⟨rfl, rfl⟩
  | cons s rest ih =>
    obtain ⟨hstarts, hstays⟩ := ih (before ++ [s]) (by rwa [← List.append_cons])
      fun t ht => hexpressed t (List.mem_cons_of_mem s ht)
    rw [picked, picked, List.filterMap_append, hstarts, hstays]
    cases he : s.envPair? with
    | none =>
      have hstart : startsVariable before s = false := by
        rw [startsVariable, he]
        rfl
      have hstay : staysChange before s = false := by
        cases s with
        | change how setting => simpa [he] using hexpressed _ List.mem_cons_self rfl
        | _ => rfl
      rw [hstart, hstay, List.filterMap_cons_none he]
      exact ⟨rfl, rfl⟩
    | some e =>
      have hstart := startsVariable_of_distinct he hdistinct
      rw [hstart, staysChange_of_starts before s hstart, if_pos rfl, List.filterMap_cons_some he,
        List.filterMap_cons_some he]
      exact ⟨rfl, rfl⟩

end Statement

namespace Normal
open Statement

/-- Statements that change no variable twice, in ways that can be expressed, are written without
a list of changes. -/
theorem groups_of_distinct {l : List Statement}
    (hdistinct : ((l.filterMap envPair?).map Prod.fst).Nodup)
    (hexpressed : ∀ s ∈ l, s.setting?.isSome = true → s.envPair?.isSome = true) :
    (groups l).env = l.filterMap envPair? ∧ (groups l).changes = [] := by
  obtain ⟨hstarts, hstays⟩ := picked_of_distinct [] l hdistinct hexpressed
  rw [← changes_groups, List.map_eq_nil_iff] at hstays
  rw [env_groups]
  exact ⟨hstarts, hstays⟩

end Normal

namespace Reading
open Checked

private theorem envStatement_eq_none_iff {name text : String} :
    envStatement name text = none ↔ text = selfReference name := by
  simp only [envStatement]
  split
  · rename_i hself
    exact iff_of_true rfl hself
  · rename_i hself
    refine iff_of_false ?_ hself
    split
    · simp
    · split <;> simp

/-- Whether the text of an entry is nothing but the present value of its variable. -/
def isSelfReference : Tree × Tree → Bool
  | (.text name, .text text) => text = selfReference name
  | _ => false

/-- The statements of an environment can all be expressed, by the entries that they were read
from. -/
theorem envEntries_expressed {entries : Tree.Entries} {more : List Statement}
    (hu : ∀ e ∈ entries, e.1.Untagged ∧ e.2.Untagged)
    (h : (envEntries entries).outcome = .ok more) :
    (more.filterMap Statement.envPair?).map Normal.envEntry =
        entries.filter (fun e => !isSelfReference e) ∧
      ∀ s ∈ more, s.envPair?.isSome = true := by
  induction entries generalizing more with
  | nil =>
    cases outcome_ok.mp h
    exact ⟨rfl, by simp⟩
  | cons e rest ih =>
    obtain ⟨key, value⟩ := e
    obtain ⟨⟨hkey, hvalue⟩, hrest⟩ := List.forall_mem_cons.mp hu
    rw [envEntries] at h
    obtain ⟨name, hname, h⟩ := outcome_bind.mp h
    obtain ⟨text, htext, h⟩ := outcome_bind.mp h
    obtain ⟨tail, htail, h⟩ := outcome_bind.mp h
    cases h
    obtain rfl : key = .text name := (keyText_eq_ok hkey).mp hname
    obtain rfl : value = .text text := hvalue.string?_eq_some.mp (outcome_ofOption.mp htext)
    obtain ⟨hpairs, hall⟩ := ih hrest htail
    cases hs : envStatement name text with
    | none =>
      have hself : isSelfReference (.text name, .text text) = true :=
        decide_eq_true (envStatement_eq_none_iff.mp hs)
      rw [List.filter_cons_of_neg (by simp [hself])]
      exact ⟨hpairs, hall⟩
    | some s =>
      have hself : isSelfReference (.text name, .text text) = false :=
        decide_eq_false fun hself => by simp [envStatement_eq_none_iff.mpr hself] at hs
      have hpair := Statement.envPair?_of_envStatement hs
      rw [List.filter_cons_of_pos (by simp [hself]), Option.toList_some, List.singleton_append,
        List.filterMap_cons_some hpair, List.map_cons, hpairs]
      exact ⟨rfl, List.forall_mem_cons.mpr ⟨by rw [hpair]; rfl, hall⟩⟩

/-- Of the entries of a configure section only the environment and the list of changes change
variables. -/
theorem key_of_setting?_statementsOf {e : Tree × Tree} {s : Statement} (h : s ∈ statementsOf e)
    (hs : s.setting?.isSome = true) :
    e.1.string? = some "env" ∨ e.1.string? = some "statements" := by
  rw [statementsOf] at h
  split at h
  · rename_i c hc
    obtain ⟨key, phase?, hkey, -, hcases⟩ := configureEntry_eq_ok.mp hc
    rcases hcases with ⟨phase, -, rfl⟩ | ⟨-, statements, hstatements, rfl⟩
    · cases h
    · unfold statementsAfter at hstatements
      split at hstatements
      · exact Or.inl hkey
      · obtain ⟨name, content, rfl⟩ := (mem_of_declareTags hstatements s h).resolve_left
          List.not_mem_nil
        cases hs
      · obtain ⟨names, -, hstatements⟩ := outcome_bind.mp hstatements
        cases hstatements
        obtain ⟨name, -, rfl⟩ := List.mem_map.mp h
        cases hs
      · exact Or.inr hkey
      · cases outcome_ok.mp hstatements
        cases h
  · cases h

private theorem envEntries_statementsOf {entries : Tree.Entries}
    (h : (configureEntry {} (.text "env", .map entries)).Succeeds) :
    (envEntries entries).outcome = .ok (statementsOf (.text "env", .map entries)) := by
  obtain ⟨c, hc⟩ := h
  rw [statementsOf, hc]
  obtain ⟨key, phase?, hkey, hphase, hcases⟩ := configureEntry_eq_ok.mp hc
  cases hkey
  rcases hcases with ⟨phase, rfl, -⟩ | ⟨-, statements, hstatements, rfl⟩
  · cases outcome_ok.mp hphase
  · obtain ⟨more, hmore, hstatements⟩ := outcome_bind.mp hstatements
    cases hstatements
    exact hmore

section Sections

variable {conf env : Tree.Entries} (hconf : Tree.WellKeyed conf)
  (henv : Tree.lookup? "env" conf = some (.map env))
  (hchanges : Tree.lookup? "statements" conf = none)
include hconf henv hchanges

private theorem changes_of_env {e : Tree × Tree} (he : e ∈ conf) {s : Statement}
    (hs : s ∈ statementsOf e) (hsetting : s.setting?.isSome = true) :
    e = (.text "env", .map env) := by
  obtain ⟨key, value⟩ := e
  rcases key_of_setting?_statementsOf hs hsetting with hkey | hkey
  · obtain rfl : key = .text "env" := Tree.eq_text_of_string? (hconf.untagged _ he) hkey
    rw [← Tree.lookup?_eq_some_iff hconf.names, henv] at he
    cases he
    rfl
  · obtain rfl : key = .text "statements" := Tree.eq_text_of_string? (hconf.untagged _ he) hkey
    rw [← Tree.lookup?_eq_some_iff hconf.names, hchanges] at he
    cases he

private theorem envPairs_statementsOf :
    (conf.flatMap statementsOf).filterMap Statement.envPair? =
      (statementsOf (.text "env", .map env)).filterMap Statement.envPair? := by
  obtain ⟨front, back, rfl⟩ := List.append_of_mem (Tree.mem_of_lookup? henv)
  have hnew : "env" ∉ Tree.names (front ++ back) := by
    have hnames := (List.perm_middle.filterMap _).nodup_iff.mp hconf.names
    exact (List.nodup_cons.mp hnames).1
  have hother : ∀ e ∈ front ++ back, (statementsOf e).filterMap Statement.envPair? = [] := by
    refine fun e he => List.filterMap_eq_nil_iff.mpr fun s hs => ?_
    cases s with
    | change how setting =>
      have hmem := List.perm_middle.mem_iff.mpr (List.mem_cons_of_mem (.text "env", .map env) he)
      obtain rfl := changes_of_env hconf henv hchanges hmem hs rfl
      have hname : "env" ∈ Tree.names (front ++ back) := List.mem_filterMap.mpr ⟨_, he, rfl⟩
      exact absurd hname hnew
    | _ => rfl
  obtain ⟨hfront, hback⟩ := List.forall_mem_append.mp hother
  rw [List.filterMap_flatMap, List.flatMap_append, List.flatMap_cons,
    List.flatMap_eq_nil_iff.mpr hfront, List.flatMap_eq_nil_iff.mpr hback, List.nil_append,
    List.append_nil]

end Sections

end Reading

namespace Normal
open Reading

private theorem lookup?_env (c : Configuration) :
    Tree.lookup? "env" (configure c) =
      if ((groups c.statements).env.map envEntry).isEmpty then none
      else some (.map ((groups c.statements).env.map envEntry)) := by
  rw [← List.append_nil (configure c), configure_eq]
  cases (groups c.statements).env <;>
    simp [lookup?_phase, lookup?_part, Tree.lookup?, -List.append_nil]

private theorem names_envEntries (pairs : List (String × String)) :
    Tree.names (pairs.map envEntry) = pairs.map Prod.fst := by
  rw [Tree.names, List.filterMap_map, ← List.filterMap_eq_map]
  rfl

private theorem untagged_sectionEntries {t : Tree} (ht : t.Untagged) (name : String) :
    ∀ e ∈ sectionEntries name t, e.1.Untagged ∧ e.2.Untagged := by
  rcases sectionEntries_cases name t with hnil | ⟨root, part, hroot, hmem, hes⟩
  · simp [hnil]
  · rw [ht.entries?_eq_some.mp hroot, Tree.untagged_map] at ht
    have hpart := (ht _ hmem).2
    rwa [hpart.entries?_eq_some.mp hes, Tree.untagged_map] at hpart

section Environment

variable {t : Tree} {d : Descriptor} {env : Tree.Entries} (htagged : t.Untagged)
  (hkeys : t.EveryMap Tree.DistinctKeys) (h : (Reading.descriptor t).outcome = .ok d)
  (henv : Tree.lookup? "env" (sectionEntries "configure" t) = some (.map env))
  (hchanges : Tree.lookup? "statements" (sectionEntries "configure" t) = none)
include htagged hkeys h henv hchanges

private theorem groups_of_env :
    (groups d.configuration.statements).env.map envEntry =
        env.filter (fun e => !isSelfReference e) ∧
      (groups d.configuration.statements).changes = [] := by
  have hplain : PlainKeys t := ⟨hkeys, htagged.everyMap_untaggedKeys⟩
  have hconf := wellKeyed_sectionEntries hplain "configure"
  have hmem := Tree.mem_of_lookup? henv
  have hread := configure_sectionEntries h
  have hadded := envEntries_statementsOf ((succeeds_configure_iff.mp ⟨_, hread⟩).1 _ hmem)
  have huntagged := Tree.untagged_map.mp (untagged_sectionEntries htagged _ _ hmem).2
  have hwell := ((plainKeys_sectionEntries hplain _ _ hmem).entries? rfl).1
  obtain ⟨hkept, hall⟩ := envEntries_expressed huntagged hadded
  rw [← envPairs_statementsOf hconf henv hchanges, ← statements_configure hread] at hkept
  -- only the environment adds changes, so what they express differs in its names like its keys do
  have hdistinct :
      ((d.configuration.statements.filterMap Statement.envPair?).map Prod.fst).Nodup := by
    rw [← names_envEntries, hkept]
    exact hwell.names.sublist (List.filter_sublist.filterMap _)
  have hexpressed : ∀ s ∈ d.configuration.statements, s.setting?.isSome = true →
      s.envPair?.isSome = true := by
    intro s hs hsetting
    rw [statements_configure hread] at hs
    obtain ⟨e, he, hs⟩ := List.mem_flatMap.mp hs
    obtain rfl := changes_of_env hconf henv hchanges he hs hsetting
    exact hall s hs
  obtain ⟨hgroup, hnone⟩ := groups_of_distinct hdistinct hexpressed
  exact ⟨hgroup ▸ hkept, hnone⟩

/-- The map from variables to texts comes back in the normal form as it was, without the texts that
are nothing but the present value of their variable. If no other one is left, there is no map, and
in no case is there a list of changes. -/
theorem env_verbatim :
    let written := sectionEntries "configure" (descriptor d)
    let kept := env.filter fun e => !isSelfReference e
    Tree.lookup? "env" written = (if kept.isEmpty then none else some (.map kept)) ∧
      Tree.lookup? "statements" written = none := by
  intro written kept
  have hwritten : written = configure d.configuration :=
    sectionEntries_of_lookup? (lookup?_configure d)
  obtain ⟨hkept, hnone⟩ := groups_of_env htagged hkeys h henv hchanges
  rw [hwritten, lookup?_env, lookup?_statements, hkept, hnone]
  exact ⟨rfl, rfl⟩

end Environment

/-- A document with a text that has a present value at both edges, and a name that looks like the
edge of one. -/
def environmentTree : Tree :=
  .map [(.text "package", .map [(.text "name", .text "p")]),
    (.text "configure", .map [(.text "apply-tags", .text "fast"),
      (.text "env", .map [(.text "PATH", .text "$\x7bPATH\x7d:/opt:$\x7bPATH\x7d"),
        (.text "HOME", .text "$\x7bHOME\x7d"),
        (.text "A\x7d:", .text ":$\x7bA\x7d:\x7d"),
        (.text "", .text "")])])]

/-- All texts of that document are written back as they are, and no list of changes is needed. -/
theorem env_verbatim_edges :
    ∃ d, (Reading.descriptor environmentTree).outcome = .ok d ∧
      Tree.lookup? "env" (sectionEntries "configure" (descriptor d)) =
        some (.map [(.text "PATH", .text "$\x7bPATH\x7d:/opt:$\x7bPATH\x7d"),
          (.text "A\x7d:", .text ":$\x7bA\x7d:\x7d"), (.text "", .text "")]) ∧
      Tree.lookup? "statements" (sectionEntries "configure" (descriptor d)) = none := by
  have htagged : environmentTree.Untagged := by simp [environmentTree]
  have hkeys : environmentTree.EveryMap Tree.DistinctKeys := by
    simp [environmentTree, Tree.DistinctKeys, Tree.same]
  obtain ⟨henv, hnone⟩ := env_verbatim htagged hkeys rfl rfl rfl
  exact ⟨_, rfl, henv, hnone⟩

end Normal

end PackageScript
