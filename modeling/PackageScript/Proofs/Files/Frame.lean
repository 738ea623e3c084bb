import PackageScript.Proofs.Files.Leaves
import PackageScript.Proofs.Files.Lexical
/-! What a call leaves as it is, whatever the disk: all that is neither at the places of its paths
nor below them. -/
namespace PackageScript.Disk

/-- The places at and below which a call can change something. Making a directory, which can only
add it where nothing is, does not count. -/
def changes (d : Disk) : Call → List Location
  | .write p _ | .remove p => [d.place p]
  | .rename p q => [d.place p, d.place q]
  | _ => []

variable {d e : Disk} {p q : Path}

private theorem rename_eq_setAt (h : d.rename p q = .ok e) :
    e = d ∨ ∃ moved, e = (d.setAt (d.place p) none).setAt (d.place q) moved := by
  rw [rename] at h
  split at h
  · cases h
  obtain ⟨-, -, h⟩ := bind_eq_ok.mp h
  obtain ⟨s, hs, h⟩ := bind_eq_ok.mp h
  obtain ⟨t, ht, h⟩ := bind_eq_ok.mp h
  split at h
  · rename_i sourceName targetName hsource htarget
    rw [place_of_slot hs hsource, place_of_slot ht htarget] at h
    obtain ⟨-, -, h⟩ := bind_eq_ok.mp h
    split at h
    · cases h
    obtain ⟨-, -, h⟩ := bind_eq_ok.mp h
    split at h
    · cases h
    split at h
    · cases h
    split at h
    · cases h
    split at h
    · cases h
      exact Or.inl rfl
    split at h
    · cases h
    · cases h
    · cases h
    · cases h
      exact Or.inr ⟨_, rfl⟩
  · cases h

/-- A directory is made where nothing was. -/
theorem createDirectory_eq_setAt (h : d.createDirectory p = .ok e) :
    d.view (d.place p) = none ∧ e = d.setAt (d.place p) (some (.directory [])) := by
  obtain ⟨m, hfollow, hview, he⟩ := createDirectory_eq_ok h
  rw [place_eq_unslashed, ← follow_eq_ok hfollow]
  exact ⟨hview, he⟩

/-- A new directory shows where nothing was, and all else is as it was. -/
theorem view_createDirectory (h : d.createDirectory p = .ok e) (m : Location) :
    e.view m = d.view m ∨ m = d.place p ∧ d.view m = none ∧ e.view m = some none := by
  obtain ⟨hfree, rfl⟩ := createDirectory_eq_setAt h
  rcases view_setAt_cases d (d.place p) m (some (.directory [])) with hsame | ⟨k, rfl, hnew⟩
  · exact Or.inl hsame
  cases k with
  | nil =>
    rw [List.append_nil] at hnew ⊢
    exact Or.inr ⟨rfl, hfree, hnew⟩
  | cons name below =>
    exact Or.inl (hnew.trans (view_below (not_hasDirectory_of_none hfree)
      (List.cons_ne_nil name below)).symm)

/-- Making a directory removes none. -/
theorem keeps_createDirectory (h : d.createDirectory p = .ok e) : d.Keeps e := by
  obtain ⟨hfree, rfl⟩ := createDirectory_eq_setAt h
  exact keeps_setAt _ (not_hasDirectory_of_none hfree)

private theorem current_changed {ε : Type} {r : Except ε Disk}
    (h : ∀ e, r = .ok e → e.current = d.current) : (answer.changed d r).2.current = d.current := by
  cases r with
  | ok e => exact h e rfl
  | error f => rfl

/-- No call changes where relative paths start from. -/
theorem current_answer (d : Disk) (call : Call) : (d.answer call).2.current = d.current := by
  cases call with
  | look p => rfl
  | read p => rfl
  | survey p => rfl
  | warn message => rfl
  | write p content =>
    refine current_changed fun e he => ?_
    cases hwrite : d.write p content with
    | ok e' =>
      rw [hwrite] at he
      cases he
      obtain ⟨m, -, -, rfl⟩ := write_eq_ok.mp hwrite
      rfl
    | error f =>
      rw [hwrite] at he
      cases he
  | createDirectory p => exact current_changed fun e he => (keeps_createDirectory he).current
  | remove p =>
    refine current_changed fun e he => ?_
    obtain ⟨m, -, -, rfl⟩ := remove_eq_ok.mp he
    rfl
  | rename p q =>
    refine current_changed fun e he => ?_
    rcases rename_eq_setAt he with rfl | ⟨moved, rfl⟩ <;> rfl

/-- No reply changes where relative paths start from. -/
theorem Replies.current {faulty : Call → Prop} {call : Call} {reply : call.Reply}
    (h : d.Replies faulty call reply e) : e.current = d.current := by
  cases h with
  | answered => exact current_answer d call
  | failed => rfl

/-- The frame of a call. -/
theorem Replies.view {faulty : Call → Prop} {call : Call} {reply : call.Reply}
    (h : d.Replies faulty call reply e) {m : Location} (hm : ∀ l ∈ d.changes call, ¬ l <+: m) :
    e.view m = d.view m ∨
      ∃ p, call = .createDirectory p ∧ m = d.place p ∧ d.view m = none ∧ e.view m = some none := by
  cases call with
  | look p => exact Or.inl (by rw [(replies_look.mp h).2])
  | read p => exact Or.inl (by rw [(replies_read h).1])
  | survey p => exact Or.inl (by rw [(replies_survey h).1])
  | warn message => exact Or.inl (by rw [replies_warn.mp h])
  | write p content =>
    rcases replies_write h with ⟨-, hwrite⟩ | ⟨-, rfl, -⟩
    · obtain ⟨l, hlocate, -, rfl⟩ := write_eq_ok.mp hwrite
      exact Or.inl (view_setAt (hm l (by simp [changes, place_of_locate hlocate])))
    · exact Or.inl rfl
  | createDirectory p =>
    rcases replies_createDirectory h with ⟨-, hcreate⟩ | ⟨-, rfl⟩
    · rcases view_createDirectory hcreate m with hsame | hnew
      · exact Or.inl hsame
      · exact Or.inr ⟨p, rfl, hnew⟩
    · exact Or.inl rfl
  | remove p =>
    rcases replies_remove h with ⟨-, hremove⟩ | ⟨-, rfl, -⟩
    · obtain ⟨l, hlocate, -, rfl⟩ := remove_eq_ok.mp hremove
      exact Or.inl (view_setAt (hm l (by simp [changes, place_of_locate hlocate])))
    · exact Or.inl rfl
  | rename p q =>
    rcases replies_rename h with ⟨-, hrename⟩ | ⟨-, rfl, -⟩
    · rcases rename_eq_setAt hrename with rfl | ⟨moved, rfl⟩
      · exact Or.inl rfl
      · rw [view_setAt (hm _ (by simp [changes])), view_setAt (hm _ (by simp [changes]))]
        exact Or.inl rfl
    · exact Or.inl rfl

end PackageScript.Disk

namespace PackageScript
open Disk

variable {α : Type} {P : Call → Prop} {faulty : Call → Prop} {d e : Disk} {m : Location}

/-- The frame of a program whose calls change nothing at or above a location: at most a directory
is made there, where nothing was. -/
theorem Program.Asks.frame {x : Program α} (hx : x.Asks P)
    (hm : ∀ call, P call → ∀ d' : Disk, d'.current = d.current → ∀ l ∈ d'.changes call, ¬ l <+: m)
    {a : α} (h : x.Leaves faulty d a e) :
    e.current = d.current ∧ (e.view m = d.view m ∨ d.view m = none ∧ e.view m = some none ∧
      ∃ q, P (.createDirectory q) ∧ d.place q = m) := by
  refine hx.leaves (K := fun d' => d'.current = d.current ∧ (d'.view m = d.view m ∨
    d.view m = none ∧ d'.view m = some none ∧ ∃ q, P (.createDirectory q) ∧ d.place q = m)) ?_ h
    ⟨rfl, Or.inl rfl⟩
  rintro call d' reply e' hcall ⟨hcurrent, hview⟩ hreply
  refine ⟨hreply.current.trans hcurrent, ?_⟩
  rcases hreply.view (hm call hcall d' hcurrent) with hsame | ⟨q, heq, hplace, hbefore, hafter⟩
  · rwa [hsame]
  · rcases hview with hview | ⟨-, hdirectory, -⟩
    · exact Or.inr ⟨hview ▸ hbefore, hafter, q, heq ▸ hcall,
        (place_congr hcurrent q).symm.trans hplace.symm⟩
    · rw [hdirectory] at hbefore
      cases hbefore

/-- A place that no call can change shows what it did, or a directory where nothing was. -/
theorem Job.Asks.frame {job : Job α} (hjob : job.Asks P)
    (hm : ∀ call, P call → ∀ d' : Disk, d'.current = d.current → ∀ l ∈ d'.changes call, ¬ l <+: m)
    {r : Except Failure α} (h : job.Leaves faulty d r e) :
    e.current = d.current ∧ (e.view m = d.view m ∨ d.view m = none ∧ e.view m = some none) := by
  obtain ⟨hcurrent, hsame | ⟨hbefore, hafter, -⟩⟩ := Program.Asks.frame hjob hm h
  · exact ⟨hcurrent, Or.inl hsame⟩
  · exact ⟨hcurrent, Or.inr ⟨hbefore, hafter⟩⟩

/-- A file in the frame of a job is kept. -/
theorem Job.Asks.view_file {job : Job α} (hjob : job.Asks P)
    (hm : ∀ call, P call → ∀ d' : Disk, d'.current = d.current → ∀ l ∈ d'.changes call, ¬ l <+: m)
    {r : Except Failure α} (h : job.Leaves faulty d r e) {content : Bytes}
    (hfile : d.view m = some (some content)) : e.view m = some (some content) := by
  rcases (hjob.frame hm h).2 with hsame | ⟨hnone, -⟩
  · exact hsame.trans hfile
  · rw [hfile] at hnone
    cases hnone

end PackageScript
