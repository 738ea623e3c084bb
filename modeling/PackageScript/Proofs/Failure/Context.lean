import PackageScript.Proofs.Failure.Advice
import PackageScript.Proofs.Text.Occurrence
/-! What a report shows of the contexts of a failure. -/
namespace PackageScript
open Text

/-- Whether a message is shown by both forms of a report. -/
structure Report.Shows (r : Report) (message : String) : Prop where
  text : Contains r.text message
  printed : Contains r.printed message

/-- A fault that is explained to the user in words of its own. -/
def Cause.Explained : Cause → Prop
  | .fault f => f.kind = .permissionDenied ∨ f.kind = .notFound
  | _ => False

namespace Report

variable {r : Report} {message details : String}

private theorem shows_of_problem (h : Contains r.problem.message message) : r.Shows message :=
  ⟨(h.append_left _).append_left _,
    ((((h.append_right "error: ").append_left "\n").append_left _).append_left _)⟩

private theorem shows_of_details (hdetails : r.details = some details)
    (h : Contains details message) :
    r.Shows message := by
  constructor
  · rw [text, hdetails]
    exact ((h.append_right "\nDetails: ").append_right _).append_left _
  · rw [printed, hdetails]
    exact (((h.append_right "details: ").append_left "\n").append_right _).append_left _

end Report

namespace Failure

private theorem contains_chainText (f : Failure) : Contains f.chainText f.outermost := by
  rw [chainText]
  split
  · exact contains_self _
  · exact ((contains_self _).append_left _).append_left _

private theorem shows_problemReport (f : Failure) (p : Problem) :
    (f.problemReport p).Shows f.outermost := by
  rw [problemReport]
  split
  · rename_i hsame
    refine Report.shows_of_problem ?_
    rw [p.retold.problem_report, p.message_retold, hsame]
    exact contains_self _
  · refine Report.shows_of_details rfl ?_
    split
    · exact ((contains_self _).append_left _).append_left _
    · exact contains_self _

section Cause

variable (contexts : List String) {cause : Cause}

private theorem shows_outermost (h : ¬ cause.Explained) :
    (Failure.mk contexts cause).report.Shows (Failure.mk contexts cause).outermost := by
  have hchain : Report.Shows { problem := .other (Failure.mk contexts cause).chainText }
      (Failure.mk contexts cause).outermost :=
    Report.shows_of_problem (contains_chainText _)
  cases cause with
  | problem p => exact shows_problemReport ⟨contexts, .problem p⟩ p
  | text message => exact hchain
  | fault fault =>
    obtain ⟨kind, message⟩ := fault
    cases kind with
    | permissionDenied => exact absurd (Or.inl rfl) h
    | notFound => exact absurd (Or.inr rfl) h
    | _ => exact hchain

private theorem report_of_explained (h : cause.Explained) :
    (Failure.mk contexts cause).report = (Failure.mk [] cause).report := by
  cases cause with
  | problem p => exact h.elim
  | text message => exact h.elim
  | fault fault =>
    obtain ⟨kind, message⟩ := fault
    rcases h with rfl | rfl <;> rfl

private theorem shows_message (h : cause.Explained) :
    (Failure.mk [] cause).report.Shows cause.message := by
  cases cause with
  | problem p => exact h.elim
  | text message => exact h.elim
  | fault fault =>
    obtain ⟨kind, message⟩ := fault
    rcases h with rfl | rfl
    · exact Report.shows_of_problem ((contains_self message).append_right "Permission denied: ")
    · exact Report.shows_of_problem ((contains_self message).append_right "File not found: ")

end Cause

/-- Both forms of a report show the outermost message of the failure, but for faults that are
explained: these are reported without their contexts, so that a context is only shown where it
happens to be a part of the explanation. A failure without contexts is always shown. -/
theorem outermost_shown_iff (contexts : List String) (cause : Cause) :
    let f : Failure := ⟨contexts, cause⟩
    let alone : Failure := ⟨[], cause⟩
    (f.report.Shows f.outermost ↔ (cause.Explained → alone.report.Shows f.outermost)) ∧
      (cause.Explained → f.report = alone.report) ∧ alone.report.Shows alone.outermost := by
  intro f alone
  by_cases h : cause.Explained
  · have hreport : f.report = alone.report := report_of_explained contexts h
    rw [hreport]
    exact ⟨⟨fun hshows _ => hshows, fun hshows => hshows h⟩, fun _ => rfl, shows_message h⟩
  · exact ⟨iff_of_true (shows_outermost contexts h) fun hexplained => absurd hexplained h,
      fun hexplained => absurd hexplained h, shows_outermost [] h⟩

/-- The file that may not be read is not named. -/
theorem outermost_hidden : ¬ ∀ f : Failure, f.report.Shows f.outermost := by
  intro h
  exact absurd (h ⟨["Failed to read config from c.toml"], .fault .permissionDenied⟩).text
    (by decide +kernel)

end Failure

end PackageScript
