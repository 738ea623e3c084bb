import PackageScript.Failure
/-! What a user is told to do about a problem, however far out it is reported. -/
namespace PackageScript

/-- Retelling a problem changes no message. -/
theorem Problem.message_retold (p : Problem) : p.retold.message = p.message := by
  cases p <;> rfl

/-- A report is about the problem that it is made from. -/
theorem Problem.problem_report (p : Problem) : p.report.problem = p := by
  cases p <;> rfl

/-- What is suggested for a problem after it has been retold: table syntax is not recognized. -/
theorem Problem.suggestion_retold (p : Problem) :
    p.retold.report.suggestion = match p with
      | .toml _ => none
      | _ => p.report.suggestion := by
  cases p <;> rfl

namespace Failure

private theorem foldr_within (contexts : List String) (f : Failure) :
    contexts.foldr within f = ⟨contexts ++ f.contexts, f.cause⟩ := by
  induction contexts with
  | nil => rfl
  | cons context rest ih =>
    rw [List.foldr_cons, ih]
    rfl

section Report

variable (f : Failure) (p : Problem)

private theorem problem_problemReport : (f.problemReport p).problem = p.retold := by
  rw [problemReport]
  split <;> exact p.retold.problem_report

/-- The context of a problem does not change what is suggested. -/
theorem suggestion_problemReport :
    (f.problemReport p).suggestion = p.retold.report.suggestion := by
  rw [problemReport]
  split <;> rfl

end Report

/-- Whatever contexts a problem has been wrapped in, the user is told its message. What is suggested
for the problem itself is suggested exactly if it is not one of table syntax, for which there is a
suggestion that is never given. -/
theorem advice_kept_iff (contexts : List String) (p : Problem) :
    let r := (contexts.foldr within (ofProblem p)).report
    r.problem.message = p.message ∧
      (r.suggestion = p.report.suggestion ↔ ∀ reason, p ≠ .toml reason) ∧
      (∀ reason, p = .toml reason → p.report.suggestion.isSome ∧ r.suggestion = none) := by
  intro r
  have hr : r = problemReport ⟨contexts ++ [], .problem p⟩ p :=
    congrArg report (foldr_within contexts (ofProblem p))
  rw [hr, problem_problemReport, suggestion_problemReport, p.message_retold, p.suggestion_retold]
  refine ⟨rfl, ?_, ?_⟩
  · cases p with
    | toml reason => exact iff_of_false (fun hkept => by cases hkept) fun h => h reason rfl
    | _ => exact iff_of_true rfl fun reason heq => by cases heq
  · rintro reason rfl
    exact ⟨rfl, rfl⟩

/-- The suggestion for a file of preferences that is no table is lost. -/
theorem advice_lost :
    ¬ ∀ (contexts : List String) (p : Problem),
      (contexts.foldr within (ofProblem p)).report.suggestion = p.report.suggestion := by
  intro h
  exact absurd (h ["Failed to parse config from c.toml"] (.toml Problem.unspecified)) (by decide)

end Failure

end PackageScript
