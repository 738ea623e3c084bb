import PackageScript.Proofs.Files.Commands
import PackageScript.Proofs.Files.Local
/-! Documents of different packages are compiled independently, whatever the order. -/
namespace PackageScript

open Disk

namespace Job

variable {α β : Type} {d : Disk}

/-- Whether a job fails on a disk without a trace: it changes nothing and warns of nothing. -/
def FailsAt (job : Job α) (d : Disk) : Prop :=
  ∃ f, job.run.run d = ⟨.error f, d, []⟩

private theorem failsAt_bind {job : Job α} (h : job.FailsAt d) (f : α → Job β) :
    (job >>= f).FailsAt d := by
  obtain ⟨failure, hrun⟩ := h
  refine ⟨failure, ?_⟩
  rw [ExceptT.run_bind, Program.run_bind, hrun]
  rfl

private theorem failsAt_map {job : Job α} (h : job.FailsAt d) (f : α → β) :
    (f <$> job).FailsAt d := by
  rw [map_eq_pure_bind]
  exact failsAt_bind h _

private theorem failsAt_within {job : Job α} (h : job.FailsAt d) (context : String) :
    (within context job).FailsAt d := by
  obtain ⟨failure, hrun⟩ := h
  refine ⟨failure.within context, ?_⟩
  change (job.run >>= fun r => pure (r.mapError (Failure.within context))).run d = _
  rw [Program.run_bind, hrun]
  rfl

private theorem failsAt_readText {p : Path} {fault : Fault} (h : d.read p = .error fault)
    (context : String) : (readText context p).FailsAt d := by
  have hread : (ask (.read p) : Job (Except Fault Bytes)).run.run d = ⟨.ok (.error fault), d, []⟩ := by
    change ((Program.ofCall (.read p)) >>= fun r => pure (Except.ok r)).run d = _
    rw [Program.run_bind, Program.run_ofCall, answer, h]
    rfl
  refine ⟨(Failure.ofFault fault).within context, ?_⟩
  rw [readText, ExceptT.run_bind, Program.run_bind, hread]
  rfl

end Job

namespace Command
open Files Job

variable (i : Invocation) {p : Preferences} (format : OutputFormat)

private theorem failsAt_make {d : Disk} {document : Path}
    (h : ¬ ∃ l, d.Enters (packageOf document) l) : (Product.make i p format document).FailsAt d := by
  have hcompile : (Files.compile document format).FailsAt d := by
    cases hread : d.read document with
    | ok content => exact absurd (enters_packageOf hread) h
    | error fault => exact failsAt_bind (failsAt_readText hread _) _
  refine failsAt_within ?_ _
  split
  · exact failsAt_map hcompile _
  · exact failsAt_map (failsAt_bind hcompile _) _

/-- Whether a result for a document is the one that it has alone, on a disk of its own. Only if the
package of the document is not there, the two can be different failures. -/
inductive AsAlone (d : Disk) (document : Path) :
    Except Failure Product → Except Failure Product → Prop
  | same (r : Except Failure Product) : AsAlone d document r r
  | missing (f g : Failure) : (¬ ∃ l, d.Enters (packageOf document) l) →
      AsAlone d document (.error f) (.error g)

def alone (i : Invocation) (p : Preferences) (format : OutputFormat) (d : Disk) (document : Path) :
    Run (Except Failure Product) :=
  (Product.make i p format document).run.run d

private theorem alone_of_agree (hp : p.fault? = none) {d e : Disk} {document : Path}
    (h : d.Agree (d.place (packageOf document)) e) :
    AsAlone d document (alone i p format d document).result (alone i p format e document).result ∧
      (alone i p format e document).warnings = (alone i p format d document).warnings ∧
      (alone i p format d document).disk.Agree (d.place (packageOf document))
        (alone i p format e document).disk ∧
      e.Within (d.place (packageOf document)) (alone i p format e document).disk := by
  by_cases hpackage : ∃ l, d.Enters (packageOf document) l
  · obtain ⟨here, henters⟩ := hpackage
    rw [henters.place_eq] at h ⊢
    have hlocal := local_make i hp format henters
    refine ⟨?_, hlocal.warnings e h, hlocal.agree e h, hlocal.within e h⟩
    rw [alone, alone, hlocal.result e h]
    exact .same _
  · have hpackage' : ¬ ∃ l, e.Enters (packageOf document) l := by
      simpa only [h.toLevels.enters_iff] using hpackage
    obtain ⟨f, hf⟩ := failsAt_make (p := p) i format hpackage
    obtain ⟨g, hg⟩ := failsAt_make (p := p) i format hpackage'
    rw [alone, alone, hf, hg]
    exact ⟨.missing f g hpackage, rfl, h, .refl _ e⟩

/-- What compiling documents one after another comes to if none of them matters for the others:
each one ends as it does alone and leaves its package as it does then, and all else is as it was. -/
structure Independent (i : Invocation) (p : Preferences) (format : OutputFormat) (d : Disk)
    (documents : List Path) (all : Run (List Attempt)) : Prop where
  order : all.result.map Prod.fst = documents
  results : ∀ attempt ∈ all.result,
    AsAlone d attempt.1 (alone i p format d attempt.1).result attempt.2
  warnings : all.warnings = documents.flatMap fun q => (alone i p format d q).warnings
  levels : d.Levels all.disk
  packages : ∀ q ∈ documents, ∀ name, all.disk.view (d.place (packageOf q) ++ [name]) =
    (alone i p format d q).disk.view (d.place (packageOf q) ++ [name])
  elsewhere : ∀ l, (∀ q ∈ documents, ∀ name, l ≠ d.place (packageOf q) ++ [name]) →
    all.disk.view l = d.view l

private theorem AsAlone.trans {d e : Disk} (h : d.Levels e) {document : Path}
    {r s t : Except Failure Product} (hr : AsAlone d document r s) (hs : AsAlone e document s t) :
    AsAlone d document r t := by
  cases hs with
  | same => exact hr
  | missing f g hmissing =>
    have hmissing' : ¬ ∃ l, d.Enters (packageOf document) l := by
      simpa only [h.enters_iff] using hmissing
    cases hr with
    | same => exact .missing f g hmissing'
    | missing f' => exact .missing f' g hmissing'

/-- A document whose package is there has the very result that it has alone. -/
theorem Independent.result_eq {d : Disk} {documents : List Path} {all : Run (List Attempt)}
    (h : Independent i p format d documents all) {attempt : Attempt} (hmem : attempt ∈ all.result)
    (hthere : ∃ l, d.Enters (packageOf attempt.1) l) :
    attempt.2 = (alone i p format d attempt.1).result := by
  have hresult := h.results attempt hmem
  generalize (alone i p format d attempt.1).result = r, attempt.2 = s at hresult ⊢
  cases hresult with
  | same => rfl
  | missing _ _ hmissing => exact absurd hthere hmissing

private theorem run_attemptAll_cons (document : Path) (rest : List Path) (d : Disk) :
    (attemptAll i p format (document :: rest)).run d =
      let first := alone i p format d document
      let others := (attemptAll i p format rest).run first.disk
      ⟨(document, first.result) :: others.result, others.disk,
        first.warnings ++ others.warnings⟩ := by
  simp only [attemptAll, alone, List.mapM_cons, Program.run_bind, Program.run_pure,
    List.append_nil]

private theorem independent_attemptAll (hp : p.fault? = none) {documents : List Path} (d : Disk)
    (hplaces : documents.Pairwise fun q r => d.place (packageOf q) ≠ d.place (packageOf r)) :
    Independent i p format d documents ((attemptAll i p format documents).run d) := by
  induction documents generalizing d with
  | nil => exact ⟨rfl, nofun, rfl, .refl d, nofun, fun _ _ => rfl⟩
  | cons document rest ih =>
    obtain ⟨hne, hrest⟩ := List.pairwise_cons.mp hplaces
    obtain ⟨-, -, -, hwithin⟩ :=
      alone_of_agree i format hp (.refl (d.place (packageOf document)) d)
    rw [run_attemptAll_cons]
    dsimp only
    generalize hfirst : alone i p format d document = first at hwithin ⊢
    have hplace : first.disk.place = d.place := funext (place_congr hwithin.current)
    have hothers := ih first.disk (hplace.symm ▸ hrest)
    generalize (attemptAll i p format rest).run first.disk = others at hothers ⊢
    have hlevels : d.Levels others.disk := hwithin.toLevels.trans hothers.levels
    -- For the documents that follow, the disk looks as it did before the first one.
    have hseen (q : Path) (hq : q ∈ rest) :=
      alone_of_agree i format hp (hwithin.agree (hne q hq).symm)
    have hmem {attempt : Attempt} (h : attempt ∈ others.result) : attempt.1 ∈ rest :=
      hothers.order ▸ List.mem_map_of_mem h
    constructor
    · exact congrArg (document :: ·) hothers.order
    · refine List.forall_mem_cons.mpr ⟨hfirst ▸ .same _, fun attempt h => ?_⟩
      exact (hseen _ (hmem h)).1.trans hwithin.toLevels (hothers.results attempt h)
    · rw [List.flatMap_cons, hfirst, hothers.warnings]
      refine congrArg (first.warnings ++ ·) (List.flatMap_congr fun q hq => ?_)
      exact (hseen q hq).2.1
    · exact hlevels
    · refine List.forall_mem_cons.mpr ⟨fun name => ?_, fun q hq name => ?_⟩
      · rw [hfirst, hothers.elsewhere]
        intro q hq other heq
        rw [hplace] at heq
        exact hne q hq (List.append_inj_left' heq rfl)
      · have hpackage := hothers.packages q hq name
        rw [hplace] at hpackage
        rw [hpackage]
        exact (hseen q hq).2.2.1.entries name
    · intro l hl
      obtain ⟨hl, hrest⟩ := List.forall_mem_cons.mp hl
      rw [hothers.elsewhere l (by rwa [hplace])]
      exact hwithin.elsewhere l hl

/-- Documents of different packages are compiled independently, in any order. So the order does not
matter for what is on the disk afterwards either. The results are those that each document has
alone, but for a document whose package is not there: it fails in any order, and perhaps not with
the same message. -/
theorem independent_of_order (hp : p.fault? = none) (d : Disk) {documents order : List Path}
    (hplaces : documents.Pairwise fun q r => d.place (packageOf q) ≠ d.place (packageOf r))
    (horder : order.Perm documents) :
    Independent i p format d order ((attemptAll i p format order).run d) ∧
      ((attemptAll i p format order).run d).disk.view =
        ((attemptAll i p format documents).run d).disk.view := by
  have hfirst := independent_attemptAll i format hp d hplaces
  have hsecond := independent_attemptAll i format hp d (horder.symm.pairwise hplaces Ne.symm)
  refine ⟨hsecond, funext fun l => ?_⟩
  by_cases hl : ∃ q ∈ documents, ∃ name, l = d.place (packageOf q) ++ [name]
  · obtain ⟨q, hq, name, hl⟩ := hl
    rw [hl]
    exact (hsecond.packages q (horder.mem_iff.mpr hq) name).trans (hfirst.packages q hq name).symm
  · have hother : ∀ q ∈ documents, ∀ name, l ≠ d.place (packageOf q) ++ [name] :=
      fun q hq name heq => hl ⟨q, hq, name, heq⟩
    exact (hsecond.elsewhere l fun q hq => hother q (horder.mem_iff.mp hq)).trans
      (hfirst.elsewhere l hother).symm

/-- A package whose directory has the name of the script of the package around it. The script of
the outer one cannot be written, and the inner one is compiled as it is alone. -/
theorem independent_of_order_nested :
    let d : Disk := { top := [("a", .directory
      [("hscript.yml", .file (Text.Utf8.encode "package: {name: a}\n")),
        ("wscript", .directory
          [("hscript.yml", .file (Text.Utf8.encode "package: {name: b}\n"))])])] }
    let outer : Path := ⟨"a/hscript.yml"⟩
    let inner : Path := ⟨"a/wscript/hscript.yml"⟩
    let all := (attemptAll { verb := .compile } {} .script [outer, inner]).run d
    (alone { verb := .compile } {} .script d outer).result.isOk = false ∧
      (alone { verb := .compile } {} .script d inner).result.isOk = true ∧
      Independent { verb := .compile } {} .script d [outer, inner] all ∧
      all.disk.view =
        ((attemptAll { verb := .compile } {} .script [inner, outer]).run d).disk.view := by
  intro d outer inner all
  have hplaces : [inner, outer].Pairwise fun q r =>
      d.place (packageOf q) ≠ d.place (packageOf r) := by
    decide +kernel
  exact ⟨by decide +kernel, by decide +kernel,
    independent_of_order { verb := .compile } (p := {}) .script (by decide) d hplaces
      (List.Perm.swap inner outer [])⟩

end Command

end PackageScript
