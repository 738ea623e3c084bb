import PackageScript.Files.Disk
import PackageScript.Failure
import PackageScript.Checked
import PackageScript.Text.Utf8
/-! Programs over a disk: one call at a time, each with its answer, then a result. -/
namespace PackageScript

/-- The steps of writing a file at which a fault can come up. -/
inductive WriteStep where
  | opening
  | writing
  | syncing
  deriving DecidableEq, Repr

/-- What a program can ask of its surroundings. -/
inductive Call where
  | look (p : Path)
  | read (p : Path)
  | write (p : Path) (content : Bytes)
  | createDirectory (p : Path)
  | rename (source target : Path)
  | remove (p : Path)
  | survey (p : Path)
  | warn (message : String)

@[reducible] def Call.Reply : Call → Type
  | .look _ => Option EntryKind
  | .read _ => Except Fault Bytes
  | .write .. => Except (WriteStep × Fault) Unit
  | .createDirectory _ => Except Fault Unit
  | .rename .. => Except Fault Unit
  | .remove _ => Except Fault Unit
  | .survey _ => Except Fault (Directory Unit)
  | .warn _ => Unit

/-- A result, or a call and what to do with its answer. -/
inductive Program (α : Type) where
  | done (a : α)
  | ask (call : Call) (next : call.Reply → Program α)

/-- The answer of a disk to a call, and the disk after it. -/
def Disk.answer (d : Disk) : (call : Call) → call.Reply × Disk
  | .look p => (d.kind? p, d)
  | .read p => (d.read p, d)
  | .write p content => changed ((d.write p content).mapError (WriteStep.opening, ·))
  | .createDirectory p => changed (d.createDirectory p)
  | .rename source target => changed (d.rename source target)
  | .remove p => changed (d.remove p)
  | .survey p => (d.survey p, d)
  | .warn _ => ((), d)
where
  changed {ε : Type} : Except ε Disk → Except ε Unit × Disk
    | .ok after => (.ok (), after)
    | .error fault => (.error fault, d)

def Call.warning : Call → List String
  | .warn message => [message]
  | _ => []

/-- What comes of a program: its result, the disk after it, and its warnings in order. -/
structure Run (α : Type) where
  result : α
  disk : Disk
  warnings : List String

namespace Program

variable {α β : Type}

def andThen : Program α → (α → Program β) → Program β
  | .done a, f => f a
  | .ask call next, f => .ask call fun reply => (next reply).andThen f

instance : Monad Program where
  pure := .done
  bind := andThen

def ofCall (call : Call) : Program call.Reply :=
  .ask call .done

/-- Runs a program on a disk that nothing else uses. -/
def run : Program α → Disk → Run α
  | .done a, d => ⟨a, d, []⟩
  | .ask call next, d =>
    let (reply, after) := d.answer call
    let rest := (next reply).run after
    ⟨rest.result, rest.disk, call.warning ++ rest.warnings⟩

@[simp] theorem run_pure (a : α) (d : Disk) : (pure a : Program α).run d = ⟨a, d, []⟩ := rfl

/-- One call runs to its answer, and gives the warning that it carries. -/
theorem run_ofCall (call : Call) (d : Disk) :
    (ofCall call).run d = ⟨(d.answer call).1, (d.answer call).2, call.warning⟩ := by
  simp [ofCall, run]

/-- A sequence runs its first part, and then the rest on the disk that is left. -/
theorem run_bind (x : Program α) (f : α → Program β) (d : Disk) :
    (x >>= f).run d =
      let first := x.run d
      let rest := (f first.result).run first.disk
      ⟨rest.result, rest.disk, first.warnings ++ rest.warnings⟩ := by
  change (x.andThen f).run d = _
  induction x generalizing d with
  | done a => simp [andThen, run]
  | ask call next ih => simp [andThen, run, ih, List.append_assoc]

private theorem id_map_program (x : Program α) : id <$> x = x := by
  change x.andThen (fun a => .done a) = x
  induction x with
  | done a => rfl
  | ask call next ih => simp [andThen, ih]

private theorem bind_assoc_program {γ : Type} (x : Program α) (f : α → Program β)
    (g : β → Program γ) : x >>= f >>= g = x >>= fun a => f a >>= g := by
  change (x.andThen f).andThen g = x.andThen fun a => (f a).andThen g
  induction x with
  | done a => rfl
  | ask call next ih => simp [andThen, ih]

instance : LawfulMonad Program :=
  LawfulMonad.mk' Program id_map_program (fun _ _ => rfl) bind_assoc_program

end Program

/-- Programs that may fail. -/
abbrev Job := ExceptT Failure Program

namespace Job

variable {α : Type}

def ask (call : Call) : Job call.Reply :=
  ExceptT.lift (Program.ofCall call)

/-- Goes on with an answer. A fault fails in the context of what was being done. -/
def expect (context : String) : Except Fault α → Job α
  | .ok a => pure a
  | .error f => throw ((Failure.ofFault f).within context)

def within (context : String) (job : Job α) : Job α :=
  ExceptT.adapt (Failure.within context) job

def ofChecked (c : Checked α) : Job α := do
  c.warnings.forM fun message => ask (.warn message)
  match c.outcome with
  | .ok a => return a
  | .error p => throw (.ofProblem p)

def readText (context : String) (p : Path) : Job String := do
  let bytes ← expect context (← ask (.read p))
  match Text.Utf8.decode? bytes with
  | some s => return s
  | none => throw ((Failure.ofFault .notText).within context)

end Job

end PackageScript
