import PackageScript.Problem
/-! Results of reading a document: the warnings so far, and an answer or the first problem. -/
namespace PackageScript

/-- An answer or a problem, with the warnings given before it. -/
structure Checked (α : Type) where
  warnings : List String
  outcome : Except Problem α

namespace Checked

variable {α β : Type}

def ok (a : α) : Checked α := ⟨[], .ok a⟩

def fail (p : Problem) : Checked α := ⟨[], .error p⟩

def warn (message : String) : Checked Unit := ⟨[message], .ok ()⟩

def ofOption (p : Problem) : Option α → Checked α
  | some a => ok a
  | none => fail p

/-- Goes on with the answer. The warnings of both parts are kept, in order. -/
def andThen (x : Checked α) (f : α → Checked β) : Checked β :=
  match x.outcome with
  | .ok a => ⟨x.warnings ++ (f a).warnings, (f a).outcome⟩
  | .error p => ⟨x.warnings, .error p⟩

instance : Monad Checked where
  pure := ok
  bind := andThen

@[simp] theorem pure_def (a : α) : (pure a : Checked α) = ⟨[], .ok a⟩ := rfl

@[simp] theorem ok_bind (ws : List String) (a : α) (f : α → Checked β) :
    ((⟨ws, .ok a⟩ : Checked α) >>= f) = ⟨ws ++ (f a).warnings, (f a).outcome⟩ := rfl

@[simp] theorem error_bind (ws : List String) (p : Problem) (f : α → Checked β) :
    ((⟨ws, .error p⟩ : Checked α) >>= f) = ⟨ws, .error p⟩ := rfl

private theorem map_id (x : Checked α) : id <$> x = x := by
  rcases x with ⟨ws, p | a⟩ <;> simp [Functor.map, andThen, ok]

private theorem bind_of_ok (a : α) (f : α → Checked β) : (pure a : Checked α) >>= f = f a := by
  simp

private theorem bind_twice {γ : Type} (x : Checked α) (f : α → Checked β) (g : β → Checked γ) :
    x >>= f >>= g = x >>= fun a => f a >>= g := by
  rcases x with ⟨ws, p | a⟩
  · rfl
  · rcases h : f a with ⟨vs, q | b⟩ <;> simp [h, List.append_assoc]

instance : LawfulMonad Checked := LawfulMonad.mk' Checked map_id bind_of_ok bind_twice

end Checked

end PackageScript
