import PackageScript.Checked
/-! Outcomes of checked results: what an answer says about the steps that lead to it. -/
namespace PackageScript.Checked

variable {α β σ : Type}

@[simp] theorem ok_then (a : α) (f : α → Checked β) : (ok a >>= f) = f a :=
  pure_bind a f

theorem ofOption_some (p : Problem) (a : α) : ofOption p (some a) = ok a := rfl

@[simp] theorem outcome_ok {a b : α} : (ok a).outcome = .ok b ↔ a = b := by
  simp [ok]

@[simp] theorem outcome_fail {p : Problem} {a : α} : (fail p).outcome = .ok a ↔ False := by
  simp [fail]

@[simp] theorem outcome_ofOption {p : Problem} {o : Option α} {a : α} :
    (ofOption p o).outcome = .ok a ↔ o = some a := by
  cases o <;> simp [ofOption]

/-- A sequence answers if both of its steps do. -/
theorem outcome_bind {x : Checked α} {f : α → Checked β} {b : β} :
    (x >>= f).outcome = .ok b ↔ ∃ a, x.outcome = .ok a ∧ (f a).outcome = .ok b := by
  rcases x with ⟨ws, p | a⟩ <;> simp

/-- What every step of a fold keeps, its answer has. -/
theorem foldlM_invariant {step : σ → α → Checked σ} (P : σ → Prop) {entries : List α}
    (hstep : ∀ s, ∀ e ∈ entries, ∀ s', P s → (step s e).outcome = .ok s' → P s') {s s' : σ}
    (h : P s) (hs : (entries.foldlM step s).outcome = .ok s') : P s' := by
  induction entries generalizing s with
  | nil =>
    have : s = s' := by simpa using hs
    exact this ▸ h
  | cons e rest ih =>
    rw [List.foldlM_cons, outcome_bind] at hs
    obtain ⟨middle, hfirst, hrest⟩ := hs
    exact ih (fun s e he => hstep s e (List.mem_cons_of_mem _ he))
      (hstep s e List.mem_cons_self middle h hfirst) hrest

end PackageScript.Checked
