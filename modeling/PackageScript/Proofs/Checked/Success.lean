import PackageScript.Proofs.Checked.Outcome
/-! When a checked result has an answer. -/
namespace PackageScript.Checked

variable {α β σ : Type}

def Succeeds (x : Checked α) : Prop :=
  ∃ a, x.outcome = .ok a

@[simp] theorem succeeds_ok (a : α) : (ok a).Succeeds :=
  ⟨a, rfl⟩

@[simp] theorem not_succeeds_fail (p : Problem) : ¬(fail p : Checked α).Succeeds := by
  simp [Succeeds]

@[simp] theorem succeeds_mk_ok (ws : List String) (a : α) : (⟨ws, .ok a⟩ : Checked α).Succeeds :=
  ⟨a, rfl⟩

@[simp] theorem succeeds_warn (message : String) : (warn message).Succeeds :=
  ⟨(), rfl⟩

theorem succeeds_ofOption {p : Problem} {o : Option α} :
    (ofOption p o).Succeeds ↔ ∃ a, o = some a := by
  simp [Succeeds]

/-- A sequence succeeds if its first step does, and its second one on the answer. -/
theorem succeeds_bind {x : Checked α} {f : α → Checked β} :
    (x >>= f).Succeeds ↔ ∃ a, x.outcome = .ok a ∧ (f a).Succeeds := by
  simp only [Succeeds, outcome_bind]
  exact ⟨fun ⟨b, a, hx, hf⟩ => ⟨a, hx, b, hf⟩, fun ⟨a, hx, b, hf⟩ => ⟨b, a, hx, hf⟩⟩

/-- Steps whose success does not depend on each other succeed together if both do. -/
theorem succeeds_bind_iff {x : Checked α} {f : α → Checked β} {Q : Prop}
    (hf : ∀ a, (f a).Succeeds ↔ Q) : (x >>= f).Succeeds ↔ x.Succeeds ∧ Q := by
  rw [succeeds_bind]
  simp only [hf, exists_and_right]
  rfl

/-- What is followed by steps that always succeed succeeds if it does so itself. -/
theorem succeeds_bind_of_forall {x : Checked α} {f : α → Checked β} (hf : ∀ a, (f a).Succeeds) :
    (x >>= f).Succeeds ↔ x.Succeeds :=
  (succeeds_bind_iff fun a => iff_true_intro (hf a)).trans (iff_of_eq (and_true _))

section Folds

variable {step : σ → α → Checked σ} {entries : List α}

/-- A fold whose steps succeed or fail whatever came before succeeds if each of them does. -/
theorem succeeds_foldlM {I : σ → Prop} {P : α → Prop}
    (hstep : ∀ s, ∀ e ∈ entries, I s → ((step s e).Succeeds ↔ P e))
    (hkeep : ∀ s, ∀ e ∈ entries, ∀ s', I s → (step s e).outcome = .ok s' → I s')
    {s : σ} (hs : I s) : (entries.foldlM step s).Succeeds ↔ ∀ e ∈ entries, P e := by
  induction entries generalizing s with
  | nil => simp
  | cons e rest ih =>
    have hrest := fun s => @ih (fun s f hf => hstep s f (List.mem_cons_of_mem e hf))
      (fun s f hf => hkeep s f (List.mem_cons_of_mem e hf)) s
    rw [List.foldlM_cons, succeeds_bind, List.forall_mem_cons, ← hstep s e List.mem_cons_self hs]
    constructor
    · rintro ⟨middle, hfirst, hmore⟩
      exact ⟨⟨middle, hfirst⟩, (hrest middle (hkeep s e List.mem_cons_self middle hs hfirst)).mp hmore⟩
    · rintro ⟨⟨middle, hfirst⟩, hmore⟩
      exact ⟨middle, hfirst, (hrest middle (hkeep s e List.mem_cons_self middle hs hfirst)).mpr hmore⟩

/-- A fold that collects names and refuses those it has seen succeeds if each of its steps could
alone and no name comes twice. -/
theorem succeeds_foldlM_nodup {ν : Type} {P : α → Prop} (names : σ → List ν) (new : α → List ν)
    (hstep : ∀ s, ∀ e ∈ entries, (names s).Nodup →
      ((step s e).Succeeds ↔ P e ∧ (names s ++ new e).Nodup))
    (hnames : ∀ s, ∀ e ∈ entries, ∀ s', (step s e).outcome = .ok s' →
      names s' = names s ++ new e)
    {s : σ} (hs : (names s).Nodup) :
    (entries.foldlM step s).Succeeds ↔
      (∀ e ∈ entries, P e) ∧ (names s ++ entries.flatMap new).Nodup := by
  induction entries generalizing s with
  | nil => simp [hs]
  | cons e rest ih =>
    have hrest := fun s => @ih (fun s f hf => hstep s f (List.mem_cons_of_mem e hf))
      (fun s f hf => hnames s f (List.mem_cons_of_mem e hf)) s
    rw [List.foldlM_cons, succeeds_bind, List.forall_mem_cons, List.flatMap_cons,
      ← List.append_assoc]
    constructor
    · rintro ⟨middle, hfirst, hmore⟩
      obtain ⟨hP, hnodup⟩ := (hstep s e List.mem_cons_self hs).mp ⟨middle, hfirst⟩
      have hsame := hnames s e List.mem_cons_self middle hfirst
      obtain ⟨hall, hdistinct⟩ := (hrest middle (hsame ▸ hnodup)).mp hmore
      exact ⟨⟨hP, hall⟩, hsame ▸ hdistinct⟩
    · rintro ⟨⟨hP, hall⟩, hdistinct⟩
      have hnodup := (List.nodup_append.mp hdistinct).1
      obtain ⟨middle, hfirst⟩ := (hstep s e List.mem_cons_self hs).mpr ⟨hP, hnodup⟩
      have hsame := hnames s e List.mem_cons_self middle hfirst
      exact ⟨middle, hfirst, (hrest middle (hsame ▸ hnodup)).mpr ⟨hall, hsame ▸ hdistinct⟩⟩

end Folds

end PackageScript.Checked
