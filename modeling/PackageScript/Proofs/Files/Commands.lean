import PackageScript.Proofs.Files.Found
/-! What commands do to a disk, from what they do for each document that they find. -/
namespace PackageScript.Command

open Job Files Disk

variable {faulty : Call → Prop} {i : Invocation} {p : Preferences} {format : OutputFormat}
  {d e : Disk}

section Lists

variable {K : Disk → Prop} {documents : List Path}

/-- What compiling each document keeps is kept by compiling one after another. -/
theorem kept_of_attemptAll {attempts : List Attempt}
    (hstep : ∀ document ∈ documents, ∀ d r e, K d →
      (Product.make i p format document).Leaves faulty d r e → K e)
    (h : (attemptAll i p format documents).Leaves faulty d attempts e) (hd : K d) : K e := by
  induction documents generalizing d attempts with
  | nil =>
    obtain ⟨-, rfl⟩ := Program.leaves_pure.mp h
    exact hd
  | cons document rest ih =>
    rw [attemptAll, List.mapM_cons] at h
    obtain ⟨attempt, m, hfirst, hrest⟩ := Program.leaves_bind.mp h
    obtain ⟨r, m', hmake, hpair⟩ := Program.leaves_bind.mp hfirst
    obtain ⟨-, rfl⟩ := Program.leaves_pure.mp hpair
    obtain ⟨others, m', hothers, hlast⟩ := Program.leaves_bind.mp hrest
    obtain ⟨-, rfl⟩ := Program.leaves_pure.mp hlast
    exact ih (fun q hq => hstep q (List.mem_cons_of_mem document hq)) hothers
      (hstep document List.mem_cons_self d r m hd hmake)

/-- What cleaning up after each document keeps, cleaning up after all of them keeps. -/
theorem kept_of_cleanAll {drop : Bool} {t : Transcript}
    (hstep : ∀ document ∈ documents, ∀ d r e, K d →
      (cleanPackage p drop document).Leaves faulty d r e → K e)
    (h : (cleanAll p drop documents).Leaves faulty d t e) (hd : K d) : K e := by
  induction documents generalizing d t with
  | nil =>
    obtain ⟨-, rfl⟩ := Program.leaves_pure.mp h
    exact hd
  | cons document rest ih =>
    rw [cleanAll] at h
    obtain ⟨r, m, hclean, hrest⟩ := Program.leaves_bind.mp h
    have hm := hstep document List.mem_cons_self d r m hd hclean
    cases r with
    | ok done =>
      obtain ⟨others, m', hothers, hlast⟩ := Program.leaves_bind.mp hrest
      obtain ⟨-, rfl⟩ := Program.leaves_pure.mp hlast
      exact ih (fun q hq => hstep q (List.mem_cons_of_mem document hq)) hothers hm
    | error failure =>
      obtain ⟨-, rfl⟩ := Program.leaves_pure.mp hrest
      exact hm

end Lists

/-- A command that compiles into packages compiles each document that it finds, or changes
nothing: it finds none, or fails to find them. -/
theorem compile_cases (houtput : i.output = none) {r : Except Failure Transcript}
    (h : (compile i p).Leaves faulty d r e) :
    (e = d ∧ (found i p d = .ok [] ∨ ∃ f, (findDocuments p.documentName (i.has .recursive)
      i.paths).Leaves faulty d (.error f) d)) ∨
      ∃ documents attempts, found i p d = .ok documents ∧
        (attemptAll i p (i.format.getD p.format) documents).Leaves faulty d attempts e ∧
        r = .ok (.followedBy (.concat (attempts.map (·.report (1 < documents.length))))
          { failure := compileSummary attempts }) := by
  rcases leaves_bind.mp h with ⟨documents, m, hfind, hrest⟩ | ⟨f, rfl, hfind⟩
  · obtain ⟨rfl, hfound⟩ := leaves_findDocuments hfind
    split at hrest
    · rename_i hempty
      obtain ⟨-, rfl⟩ := leaves_pure.mp hrest
      exact Or.inl ⟨rfl, Or.inl (by rw [hfound documents rfl, List.isEmpty_iff.mp hempty])⟩
    rw [houtput] at hrest
    obtain ⟨attempts, m', hlift, hlast⟩ | ⟨f, -, hlift⟩ := leaves_bind.mp hrest
    · obtain ⟨rfl, rfl⟩ := leaves_pure.mp hlast
      obtain ⟨_, ⟨⟩, hattempts⟩ := leaves_lift.mp hlift
      exact Or.inr ⟨documents, attempts, hfound documents rfl, hattempts, rfl⟩
    · obtain ⟨_, ⟨⟩, -⟩ := leaves_lift.mp hlift
  · obtain ⟨rfl, -⟩ := leaves_findDocuments hfind
    exact Or.inl ⟨rfl, Or.inr ⟨f, hfind⟩⟩

/-- The command that cleans up fails to find documents and changes nothing, or cleans up after
those that it finds. -/
theorem clean_cases {r : Except Failure Transcript} (h : (clean i p).Leaves faulty d r e) :
    (e = d ∧ ∃ f, (findDocuments p.documentName (i.has .recursive)
      i.paths).Leaves faulty d (.error f) d) ∨
      ∃ documents t, found i p d = .ok documents ∧
        (cleanAll p (i.has .dropBackup) documents).Leaves faulty d t e ∧ r = .ok t := by
  rcases leaves_bind.mp h with ⟨documents, m, hfind, hlift⟩ | ⟨f, rfl, hfind⟩
  · obtain ⟨rfl, hfound⟩ := leaves_findDocuments hfind
    obtain ⟨t, rfl, hclean⟩ := leaves_lift.mp hlift
    exact Or.inr ⟨documents, t, hfound documents rfl, hclean, rfl⟩
  · obtain ⟨rfl, -⟩ := leaves_findDocuments hfind
    exact Or.inl ⟨rfl, f, hfind⟩

section Single

variable {document : Path}

theorem leaves_attemptAll_singleton {attempts : List Attempt}
    (h : (attemptAll i p format [document]).Leaves faulty d attempts e) :
    ∃ r, attempts = [(document, r)] ∧
      (Product.make i p format document).Leaves faulty d r e := by
  rw [attemptAll, List.mapM_cons, List.mapM_nil] at h
  obtain ⟨attempt, m, hfirst, hrest⟩ := Program.leaves_bind.mp h
  rw [pure_bind] at hrest
  obtain ⟨rfl, rfl⟩ := Program.leaves_pure.mp hrest
  obtain ⟨r, m, hmake, hlast⟩ := Program.leaves_bind.mp hfirst
  obtain ⟨rfl, rfl⟩ := Program.leaves_pure.mp hlast
  exact ⟨r, rfl, hmake⟩

theorem leaves_cleanAll_singleton {drop : Bool} {t : Transcript}
    (h : (cleanAll p drop [document]).Leaves faulty d t e) :
    ∃ r, (cleanPackage p drop document).Leaves faulty d r e := by
  rw [cleanAll] at h
  obtain ⟨r, m, hclean, hrest⟩ := Program.leaves_bind.mp h
  cases r with
  | ok done =>
    obtain ⟨_, _, hnil, hlast⟩ := Program.leaves_bind.mp hrest
    obtain ⟨-, rfl⟩ := Program.leaves_pure.mp hnil
    obtain ⟨-, rfl⟩ := Program.leaves_pure.mp hlast
    exact ⟨_, hclean⟩
  | error failure =>
    obtain ⟨-, rfl⟩ := Program.leaves_pure.mp hrest
    exact ⟨_, hclean⟩

/-- A command that compiles one document fails if and only if that document fails. -/
theorem failure_singleton (several : Bool) (r : Except Failure Product) :
    (Transcript.followedBy (.concat ([(document, r)].map (Attempt.report several)))
      { failure := compileSummary [(document, r)] }).failure = none ↔ ∃ made, r = .ok made := by
  cases r with
  | ok made => exact ⟨fun _ => ⟨made, rfl⟩, fun _ => rfl⟩
  | error f =>
    refine ⟨fun h => ?_, nofun⟩
    simp only [Transcript.followedBy, Transcript.concat, compileSummary] at h
    split at h
    · rename_i hnone
      cases hnone
    · split at h <;> cases h

end Single

end PackageScript.Command
