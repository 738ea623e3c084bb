import PackageScript.Files.Backup
import PackageScript.Proofs.Files.Leaves
/-! How moving a script aside, moving it back and cleaning up end. -/
namespace PackageScript

/-- Whether a content is not marked as generated. -/
def HandWritten (content : Bytes) : Prop :=
  isGenerated (Text.Utf8.decodeLossy content) = false

instance (content : Bytes) : Decidable (HandWritten content) :=
  inferInstanceAs (Decidable (_ = _))

namespace Files
open Job

/-- How moving a script aside ends. -/
inductive MovesAside (d : Disk) (script backup : Path) : Except Failure BackupOutcome → Disk → Prop
  | absent : d.kind? script = none → MovesAside d script backup (.ok .absent) d
  | generated {content : Bytes} : d.read script = .ok content → ¬ HandWritten content →
      MovesAside d script backup (.ok .generated) d
  | moved {content : Bytes} {e : Disk} : d.read script = .ok content → HandWritten content →
      d.kind? backup = none → d.rename script backup = .ok e →
      MovesAside d script backup (.ok .movedAside) e
  | refused {f : Failure} : MovesAside d script backup (.error f) d

/-- How settling the backup of a script that is gone ends. -/
inductive Settles (faulty : Call → Prop) (d : Disk) (script backup : Path) (removed : Bool) :
    Bool → Except Failure CleanOutcome → Disk → Prop
  | absent {drop : Bool} : d.kind? backup = none →
      Settles faulty d script backup removed drop (.ok { removed }) d
  | dropped {e : Disk} : d.kind? backup ≠ none → d.remove backup = .ok e →
      Settles faulty d script backup removed true (.ok { removed, droppedBackup := true }) e
  | restored {e : Disk} : d.kind? backup ≠ none → d.rename backup script = .ok e →
      Settles faulty d script backup removed false (.ok { removed, restored := true }) e
  | undropped {f : Failure} : d.kind? backup ≠ none → d.Refuses faulty (.remove backup) →
      Settles faulty d script backup removed true (.error f) d
  | unrestored {f : Failure} : d.kind? backup ≠ none →
      d.Refuses faulty (.rename backup script) →
      Settles faulty d script backup removed false (.error f) d

/-- How cleaning up ends. -/
inductive Cleans (faulty : Call → Prop) (d : Disk) (script backup : Path) (drop : Bool) :
    Except Failure CleanOutcome → Disk → Prop
  | kept {content : Bytes} : d.read script = .ok content → HandWritten content →
      Cleans faulty d script backup drop (.ok {}) d
  | absent {r : Except Failure CleanOutcome} {e : Disk} : d.kind? script = none →
      Settles faulty d script backup false drop r e → Cleans faulty d script backup drop r e
  | removed {content : Bytes} {m : Disk} {r : Except Failure CleanOutcome} {e : Disk} :
      d.read script = .ok content → ¬ HandWritten content → d.remove script = .ok m →
      Settles faulty m script backup true drop r e → Cleans faulty d script backup drop r e
  | unread {f : Failure} : d.Refuses faulty (.read script) →
      Cleans faulty d script backup drop (.error f) d
  | unremoved {f : Failure} : d.Refuses faulty (.remove script) →
      Cleans faulty d script backup drop (.error f) d

section Asks

variable {P : Call → Prop} {script backup p : Path}

private theorem asks_isPresent (hlook : ∀ q, P (.look q)) : (isPresent p).Asks P :=
  asks_bind (asks_ask (hlook p)) fun _ => asks_pure _

private theorem asks_readGenerated (hread : ∀ q, P (.read q)) : (readGenerated p).Asks P :=
  asks_bind (asks_ask (hread p)) fun reply => asks_bind (asks_expect reply) fun _ => asks_pure _

/-- Moving a script aside looks, reads, and moves the script to the backup. -/
theorem asks_moveAside (hlook : ∀ q, P (.look q)) (hread : ∀ q, P (.read q))
    (haside : P (.rename script backup)) : (moveAside script backup).Asks P := by
  refine asks_bind (asks_isPresent hlook) fun present => ?_
  cases present with
  | false => exact asks_pure _
  | true =>
    refine asks_bind (asks_readGenerated hread) fun generated => ?_
    cases generated with
    | true => exact asks_pure _
    | false =>
      refine asks_bind (asks_isPresent hlook) fun occupied => ?_
      cases occupied with
      | true => exact asks_throw _
      | false =>
        exact asks_bind (asks_ask haside) fun reply =>
          asks_bind (asks_expect reply) fun _ => asks_pure _

theorem asks_restore (hback : P (.rename backup script)) : (restore script backup).Asks P :=
  asks_bind (asks_ask hback) asks_expect

private theorem asks_removeFile (hremove : P (.remove p)) : (removeFile p).Asks P :=
  asks_bind (asks_ask hremove) asks_expect

private theorem asks_settleBackup {drop removed : Bool} (hlook : ∀ q, P (.look q))
    (hback : P (.rename backup script)) (hremove : P (.remove backup)) :
    (settleBackup script backup drop removed).Asks P := by
  refine asks_bind (asks_isPresent hlook) fun present => ?_
  cases present with
  | false => exact asks_pure _
  | true =>
    cases drop with
    | true => exact asks_bind (asks_removeFile hremove) fun _ => asks_pure _
    | false => exact asks_bind (asks_restore hback) fun _ => asks_pure _

/-- Cleaning up touches nothing but the script and the backup. -/
theorem asks_clean {drop : Bool} (hlook : ∀ q, P (.look q)) (hread : ∀ q, P (.read q))
    (hwarn : ∀ message, P (.warn message)) (hback : P (.rename backup script))
    (hscript : P (.remove script)) (hbackup : P (.remove backup)) :
    (clean script backup drop).Asks P := by
  refine asks_bind (asks_isPresent hlook) fun present => ?_
  cases present with
  | false => exact asks_settleBackup hlook hback hbackup
  | true =>
    refine asks_bind (asks_readGenerated hread) fun generated => ?_
    cases generated with
    | true =>
      exact asks_bind (asks_removeFile hscript) fun _ => asks_settleBackup hlook hback hbackup
    | false => exact asks_bind (asks_ask (hwarn _)) fun _ => asks_pure _

end Asks

section Leaves

variable {faulty : Call → Prop} {d e : Disk} {script backup p : Path}

variable {α : Type} {r : Except Failure α}

private theorem leaves_isPresent_bind {f : Bool → Job α}
    (h : (isPresent p >>= f).Leaves faulty d r e) :
    (f (d.kind? p).isSome).Leaves faulty d r e := by
  rw [isPresent, bind_assoc] at h
  rcases leaves_bind.mp h with ⟨reply, m, hask, hnext⟩ | ⟨failure, -, hask⟩
  · obtain ⟨_, ⟨⟩, hreply⟩ := leaves_ask.mp hask
    obtain ⟨rfl, rfl⟩ := Disk.replies_look.mp hreply
    rwa [pure_bind] at hnext
  · obtain ⟨_, ⟨⟩, -⟩ := leaves_ask.mp hask

/-- What follows the look for the marker goes on with the content that is there, or with a failure
on the same disk. -/
theorem leaves_readGenerated_bind {f : Bool → Job α}
    (h : (readGenerated p >>= f).Leaves faulty d r e) :
    (∃ content, d.read p = .ok content ∧
        (f !decide (HandWritten content)).Leaves faulty d r e) ∨
      (∃ failure, r = .error failure) ∧ e = d ∧ d.Refuses faulty (.read p) := by
  rw [readGenerated, bind_assoc] at h
  rcases leaves_bind.mp h with ⟨reply, m, hask, hnext⟩ | ⟨failure, -, hask⟩
  · obtain ⟨_, ⟨⟩, hreply⟩ := leaves_ask.mp hask
    obtain ⟨rfl, ⟨content, rfl, hread⟩ | ⟨⟨fault, rfl⟩, hrefuses⟩⟩ := Disk.replies_read hreply
    · refine Or.inl ⟨content, hread, ?_⟩
      have hgenerated : (!decide (HandWritten content)) =
          isGenerated (Text.Utf8.decodeLossy content) := by
        cases hmark : isGenerated (Text.Utf8.decodeLossy content) <;> simp [HandWritten, hmark]
      rw [hgenerated]
      exact hnext
    · obtain ⟨rfl, rfl⟩ := leaves_throw.mp hnext
      exact Or.inr ⟨⟨_, rfl⟩, rfl, hrefuses⟩
  · obtain ⟨_, ⟨⟩, -⟩ := leaves_ask.mp hask

private theorem leaves_rename {context : String} {r : Except Failure Unit}
    (h : Job.Leaves faulty (do expect context (← ask (.rename script backup))) d r e) :
    (r = .ok () ∧ d.rename script backup = .ok e) ∨
      (∃ f, r = .error f) ∧ e = d ∧ d.Refuses faulty (.rename script backup) := by
  rcases leaves_bind.mp h with ⟨reply, m, hask, hnext⟩ | ⟨f, -, hask⟩
  · obtain ⟨_, ⟨⟩, hreply⟩ := leaves_ask.mp hask
    obtain ⟨rfl, rfl⟩ := leaves_expect.mp hnext
    rcases Disk.replies_rename hreply with ⟨rfl, hrename⟩ | ⟨⟨f, rfl⟩, rfl, hrefuses⟩
    · exact Or.inl ⟨rfl, hrename⟩
    · exact Or.inr ⟨⟨_, rfl⟩, rfl, hrefuses⟩
  · obtain ⟨_, ⟨⟩, -⟩ := leaves_ask.mp hask

/-- Moving a backup back is one move, or a failure that leaves the disk as it is. -/
theorem leaves_restore {r : Except Failure Unit} (h : (restore script backup).Leaves faulty d r e) :
    (r = .ok () ∧ d.rename backup script = .ok e) ∨
      (∃ f, r = .error f) ∧ e = d ∧ d.Refuses faulty (.rename backup script) :=
  leaves_rename h

private theorem leaves_removeFile {r : Except Failure Unit}
    (h : (removeFile p).Leaves faulty d r e) :
    (r = .ok () ∧ d.remove p = .ok e) ∨
      (∃ f, r = .error f) ∧ e = d ∧ d.Refuses faulty (.remove p) := by
  rcases leaves_bind.mp h with ⟨reply, m, hask, hnext⟩ | ⟨f, -, hask⟩
  · obtain ⟨_, ⟨⟩, hreply⟩ := leaves_ask.mp hask
    obtain ⟨rfl, rfl⟩ := leaves_expect.mp hnext
    rcases Disk.replies_remove hreply with ⟨rfl, hremove⟩ | ⟨⟨f, rfl⟩, rfl, hrefuses⟩
    · exact Or.inl ⟨rfl, hremove⟩
    · exact Or.inr ⟨⟨_, rfl⟩, rfl, hrefuses⟩
  · obtain ⟨_, ⟨⟩, -⟩ := leaves_ask.mp hask

/-- Moving a script aside ends in one of these ways, whichever calls fail. -/
theorem movesAside_of_leaves {r : Except Failure BackupOutcome}
    (h : (moveAside script backup).Leaves faulty d r e) : MovesAside d script backup r e := by
  have h := leaves_isPresent_bind h
  split at h
  · rename_i habsent
    obtain ⟨rfl, rfl⟩ := leaves_pure.mp h
    exact .absent (by simpa using habsent)
  rcases leaves_readGenerated_bind h with ⟨content, hread, h⟩ | ⟨⟨_, rfl⟩, rfl, -⟩
  · split at h
    · rename_i hcontent
      obtain ⟨rfl, rfl⟩ := leaves_pure.mp h
      exact .generated hread (by simpa using hcontent)
    rename_i hcontent
    have h := leaves_isPresent_bind h
    dsimp only at h
    split at h
    · obtain ⟨rfl, rfl⟩ := leaves_throw.mp h
      exact .refused
    rename_i hfree
    rw [← bind_assoc] at h
    rcases leaves_bind.mp h with ⟨_, m, hrename, hlast⟩ | ⟨_, rfl, hrename⟩
    · obtain ⟨rfl, rfl⟩ := leaves_pure.mp hlast
      obtain ⟨-, hrename⟩ | ⟨⟨_, ⟨⟩⟩, -⟩ := leaves_rename hrename
      exact .moved hread (by simpa using hcontent) (by simpa using hfree) hrename
    · obtain ⟨⟨⟩, -⟩ | ⟨-, rfl, -⟩ := leaves_rename hrename
      exact .refused
  · exact .refused

private theorem settles_of_leaves {drop removed : Bool} {r : Except Failure CleanOutcome}
    (h : (settleBackup script backup drop removed).Leaves faulty d r e) :
    Settles faulty d script backup removed drop r e := by
  have h := leaves_isPresent_bind h
  split at h
  · rename_i habsent
    obtain ⟨rfl, rfl⟩ := leaves_pure.mp h
    exact .absent (by simpa using habsent)
  rename_i hpresent
  have hpresent : d.kind? backup ≠ none := by simpa [Option.isSome_iff_ne_none] using hpresent
  cases drop with
  | true =>
    rcases leaves_bind.mp h with ⟨_, m, hremove, hlast⟩ | ⟨_, rfl, hremove⟩
    · obtain ⟨rfl, rfl⟩ := leaves_pure.mp hlast
      obtain ⟨-, hremove⟩ | ⟨⟨_, ⟨⟩⟩, -⟩ := leaves_removeFile hremove
      exact .dropped hpresent hremove
    · obtain ⟨⟨⟩, -⟩ | ⟨-, rfl, hrefuses⟩ := leaves_removeFile hremove
      exact .undropped hpresent hrefuses
  | false =>
    rcases leaves_bind.mp h with ⟨_, m, hrename, hlast⟩ | ⟨_, rfl, hrename⟩
    · obtain ⟨rfl, rfl⟩ := leaves_pure.mp hlast
      obtain ⟨-, hrename⟩ | ⟨⟨_, ⟨⟩⟩, -⟩ := leaves_restore hrename
      exact .restored hpresent hrename
    · obtain ⟨⟨⟩, -⟩ | ⟨-, rfl, hrefuses⟩ := leaves_restore hrename
      exact .unrestored hpresent hrefuses

/-- Cleaning up ends in one of these ways, whichever calls fail. -/
theorem cleans_of_leaves {drop : Bool} {r : Except Failure CleanOutcome}
    (h : (clean script backup drop).Leaves faulty d r e) :
    Cleans faulty d script backup drop r e := by
  have h := leaves_isPresent_bind h
  split at h
  · rcases leaves_readGenerated_bind h with ⟨content, hread, h⟩ | ⟨⟨_, rfl⟩, rfl, hrefuses⟩
    · split at h
      · rename_i hcontent
        rcases leaves_bind.mp h with ⟨_, m, hremove, hsettle⟩ | ⟨_, rfl, hremove⟩
        · obtain ⟨-, hremove⟩ | ⟨⟨_, ⟨⟩⟩, -⟩ := leaves_removeFile hremove
          exact .removed hread (by simpa using hcontent) hremove (settles_of_leaves hsettle)
        · obtain ⟨⟨⟩, -⟩ | ⟨-, rfl, hrefuses⟩ := leaves_removeFile hremove
          exact .unremoved hrefuses
      · rename_i hcontent
        rcases leaves_bind.mp h with ⟨_, m, hwarn, hlast⟩ | ⟨_, -, hwarn⟩
        · obtain ⟨_, ⟨⟩, hreply⟩ := leaves_ask.mp hwarn
          obtain rfl := Disk.replies_warn.mp hreply
          obtain ⟨rfl, rfl⟩ := leaves_pure.mp hlast
          exact .kept hread (by simpa using hcontent)
        · obtain ⟨_, ⟨⟩, -⟩ := leaves_ask.mp hwarn
    · exact .unread hrefuses
  · rename_i habsent
    exact .absent (by simpa using habsent) (settles_of_leaves h)

end Leaves

end Files

end PackageScript
