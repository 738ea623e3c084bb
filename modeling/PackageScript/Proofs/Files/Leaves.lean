import PackageScript.Files.Program
/-! What programs leave behind on a disk where some calls may fail, and the calls that they make. -/
namespace PackageScript

/-- The replies that report a failure. Looking at a path does not fail, and neither does a warning. -/
def Call.Fails : (call : Call) → call.Reply → Prop
  | .look _, _ => False
  | .read _, reply => ∃ f, reply = .error f
  | .write .., reply => ∃ f, reply = .error f
  | .createDirectory _, reply => ∃ f, reply = .error f
  | .rename .., reply => ∃ f, reply = .error f
  | .remove _, reply => ∃ f, reply = .error f
  | .survey _, reply => ∃ f, reply = .error f
  | .warn _, _ => False

namespace Disk

/-- The replies to a call, each with the disk after it: the answer of the disk, or for a faulty
call any failure, which changes nothing. -/
inductive Replies (faulty : Call → Prop) (d : Disk) (call : Call) : call.Reply → Disk → Prop
  | answered : Replies faulty d call (d.answer call).1 (d.answer call).2
  | failed {reply : call.Reply} : faulty call → call.Fails reply → Replies faulty d call reply d

/-- Whether a call can fail. -/
def Refuses (faulty : Call → Prop) (d : Disk) (call : Call) : Prop :=
  faulty call ∨ call.Fails (d.answer call).1

section Replies

variable {faulty : Call → Prop} {d e : Disk} {p q : Path}

theorem replies_look {reply : Option EntryKind} :
    d.Replies faulty (.look p) reply e ↔ reply = d.kind? p ∧ e = d := by
  constructor
  · rintro (_ | ⟨-, hfail⟩)
    · exact ⟨rfl, rfl⟩
    · exact hfail.elim
  · rintro ⟨rfl, rfl⟩
    exact .answered

theorem replies_warn {message : String} {reply : Unit} :
    d.Replies faulty (.warn message) reply e ↔ e = d := by
  constructor
  · rintro (_ | ⟨-, hfail⟩)
    · rfl
    · exact hfail.elim
  · rintro rfl
    exact .answered

/-- A read gives the content that is there, or it fails. The disk stays as it is. -/
theorem replies_read {reply : Except Fault Bytes} (h : d.Replies faulty (.read p) reply e) :
    e = d ∧ ((∃ content, reply = .ok content ∧ d.read p = .ok content) ∨
      (∃ f, reply = .error f) ∧ d.Refuses faulty (.read p)) := by
  rcases h with _ | ⟨hfaulty, hfail⟩
  · cases hread : d.read p with
    | ok content => exact ⟨rfl, Or.inl ⟨content, hread, rfl⟩⟩
    | error f => exact ⟨rfl, Or.inr ⟨⟨f, hread⟩, Or.inr ⟨f, hread⟩⟩⟩
  · exact ⟨rfl, Or.inr ⟨hfail, Or.inl hfaulty⟩⟩

theorem replies_survey {reply : Except Fault (Directory Unit)}
    (h : d.Replies faulty (.survey p) reply e) :
    e = d ∧ (reply = d.survey p ∨ ∃ f, reply = .error f) := by
  rcases h with _ | ⟨-, hfail⟩
  · exact ⟨rfl, Or.inl rfl⟩
  · exact ⟨rfl, Or.inr hfail⟩

private theorem changed_cases {ε : Type} (d : Disk) (r : Except ε Disk) :
    (∃ e, r = .ok e ∧ answer.changed d r = (.ok (), e)) ∨
      ∃ f, r = .error f ∧ answer.changed d r = (.error f, d) := by
  cases r with
  | ok e => exact Or.inl ⟨e, rfl, rfl⟩
  | error f => exact Or.inr ⟨f, rfl, rfl⟩

/-- A file is written as a whole, or the write fails and changes nothing. -/
theorem replies_write {content : Bytes} {reply : Except (WriteStep × Fault) Unit}
    (h : d.Replies faulty (.write p content) reply e) :
    (reply = .ok () ∧ d.write p content = .ok e) ∨
      (∃ f, reply = .error f) ∧ e = d ∧ d.Refuses faulty (.write p content) := by
  rcases h with _ | ⟨hfaulty, hfail⟩
  · rcases changed_cases d ((d.write p content).mapError (WriteStep.opening, ·)) with
      ⟨m, hm, hanswer⟩ | ⟨f, -, hanswer⟩
    · refine Or.inl ⟨congrArg Prod.fst hanswer, ?_⟩
      cases hwrite : d.write p content with
      | ok m' =>
        rw [hwrite] at hm
        cases hm
        exact congrArg Except.ok (congrArg Prod.snd hanswer).symm
      | error f =>
        rw [hwrite] at hm
        cases hm
    · have hfirst := congrArg Prod.fst hanswer
      exact Or.inr ⟨⟨f, hfirst⟩, congrArg Prod.snd hanswer, Or.inr ⟨f, hfirst⟩⟩
  · exact Or.inr ⟨hfail, rfl, Or.inl hfaulty⟩

theorem replies_createDirectory {reply : Except Fault Unit}
    (h : d.Replies faulty (.createDirectory p) reply e) :
    (reply = .ok () ∧ d.createDirectory p = .ok e) ∨ (∃ f, reply = .error f) ∧ e = d := by
  rcases h with _ | ⟨-, hfail⟩
  · rcases changed_cases d (d.createDirectory p) with ⟨m, hm, hanswer⟩ | ⟨f, -, hanswer⟩
    · exact Or.inl ⟨congrArg Prod.fst hanswer, hm.trans (congrArg (Except.ok ·.2) hanswer).symm⟩
    · exact Or.inr ⟨⟨f, congrArg Prod.fst hanswer⟩, congrArg Prod.snd hanswer⟩
  · exact Or.inr ⟨hfail, rfl⟩

/-- A file is moved as a whole, or the move fails and changes nothing. -/
theorem replies_rename {reply : Except Fault Unit} (h : d.Replies faulty (.rename p q) reply e) :
    (reply = .ok () ∧ d.rename p q = .ok e) ∨
      (∃ f, reply = .error f) ∧ e = d ∧ d.Refuses faulty (.rename p q) := by
  rcases h with _ | ⟨hfaulty, hfail⟩
  · rcases changed_cases d (d.rename p q) with ⟨m, hm, hanswer⟩ | ⟨f, -, hanswer⟩
    · exact Or.inl ⟨congrArg Prod.fst hanswer, hm.trans (congrArg (Except.ok ·.2) hanswer).symm⟩
    · have hfirst := congrArg Prod.fst hanswer
      exact Or.inr ⟨⟨f, hfirst⟩, congrArg Prod.snd hanswer, Or.inr ⟨f, hfirst⟩⟩
  · exact Or.inr ⟨hfail, rfl, Or.inl hfaulty⟩

/-- A file is removed, or the removal fails and changes nothing. -/
theorem replies_remove {reply : Except Fault Unit} (h : d.Replies faulty (.remove p) reply e) :
    (reply = .ok () ∧ d.remove p = .ok e) ∨
      (∃ f, reply = .error f) ∧ e = d ∧ d.Refuses faulty (.remove p) := by
  rcases h with _ | ⟨hfaulty, hfail⟩
  · rcases changed_cases d (d.remove p) with ⟨m, hm, hanswer⟩ | ⟨f, -, hanswer⟩
    · exact Or.inl ⟨congrArg Prod.fst hanswer, hm.trans (congrArg (Except.ok ·.2) hanswer).symm⟩
    · have hfirst := congrArg Prod.fst hanswer
      exact Or.inr ⟨⟨f, hfirst⟩, congrArg Prod.snd hanswer, Or.inr ⟨f, hfirst⟩⟩
  · exact Or.inr ⟨hfail, rfl, Or.inl hfaulty⟩

theorem faulty_read {content : Bytes} (h : d.Refuses faulty (.read p))
    (hread : d.read p = .ok content) : faulty (.read p) := by
  refine h.resolve_right ?_
  rintro ⟨f, hf⟩
  simp [answer, hread] at hf

theorem faulty_remove (h : d.Refuses faulty (.remove p)) (hremove : d.remove p = .ok e) :
    faulty (.remove p) := by
  refine h.resolve_right ?_
  rintro ⟨f, hf⟩
  simp [answer, answer.changed, hremove] at hf

/-- A move that the disk can make is refused only by a faulty call. -/
theorem faulty_rename (h : d.Refuses faulty (.rename p q)) (hrename : d.rename p q = .ok e) :
    faulty (.rename p q) := by
  refine h.resolve_right ?_
  rintro ⟨f, hf⟩
  simp [answer, answer.changed, hrename] at hf

end Replies

end Disk

namespace Program

variable {α β : Type}

/-- The results and the disks that a program may leave behind. -/
inductive Leaves (faulty : Call → Prop) : Program α → Disk → α → Disk → Prop
  | done (a : α) (d : Disk) : Leaves faulty (.done a) d a d
  | ask {call : Call} {next : call.Reply → Program α} {d m e : Disk} {a : α} {reply : call.Reply} :
      d.Replies faulty call reply m → Leaves faulty (next reply) m a e →
      Leaves faulty (.ask call next) d a e

/-- Whether all calls that a program may make are of one kind, whatever the replies. -/
inductive Asks (P : Call → Prop) : Program α → Prop
  | done (a : α) : Asks P (.done a)
  | ask {call : Call} {next : call.Reply → Program α} : P call →
      (∀ reply, Asks P (next reply)) → Asks P (.ask call next)

section Leaves

variable {faulty : Call → Prop} {d e : Disk}

/-- A run is one of the ways that a program can go. -/
theorem leaves_run (faulty : Call → Prop) (x : Program α) (d : Disk) :
    x.Leaves faulty d (x.run d).result (x.run d).disk := by
  induction x generalizing d with
  | done a => exact .done a d
  | ask call next ih => exact .ask .answered (ih _ _)

/-- Where no call is faulty, it is the only way. -/
theorem run_of_leaves {x : Program α} {a : α} (h : x.Leaves (fun _ => False) d a e) :
    (x.run d).result = a ∧ (x.run d).disk = e := by
  induction x generalizing d with
  | done b =>
    cases h
    exact ⟨rfl, rfl⟩
  | ask call next ih =>
    cases h with
    | ask hreply hnext =>
      cases hreply with
      | answered => exact ih _ hnext
      | failed hfaulty => exact hfaulty.elim

theorem leaves_pure {a b : α} : (pure a : Program α).Leaves faulty d b e ↔ b = a ∧ e = d := by
  constructor
  · intro h
    cases h
    exact ⟨rfl, rfl⟩
  · rintro ⟨rfl, rfl⟩
    exact .done b e

theorem leaves_ofCall {call : Call} {reply : call.Reply} :
    (ofCall call).Leaves faulty d reply e ↔ d.Replies faulty call reply e := by
  constructor
  · intro h
    cases h with
    | ask hreply hnext =>
      cases hnext
      exact hreply
  · exact fun h => .ask h (.done _ _)

/-- A sequence leaves what its rest leaves on a disk that its first part left. -/
theorem leaves_bind {x : Program α} {f : α → Program β} {b : β} :
    (x >>= f).Leaves faulty d b e ↔ ∃ a m, x.Leaves faulty d a m ∧ (f a).Leaves faulty m b e := by
  constructor
  · intro h
    induction x generalizing d with
    | done a => exact ⟨a, d, .done a d, h⟩
    | ask call next ih =>
      cases h with
      | ask hreply hnext =>
        obtain ⟨a, m, hx, hf⟩ := ih _ hnext
        exact ⟨a, m, .ask hreply hx, hf⟩
  · rintro ⟨a, m, hx, hf⟩
    induction hx with
    | done a d => exact hf
    | ask hreply _ ih => exact .ask hreply (ih hf)

end Leaves

section Asks

variable {P Q : Call → Prop}

theorem asks_ofCall {call : Call} (h : P call) : (ofCall call).Asks P :=
  .ask h .done

theorem asks_bind {x : Program α} {f : α → Program β} (hx : x.Asks P) (hf : ∀ a, (f a).Asks P) :
    (x >>= f).Asks P := by
  induction hx with
  | done a => exact hf a
  | ask hcall _ ih => exact .ask hcall ih

theorem Asks.mono {x : Program α} (hx : x.Asks P) (h : ∀ call, P call → Q call) : x.Asks Q := by
  induction hx with
  | done a => exact .done a
  | ask hcall _ ih => exact .ask (h _ hcall) ih

/-- What every call keeps, the program keeps. -/
theorem Asks.leaves {x : Program α} (hx : x.Asks P) {faulty : Call → Prop} {K : Disk → Prop}
    (hkept : ∀ call d reply e, P call → K d → d.Replies faulty call reply e → K e)
    {d e : Disk} {a : α} (h : x.Leaves faulty d a e) (hd : K d) : K e := by
  induction h with
  | done => exact hd
  | ask hreply _ ih =>
    cases hx with
    | ask hcall hnext => exact ih (hnext _) (hkept _ _ _ _ hcall hd hreply)

end Asks

end Program

namespace Job
open Program

variable {α β : Type}

/-- The results or failures of a job, and the disks that it may leave behind. -/
def Leaves (faulty : Call → Prop) (job : Job α) (d : Disk) (r : Except Failure α) (e : Disk) : Prop :=
  Program.Leaves faulty job.run d r e

def Asks (P : Call → Prop) (job : Job α) : Prop :=
  Program.Asks P job.run

section Leaves

variable {faulty : Call → Prop} {d e : Disk} {r : Except Failure α}

theorem leaves_pure {a : α} : Leaves faulty (pure a) d r e ↔ r = .ok a ∧ e = d :=
  Program.leaves_pure

theorem leaves_throw {f : Failure} :
    Leaves faulty (throw f : Job α) d r e ↔ r = .error f ∧ e = d :=
  Program.leaves_pure

/-- A sequence goes on with the answer of its first part, or ends with its failure. -/
theorem leaves_bind {job : Job β} {f : β → Job α} :
    Leaves faulty (job >>= f) d r e ↔
      (∃ b m, job.Leaves faulty d (.ok b) m ∧ (f b).Leaves faulty m r e) ∨
        ∃ failure, r = .error failure ∧ job.Leaves faulty d (.error failure) e := by
  refine Program.leaves_bind.trans ⟨?_, ?_⟩
  · rintro ⟨failure | b, m, hjob, hnext⟩
    · cases hnext
      exact Or.inr ⟨failure, rfl, hjob⟩
    · exact Or.inl ⟨b, m, hjob, hnext⟩
  · rintro (⟨b, m, hjob, hnext⟩ | ⟨failure, rfl, hjob⟩)
    · exact ⟨.ok b, m, hjob, hnext⟩
    · exact ⟨.error failure, e, hjob, .done _ _⟩

theorem leaves_map {job : Job β} {f : β → α} :
    Leaves faulty (f <$> job) d r e ↔ ∃ s, r = s.map f ∧ job.Leaves faulty d s e := by
  rw [map_eq_pure_bind, leaves_bind]
  constructor
  · rintro (⟨b, m, hjob, hlast⟩ | ⟨failure, rfl, hjob⟩)
    · obtain ⟨rfl, rfl⟩ := leaves_pure.mp hlast
      exact ⟨.ok b, rfl, hjob⟩
    · exact ⟨.error failure, rfl, hjob⟩
  · rintro ⟨failure | b, rfl, hjob⟩
    · exact Or.inr ⟨failure, rfl, hjob⟩
    · exact Or.inl ⟨b, e, hjob, leaves_pure.mpr ⟨rfl, rfl⟩⟩

/-- A job that is caught succeeds itself, or is followed by what handles its failure. -/
theorem leaves_tryCatch {job : Job α} {handle : Failure → Job α} :
    Leaves faulty (tryCatch job handle) d r e ↔
      (∃ a, r = .ok a ∧ job.Leaves faulty d (.ok a) e) ∨
        ∃ failure m, job.Leaves faulty d (.error failure) m ∧
          (handle failure).Leaves faulty m r e := by
  refine Program.leaves_bind.trans ⟨?_, ?_⟩
  · rintro ⟨failure | a, m, hjob, hnext⟩
    · exact Or.inr ⟨failure, m, hjob, hnext⟩
    · cases hnext
      exact Or.inl ⟨a, rfl, hjob⟩
  · rintro (⟨a, rfl, hjob⟩ | ⟨failure, m, hjob, hnext⟩)
    · exact ⟨.ok a, e, hjob, .done _ _⟩
    · exact ⟨.error failure, m, hjob, hnext⟩

theorem leaves_lift {x : Program α} :
    Leaves faulty (ExceptT.lift x) d r e ↔ ∃ a, r = .ok a ∧ x.Leaves faulty d a e := by
  refine Program.leaves_bind.trans ⟨?_, ?_⟩
  · rintro ⟨a, m, hx, hnext⟩
    cases hnext
    exact ⟨a, rfl, hx⟩
  · rintro ⟨a, rfl, hx⟩
    exact ⟨a, e, hx, .done _ _⟩

theorem leaves_within {context : String} {job : Job α} :
    Leaves faulty (within context job) d r e ↔
      ∃ s, r = s.mapError (Failure.within context) ∧ job.Leaves faulty d s e := by
  refine Program.leaves_bind.trans ⟨?_, ?_⟩
  · rintro ⟨s, m, hjob, hnext⟩
    cases hnext
    exact ⟨s, rfl, hjob⟩
  · rintro ⟨s, rfl, hjob⟩
    exact ⟨s, e, hjob, .done _ _⟩

theorem leaves_ask {call : Call} {r : Except Failure call.Reply} :
    Leaves faulty (ask call) d r e ↔ ∃ reply, r = .ok reply ∧ d.Replies faulty call reply e := by
  simp [ask, leaves_lift, leaves_ofCall]

theorem leaves_expect {context : String} {x : Except Fault α} :
    Leaves faulty (expect context x) d r e ↔
      r = x.mapError (fun f => (Failure.ofFault f).within context) ∧ e = d := by
  cases x with
  | ok a => exact leaves_pure
  | error f => exact leaves_throw

end Leaves

section Asks

variable {P : Call → Prop}

/-- What every call keeps, the job keeps. -/
theorem Asks.leaves {job : Job α} (hjob : job.Asks P) {faulty : Call → Prop} {K : Disk → Prop}
    (hkept : ∀ call d reply e, P call → K d → d.Replies faulty call reply e → K e)
    {d e : Disk} {r : Except Failure α} (h : job.Leaves faulty d r e) (hd : K d) : K e :=
  Program.Asks.leaves hjob hkept h hd

theorem asks_pure (a : α) : Asks P (pure a) :=
  .done _

theorem asks_throw (f : Failure) : Asks P (throw f : Job α) :=
  .done _

theorem asks_bind {job : Job α} {f : α → Job β} (hjob : job.Asks P) (hf : ∀ a, (f a).Asks P) :
    Asks P (job >>= f) :=
  Program.asks_bind hjob fun
    | .ok a => hf a
    | .error _ => .done _

theorem asks_map {job : Job α} {f : α → β} (hjob : job.Asks P) : Asks P (f <$> job) := by
  rw [map_eq_pure_bind]
  exact asks_bind hjob fun _ => asks_pure _

theorem asks_tryCatch {job : Job α} {handle : Failure → Job α} (hjob : job.Asks P)
    (hhandle : ∀ f, (handle f).Asks P) : Asks P (tryCatch job handle) :=
  Program.asks_bind hjob fun
    | .ok _ => .done _
    | .error f => hhandle f

theorem asks_lift {x : Program α} (hx : x.Asks P) : Asks P (ExceptT.lift x) :=
  Program.asks_bind hx fun _ => .done _

theorem asks_within {context : String} {job : Job α} (hjob : job.Asks P) :
    Asks P (within context job) :=
  Program.asks_bind hjob fun _ => .done _

theorem asks_ask {call : Call} (h : P call) : Asks P (ask call) :=
  asks_lift (Program.asks_ofCall h)

theorem asks_expect {context : String} (x : Except Fault α) : Asks P (expect context x) := by
  cases x with
  | ok a => exact asks_pure a
  | error f => exact asks_throw _

end Asks

end Job

end PackageScript
