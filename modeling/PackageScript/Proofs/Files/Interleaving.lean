import PackageScript.Proofs.Files.Frame
/-! Programs that take turns on one disk, and what one of them keeps until it makes a certain move. -/
namespace PackageScript

/-- A move that was made, by the places of its paths. -/
abbrev Move := Location × Location

namespace Disk

/-- The moves that a call with its reply amounts to. -/
def moves (d : Disk) : (call : Call) → call.Reply → List Move
  | .rename p q, .ok _ => [(d.place p, d.place q)]
  | _, _ => []

/-- A call that moves nothing keeps all directories. -/
theorem Replies.keeps {faulty : Call → Prop} {d e : Disk} {call : Call} {reply : call.Reply}
    (h : d.Replies faulty call reply e) (hmoves : d.moves call reply = []) : d.Keeps e := by
  cases call with
  | look p => rw [(replies_look.mp h).2]; exact .refl d
  | read p => rw [(replies_read h).1]; exact .refl d
  | survey p => rw [(replies_survey h).1]; exact .refl d
  | warn message => rw [replies_warn.mp h]; exact .refl d
  | write p content =>
    rcases replies_write h with ⟨-, hwrite⟩ | ⟨-, rfl, -⟩
    · obtain ⟨l, -, hfree, rfl⟩ := write_eq_ok.mp hwrite
      exact keeps_setAt _ hfree
    · exact .refl e
  | createDirectory p =>
    rcases replies_createDirectory h with ⟨-, hcreate⟩ | ⟨-, rfl⟩
    · exact keeps_createDirectory hcreate
    · exact .refl e
  | remove p =>
    rcases replies_remove h with ⟨-, hremove⟩ | ⟨-, rfl, -⟩
    · obtain ⟨l, -, ⟨content, hfile⟩, rfl⟩ := remove_eq_ok.mp hremove
      exact keeps_setAt _ (not_hasDirectory hfile)
    · exact .refl e
  | rename p q =>
    rcases replies_rename h with ⟨rfl, -⟩ | ⟨-, rfl, -⟩
    · cases hmoves
    · exact .refl e

end Disk

namespace Program

variable {α β : Type}

/-- What programs that take turns may come to, with the moves that they make on the way. -/
inductive Interleaves (faulty : Call → Prop) :
    List (Program α) → Disk → List Move → List (Program α) → Disk → Prop
  | stop (pool : List (Program α)) (d : Disk) : Interleaves faulty pool d [] pool d
  | turn (before after : List (Program α)) {rest : List (Program α)} {call : Call}
      {next : call.Reply → Program α} {reply : call.Reply} {d m e : Disk} {log : List Move} :
      d.Replies faulty call reply m →
      Interleaves faulty (before ++ next reply :: after) m log rest e →
      Interleaves faulty (before ++ .ask call next :: after) d (d.moves call reply ++ log) rest e

def ended : Program α → Bool
  | .done _ => true
  | .ask .. => false

/-- What programs come to if they make their calls in turns, each time the one at a position, and
the moves that they make. -/
def takeTurns : List Nat → List (Program α) → Disk → List Move × List (Program α) × Disk
  | [], pool, d => ([], pool, d)
  | n :: turns, pool, d =>
    match pool[n]? with
    | some (.ask call next) =>
      let (reply, after) := d.answer call
      let (log, rest) := takeTurns turns (pool.set n (next reply)) after
      (d.moves call reply ++ log, rest)
    | _ => takeTurns turns pool d

/-- Taking turns by a list of positions is one way in which programs may alternate. -/
theorem interleaves_takeTurns (faulty : Call → Prop) (turns : List Nat) (pool : List (Program α))
    (d : Disk) : Interleaves faulty pool d (takeTurns turns pool d).1 (takeTurns turns pool d).2.1
      (takeTurns turns pool d).2.2 := by
  induction turns generalizing pool d with
  | nil => exact .stop pool d
  | cons n turns ih =>
    rw [takeTurns]
    split
    · rename_i call next hn
      obtain ⟨hlength, hget⟩ := List.getElem?_eq_some_iff.mp hn
      have hpool : pool = pool.take n ++ .ask call next :: pool.drop (n + 1) := by
        rw [← hget, List.getElem_cons_drop, List.take_append_drop]
      have hset : pool.set n (next (d.answer call).1) =
          pool.take n ++ next (d.answer call).1 :: pool.drop (n + 1) := by
        rw [List.set_eq_take_append_cons_drop, if_pos hlength]
      have hrest := ih (pool.set n (next (d.answer call).1)) (d.answer call).2
      dsimp only
      generalize takeTurns turns (pool.set n (next (d.answer call).1)) (d.answer call).2 = run at hrest ⊢
      rw [hset] at hrest
      have hturn : Interleaves faulty (pool.take n ++ .ask call next :: pool.drop (n + 1)) d _ _ _ :=
        .turn _ _ .answered hrest
      rwa [← hpool] at hturn
    · exact ih pool d

/-- Whether a program keeps all directories and a fact with each of its calls until it makes a
move, from a disk on that others may change as long as they keep the same. If it ends without the
move, the last part holds. -/
inductive Waits (faulty : Call → Prop) (G : Disk → Prop) (move : Move) (Q : α → Disk → Prop) :
    Program α → Disk → Prop
  | done {a : α} {d : Disk} : Q a d → Waits faulty G move Q (.done a) d
  | ask {call : Call} {next : call.Reply → Program α} {d : Disk} :
      (∀ d' reply e, d.Keeps d' → G d' → d'.Replies faulty call reply e →
        move ∉ d'.moves call reply → d'.Keeps e ∧ G e) →
      (∀ d' reply e, d.Keeps d' → G d' → d'.Replies faulty call reply e →
        move ∉ d'.moves call reply → Waits faulty G move Q (next reply) e) →
      Waits faulty G move Q (.ask call next) d

section Waits

variable {faulty : Call → Prop} {G : Disk → Prop} {move : Move} {Q : α → Disk → Prop}
  {R : β → Disk → Prop} {d : Disk}

theorem Waits.mono {Q' : α → Disk → Prop} {x : Program α} (hx : x.Waits faulty G move Q d)
    (h : ∀ a e, Q a e → Q' a e) : x.Waits faulty G move Q' d := by
  induction hx with
  | done ha => exact .done (h _ _ ha)
  | ask hkeeps _ ih => exact .ask hkeeps ih

private theorem Waits.bind {x : Program α} {f : α → Program β} (hx : x.Waits faulty G move Q d)
    (hf : ∀ a e, Q a e → (f a).Waits faulty G move R e) : (x >>= f).Waits faulty G move R d := by
  induction hx with
  | done ha => exact hf _ _ ha
  | ask hkeeps _ ih => exact .ask hkeeps ih

/-- Others may go first. -/
theorem Waits.keeps {x : Program α} (hx : x.Waits faulty G move (fun _ _ => True) d) {m : Disk}
    (hm : d.Keeps m) : x.Waits faulty G move (fun _ _ => True) m := by
  cases hx with
  | done => exact .done trivial
  | ask hkeeps hnext =>
    exact .ask (fun d' reply e hd' => hkeeps d' reply e (hm.trans hd'))
      fun d' reply e hd' => hnext d' reply e (hm.trans hd')

/-- A call of a program that waits, other than the move. -/
theorem Waits.step {call : Call} {next : call.Reply → Program α} {reply : call.Reply} {e : Disk}
    (hx : Waits faulty G move Q (.ask call next) d) (hd : G d) (hreply : d.Replies faulty call reply e)
    (hmove : move ∉ d.moves call reply) :
    d.Keeps e ∧ G e ∧ (next reply).Waits faulty G move Q e := by
  cases hx with
  | ask hkeeps hnext =>
    obtain ⟨he, hG⟩ := hkeeps d reply e (.refl d) hd hreply hmove
    exact ⟨he, hG, hnext d reply e (.refl d) hd hreply hmove⟩

/-- A program waits if none of its calls can break what is to be kept. -/
theorem Asks.waits {P : Call → Prop} {x : Program α} (hx : x.Asks P)
    (hP : ∀ call d' reply e, P call → d.Keeps d' → G d' → d'.Replies faulty call reply e →
      move ∉ d'.moves call reply → d'.Keeps e ∧ G e) :
    x.Waits faulty G move (fun _ e => d.Keeps e) d := by
  have hfrom : ∀ m, d.Keeps m → x.Waits faulty G move (fun _ e => d.Keeps e) m := by
    induction hx with
    | done a => exact fun m hm => .done hm
    | ask hcall _ ih =>
      intro m hm
      refine .ask (fun d' reply e hd' => hP _ d' reply e hcall (hm.trans hd'))
        fun d' reply e hd' hG hreply hmove => ih reply e ?_
      exact (hm.trans hd').trans (hP _ d' reply e hcall (hm.trans hd') hG hreply hmove).1
  exact hfrom d (.refl d)

end Waits

end Program

namespace Job
open Program

variable {α β : Type} {faulty : Call → Prop} {G : Disk → Prop} {move : Move}
  {Q : α → Disk → Prop} {R : β → Disk → Prop} {d : Disk}

/-- Whether a job waits, and the last part holds of its answer if it has one. -/
def Waits (faulty : Call → Prop) (G : Disk → Prop) (move : Move) (Q : α → Disk → Prop) (job : Job α)
    (d : Disk) : Prop :=
  Program.Waits faulty G move (fun r e => ∀ a, r = .ok a → Q a e) job.run d

theorem waits_pure {a : α} (h : Q a d) : Waits faulty G move Q (pure a) d :=
  .done fun _ ha => by cases ha; exact h

theorem waits_throw (f : Failure) : Waits faulty G move Q (throw f : Job α) d :=
  .done nofun

/-- A job waits if its first part does, and the rest does from every disk that the first part
leaves. -/
theorem waits_bind {job : Job α} {f : α → Job β} (hjob : job.Waits faulty G move Q d)
    (hf : ∀ a e, Q a e → (f a).Waits faulty G move R e) : Waits faulty G move R (job >>= f) d :=
  Program.Waits.bind hjob fun
    | .ok a => fun e ha => hf a e (ha a rfl)
    | .error _ => fun _ _ => .done nofun

theorem waits_map {job : Job α} {f : α → β} (hjob : job.Waits faulty G move (fun a => R (f a)) d) :
    Waits faulty G move R (f <$> job) d := by
  rw [map_eq_pure_bind]
  exact waits_bind hjob fun _ _ => waits_pure

theorem waits_within {context : String} {job : Job α} (hjob : job.Waits faulty G move Q d) :
    Waits faulty G move Q (within context job) d :=
  Program.Waits.bind hjob fun
    | .ok _ => fun _ ha => .done fun _ heq => by cases heq; exact ha _ rfl
    | .error _ => fun _ _ => .done nofun

theorem Waits.mono {Q' : α → Disk → Prop} {job : Job α} (hjob : job.Waits faulty G move Q d)
    (h : ∀ a e, Q a e → Q' a e) : job.Waits faulty G move Q' d :=
  Program.Waits.mono hjob fun _ _ hr a ha => h a _ (hr a ha)

theorem waits_ask (call : Call) {Q : call.Reply → Disk → Prop}
    (h : ∀ d' reply e, d.Keeps d' → G d' → d'.Replies faulty call reply e →
      move ∉ d'.moves call reply → d'.Keeps e ∧ G e ∧ Q reply e) :
    Waits faulty G move Q (ask call) d := by
  refine .ask (fun d' reply e hd' hG hreply hmove => ?_) fun d' reply e hd' hG hreply hmove => ?_
  · obtain ⟨hkeeps, hG', -⟩ := h d' reply e hd' hG hreply hmove
    exact ⟨hkeeps, hG'⟩
  · exact .done fun _ ha => by cases ha; exact (h d' reply e hd' hG hreply hmove).2.2

/-- A job waits if none of its calls can break what is to be kept. -/
theorem Asks.waits {P : Call → Prop} {job : Job α} (hjob : job.Asks P)
    (hP : ∀ call d' reply e, P call → d.Keeps d' → G d' → d'.Replies faulty call reply e →
      move ∉ d'.moves call reply → d'.Keeps e ∧ G e) :
    job.Waits faulty G move (fun _ e => d.Keeps e) d :=
  (Program.Asks.waits hjob hP).mono fun _ _ h _ _ => h

end Job

end PackageScript
