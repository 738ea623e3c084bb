import Mathlib.Algebra.Ring.Parity
import Mathlib.Data.List.DropRight
import PackageScript.Proofs.Script.Meaning
/-! Double-quoted strings keep what they hold: it is read back as it was, and nothing in it ends the
string or the line. -/
namespace PackageScript.Script

def Value.string? : Value → Option String
  | .string s => some s
  | _ => none

/-- The strings of a text that is a list of strings on one line, and nothing else. -/
def literals? (text : String) : Option (List String) := do
  match ← Scanner.lines? (text ++ "\n") with
  | [line] =>
    match line.indent, ← Reader.value line.tokens with
    | 0, .list items => items.mapM Value.string?
    | _, _ => none
  | _ => none

def slashes (cs : List Char) : Nat :=
  (cs.rtakeWhile (· == '\\')).length

/-- Whether a character is none of the control characters. -/
def IsPrintable (c : Char) : Prop :=
  0x1F < c.toNat ∧ ¬(0x7F ≤ c.toNat ∧ c.toNat ≤ 0x9F)

instance : DecidablePred IsPrintable := fun _ => inferInstanceAs (Decidable (_ ∧ _))

/-- Whether a text stands between two double quotes from which nothing breaks out: it has no control
characters, and all double quotes inside it, but not the one at its end, are escaped. -/
structure Sealed (text : String) : Prop where
  printable : ∀ c ∈ text.toList, IsPrintable c
  ends : ∃ inner, text.toList = '"' :: inner ++ ['"'] ∧ Even (slashes inner)
  escaped : ∀ before after, text.toList = before ++ '"' :: after → before ≠ [] → after ≠ [] →
    Odd (slashes before)

section Slashes

private theorem slashes_concat (cs : List Char) : slashes (cs ++ ['\\']) = slashes cs + 1 := by
  rw [slashes, List.rtakeWhile_concat_pos _ _ _ rfl, List.length_append, ← slashes]
  rfl

private theorem slashes_concat_of_ne {c : Char} (h : c ≠ '\\') (cs : List Char) :
    slashes (cs ++ [c]) = 0 := by
  rw [slashes, List.rtakeWhile_concat_neg _ _ _ (by simpa using h)]
  rfl

private theorem slashes_quote_cons (cs : List Char) : slashes ('"' :: cs) = slashes cs := by
  induction cs using List.reverseRecOn with
  | nil => rfl
  | append_singleton cs c ih =>
    rw [← List.cons_append]
    by_cases hc : c = '\\'
    · rw [hc, slashes_concat, slashes_concat, ih]
    · rw [slashes_concat_of_ne hc, slashes_concat_of_ne hc]

end Slashes

section Escapes

private theorem escape_cases (c : Char) :
    (∃ d ∈ ['\\', '"', 'n', 'r', 't'], escape c = ['\\', d]) ∨
      (∃ m < 16, ∃ n < 16, escape c = ['\\', 'x', hexDigit m, hexDigit n]) ∨
      c ≠ '\\' ∧ c ≠ '"' ∧ isControl c = false ∧ escape c = [c] := by
  rw [escape]
  split
  · exact Or.inl ⟨'\\', by simp, rfl⟩
  split
  · exact Or.inl ⟨'"', by simp, rfl⟩
  split
  · exact Or.inl ⟨'n', by simp, rfl⟩
  split
  · exact Or.inl ⟨'r', by simp, rfl⟩
  split
  · exact Or.inl ⟨'t', by simp, rfl⟩
  split
  · rename_i hcontrol
    have hbound := Scanner.toNat_lt_of_isControl hcontrol
    exact Or.inr (Or.inl ⟨_, by omega, _, Nat.mod_lt _ (by omega), rfl⟩)
  · rename_i hslash hquote _ _ _ hcontrol
    exact Or.inr (Or.inr ⟨hslash, hquote, by simpa using hcontrol, rfl⟩)

private theorem printable_escape {c d : Char} (h : d ∈ escape c) : IsPrintable d := by
  rcases escape_cases c with ⟨e, he, hc⟩ | ⟨m, hm, n, hn, hc⟩ | ⟨-, -, hcontrol, hc⟩ <;>
    rw [hc] at h
  · have hall : ∀ e ∈ ['\\', '"', 'n', 'r', 't'], ∀ d ∈ ['\\', e], IsPrintable d := by
      simp [IsPrintable]
    exact hall e he d h
  · have hdigit : ∀ n < 16, IsPrintable (hexDigit n) := by decide
    simp only [List.mem_cons, List.not_mem_nil, or_false] at h
    rcases h with rfl | rfl | rfl | rfl
    · decide
    · decide
    · exact hdigit m hm
    · exact hdigit n hn
  · rw [List.mem_singleton] at h
    simpa [isControl, IsPrintable, h] using hcontrol

private theorem even_slashes_escapes (cs : List Char) : Even (slashes (cs.flatMap escape)) := by
  induction cs using List.reverseRecOn with
  | nil => exact Even.zero
  | append_singleton cs c ih =>
    have hnone : ∀ (front : List Char) {last : Char}, last ≠ '\\' →
        Even (slashes (cs.flatMap escape ++ (front ++ [last]))) := fun front last hlast => by
      rw [← List.append_assoc, slashes_concat_of_ne hlast]
      exact Even.zero
    have hdigit : ∀ n < 16, hexDigit n ≠ '\\' := by decide
    rw [List.flatMap_append, List.flatMap_singleton]
    rcases escape_cases c with ⟨d, hd, hc⟩ | ⟨m, -, n, hn, hc⟩ | ⟨hslash, -, -, hc⟩ <;> rw [hc]
    · by_cases hslash : d = '\\'
      · rw [hslash, List.append_cons, slashes_concat, slashes_concat, Nat.even_add_one,
          Nat.not_even_iff_odd]
        exact ih.add_one
      · exact hnone ['\\'] hslash
    · exact hnone ['\\', 'x', hexDigit m] (hdigit n hn)
    · exact hnone [] hslash

private theorem quote_of_escape {c : Char} {front back : List Char}
    (h : escape c = front ++ '"' :: back) : front = ['\\'] := by
  have hdigit : ∀ n < 16, hexDigit n ≠ '"' := by decide
  rcases escape_cases c with ⟨d, hd, hc⟩ | ⟨m, hm, n, hn, hc⟩ | ⟨-, hquote, -, hc⟩
  · rw [hc] at h
    match front, h with
    | [], h => cases h
    | [e], h =>
      cases h
      rfl
    | _ :: _ :: front, h => simp at h
  · have hmem : '"' ∈ escape c := h ▸ List.mem_append_right front List.mem_cons_self
    rw [hc] at hmem
    simp [(hdigit m hm).symm, (hdigit n hn).symm] at hmem
  · have hmem : '"' ∈ escape c := h ▸ List.mem_append_right front List.mem_cons_self
    rw [hc, List.mem_singleton] at hmem
    exact absurd hmem.symm hquote

private theorem odd_slashes_of_quote {cs front back : List Char}
    (h : cs.flatMap escape = front ++ '"' :: back) : Odd (slashes front) := by
  induction cs using List.reverseRecOn generalizing back with
  | nil => simp at h
  | append_singleton cs c ih =>
    rw [List.flatMap_append, List.flatMap_singleton] at h
    rcases List.append_eq_append_iff.mp h with ⟨inner, rfl, hc⟩ | ⟨rest, hcs, hback⟩
    · rw [quote_of_escape hc, slashes_concat]
      exact (even_slashes_escapes cs).add_one
    · cases rest with
      | nil =>
        have hfirst : escape c = [] ++ '"' :: back := hback.symm
        cases quote_of_escape hfirst
      | cons d rest =>
        obtain ⟨rfl, -⟩ := List.cons.inj hback
        exact ih hcs

end Escapes

private theorem sealed_quote (s : String) : Sealed (quote s) := by
  have htext : (quote s).toList = '"' :: s.toList.flatMap escape ++ ['"'] := String.toList_ofList
  refine ⟨fun c hc => ?_, ⟨_, htext, even_slashes_escapes _⟩,
    fun before after h hbefore hafter => ?_⟩
  · rw [htext, List.mem_append, List.mem_cons, List.mem_singleton] at hc
    rcases hc with (rfl | hc) | rfl
    · decide
    · obtain ⟨d, -, hd⟩ := List.mem_flatMap.mp hc
      exact printable_escape hd
    · decide
  · obtain ⟨b, front, rfl⟩ := List.exists_cons_of_ne_nil hbefore
    obtain ⟨back, last, rfl⟩ := (List.eq_nil_or_concat' after).resolve_left hafter
    rw [htext, List.cons_append, List.cons_append, List.cons.injEq] at h
    obtain ⟨rfl, hinner⟩ := h
    rw [← List.cons_append, ← List.append_assoc] at hinner
    rw [slashes_quote_cons]
    exact odd_slashes_of_quote (List.append_inj' hinner rfl).1

section ReadBack

private theorem lines?_quoteList (items : List String) :
    Scanner.lines? (quoteList items ++ "\n") = some [⟨0, textsTokens items⟩] := by
  have hitems := Scanner.spells_joinWith quote (fun s => [.string s]) items
    fun s _ => Scanner.spells_quote s
  have htext : (quoteList items ++ "\n").toList =
      ('[' :: (Text.joinWith ", " (items.map quote)).toList ++ [']']) ++ ['\n'] := by
    simp [quoteList]
  have hlist := Scanner.scan_bracket hitems (o := '[') (c := ']') (by simp) (by simp)
    (s := { mode := .between }) rfl
  have hline := Scanner.step_newline (s := Scanner.after { mode := .between } (textsTokens items))
    rfl rfl (by simp [Scanner.after, textsTokens])
  -- a bracket at the start of a line is read like one between two tokens
  have hstart : ∀ cs, Scanner.scan {} ('[' :: cs) = Scanner.scan { mode := .between } ('[' :: cs) :=
    fun cs => by
      rw [Scanner.scan_cons, Scanner.scan_cons]
      rfl
  have hscan : Scanner.scan {} (quoteList items ++ "\n").toList =
      some { lines := [⟨0, textsTokens items⟩] } := by
    rw [htext, Scanner.scan_append, List.cons_append, hstart, ← List.cons_append, hlist,
      Option.bind_some, Scanner.scan_singleton]
    exact hline
  rw [Scanner.lines?, hscan]
  rfl

private theorem mapM_string? (items : List String) :
    (items.map Value.string).mapM Value.string? = some items := by
  induction items with
  | nil => rfl
  | cons s rest ih =>
    rw [List.map_cons, List.mapM_cons, ih]
    rfl

private theorem literals?_quoteList (items : List String) :
    literals? (quoteList items) = some items := by
  have hvalue : Reader.value (textsTokens items) = some (stringList items) := by
    have hrun := Reader.yields_texts [] items []
    rw [List.append_nil] at hrun
    rw [Reader.value, hrun]
    rfl
  rw [literals?, lines?_quoteList]
  simp only [Option.bind_eq_bind, Option.bind_some, hvalue, stringList]
  exact mapM_string? items

end ReadBack

/-- Lists of strings are read back from their spelling, so different lists are spelled differently,
and nothing breaks out of the spelling of a string. -/
theorem literals_faithful :
    (∀ items, literals? (quoteList items) = some items) ∧ (∀ s, Sealed (quote s)) ∧
      Function.Injective quote ∧ Function.Injective quoteList := by
  have hlists : Function.Injective quoteList := fun items others h =>
    Option.some.inj ((literals?_quoteList items).symm.trans (h ▸ literals?_quoteList others))
  refine ⟨literals?_quoteList, sealed_quote, fun s t h => ?_, hlists⟩
  have hlist : quoteList [s] = quoteList [t] := by
    simp only [quoteList, List.map_singleton, h]
  exact List.singleton_injective (hlists hlist)

end PackageScript.Script
