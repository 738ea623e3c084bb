import Mathlib.Data.List.Basic
import PackageScript.Proofs.Script.Scanner
import PackageScript.Proofs.Text.Edges
import PackageScript.Script.Basic
/-! The tokens that the text of a script is read as. -/
namespace PackageScript.Script

def commaSeparated : List (List Token) → List Token
  | [] => []
  | [tokens] => tokens
  | tokens :: rest => tokens ++ .mark ',' :: commaSeparated rest

def textsTokens (items : List String) : List Token :=
  .mark '[' :: commaSeparated (items.map fun s => [.string s]) ++ [.mark ']']

def pairTokens (pair : String × List String) : List Token :=
  .mark '(' :: .string pair.1 :: .mark ',' :: textsTokens pair.2 ++ [.mark ')', .mark ',']

def Expression.tokens : Expression → List Token
  | .text s => [.string s]
  | .yes => [.name "True"]
  | .packageName => [.name "PACKAGE", .mark '[', .string "name", .mark ']']
  | .texts items => textsTokens items
  | .choices pairs => .mark '(' :: pairs.flatMap pairTokens ++ [.mark ')']

def Argument.tokens : Argument → List Token
  | .plain value => value.tokens
  | .named name value => .name name :: .mark '=' :: value.tokens
  | .keyed key value =>
    .doubleStar :: .mark '\x7b' :: .string key :: .mark ':' :: value.tokens ++ [.mark '\x7d']

def Call.argumentTokens (c : Call) : List Token :=
  if c.spread then c.arguments.flatMap fun a => a.tokens ++ [.mark ',']
  else commaSeparated (c.arguments.map Argument.tokens)

def Call.tokens (c : Call) : List Token :=
  [.name "ctx", .mark '.', .name c.function, .mark '('] ++ c.argumentTokens ++ [.mark ')']

/-- An argument that, if it is passed by name, is so by an identifier. -/
def Argument.Identified : Argument → Prop
  | .named name _ => isIdentifier name = true
  | _ => True

/-- A call of an identifier, whose arguments by name are so by identifiers. -/
structure Call.Identified (c : Call) : Prop where
  function : isIdentifier c.function = true
  arguments : ∀ a ∈ c.arguments, a.Identified

namespace Scanner

def after (s : Scanner) (tokens : List Token) : Scanner :=
  { s with mode := .between, tokens := s.tokens ++ tokens }

theorem scan_append (s : Scanner) (xs ys : List Char) :
    scan s (xs ++ ys) = (scan s xs).bind fun t => scan t ys :=
  List.foldlM_append

theorem scan_cons (s : Scanner) (c : Char) (cs : List Char) :
    scan s (c :: cs) = (s.step c).bind fun t => scan t cs :=
  List.foldlM_cons

theorem scan_singleton (s : Scanner) (c : Char) : scan s [c] = s.step c := by
  rw [scan_cons]
  cases s.step c <;> rfl

private theorem after_after (s : Scanner) (ts us : List Token) :
    (s.after ts).after us = s.after (ts ++ us) := by
  simp [after]

private theorem step_between {s : Scanner} (h : s.mode = .between) (c : Char) :
    s.step c = s.between c := by
  rw [step, h]

/-- Whether characters inside brackets are read as these tokens, whatever comes after them, as long
as that does not go on with a name. -/
def Spells (cs : List Char) (tokens : List Token) : Prop :=
  ∀ (s : Scanner) (c : Char), s.mode = .between → 0 < s.depth → continuesName c = false →
    scan s (cs ++ [c]) = (s.after tokens).between c

theorem Spells.nil : Spells [] [] := by
  intro s c hs _ _
  have hafter : s.after [] = s := by
    rw [after, List.append_nil, ← hs]
  rw [List.nil_append, scan_singleton, step_between hs, hafter]

/-- What is read one after the other is read together, if the second part does not go on with a
name. -/
theorem Spells.append {cs ds : List Char} {d : Char} {ts us : List Token} (hc : Spells cs ts)
    (hd : Spells (d :: ds) us) (h : continuesName d = false) :
    Spells (cs ++ d :: ds) (ts ++ us) := by
  intro s c hs hdepth hname
  have hfirst := hc s d hs hdepth h
  have hrest := hd (s.after ts) c rfl hdepth hname
  rw [after_after] at hrest
  rw [List.append_assoc, List.cons_append, ← List.singleton_append, ← List.append_assoc,
    scan_append, hfirst, ← hrest, List.cons_append, scan_cons, step_between rfl]

/-- A character that is read at once. -/
theorem Spells.cons {ds : List Char} {d : Char} (ts : List Token) {us : List Token}
    (h : ∀ s : Scanner, s.mode = .between → 0 < s.depth → s.between d = some (s.after ts))
    (hd : Spells ds us) : Spells (d :: ds) (ts ++ us) := by
  intro s c hs hdepth hname
  rw [List.cons_append, scan_cons, step_between hs, h s hs hdepth, Option.bind_some,
    hd (s.after ts) c rfl hdepth hname, after_after]

theorem Spells.space {ds : List Char} {us : List Token} (h : Spells ds us) :
    Spells (' ' :: ds) us := by
  refine Spells.cons [] (fun s _ _ => ?_) h
  rw [after, List.append_nil]
  rfl

theorem Spells.newline {ds : List Char} {us : List Token} (h : Spells ds us) :
    Spells ('\n' :: ds) us := by
  refine Spells.cons [] (fun s _ hdepth => ?_) h
  have hend : s.endLine = s.after [] := by
    rw [endLine, if_pos hdepth, after, List.append_nil]
    rfl
  rw [← hend]
  rfl

theorem Spells.mark {ds : List Char} {d : Char} {us : List Token} (h : Spells ds us)
    (hd : d ∈ [',', ':', '=', '.']) : Spells (d :: ds) (.mark d :: us) := by
  refine Spells.cons [.mark d] (fun s _ _ => ?_) h
  simp only [List.mem_cons, List.not_mem_nil, or_false] at hd
  rcases hd with rfl | rfl | rfl | rfl <;> rfl

private theorem Spells.stars {ds : List Char} {us : List Token} (h : Spells ds us) :
    Spells ('*' :: '*' :: ds) (.doubleStar :: us) := by
  intro s c hs hdepth hname
  have hfirst : s.between '*' = some (s.inMode .star) := rfl
  have hsecond : (s.inMode .star).step '*' = some (s.after [.doubleStar]) := rfl
  rw [List.cons_append, List.cons_append, scan_cons, step_between hs, hfirst, Option.bind_some,
    scan_cons, hsecond, Option.bind_some, h (s.after [.doubleStar]) c rfl hdepth hname, after_after]
  rfl

private theorem between_opening (s : Scanner) {c : Char} (h : c ∈ ['(', '[', '\x7b']) :
    s.between c = some { s.emit (.mark c) with depth := s.depth + 1 } := by
  simp only [List.mem_cons, List.not_mem_nil, or_false] at h
  rcases h with rfl | rfl | rfl <;> rfl

private theorem between_closing (s : Scanner) {c : Char}
    (h : c ∈ [')', ']', '\x7d']) (hs : 0 < s.depth) :
    s.between c = some { s.emit (.mark c) with depth := s.depth - 1 } := by
  have hzero : s.depth ≠ 0 := Nat.ne_of_gt hs
  simp only [List.mem_cons, List.not_mem_nil, or_false] at h
  rcases h with rfl | rfl | rfl <;> simp [between, startsName, hzero]

/-- What is read between brackets, at any depth. -/
theorem scan_bracket {cs : List Char} {ts : List Token} (h : Spells cs ts) {o c : Char}
    (ho : o ∈ ['(', '[', '\x7b']) (hc : c ∈ [')', ']', '\x7d']) {s : Scanner}
    (hs : s.mode = .between) :
    scan s (o :: cs ++ [c]) = some (s.after (.mark o :: ts ++ [.mark c])) := by
  have hname : continuesName c = false := by
    simp only [List.mem_cons, List.not_mem_nil, or_false] at hc
    rcases hc with rfl | rfl | rfl <;> rfl
  have hinner := h { s.emit (.mark o) with depth := s.depth + 1 } c rfl (Nat.succ_pos _) hname
  rw [List.cons_append, scan_cons, step_between hs, between_opening s ho, Option.bind_some, hinner,
    between_closing _ hc (Nat.succ_pos _)]
  simp [after, emit]

/-- Brackets around characters that are read inside them. -/
theorem Spells.bracket {cs : List Char} {ts : List Token} (h : Spells cs ts) {o c : Char}
    (ho : o ∈ ['(', '[', '\x7b']) (hc : c ∈ [')', ']', '\x7d']) :
    Spells (o :: cs ++ [c]) (.mark o :: ts ++ [.mark c]) := by
  intro s d hs _ _
  rw [scan_append, scan_bracket h ho hc hs, Option.bind_some, scan_singleton, step_between rfl]

section Words

/-- A name that is not empty, starts like a name and goes on like one. -/
def IsName (cs : List Char) : Prop :=
  ∃ c rest, cs = c :: rest ∧ startsName c = true ∧ rest.all continuesName = true

private theorem scan_word (s : Scanner) (text rest : List Char) (c : Char)
    (h : ∀ d ∈ rest, continuesName d = true) (hc : continuesName c = false) :
    scan (s.inMode (.word text)) (rest ++ [c]) =
      (s.after [.name (String.ofList (text ++ rest))]).between c := by
  induction rest generalizing text with
  | nil =>
    have hstep : (s.inMode (.word text)).step c =
        (s.after [.name (String.ofList text)]).between c := by
      simp [step, inMode, hc, emit, after]
    rw [List.nil_append, scan_singleton, hstep, List.append_nil]
  | cons d rest ih =>
    have hstep : (s.inMode (.word text)).step d = some (s.inMode (.word (text ++ [d]))) := by
      simp [step, inMode, h d List.mem_cons_self]
    rw [List.cons_append, scan_cons, hstep, Option.bind_some,
      ih (text ++ [d]) fun e he => h e (List.mem_cons_of_mem d he)]
    simp

private theorem scan_name {name : String} (h : IsName name.toList) {s : Scanner}
    (hs : s.mode = .between) {d : Char} (hd : continuesName d = false) :
    scan s (name.toList ++ [d]) = (s.after [.name name]).between d := by
  obtain ⟨c, rest, hname, hc, hrest⟩ := h
  have hne : ∀ e, startsName e = false → c ≠ e := by
    rintro e he rfl
    rw [he] at hc
    cases hc
  have hfirst : s.between c = some (s.inMode (.word [c])) := by
    simp [between, hc, hne ' ' rfl, hne '\t' rfl, hne '\n' rfl, hne '#' rfl, hne '"' rfl,
      hne '*' rfl]
  rw [hname, List.cons_append, scan_cons, step_between hs, hfirst, Option.bind_some,
    scan_word s [c] rest d (List.all_eq_true.mp hrest) hd, List.singleton_append, ← hname, String.ofList_toList]

private theorem startsName_of_isLetter {c : Char} (h : isLetter c = true) :
    startsName c = true := by
  unfold startsName Char.isAlpha Char.isUpper Char.isLower
  simp only [isLetter, Char.le_def, Bool.or_eq_true, Bool.and_eq_true, decide_eq_true_eq] at *
  exact h.imp_left Or.symm

private theorem continuesName_of_isLetterOrDigit {c : Char} (h : isLetterOrDigit c = true) :
    continuesName c = true := by
  rw [isLetterOrDigit, Bool.or_eq_true] at h
  rcases h with h | h
  · have hstart := startsName_of_isLetter h
    rw [startsName, Bool.or_eq_true] at hstart
    rcases hstart with hc | hc <;> simp [continuesName, Char.isAlphanum, hc]
  · have hdigit : c.isDigit = true := by
      simpa [Char.isDigit, Char.le_def] using h
    simp [continuesName, Char.isAlphanum, hdigit]

private theorem isName_of_isIdentifier {name : String} (h : isIdentifier name = true) :
    IsName name.toList := by
  unfold isIdentifier at h
  split at h
  · cases h
  · rename_i c rest hname
    simp only [Bool.and_eq_true] at h
    have hrest := List.all_eq_true.mp h.1.2
    exact ⟨c, rest, hname, startsName_of_isLetter h.1.1,
      List.all_eq_true.mpr fun d hd => continuesName_of_isLetterOrDigit (hrest d hd)⟩

private theorem spells_name {name : String} (h : IsName name.toList) :
    Spells name.toList [.name name] :=
  fun _ _ hs _ hd => scan_name h hs hd

end Words

section Quotes

private theorem hexValue?_hexDigit : ∀ n < 16, hexValue? (hexDigit n) = some n := by
  decide

/-- Two hexadecimal digits are enough for a control character. -/
theorem toNat_lt_of_isControl {c : Char} (h : isControl c = true) : c.toNat < 256 := by
  simp only [isControl, Bool.or_eq_true, Bool.and_eq_true, decide_eq_true_eq] at h
  omega

private theorem scan_code (s : Scanner) (text : List Char) {c : Char} (h : isControl c = true) :
    scan (s.inMode (.quoted text)) ['\\', 'x', hexDigit (c.toNat / 16), hexDigit (c.toNat % 16)] =
      some (s.inMode (.quoted (text ++ [c]))) := by
  have hbound := toNat_lt_of_isControl h
  have hhigh := hexValue?_hexDigit (c.toNat / 16) (by omega)
  have hlow := hexValue?_hexDigit (c.toNat % 16) (Nat.mod_lt _ (by omega))
  have hvalue : 16 * (16 * 0 + c.toNat / 16) + c.toNat % 16 = c.toNat := by omega
  have hvalid : c.toNat.isValidChar := c.valid
  have hfirst : (s.inMode (.code text 2 0)).step (hexDigit (c.toNat / 16)) =
      some (s.inMode (.code text 1 (16 * 0 + c.toNat / 16))) := by
    simp [step, inMode, inCode, hhigh]
  have hsecond : (s.inMode (.code text 1 (16 * 0 + c.toNat / 16))).step (hexDigit (c.toNat % 16)) =
      some (s.inMode (.quoted (text ++ [c]))) := by
    simp only [step, inMode, inCode, hlow, hvalue, hvalid, if_true, Nat.lt_irrefl, if_false,
      Char.ofNat_toNat]
  have hslash : (s.inMode (.quoted text)).step '\\' = some (s.inMode (.escaped text)) := rfl
  have hx : (s.inMode (.escaped text)).step 'x' = some (s.inMode (.code text 2 0)) := rfl
  rw [scan_cons, hslash, Option.bind_some, scan_cons, hx, Option.bind_some, scan_cons, hfirst,
    Option.bind_some, scan_singleton, hsecond]

/-- Every character is read back from its spelling. -/
theorem scan_escape (s : Scanner) (text : List Char) (c : Char) :
    scan (s.inMode (.quoted text)) (escape c) = some (s.inMode (.quoted (text ++ [c]))) := by
  rw [escape]
  split
  · rename_i h
    rw [h]
    rfl
  split
  · rename_i h
    rw [h]
    rfl
  split
  · rename_i h
    rw [h]
    rfl
  split
  · rename_i h
    rw [h]
    rfl
  split
  · rename_i h
    rw [h]
    rfl
  split
  · exact scan_code s text ‹_›
  · rename_i hslash hquote hfeed hreturn htab hcontrol
    have hnul : c ≠ '\x00' := by
      rintro rfl
      exact hcontrol (by decide)
    have hbreak : breaksLine c = false := by
      simp [breaksLine, hfeed, hreturn, hnul]
    rw [scan_singleton, step, inMode]
    simp [inQuotes, hslash, hquote, hbreak, inMode]

private theorem scan_escapes (s : Scanner) (text cs : List Char) :
    scan (s.inMode (.quoted text)) (cs.flatMap escape) =
      some (s.inMode (.quoted (text ++ cs))) := by
  induction cs generalizing text with
  | nil => rw [List.append_nil]; rfl
  | cons c rest ih =>
    rw [List.flatMap_cons, scan_append, scan_escape, Option.bind_some, ih, List.append_assoc]
    rfl

/-- Every string is read back from its double-quoted spelling. -/
theorem spells_quote (value : String) : Spells (quote value).toList [.string value] := by
  intro s c hs _ _
  have hopen : s.between '"' = some (s.inMode (.quoted [])) := rfl
  have hclose : (s.inMode (.quoted value.toList)).step '"' = some (s.after [.string value]) := by
    simp [step, inMode, inQuotes, emit, after]
  rw [quote, String.toList_ofList, List.append_assoc, List.cons_append, scan_cons, step_between hs,
    hopen, Option.bind_some, scan_append, scan_escapes, Option.bind_some, List.nil_append,
    List.singleton_append, scan_cons, hclose, Option.bind_some, scan_singleton, step_between rfl]

end Quotes

section Expressions

/-- Items that are joined by commas are read as items with commas between them. -/
theorem spells_joinWith {α : Type} (text : α → String) (tokens : α → List Token) (xs : List α)
    (h : ∀ a ∈ xs, Spells (text a).toList (tokens a)) :
    Spells (Text.joinWith ", " (xs.map text)).toList (commaSeparated (xs.map tokens)) := by
  induction xs with
  | nil => exact Spells.nil
  | cons a rest ih =>
    have ha := h a List.mem_cons_self
    have hrest := ih fun b hb => h b (List.mem_cons_of_mem a hb)
    cases rest with
    | nil => exact ha
    | cons b more =>
      have hcomma : (", " : String).toList = [',', ' '] := rfl
      rw [List.map_cons, List.map_cons, Text.toList_joinWith_cons, hcomma]
      exact ha.append (hrest.space.mark (by simp)) rfl

private theorem spells_quoteList (items : List String) :
    Spells (quoteList items).toList (textsTokens items) := by
  have hitems := spells_joinWith quote (fun s => [.string s]) items fun s _ => spells_quote s
  have hopen : ("[" : String).toList = ['['] := rfl
  have hclose : ("]" : String).toList = [']'] := rfl
  rw [quoteList, String.toList_append, String.toList_append, hopen, hclose, List.append_assoc]
  exact hitems.bracket (by simp) (by simp)

private theorem spells_pair (pair : String × List String) {rest : List Char} {us : List Token}
    (h : Spells rest us) :
    Spells ((Expression.pairSource pair).toList ++ rest) (pairTokens pair ++ us) := by
  have hinner := (spells_quote pair.1).append
    ((spells_quoteList pair.2).space.mark (d := ',') (by simp)) rfl
  have hpair := (hinner.bracket (o := '(') (c := ')') (by simp) (by simp)).append
    (h.mark (d := ',') (by simp)) rfl
  have hopen : ("(" : String).toList = ['('] := rfl
  have hcomma : (", " : String).toList = [',', ' '] := rfl
  have hclose : ("),": String).toList = [')', ','] := rfl
  simpa [Expression.pairSource, pairTokens, hopen, hcomma, hclose] using hpair

private theorem spells_pairs (pairs : List (String × List String)) :
    Spells (String.join (pairs.map Expression.pairSource)).toList (pairs.flatMap pairTokens) := by
  rw [String.toList_join, List.flatMap_map]
  induction pairs with
  | nil => exact Spells.nil
  | cons pair rest ih => exact spells_pair pair ih

/-- An expression is read back from its text. -/
theorem spells_expression (e : Expression) : Spells e.source.toList e.tokens := by
  cases e with
  | text s => exact spells_quote s
  | yes => exact spells_name ⟨'T', ['r', 'u', 'e'], rfl, by decide, by decide⟩
  | packageName =>
    have hname : Spells "PACKAGE".toList [.name "PACKAGE"] :=
      spells_name ⟨'P', ['A', 'C', 'K', 'A', 'G', 'E'], rfl, by decide, by decide⟩
    have hindex := (spells_quote "name").bracket (o := '[') (c := ']') (by simp) (by simp)
    have hopen : ("PACKAGE[" : String).toList = "PACKAGE".toList ++ ['['] := rfl
    have hclose : ("]" : String).toList = [']'] := rfl
    simpa [Expression.source, Expression.tokens, hopen, hclose] using hname.append hindex rfl
  | texts items => exact spells_quoteList items
  | choices pairs =>
    have hpairs := (spells_pairs pairs).bracket (o := '(') (c := ')') (by simp) (by simp)
    have hopen : ("(" : String).toList = ['('] := rfl
    have hclose : (")" : String).toList = [')'] := rfl
    simpa [Expression.source, Expression.tokens, hopen, hclose] using hpairs

end Expressions

section Calls

private theorem spells_argument {a : Argument} (h : a.Identified) :
    Spells a.source.toList a.tokens := by
  cases a with
  | plain value => exact spells_expression value
  | named name value =>
    have hvalue := (spells_expression value).mark (d := '=') (by simp)
    have hequals : ("=" : String).toList = ['='] := rfl
    simpa [Argument.source, Argument.tokens, hequals] using (spells_name (isName_of_isIdentifier h)).append hvalue rfl
  | keyed key value =>
    have hentry := (spells_quote key).append
      ((spells_expression value).space.mark (d := ':') (by simp)) rfl
    have htable := (hentry.bracket (o := '\x7b') (c := '\x7d') (by simp) (by simp)).stars
    have hopen : ("**\x7b" : String).toList = ['*', '*', '\x7b'] := rfl
    have hcolon : (": " : String).toList = [':', ' '] := rfl
    have hclose : ("\x7d" : String).toList = ['\x7d'] := rfl
    simpa [Argument.source, Argument.tokens, hopen, hcolon, hclose] using htable

private theorem Spells.spaces {ds : List Char} {us : List Token} (h : Spells ds us) (n : Nat) :
    Spells (List.replicate n ' ' ++ ds) us := by
  induction n with
  | zero => exact h
  | succ n ih => exact ih.space

/-- Items with commas behind them, each on a line of its own. -/
theorem spells_rows {α : Type} (n : Nat) (text : α → String) (tokens : α → List Token)
    {tail : List Char} (htail : Spells tail []) (xs : List α)
    (h : ∀ a ∈ xs, Spells (text a).toList (tokens a)) :
    Spells ((xs.flatMap fun a => List.replicate n ' ' ++ (text a).toList ++ [',', '\n']) ++ tail)
      (xs.flatMap fun a => tokens a ++ [Token.mark ',']) := by
  induction xs with
  | nil => exact htail
  | cons a rest ih =>
    have hrest := ih fun b hb => h b (List.mem_cons_of_mem a hb)
    have hrow := (h a List.mem_cons_self).append (hrest.newline.mark (d := ',') (by simp)) rfl
    simpa using hrow.spaces n

/-- Whether characters that are whole lines are read as these lines, whatever comes before them. -/
def Reads (cs : List Char) (lines : List Line) : Prop :=
  ∀ before : List Line, scan { lines := before } cs = some { lines := before ++ lines }

/-- Lines are read one after another. -/
theorem Reads.append {cs ds : List Char} {lines more : List Line} (h : Reads cs lines)
    (h' : Reads ds more) : Reads (cs ++ ds) (lines ++ more) := by
  intro before
  rw [scan_append, h, Option.bind_some, h', List.append_assoc]

theorem reads_flatMap {α : Type} {chars : α → List Char} {lines : α → List Line} {xs : List α}
    (h : ∀ a ∈ xs, Reads (chars a) (lines a)) : Reads (xs.flatMap chars) (xs.flatMap lines) := by
  induction xs with
  | nil =>
    intro before
    rw [List.flatMap_nil, List.flatMap_nil, List.append_nil]
    rfl
  | cons a rest ih =>
    exact (h a List.mem_cons_self).append (ih fun b hb => h b (List.mem_cons_of_mem a hb))

theorem Reads.blank {cs : List Char} {lines : List Line} (h : Reads cs lines) :
    Reads ('\n' :: cs) lines :=
  fun before => h before

private theorem scan_comment {s : Scanner} (hs : s.mode = .comment) {text : List Char}
    (h : ∀ c ∈ text, breaksLine c = false) : scan s (text ++ ['\n']) = some s.endLine := by
  induction text with
  | nil =>
    have hend : s.step '\n' = some s.endLine := by simp [step, hs]
    rw [List.nil_append, scan_singleton, hend]
  | cons c rest ih =>
    have hc := h c List.mem_cons_self
    have hfeed : c ≠ '\n' := by
      rintro rfl
      cases hc
    have hstep : s.step c = some s := by simp [step, hs, hc, hfeed]
    rw [List.cons_append, scan_cons, hstep, Option.bind_some,
      ih fun d hd => h d (List.mem_cons_of_mem c hd)]

/-- A line with nothing but a comment. -/
theorem Reads.comment {cs : List Char} {lines : List Line} (h : Reads cs lines) (text : List Char)
    (htext : text.any breaksLine = false) :
    Reads ('#' :: text ++ '\n' :: cs) lines := by
  intro before
  have hfirst : ({ lines := before } : Scanner).step '#' =
      some { mode := .comment, lines := before } := rfl
  have hend : endLine { mode := .comment, lines := before } = { lines := before } := rfl
  have hcomment := scan_comment (s := { mode := .comment, lines := before }) rfl fun c hc =>
    Bool.eq_false_iff.mpr (List.any_eq_false.mp htext c hc)
  rw [← Option.bind_some (f := fun s => scan s _), ← hfirst, ← scan_cons] at hcomment
  rw [List.append_cons, scan_append, List.cons_append, hcomment, hend,
    Option.bind_some, h]

/-- A line feed outside brackets ends a line that has tokens. -/
theorem step_newline {s : Scanner} (hs : s.mode = .between) (hdepth : s.depth = 0)
    (htokens : s.tokens ≠ []) :
    s.step '\n' = some { lines := s.lines ++ [⟨s.indent, s.tokens⟩] } := by
  have hend : s.between '\n' = some s.endLine := rfl
  have hsome : s.tokens.isEmpty = false := by simpa using htokens
  simp [step_between hs, hend, endLine, hdepth, hsome]

def behindObject (before : List Line) : Scanner :=
  { mode := .between, indent := 4, tokens := [.name "ctx", .mark '.'], lines := before }

private theorem scan_call {name : String} {cs : List Char} {ts : List Token}
    (hname : IsName name.toList) (h : Spells cs ts) (before : List Line) :
    scan (behindObject before) (name.toList ++ '(' :: cs ++ [')', '\n']) =
      some { lines := before ++
        [⟨4, [.name "ctx", .mark '.', .name name, .mark '('] ++ ts ++ [.mark ')']⟩] } := by
  have hfunction := scan_name hname (s := behindObject before) rfl (d := '(') rfl
  have hbracket := scan_bracket h (o := '(') (c := ')') (by simp) (by simp)
    (s := (behindObject before).after [.name name]) rfl
  rw [List.cons_append, scan_cons, step_between rfl, ← hfunction, ← scan_append] at hbracket
  have hline := step_newline (s := ((behindObject before).after [.name name]).after
    (.mark '(' :: ts ++ [Token.mark ')'])) rfl rfl (by simp [after])
  have hsplit : name.toList ++ '(' :: cs ++ [')', '\n'] =
      (name.toList ++ ['('] ++ (cs ++ [')'])) ++ ['\n'] := by
    simp
  rw [hsplit, scan_append, hbracket, Option.bind_some, scan_singleton, hline]
  simp [behindObject, after]

/-- A call is one line, indented by four. -/
theorem reads_call {c : Call} (h : c.Identified) :
    Reads c.source.toList [⟨4, c.tokens⟩] := by
  intro before
  have hindent : Script.indent.toList = [' ', ' ', ' ', ' '] := rfl
  have hctx : ("ctx." : String).toList = ['c', 't', 'x', '.'] := rfl
  have hstart : scan { lines := before } [' ', ' ', ' ', ' ', 'c', 't', 'x', '.'] =
      some (behindObject before) := rfl
  rw [Call.source, Call.tokens, Call.argumentTokens]
  split
  · have hbreak : scan { lines := before } ['\n', ' ', ' ', ' ', ' ', 'c', 't', 'x', '.'] =
        some (behindObject before) := rfl
    have hopen : ("(\n" : String).toList = ['(', '\n'] := rfl
    have hclose : (")\n" : String).toList = [')', '\n'] := rfl
    have hfeed : ("\n" : String).toList = ['\n'] := rfl
    have hcomma : (",\n" : String).toList = [',', '\n'] := rfl
    have hrows := spells_rows 8 Argument.source Argument.tokens
      Spells.nil.space.space.space.space c.arguments fun a ha => spells_argument (h.arguments a ha)
    have hcall := scan_call (isName_of_isIdentifier h.function) hrows.newline before
    rw [← Option.bind_some (f := fun s => scan s _), ← hbreak, ← scan_append] at hcall
    simpa [List.flatMap_map, hindent, hctx, hopen, hclose, hfeed, hcomma] using hcall
  · have hopen : ("(" : String).toList = ['('] := rfl
    have hclose : (")\n" : String).toList = [')', '\n'] := rfl
    have hcall := scan_call (isName_of_isIdentifier h.function)
      (spells_joinWith Argument.source Argument.tokens c.arguments fun a ha =>
        spells_argument (h.arguments a ha)) before
    rw [← Option.bind_some (f := fun s => scan s _), ← hstart, ← scan_append] at hcall
    simpa [hindent, hctx, hopen, hclose] using hcall

end Calls

end Scanner

end PackageScript.Script
