import PackageScript.Proofs.Script.Lines
import PackageScript.Proofs.Script.Reader
/-! What the expressions, the calls and the tables of a script are read as. -/
namespace PackageScript.Script

def stringList (items : List String) : Value :=
  .list (items.map .string)

def choiceValue (pair : String × List String) : Value :=
  .tuple [.string pair.1, stringList pair.2]

def Expression.value : Expression → Value
  | .text s => .string s
  | .yes => .yes
  | .packageName => .element "PACKAGE" "name"
  | .texts items => stringList items
  | .choices pairs => .tuple (pairs.map choiceValue)

def Argument.passed? : Argument → Option (String × Value)
  | .plain _ => none
  | .named name value => some (name, value.value)
  | .keyed key value => some (key, value.value)

/-- Whether the name before the equals sign of an argument, if it has one, can be bound. -/
def Argument.Bindable : Argument → Prop
  | .named name _ => name ∉ unbindable
  | _ => True

namespace Reader

private theorem run_cons (r : Reader) (t : Token) (ts : List Token) :
    run r (t :: ts) = (r.step t).bind fun s => run s ts :=
  List.foldlM_cons

/-- Whether the tokens are read as a value inside these frames. -/
def Yields (frames : List Frame) (tokens : List Token) (v : Value) : Prop :=
  ∀ rest, run ⟨frames, none⟩ (tokens ++ rest) = run ⟨frames, some v⟩ rest

private theorem run_strings (frames : List Frame) (items : List String) (front : List Value)
    (rest : List Token) :
    run ⟨.list front :: frames, none⟩
        (commaSeparated (items.map fun s => [.string s]) ++ .mark ']' :: rest) =
      run ⟨frames, some (.list (front ++ items.map .string))⟩ rest := by
  induction items generalizing front with
  | nil => rfl
  | cons s more ih =>
    cases more with
    | nil => rfl
    | cons t more =>
      have hrest := ih (front ++ [Value.string s])
      rw [List.append_assoc] at hrest
      exact hrest

/-- A list of strings is read as a value. -/
theorem yields_texts (frames : List Frame) (items : List String) :
    Yields frames (textsTokens items) (stringList items) := by
  intro rest
  have hitems := run_strings frames items [] rest
  rw [textsTokens, List.append_assoc, List.cons_append]
  exact hitems

private theorem run_pairs (frames : List Frame) (pairs : List (String × List String))
    (front : List Value) (rest : List Token) :
    run ⟨.paren front :: frames, none⟩ (pairs.flatMap pairTokens ++ rest) =
      run ⟨.paren (front ++ pairs.map choiceValue) :: frames, none⟩ rest := by
  induction pairs generalizing front with
  | nil => simp
  | cons pair more ih =>
    have hpair := yields_texts (.paren [.string pair.1] :: .paren front :: frames) pair.2
      (.mark ')' :: .mark ',' :: (more.flatMap pairTokens ++ rest))
    have hmore := ih (front ++ [choiceValue pair])
    rw [List.append_assoc] at hmore
    rw [List.flatMap_cons, List.append_assoc, pairTokens, List.append_assoc]
    exact hpair.trans hmore

def Plain (frames : List Frame) : Prop :=
  ∀ object rest, frames ≠ .dot object :: rest

private theorem name_of_plain {frames : List Frame} (h : Plain frames) (text : String)
    (htrue : text ≠ "True") (hk : text ∉ keywords) :
    name ⟨frames, none⟩ text = some ⟨frames, some (.reference text)⟩ := by
  unfold name
  split
  · exact absurd ‹_› (h _ _)
  · rw [if_neg htrue, if_neg hk]
    rfl

private theorem yields_expression (frames : List Frame) (h : Plain frames) (e : Expression) :
    Yields frames e.tokens e.value := by
  intro rest
  cases e with
  | text s => rfl
  | yes =>
    have hyes : name ⟨frames, none⟩ "True" = some ⟨frames, some .yes⟩ := by
      unfold name
      split
      · exact absurd ‹_› (h _ _)
      · rfl
    rw [Expression.tokens, List.cons_append, run_cons, step, hyes]
    rfl
  | packageName =>
    have hname := name_of_plain h "PACKAGE" (by decide) (by decide)
    rw [Expression.tokens, List.cons_append, run_cons, step, hname]
    rfl
  | texts items => exact yields_texts frames items rest
  | choices pairs =>
    have hpairs := run_pairs frames pairs [] (.mark ')' :: rest)
    have hclose : closeBracket ⟨.paren ([] ++ pairs.map choiceValue) :: frames, none⟩ ')' =
        some ⟨frames, some (.tuple (pairs.map choiceValue))⟩ := by
      simp [closeBracket]
    rw [Expression.tokens, List.append_assoc]
    refine hpairs.trans ?_
    rw [run_cons]
    exact congrArg (Option.bind · _) hclose

def passing : Argument → Passing
  | .plain _ => .inOrder
  | .named name _ => .byName name
  | .keyed _ _ => .unpacked

def written : Argument → Value
  | .plain value => value.value
  | .named _ value => value.value
  | .keyed key value => .table [(key, value.value)]

private theorem not_keyword_of_bindable {name : String} (h : name ∉ unbindable) : name ∉ keywords :=
  fun hk => h (List.mem_append_left _ hk)

/-- What is written as an identifier is no keyword. -/
theorem not_keyword_of_isIdentifier {name : String} (h : isIdentifier name = true) :
    name ∉ keywords := by
  have hreserved : ∀ word ∈ keywords, word ∈ reservedWords := by decide
  unfold isIdentifier at h
  split at h
  · cases h
  · simp only [Bool.and_eq_true, Bool.not_eq_true', List.contains_eq_mem,
      decide_eq_false_iff_not] at h
    exact fun hk => h.2 (hreserved name hk)

private theorem run_argument (object method : String) (values : List Value)
    (named : List (String × Value)) (frames : List Frame) {a : Argument} (h : a.Bindable)
    (rest : List Token) :
    run ⟨.call object method values named .inOrder :: frames, none⟩ (a.tokens ++ rest) =
      run ⟨.call object method values named (passing a) :: frames, some (written a)⟩ rest := by
  have hplain : ∀ p, Plain (.call object method values named p :: frames) := by
    intro p dotted rest h
    cases h
  cases a with
  | plain value => exact yields_expression _ (hplain _) value rest
  | named name value =>
    have hk := not_keyword_of_bindable h
    have htrue : name ≠ "True" := by
      rintro rfl
      exact hk (by decide)
    have hname := name_of_plain (hplain .inOrder) name htrue hk
    have hvalue := yields_expression _ (hplain (.byName name)) value rest
    have hequals : equals ⟨.call object method values named .inOrder :: frames,
        some (.reference name)⟩ =
          some ⟨.call object method values named (.byName name) :: frames, none⟩ :=
      if_neg h
    rw [Argument.tokens, List.cons_append, run_cons, step, hname, Option.bind_some,
      List.cons_append, run_cons]
    exact (congrArg (Option.bind · _) hequals).trans hvalue
  | keyed key value =>
    have hvalue := yields_expression (.table [] (some key) ::
      .call object method values named .unpacked :: frames) (fun _ _ h => by cases h) value
      (.mark '\x7d' :: rest)
    rw [Argument.tokens, List.append_assoc]
    exact hvalue

private theorem run_unbindable (object method : String) (values : List Value)
    (named : List (String × Value)) (frames : List Frame) {a : Argument} (h : ¬ a.Bindable)
    (rest : List Token) :
    run ⟨.call object method values named .inOrder :: frames, none⟩ (a.tokens ++ rest) = none := by
  cases a with
  | plain => exact absurd trivial h
  | keyed => exact absurd trivial h
  | named word value =>
    have hword : word ∈ unbindable := not_not.mp h
    have hequals : ((name ⟨.call object method values named .inOrder :: frames, none⟩ word).bind
        equals) = none := by
      unfold name
      split
      · cases ‹_ = Frame.dot _ :: _›
      · split
        · rfl
        · split
          · rfl
          · exact if_pos hword
    rw [Argument.tokens, List.cons_append, List.cons_append, run_cons]
    simp_rw [run_cons, step]
    rw [← Option.bind_assoc]
    exact congrArg (Option.bind · _) hequals

def gather (passed : List Value × List (String × Value)) (a : Argument) :
    Option (List Value × List (String × Value)) :=
  pass passed.1 passed.2 (written a) (passing a)

section Calls

variable (object method : String) (frames : List Frame)

def inCall (passed : List Value × List (String × Value)) : Reader :=
  ⟨.call object method passed.1 passed.2 .inOrder :: frames, none⟩

def behindCall (passed : List Value × List (String × Value)) : Reader :=
  ⟨frames, some (.call object method passed.1 passed.2)⟩

private theorem run_row {passed next : List Value × List (String × Value)} {a : Argument}
    (h : a.Bindable) (hnext : gather passed a = some next) (rest : List Token) :
    run (inCall object method frames passed) (a.tokens ++ .mark ',' :: rest) =
      run (inCall object method frames next) rest := by
  have hcomma : comma ⟨.call object method passed.1 passed.2 (passing a) :: frames,
      some (written a)⟩ = some (inCall object method frames next) := by
    rw [gather] at hnext
    simp [comma, hnext, inCall]
  rw [inCall, run_argument object method passed.1 passed.2 frames h, run_cons]
  exact congrArg (Option.bind · _) hcomma

private theorem run_rows_unbindable {arguments : List Argument} (h : ∃ a ∈ arguments, ¬ a.Bindable)
    {passed all : List Value × List (String × Value)}
    (hall : arguments.foldlM gather passed = some all) (rest : List Token) :
    run (inCall object method frames passed)
        ((arguments.flatMap fun a => a.tokens ++ [Token.mark ',']) ++ rest) = none := by
  induction arguments generalizing passed with
  | nil => simp at h
  | cons a more ih =>
    obtain ⟨next, hnext, hmore⟩ := Option.bind_eq_some_iff.mp hall
    rw [List.flatMap_cons, List.append_assoc, List.append_assoc, List.singleton_append]
    -- The rows before the first argument that is not bindable are read as in any other call.
    by_cases ha : a.Bindable
    · have hlater : ∃ b ∈ more, ¬ b.Bindable := by simpa [ha] using h
      rw [run_row object method frames ha hnext, ih hlater hmore]
    · exact run_unbindable object method passed.1 passed.2 frames ha _

private theorem run_last {passed next : List Value × List (String × Value)} {a : Argument}
    (h : a.Bindable) (hnext : gather passed a = some next) (rest : List Token) :
    run (inCall object method frames passed) (a.tokens ++ .mark ')' :: rest) =
      run (behindCall object method frames next) rest := by
  have hclose : closeBracket ⟨.call object method passed.1 passed.2 (passing a) :: frames,
      some (written a)⟩ ')' = some (behindCall object method frames next) := by
    rw [gather] at hnext
    simp [closeBracket, hnext, behindCall]
  rw [inCall, run_argument object method passed.1 passed.2 frames h, run_cons]
  exact congrArg (Option.bind · _) hclose

private theorem run_rows {arguments : List Argument} (h : ∀ a ∈ arguments, a.Bindable)
    {passed all : List Value × List (String × Value)}
    (hall : arguments.foldlM gather passed = some all) (rest : List Token) :
    run (inCall object method frames passed)
        ((arguments.flatMap fun a => a.tokens ++ [Token.mark ',']) ++ .mark ')' :: rest) =
      run (behindCall object method frames all) rest := by
  induction arguments generalizing passed with
  | nil =>
    cases hall
    rfl
  | cons a more ih =>
    obtain ⟨next, hnext, hmore⟩ := Option.bind_eq_some_iff.mp hall
    have hrest := ih (fun b hb => h b (List.mem_cons_of_mem a hb)) hmore
    rw [List.flatMap_cons, List.append_assoc, List.append_assoc, List.singleton_append,
      run_row object method frames (h a List.mem_cons_self) hnext, hrest]

private theorem run_separated {arguments : List Argument} (h : ∀ a ∈ arguments, a.Bindable)
    {passed all : List Value × List (String × Value)}
    (hall : arguments.foldlM gather passed = some all) (rest : List Token) :
    run (inCall object method frames passed)
        (commaSeparated (arguments.map Argument.tokens) ++ .mark ')' :: rest) =
      run (behindCall object method frames all) rest := by
  induction arguments generalizing passed with
  | nil =>
    cases hall
    rfl
  | cons a more ih =>
    obtain ⟨next, hnext, hmore⟩ := Option.bind_eq_some_iff.mp hall
    have hrest := ih (fun b hb => h b (List.mem_cons_of_mem a hb)) hmore
    cases more with
    | nil =>
      cases hmore
      exact run_last object method frames (h a List.mem_cons_self) hnext rest
    | cons b more =>
      have hsplit : commaSeparated ((a :: b :: more).map Argument.tokens) =
          a.tokens ++ .mark ',' :: commaSeparated ((b :: more).map Argument.tokens) := rfl
      rw [hsplit, List.append_assoc, List.cons_append,
        run_row object method frames (h a List.mem_cons_self) hnext, hrest]

end Calls

private theorem gather_plain (values : List Value) (plain : List Expression) :
    (plain.map Argument.plain).foldlM gather (values, []) =
      some (values ++ plain.map Expression.value, []) := by
  induction plain generalizing values with
  | nil => simp
  | cons e rest ih =>
    have hfirst : gather (values, []) (.plain e) = some (values ++ [e.value], []) := rfl
    rw [List.map_cons, List.foldlM_cons, hfirst, Option.bind_eq_bind, Option.bind_some, ih]
    simp

private theorem addNamed_singleton {named : List (String × Value)} (entry : String × Value)
    (h : entry.1 ∉ named.map Prod.fst) : addNamed named [entry] = some (named ++ [entry]) := by
  have hfree : named.any (fun e => decide (e.1 = entry.1)) = false := by
    refine List.any_eq_false.mpr fun e he => ?_
    rw [decide_eq_true_eq]
    exact fun hname => h (hname ▸ List.mem_map_of_mem he)
  simp [addNamed, hfree]

private theorem gather_entry (values : List Value) (named : List (String × Value)) {a : Argument}
    {entry : String × Value} (ha : a.passed? = some entry) (h : entry.1 ∉ named.map Prod.fst) :
    gather (values, named) a = some (values, named ++ [entry]) := by
  have hadd := addNamed_singleton entry h
  cases a with
  | plain => cases ha
  | _ =>
    cases ha
    simp [gather, pass, passing, written, hadd]

private theorem gather_entries (values : List Value) (named : List (String × Value))
    {arguments : List Argument} {entries : List (String × Value)}
    (ha : arguments.map Argument.passed? = entries.map some)
    (h : ((named ++ entries).map Prod.fst).Nodup) :
    arguments.foldlM gather (values, named) = some (values, named ++ entries) := by
  induction arguments generalizing named entries with
  | nil =>
    cases entries with
    | nil => simp
    | cons => cases ha
  | cons a rest ih =>
    cases entries with
    | nil => cases ha
    | cons entry more =>
      rw [List.map_cons, List.map_cons, List.cons.injEq] at ha
      have hnew : entry.1 ∉ named.map Prod.fst := by
        rw [List.map_append, List.map_cons] at h
        exact fun hmem => (List.nodup_append.mp h).2.2 _ hmem _ List.mem_cons_self rfl
      rw [List.foldlM_cons, gather_entry values named ha.1 hnew, Option.bind_eq_bind,
        Option.bind_some, ih (named ++ [entry]) ha.2 (by simpa using h), List.append_assoc]
      rfl

private theorem run_table (frames : List Frame) (front : List (String × Value))
    {entries : List (String × Expression)}
    (h : (front.map Prod.fst ++ entries.map Prod.fst).Nodup) (rest : List Token) :
    run ⟨.table front none :: frames, none⟩
        ((entries.flatMap fun e => entryTokens e ++ [Token.mark ',']) ++ .mark '\x7d' :: rest) =
      run ⟨frames, some (.table (front ++ entries.map fun e => (e.1, e.2.value)))⟩ rest := by
  induction entries generalizing front with
  | nil => simp [run_cons, step, closeBracket]
  | cons e more ih =>
    have hnew : e.1 ∉ front.map Prod.fst := fun hmem =>
      (List.nodup_append.mp h).2.2 _ hmem _ List.mem_cons_self rfl
    have hadd := addNamed_singleton (e.1, e.2.value) hnew
    have hvalue := yields_expression (.table front (some e.1) :: frames)
      (fun _ _ => nofun) e.2 (.mark ',' ::
        ((more.flatMap fun e => entryTokens e ++ [Token.mark ',']) ++ .mark '\x7d' :: rest))
    have hcomma : comma ⟨.table front (some e.1) :: frames, some e.2.value⟩ =
        some ⟨.table (front ++ [(e.1, e.2.value)]) none :: frames, none⟩ := by
      simp [comma, hadd]
    have hnodup : ((front ++ [(e.1, e.2.value)]).map Prod.fst ++ more.map Prod.fst).Nodup := by
      simpa using h
    have hmore := ih (front ++ [(e.1, e.2.value)]) hnodup
    rw [List.flatMap_cons, List.append_assoc, List.append_assoc, List.singleton_append, entryTokens]
    refine hvalue.trans ?_
    rw [run_cons]
    refine (congrArg (Option.bind · _) hcomma).trans ?_
    rw [Option.bind_some, hmore, List.append_assoc]
    rfl

private theorem value_of_run {tokens : List Token} {v : Value}
    (h : run {} tokens = some ⟨[], some v⟩) : value tokens = some v := by
  rw [value, h]
  rfl

end Reader

open Reader

private theorem gather_arguments {c : Call} {plain : List Expression} {more : List Argument}
    {entries : List (String × Value)} (hc : c.arguments = plain.map .plain ++ more)
    (hmore : more.map Argument.passed? = entries.map some) (hn : (entries.map Prod.fst).Nodup) :
    c.arguments.foldlM gather ([], []) = some (plain.map Expression.value, entries) := by
  rw [hc, List.foldlM_append, gather_plain, Option.bind_eq_bind, Option.bind_some,
    gather_entries _ [] hmore hn]
  rfl

private theorem run_call {c : Call} (h : c.function ∉ keywords) :
    run {} c.tokens =
      run (inCall "ctx" c.function [] ([], [])) (c.argumentTokens ++ [Token.mark ')']) := by
  have hname : name ⟨[.dot "ctx"], none⟩ c.function =
      some ⟨[], some (.method "ctx" c.function)⟩ := by
    simp [name, h]
  have hmethod : run {} c.tokens =
      (name ⟨[.dot "ctx"], none⟩ c.function).bind fun r =>
        run r (.mark '(' :: (c.argumentTokens ++ [Token.mark ')'])) := by
    rw [Call.tokens, List.append_assoc]
    rfl
  rw [hmethod, hname]
  rfl

private theorem instruction_line (c : Call) :
    c.line.instruction? =
      match Reader.value c.tokens with
      | some (.call object method values named) => some (.perform object method values named)
      | _ => none := by
  have htokens : c.tokens = .name "ctx" :: .mark '.' :: .name c.function :: .mark '(' ::
      (c.argumentTokens ++ [Token.mark ')']) := List.append_assoc _ _ _
  rw [htokens, Call.line, htokens]
  rfl

/-- A call performs itself: what it passes in order comes before what it passes by name. -/
theorem instruction_call {c : Call} {plain : List Expression} {more : List Argument}
    {entries : List (String × Value)} (hf : c.function ∉ keywords)
    (hb : ∀ a ∈ c.arguments, a.Bindable) (hc : c.arguments = plain.map .plain ++ more)
    (hmore : more.map Argument.passed? = entries.map some) (hn : (entries.map Prod.fst).Nodup) :
    c.line.instruction? =
      some (.perform "ctx" c.function (plain.map Expression.value) entries) := by
  have hall := gather_arguments hc hmore hn
  have harguments :
      run (inCall "ctx" c.function [] ([], [])) (c.argumentTokens ++ [Token.mark ')']) =
        some (behindCall "ctx" c.function [] (plain.map Expression.value, entries)) := by
    rw [Call.argumentTokens]
    split
    · exact run_rows "ctx" c.function [] hb hall []
    · exact run_separated "ctx" c.function [] hb hall []
  have hvalue : Reader.value c.tokens =
      some (.call "ctx" c.function (plain.map Expression.value) entries) :=
    value_of_run ((run_call hf).trans harguments)
  rw [instruction_line, hvalue]

/-- A call on several lines is not read at all if it passes something under a name that nothing
can be bound to. -/
theorem instruction_call_unbindable {c : Call} {plain : List Expression} {more : List Argument}
    {entries : List (String × Value)} (hs : c.spread = true) (hf : c.function ∉ keywords)
    (hb : ∃ a ∈ c.arguments, ¬ a.Bindable) (hc : c.arguments = plain.map .plain ++ more)
    (hmore : more.map Argument.passed? = entries.map some) (hn : (entries.map Prod.fst).Nodup) :
    c.line.instruction? = none := by
  have harguments :
      run (inCall "ctx" c.function [] ([], [])) (c.argumentTokens ++ [Token.mark ')']) = none := by
    rw [Call.argumentTokens, if_pos hs]
    exact run_rows_unbindable "ctx" c.function [] hb (gather_arguments hc hmore hn) _
  have hvalue : Reader.value c.tokens = none := by
    rw [Reader.value, run_call hf, harguments]
    rfl
  rw [instruction_line, hvalue]

/-- The line of the metadata assigns the table of its entries. -/
theorem instruction_metadata {entries : List (String × Expression)}
    (h : (entries.map Prod.fst).Nodup) :
    (metadataLine entries).instruction? =
      some (.assign "PACKAGE" (.table (entries.map fun e => (e.1, e.2.value)))) := by
  have hvalue : Reader.value (.mark '\x7b' :: ((entries.flatMap fun e =>
      entryTokens e ++ [Token.mark ',']) ++ [Token.mark '\x7d'])) =
        some (.table (entries.map fun e => (e.1, e.2.value))) := by
    exact value_of_run (run_table [] [] h [])
  unfold metadataLine Line.instruction?
  simp [hvalue, unbindable, keywords]

end PackageScript.Script
