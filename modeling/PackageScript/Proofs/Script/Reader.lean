import PackageScript.Proofs.Script.Scanner
/-! How the script language reads lines: values, calls with their arguments, assignments and
functions. Scripts with anything else are not read. -/
namespace PackageScript.Script

/-- The words that cannot name anything: constants, operators, and starts of statements. -/
def keywords : List String :=
  ["False", "None", "True"] ++ ["and", "or", "not", "in", "is", "if", "else", "lambda", "await"] ++
    ["assert", "async", "break", "class", "continue", "def", "del", "elif", "except", "finally",
      "for", "from", "global", "import", "nonlocal", "pass", "raise", "return", "try", "while",
      "with", "yield", "as"]

/-- The words that nothing can be bound to: the keywords, and the name of one constant that is no
keyword. -/
def unbindable : List String :=
  keywords ++ ["__debug__"]

/-- What an expression stands for. -/
inductive Value where
  | string (s : String)
  | yes
  | reference (name : String)
  | element (table key : String)
  | list (items : List Value)
  | tuple (items : List Value)
  | table (entries : List (String × Value))
  | method (object name : String)
  | call (object method : String) (values : List Value) (named : List (String × Value))
  deriving Repr

/-- Whether a value can stand alone between round brackets, which then mean nothing. -/
def Value.standsAlone : Value → Bool
  | .reference _ | .method .. => false
  | _ => true

/-- How the next argument of a call is passed. -/
inductive Passing where
  | inOrder
  | byName (name : String)
  | unpacked
  deriving DecidableEq, Repr

/-- A bracket or dot that is open, with what is read after it. -/
inductive Frame where
  | dot (object : String)
  | index (table : String)
  | list (items : List Value)
  | paren (items : List Value)
  | table (entries : List (String × Value)) (key : Option String)
  | call (object method : String) (values : List Value) (named : List (String × Value))
      (passing : Passing)

/-- The entries with some more, none of which may be under a name that is taken. -/
def addNamed (named more : List (String × Value)) : Option (List (String × Value)) :=
  more.foldlM (fun named e => if named.any (·.1 = e.1) then none else some (named ++ [e])) named

/-- The open frames, innermost first, and the value that is complete in the innermost one. -/
structure Reader where
  frames : List Frame := []
  value? : Option Value := none

namespace Reader

/-- The arguments of a call with one more. None may be passed in order after one by name. -/
def pass (values : List Value) (named : List (String × Value)) (v : Value) :
    Passing → Option (List Value × List (String × Value))
  | .inOrder => if named.isEmpty then some (values ++ [v], named) else none
  | .byName name => (addNamed named [(name, v)]).map (values, ·)
  | .unpacked =>
    match v with
    | .table (e :: more) => (addNamed named (e :: more)).map (values, ·)
    | _ => none

def atom (r : Reader) (v : Value) : Option Reader :=
  match r.value? with
  | none => some { r with value? := some v }
  | some _ => none

def name (r : Reader) (text : String) : Option Reader :=
  match r.frames with
  | .dot object :: frames =>
    if text ∈ keywords then none else some ⟨frames, some (.method object text)⟩
  | _ =>
    if text = "True" then r.atom .yes
    else if text ∈ keywords then none
    else r.atom (.reference text)

def dot (r : Reader) : Option Reader :=
  match r.value? with
  | some (.reference object) => some ⟨.dot object :: r.frames, none⟩
  | _ => none

/-- An opening bracket. After a name it asks for an element, after a method it calls it. -/
def openBracket (r : Reader) : Char → Option Reader
  | '[' =>
    match r.value? with
    | none => some ⟨.list [] :: r.frames, none⟩
    | some (.reference table) => some ⟨.index table :: r.frames, none⟩
    | _ => none
  | '(' =>
    match r.value? with
    | none => some ⟨.paren [] :: r.frames, none⟩
    | some (.method object method) => some ⟨.call object method [] [] .inOrder :: r.frames, none⟩
    | _ => none
  | '\x7b' =>
    match r.value? with
    | none => some ⟨.table [] none :: r.frames, none⟩
    | _ => none
  | _ => none

def comma (r : Reader) : Option Reader :=
  match r.frames, r.value? with
  | .list items :: frames, some v => some ⟨.list (items ++ [v]) :: frames, none⟩
  | .paren items :: frames, some v => some ⟨.paren (items ++ [v]) :: frames, none⟩
  | .table entries (some key) :: frames, some v => do
    return ⟨.table (← addNamed entries [(key, v)]) none :: frames, none⟩
  | .call object method values named passing :: frames, some v => do
    let (values, named) ← pass values named v passing
    return ⟨.call object method values named .inOrder :: frames, none⟩
  | _, _ => none

def colon (r : Reader) : Option Reader :=
  match r.frames, r.value? with
  | .table entries none :: frames, some (.string key) => some ⟨.table entries (some key) :: frames, none⟩
  | _, _ => none

def equals (r : Reader) : Option Reader :=
  match r.frames, r.value? with
  | .call object method values named .inOrder :: frames, some (.reference name) =>
    if name ∈ unbindable then none
    else some ⟨.call object method values named (.byName name) :: frames, none⟩
  | _, _ => none

def stars (r : Reader) : Option Reader :=
  match r.frames, r.value? with
  | .call object method values named .inOrder :: frames, none =>
    some ⟨.call object method values named .unpacked :: frames, none⟩
  | _, _ => none

/-- A closing bracket. A last item may, but need not, have a comma after it. Round brackets around
a value without any comma leave it as it is. -/
def closeBracket (r : Reader) (c : Char) : Option Reader :=
  match c, r.frames, r.value? with
  | ']', .list items :: frames, v => some ⟨frames, some (.list (items ++ v.toList))⟩
  | ']', .index table :: frames, some (.string key) => some ⟨frames, some (.element table key)⟩
  | ')', .paren [] :: frames, some v => if v.standsAlone then some ⟨frames, some v⟩ else none
  | ')', .paren items :: frames, v => some ⟨frames, some (.tuple (items ++ v.toList))⟩
  | ')', .call object method values named .inOrder :: frames, none =>
    some ⟨frames, some (.call object method values named)⟩
  | ')', .call object method values named passing :: frames, some v => do
    let (values, named) ← pass values named v passing
    return ⟨frames, some (.call object method values named)⟩
  | '\x7d', .table entries none :: frames, none => some ⟨frames, some (.table entries)⟩
  | '\x7d', .table entries (some key) :: frames, some v => do
    return ⟨frames, some (.table (← addNamed entries [(key, v)]))⟩
  | _, _, _ => none

def step (r : Reader) : Token → Option Reader
  | .name text => r.name text
  | .string s => r.atom (.string s)
  | .doubleStar => r.stars
  | .mark c =>
    if c ∈ ['(', '[', '\x7b'] then r.openBracket c
    else if c ∈ [')', ']', '\x7d'] then r.closeBracket c
    else if c = ',' then r.comma
    else if c = ':' then r.colon
    else if c = '=' then r.equals
    else if c = '.' then r.dot
    else none

def run (r : Reader) (tokens : List Token) : Option Reader :=
  tokens.foldlM step r

def value (tokens : List Token) : Option Value := do
  match ← run {} tokens with
  | ⟨[], some v⟩ => return v
  | _ => none

end Reader

/-- What a line says. -/
inductive Instruction where
  | assign (name : String) (v : Value)
  | define (name parameter : String)
  | perform (object method : String) (values : List Value) (named : List (String × Value))
  | leave
  deriving Repr

/-- The instruction of a line. Expressions stand alone only if they are calls. -/
def Line.instruction? (l : Line) : Option Instruction :=
  match l.tokens with
  | [.name "return"] => some .leave
  | [.name "def", .name name, .mark '(', .name parameter, .mark ')', .mark ':'] =>
    if name ∈ unbindable ∨ parameter ∈ unbindable then none else some (.define name parameter)
  | .name name :: .mark '=' :: rest =>
    if name ∈ unbindable then none else (Reader.value rest).map (.assign name)
  | tokens =>
    match Reader.value tokens with
    | some (.call object method values named) => some (.perform object method values named)
    | _ => none

/-- A call, with what is passed to it in order and by name. -/
structure Effect where
  method : String
  values : List Value
  named : List (String × Value) := []
  deriving Repr

/-- A function of one parameter that makes calls on it, and whether it has returned. -/
structure Routine where
  name : String
  parameter : String
  effects : List Effect := []
  returned : Bool := false
  deriving Repr

/-- The tables and the functions of a script, in order. -/
structure Program where
  tables : List (String × Value) := []
  routines : List Routine := []
  deriving Repr

/-- The function with one more instruction, unless it has returned. -/
def Routine.extend (f : Routine) : Instruction → Option Routine
  | .perform object method values named =>
    if f.returned ∨ object ≠ f.parameter then none
    else some { f with effects := f.effects ++ [⟨method, values, named⟩] }
  | .leave => if f.returned then none else some { f with returned := true }
  | _ => none

namespace Program

def defines (p : Program) (name : String) : Bool :=
  p.tables.any (·.1 = name) || p.routines.any (·.name = name)

/-- Reads one line. A function's lines are indented by four, and it must return before the next. -/
def line (p : Program) (l : Line) : Option Program := do
  match l.indent, ← l.instruction? with
  | 0, .assign name v =>
    if p.defines name ∨ ¬ p.routines.isEmpty then none
    else return { p with tables := p.tables ++ [(name, v)] }
  | 0, .define name parameter =>
    if p.defines name ∨ ¬ p.routines.all (·.returned) then none
    else return { p with routines := p.routines ++ [{ name, parameter }] }
  | 4, i => do
    return { p with routines := p.routines.dropLast ++ [← (← p.routines.getLast?).extend i] }
  | _, _ => none

/-- The program that a text spells. All its functions must return. -/
def read? (text : String) : Option Program := do
  let p ← (← Scanner.lines? text).foldlM line {}
  if p.routines.all (·.returned) then return p else none

end Program

end PackageScript.Script
