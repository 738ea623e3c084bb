import PackageScript.Preferences
/-! The arguments of the command line: options before and after the name of a command. -/
namespace PackageScript.Command

inductive Flag where
  | verbose
  | quiet
  | recursive
  | noBackup
  | toOutput
  | json
  | dropBackup
  deriving DecidableEq, Repr

inductive Slot where
  | preferences
  | format
  | output
  deriving DecidableEq, Repr

inductive Switch where
  | flag (f : Flag)
  | slot (s : Slot)
  | help
  | version
  deriving DecidableEq, Repr

/-- Why the arguments name nothing to run. -/
inductive Notice where
  | help
  | version
  | nothingGiven
  | unknownArgument
  | argumentConflict
  | invalidValue
  | invalidCommand
  | missingCommand
  | tooManyValues
  deriving DecidableEq, Repr

/-- The exit code. Help that was asked for is no error. -/
def Notice.code : Notice → Nat
  | .help | .version => 0
  | _ => 2

inductive Verb where
  | compile
  | check
  | clean
  deriving DecidableEq, Repr

namespace Verb

def all : List Verb := [.compile, .check, .clean]

def name : Verb → String
  | .compile => "compile"
  | .check => "check"
  | .clean => "clean"

def ofName? (name : String) : Option Verb :=
  all.find? (·.name = name)

end Verb

def commonSwitch? : String → Option Switch
  | "verbose" => some (.flag .verbose)
  | "quiet" => some (.flag .quiet)
  | "config" => some (.slot .preferences)
  | "help" => some .help
  | _ => none

def switch? : Option Verb → String → Option Switch
  | none, "version" => some .version
  | some .compile, "format" => some (.slot .format)
  | some .compile, "output" => some (.slot .output)
  | some .compile, "no-backup" => some (.flag .noBackup)
  | some .compile, "stdout" => some (.flag .toOutput)
  | some .check, "json" => some (.flag .json)
  | some .clean, "drop-backup" => some (.flag .dropBackup)
  | some _, "recursive" => some (.flag .recursive)
  | _, name => commonSwitch? name

/-- The long name that a letter abbreviates. -/
def longName? : Char → Option String
  | 'v' => some "verbose"
  | 'q' => some "quiet"
  | 'c' => some "config"
  | 'h' => some "help"
  | 'V' => some "version"
  | 'o' => some "output"
  | 'r' => some "recursive"
  | _ => none

/-- An option that still needs its value, or the words since the last option. -/
inductive Waiting where
  | nothing
  | value (s : Slot) (text : Option String)
  | paths (texts : List String)

structure Given where
  flags : List Flag := []
  values : List (Slot × String) := []
  paths : List String := []
  waiting : Waiting := .nothing

namespace Given

def value? (g : Given) (s : Slot) : Option String :=
  (g.values.find? (·.1 = s)).map Prod.snd

/-- Gives an option its value, which must be of the right kind. No option takes two. -/
def assign (g : Given) (s : Slot) (text : String) : Except Notice Given :=
  if (g.value? s).isSome then throw .argumentConflict
  else if if s = .format then (OutputFormat.ofName? text).isSome else text ≠ "" then
    return { g with values := g.values ++ [(s, text)] }
  else throw .invalidValue

def settle (g : Given) : Except Notice Given :=
  match g.waiting with
  | .nothing => return g
  | .value _ none => throw .invalidValue
  | .value s (some text) => { g with waiting := .nothing }.assign s text
  | .paths texts =>
    if texts.contains "" then throw .invalidValue
    else return { g with paths := g.paths ++ texts, waiting := .nothing }

def raise (g : Given) (f : Flag) : Except Notice Given :=
  if g.flags.contains f then throw .argumentConflict
  else return { g with flags := g.flags ++ [f] }

/-- Takes an option with the value that is attached to it, if any. -/
def switch (g : Given) : Switch → Option String → Except Notice Given
  | .slot s, some text => do (← g.settle).assign s text
  | .slot s, none => return { ← g.settle with waiting := .value s none }
  | _, some _ => throw .tooManyValues
  | .flag f, none => do (← g.settle).raise f
  | .help, none => do
    let _ ← g.settle
    throw .help
  | .version, none => do
    let _ ← g.settle
    throw .version

/-- Takes a long option, with what follows an equals sign as its value. -/
def long (verb : Option Verb) (g : Given) (cs : List Char) : Except Notice Given :=
  let (name, attached) := match Text.splitFirst? (· == '=') cs with
    | some (name, text) => (name, some (String.ofList text))
    | none => (cs, none)
  match switch? verb (String.ofList name) with
  | some s => g.switch s attached
  | none => throw .unknownArgument

/-- Takes letters one by one. The rest after the letter of an option with a value is its value. -/
def letters (verb : Option Verb) : Given → List Char → Except Notice Given
  | g, [] => return g
  | g, c :: rest =>
    match (longName? c).bind (switch? verb), rest with
    | some (.slot s), [] => g.switch (.slot s) none
    | some (.slot s), '=' :: text => g.switch (.slot s) (some (String.ofList text))
    | some (.slot s), text => g.switch (.slot s) (some (String.ofList text))
    | some s, rest => do letters verb (← g.switch s none) rest
    | none, _ => throw .unknownArgument

def path (g : Given) (word : String) : Except Notice Given :=
  match g.waiting with
  | .paths texts => return { g with waiting := .paths (texts ++ [word]) }
  | _ => return { ← g.settle with waiting := .paths [word] }

/-- Takes a word that is no option: a value that is needed, or a path. -/
def plain (g : Given) (word : String) : Except Notice Given :=
  match g.waiting with
  | .value s none => return { g with waiting := .value s (some word) }
  | _ => g.path word

def word (verb : Option Verb) (g : Given) (text : String) : Except Notice Given :=
  match text.toList with
  | '-' :: '-' :: rest => g.long verb rest
  | '-' :: c :: rest => g.letters verb (c :: rest)
  | _ => g.plain text

/-- Takes over what is waiting at the end, and refuses options that exclude each other. -/
def finish (g : Given) : Except Notice Given := do
  let g ← g.settle
  if (g.flags.contains .verbose && g.flags.contains .quiet) ||
      (g.flags.contains .toOutput && (g.value? .output).isSome) then throw .argumentConflict
  return g

/-- Takes the words after a command. Two dashes end the options. -/
def words (verb : Verb) : Given → List String → Except Notice Given
  | g, [] => g.finish
  | g, "--" :: rest => do (← rest.foldlM path g).finish
  | g, text :: rest => do words verb (← g.word (some verb) text) rest

end Given

structure Invocation where
  verb : Verb
  flags : List Flag := []
  paths : List Path := [⟨"."⟩]
  preferences : Option Path := none
  format : Option OutputFormat := none
  output : Option Path := none
  deriving DecidableEq, Repr

namespace Invocation

def has (i : Invocation) (f : Flag) : Bool :=
  i.flags.contains f

/-- Of a value given on both sides of the command, the one after it counts. -/
def ofGiven (verb : Verb) (before after : Given) : Invocation where
  verb
  flags := before.flags ++ after.flags
  paths := if after.paths.isEmpty then [⟨"."⟩] else after.paths.map Path.mk
  preferences := ((after.value? .preferences).or (before.value? .preferences)).map Path.mk
  format := (after.value? .format).bind OutputFormat.ofName?
  output := (after.value? .output).map Path.mk

def ofHelp : List String → Notice
  | [] => .help
  | [name] => if name = "help" || (Verb.ofName? name).isSome then .help else .invalidCommand
  | _ => .invalidCommand

def withoutVerb (g : Given) : Except Notice Invocation := do
  let g ← g.settle
  throw (if g.flags.isEmpty && g.values.isEmpty then .nothingGiven else .missingCommand)

def ofWordsFrom : Given → List String → Except Notice Invocation
  | g, [] => withoutVerb g
  | g, "--" :: rest =>
    match rest with
    | [] => withoutVerb g
    | name :: _ =>
      throw (if name = "help" || (Verb.ofName? name).isSome then .unknownArgument
        else .invalidCommand)
  | g, text :: rest =>
    match text.toList, g.waiting with
    | '-' :: _ :: _, _ => do ofWordsFrom (← g.word none text) rest
    | _, .value s none => ofWordsFrom { g with waiting := .value s (some text) } rest
    | _, _ =>
      if text = "help" then throw (ofHelp rest)
      else match Verb.ofName? text with
        | none => throw .invalidCommand
        | some verb => do
          let after ← Given.words verb {} rest
          return ofGiven verb (← g.finish) after

def ofWords (words : List String) : Except Notice Invocation :=
  ofWordsFrom {} words

end Invocation

end PackageScript.Command
