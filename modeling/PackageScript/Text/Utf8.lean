/-! Bytes as text: strict decoding of UTF-8, and decoding that replaces what is malformed. -/
namespace PackageScript.Text.Utf8

/-- Where a decoder stands: between characters, or inside one with its value so far,
the number of bytes owed after the next one, and the range of the next one. -/
inductive State where
  | between
  | inside (value more low high : Nat)

/-- The next state, with the character that is complete, or nothing for a byte that does not fit. -/
def step (state : State) (byte : UInt8) : Option (Option Char × State) :=
  let b := byte.toNat
  match state with
  | .between =>
    if b ≤ 0x7F then some (some (Char.ofNat b), .between)
    else if 0xC2 ≤ b ∧ b ≤ 0xDF then some (none, .inside (b - 0xC0) 0 0x80 0xBF)
    else if b = 0xE0 then some (none, .inside 0 1 0xA0 0xBF)
    else if b = 0xED then some (none, .inside 0xD 1 0x80 0x9F)
    else if 0xE1 ≤ b ∧ b ≤ 0xEF then some (none, .inside (b - 0xE0) 1 0x80 0xBF)
    else if b = 0xF0 then some (none, .inside 0 2 0x90 0xBF)
    else if 0xF1 ≤ b ∧ b ≤ 0xF3 then some (none, .inside (b - 0xF0) 2 0x80 0xBF)
    else if b = 0xF4 then some (none, .inside 4 2 0x80 0x8F)
    else none
  | .inside value more low high =>
    if low ≤ b ∧ b ≤ high then
      let value := value * 64 + (b - 0x80)
      match more with
      | 0 => some (some (Char.ofNat value), .between)
      | more + 1 => some (none, .inside value more 0x80 0xBF)
    else none

def strictFrom? : State → List UInt8 → Option (List Char)
  | .between, [] => some []
  | .inside .., [] => none
  | state, b :: rest =>
    match step state b with
    | some (some c, next) => (strictFrom? next rest).map (c :: ·)
    | some (none, next) => strictFrom? next rest
    | none => none

def decode? (bytes : List UInt8) : Option String :=
  (strictFrom? .between bytes).map String.ofList

def replacement : Char := '\ufffd'

/-- The characters of any bytes, read on from a state. Each longest run of bytes that
starts a character and cannot be completed gives one replacement character. -/
def lossyFrom : State → List UInt8 → List Char
  | .between, [] => []
  | .inside .., [] => [replacement]
  | state, b :: rest =>
    match step state b with
    | some (some c, next) => c :: lossyFrom next rest
    | some (none, next) => lossyFrom next rest
    | none =>
      match state, step .between b with
      | .between, _ => replacement :: lossyFrom .between rest
      | .inside .., some (some c, next) => replacement :: c :: lossyFrom next rest
      | .inside .., some (none, next) => replacement :: lossyFrom next rest
      | .inside .., none => replacement :: replacement :: lossyFrom .between rest

/-- The text of any bytes, with replacement characters for what is malformed. -/
def decodeLossy (bytes : List UInt8) : String :=
  String.ofList (lossyFrom .between bytes)

def size (cs : List Char) : Nat :=
  cs.foldl (fun n c => n + c.utf8Size) 0

def encode (s : String) : List UInt8 :=
  s.toUTF8.data.toList

end PackageScript.Text.Utf8
