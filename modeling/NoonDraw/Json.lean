/-!
# JSON values and their text

A `Json` value keeps what its text says and nothing more: a number is its text, an object the list of
its members with repetitions, and a string its content, or `none` if an escape in it names half of a
surrogate pair and so no character.

## Main definitions

* `Json.toChars`: a value in its compact form.
* `Json.ofText?`: the value that a text denotes, blanks around it allowed.
* `Json.quote`, `JsonReader.string`: strings alone. Writing escapes quotes, backslashes and control
  characters and nothing else; reading accepts every escape of RFC 8259.
-/

namespace NoonDraw

/-- A JSON value. -/
inductive Json where
  /-- The value `null`. -/
  | null
  /-- `true` or `false`. -/
  | bool (value : Bool)
  /-- A number, by its text. -/
  | number (text : List Char)
  /-- A string; `none` stands for one whose escapes name half of a surrogate pair. -/
  | string (content : Option String)
  /-- An array. -/
  | array (items : List Json)
  /-- An object, as its members in the order of the text. -/
  | object (members : List (Option String × Json))

namespace Json

/-! ### Writing -/

/-- One character of a string, escaped if it must be. -/
def escape (c : Char) : List Char :=
  match c with
  | '"' => ['\\', '"']
  | '\\' => ['\\', '\\']
  | '\x08' => ['\\', 'b']
  | '\x0c' => ['\\', 'f']
  | '\n' => ['\\', 'n']
  | '\r' => ['\\', 'r']
  | '\t' => ['\\', 't']
  | c =>
    if c.toNat < 0x20 then
      ['\\', 'u', '0', '0', Nat.digitChar (c.toNat / 16), Nat.digitChar (c.toNat % 16)]
    else [c]

/-- A text as a JSON string. -/
def quote (s : String) : List Char := '"' :: s.toList.flatMap escape ++ ['"']

/-- Lists of characters with a comma between each and the next. -/
def commas : List (List Char) → List Char
  | [] => []
  | [cs] => cs
  | cs :: rest => cs ++ ',' :: commas rest

mutual

/-- The compact text of a value. A string without content is written as an empty one. -/
def toChars : Json → List Char
  | null => ['n', 'u', 'l', 'l']
  | bool true => ['t', 'r', 'u', 'e']
  | bool false => ['f', 'a', 'l', 's', 'e']
  | number text => text
  | string content => quote (content.getD "")
  | array items => '[' :: commas (itemChars items) ++ [']']
  | object members => '\x7b' :: commas (memberChars members) ++ ['\x7d']

/-- The texts of the items of an array. -/
def itemChars : List Json → List (List Char)
  | [] => []
  | v :: rest => v.toChars :: itemChars rest

/-- The texts of the members of an object. -/
def memberChars : List (Option String × Json) → List (List Char)
  | [] => []
  | (key, v) :: rest => (quote (key.getD "") ++ ':' :: v.toChars) :: memberChars rest

end

/-- The compact text of a value. -/
def toText (v : Json) : String := String.ofList v.toChars

end Json

/-! ### Reading -/

namespace JsonReader

/-- Whether a character may stand between the parts of a value. -/
def isSpace (c : Char) : Bool := c = ' ' ∨ c = '\n' ∨ c = '\t' ∨ c = '\r'

/-- Skips the space before the next part. -/
def skip (cs : List Char) : List Char := cs.dropWhile isSpace

/-- What a part of a string stands for: a character, or the code unit of a `\u` escape. -/
inductive Piece where
  /-- A character, plain or behind a backslash. -/
  | char (c : Char)
  /-- A 16-bit code unit. -/
  | unit (value : Nat)
  deriving DecidableEq

/-- The character that a letter behind a backslash stands for. -/
def escaped? (c : Char) : Option Char :=
  match c with
  | '"' => some '"'
  | '\\' => some '\\'
  | '/' => some '/'
  | 'b' => some '\x08'
  | 'f' => some '\x0c'
  | 'n' => some '\n'
  | 'r' => some '\r'
  | 't' => some '\t'
  | _ => none

/-- The value of a hexadecimal digit. -/
def hex? (c : Char) : Option Nat :=
  if '0' ≤ c ∧ c ≤ '9' then some (c.toNat - '0'.toNat)
  else if 'a' ≤ c ∧ c ≤ 'f' then some (c.toNat - 'a'.toNat + 10)
  else if 'A' ≤ c ∧ c ≤ 'F' then some (c.toNat - 'A'.toNat + 10)
  else none

/-- The code unit that four hexadecimal digits denote. -/
def unit? (a b c d : Char) : Option Nat := do
  return (((← hex? a) * 16 + (← hex? b)) * 16 + (← hex? c)) * 16 + (← hex? d)

/-- Splits the rest of a string, behind its opening quote, into pieces up to the closing quote.
Control characters must be escaped. -/
def pieces? : List Char → Option (List Piece × List Char)
  | '"' :: rest => some ([], rest)
  | '\\' :: 'u' :: a :: b :: c :: d :: rest => do
    let u ← unit? a b c d
    let (ps, rest) ← pieces? rest
    return (.unit u :: ps, rest)
  | '\\' :: e :: rest => do
    let c ← escaped? e
    let (ps, rest) ← pieces? rest
    return (.char c :: ps, rest)
  | c :: rest =>
    if c = '\\' ∨ c.toNat < 0x20 then none
    else do
      let (ps, rest) ← pieces? rest
      return (.char c :: ps, rest)
  | [] => none

/-- The characters of pieces. Two code units in a row may make up one character; half of such a pair
alone is none. -/
def characters? : List Piece → Option (List Char)
  | [] => some []
  | .char c :: rest => (characters? rest).map (c :: ·)
  | .unit u :: .unit v :: rest =>
    if 0xD800 ≤ u ∧ u < 0xDC00 ∧ 0xDC00 ≤ v ∧ v < 0xE000 then
      (characters? rest).map (Char.ofNat (0x10000 + (u - 0xD800) * 0x400 + (v - 0xDC00)) :: ·)
    else if 0xD800 ≤ u ∧ u < 0xE000 then none
    else (characters? (.unit v :: rest)).map (Char.ofNat u :: ·)
  | .unit u :: rest =>
    if 0xD800 ≤ u ∧ u < 0xE000 then none else (characters? rest).map (Char.ofNat u :: ·)

/-- Reads a string behind its opening quote. -/
def string? (cs : List Char) : Option (Option String × List Char) := do
  let (ps, rest) ← pieces? cs
  return ((characters? ps).map String.ofList, rest)

/-- Splits off the digits at the front; at least one is needed. -/
def digits? (cs : List Char) : Option (List Char × List Char) :=
  let ds := cs.takeWhile Char.isDigit
  if ds.isEmpty then none else some (ds, cs.dropWhile Char.isDigit)

/-- Reads a whole number without needless zeros at its front. -/
def whole? : List Char → Option (List Char × List Char)
  | '0' :: rest => some (['0'], rest)
  | cs => digits? cs

/-- Reads the fraction of a number, if there is one. -/
def fraction? : List Char → Option (List Char × List Char)
  | '.' :: rest => (digits? rest).map fun (ds, rest) => ('.' :: ds, rest)
  | cs => some ([], cs)

/-- Reads the exponent of a number, if there is one. -/
def exponent? : List Char → Option (List Char × List Char)
  | e :: rest =>
    if e = 'e' ∨ e = 'E' then
      match rest with
      | '+' :: rest => (digits? rest).map fun (ds, rest) => (e :: '+' :: ds, rest)
      | '-' :: rest => (digits? rest).map fun (ds, rest) => (e :: '-' :: ds, rest)
      | rest => (digits? rest).map fun (ds, rest) => (e :: ds, rest)
    else some ([], e :: rest)
  | [] => some ([], [])

/-- Reads a number. -/
def number? (cs : List Char) : Option (Json × List Char) := do
  let (sign, cs) := match cs with
    | '-' :: rest => (['-'], rest)
    | cs => ([], cs)
  let (whole, cs) ← whole? cs
  let (fraction, cs) ← fraction? cs
  let (exponent, cs) ← exponent? cs
  return (.number (sign ++ whole ++ fraction ++ exponent), cs)

/-- Reads a given word as a value. -/
def word? (word : String) (v : Json) (cs : List Char) : Option (Json × List Char) :=
  if cs.take word.length = word.toList then some (v, cs.drop word.length) else none

mutual

/-- Reads a value. The first argument bounds how many values and members are read; a text has no more
of them than characters. -/
def value? : Nat → List Char → Option (Json × List Char)
  | 0, _ => none
  | fuel + 1, cs =>
    match skip cs with
    | '\x7b' :: rest =>
      match skip rest with
      | '\x7d' :: rest => some (.object [], rest)
      | rest => (members? fuel rest).map fun (ms, rest) => (.object ms, rest)
    | '[' :: rest =>
      match skip rest with
      | ']' :: rest => some (.array [], rest)
      | rest => (items? fuel rest).map fun (vs, rest) => (.array vs, rest)
    | '"' :: rest => (string? rest).map fun (s, rest) => (.string s, rest)
    | 'n' :: rest => word? "null" .null ('n' :: rest)
    | 't' :: rest => word? "true" (.bool true) ('t' :: rest)
    | 'f' :: rest => word? "false" (.bool false) ('f' :: rest)
    | rest => number? rest

/-- Reads the items of an array up to its end. -/
def items? : Nat → List Char → Option (List Json × List Char)
  | 0, _ => none
  | fuel + 1, cs => do
    let (v, rest) ← value? fuel cs
    match skip rest with
    | ',' :: rest => do
      let (vs, rest) ← items? fuel rest
      return (v :: vs, rest)
    | ']' :: rest => return ([v], rest)
    | _ => none

/-- Reads the members of an object up to its end. -/
def members? : Nat → List Char → Option (List (Option String × Json) × List Char)
  | 0, _ => none
  | fuel + 1, cs =>
    match skip cs with
    | '"' :: rest => do
      let (key, rest) ← string? rest
      match skip rest with
      | ':' :: rest => do
        let (v, rest) ← value? fuel rest
        match skip rest with
        | ',' :: rest => do
          let (ms, rest) ← members? fuel rest
          return ((key, v) :: ms, rest)
        | '\x7d' :: rest => return ([(key, v)], rest)
        | _ => none
      | _ => none
    | _ => none

end

end JsonReader

/-- The value that a whole text denotes. -/
def Json.ofText? (s : String) : Option Json := do
  let (v, rest) ← JsonReader.value? (s.length + 1) s.toList
  if (JsonReader.skip rest).isEmpty then some v else none

end NoonDraw
