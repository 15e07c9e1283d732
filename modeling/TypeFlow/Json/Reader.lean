import TypeFlow.Json.Basic

/-!
# Reading JSON

The strict grammar: no comments, no trailing commas, no leading zeros, no raw control characters in
texts, and nothing but blanks around the value.

Main definitions:

- `Json.ofString?`: the value a text spells.
-/

namespace TypeFlow

namespace Json

/-- The blanks between signs. -/
def isBlank (c : Char) : Bool := c == ' ' || c == '\n' || c == '\t' || c == '\r'

/-- The text without blanks at its start. -/
def skipBlanks (cs : List Char) : List Char := cs.dropWhile isBlank

/-! ## Numbers -/

/-- One or more digits, and the rest. -/
def digits? (cs : List Char) : Option (List Char × List Char) :=
  let (ds, rest) := cs.span Char.isDigit
  if ds.isEmpty then none else some (ds, rest)

/-- An integer part without needless zeros, and the rest. -/
def integer? (cs : List Char) : Option (List Char × List Char) :=
  match digits? cs with
  | some (ds, rest) => if ds.head? == some '0' && ds != ['0'] then none else some (ds, rest)
  | none => none

/-- A fraction, if a point comes next, and the rest. -/
def fraction? : List Char → Option (List Char × List Char)
  | '.' :: cs => (digits? cs).map fun (ds, rest) => ('.' :: ds, rest)
  | cs => some ([], cs)

/-- The sign of an exponent, if there is one, and the rest. -/
def exponentSign : List Char → List Char × List Char
  | '+' :: cs => (['+'], cs)
  | '-' :: cs => (['-'], cs)
  | cs => ([], cs)

/-- An exponent, if its letter comes next, and the rest. -/
def exponent? : List Char → Option (List Char × List Char)
  | c :: cs =>
    if c == 'e' || c == 'E' then
      let (sign, cs) := exponentSign cs
      (digits? cs).map fun (ds, rest) => (c :: sign ++ ds, rest)
    else some ([], c :: cs)
  | [] => some ([], [])

/-- The spelling of a number without its sign, and the rest. -/
def unsigned? (cs : List Char) : Option (List Char × List Char) := do
  let (whole, cs) ← integer? cs
  let (fraction, cs) ← fraction? cs
  let (exponent, cs) ← exponent? cs
  return (whole ++ fraction ++ exponent, cs)

/-- A number, and the rest. -/
def number? : List Char → Option (Json × List Char)
  | '-' :: cs => (unsigned? cs).map fun (s, rest) => (number ('-' :: s), rest)
  | cs => (unsigned? cs).map fun (s, rest) => (number s, rest)

/-! ## Texts -/

/-- A part of a text as it is spelled. -/
inductive TextUnit
  | plain (c : Char)
  /-- A code unit of UTF-16. -/
  | code (unit : Nat)

/-- The value of a hexadecimal digit. -/
def hexDigit? (c : Char) : Option Nat :=
  if c.isDigit then some (c.toNat - '0'.toNat)
  else if 'a' ≤ c && c ≤ 'f' then some (c.toNat - 'a'.toNat + 10)
  else if 'A' ≤ c && c ≤ 'F' then some (c.toNat - 'A'.toNat + 10)
  else none

/-- The value of four hexadecimal digits. -/
def codeUnit? (a b c d : Char) : Option Nat :=
  [a, b, c, d].foldlM (fun n x => (hexDigit? x).map (16 * n + ·)) 0

/-- The character that a letter after a backslash stands for. -/
def escaped? : Char → Option Char
  | '"' => some '"'
  | '\\' => some '\\'
  | '/' => some '/'
  | 'b' => some '\x08'
  | 'f' => some '\x0c'
  | 'n' => some '\n'
  | 'r' => some '\r'
  | 't' => some '\t'
  | _ => none

/-- The parts of a text up to its closing quote, and the rest. -/
def textUnits? : List Char → Option (List TextUnit × List Char)
  | [] => none
  | '"' :: rest => some ([], rest)
  | '\\' :: 'u' :: a :: b :: c :: d :: rest => do
    let unit ← codeUnit? a b c d
    let (units, rest) ← textUnits? rest
    return (.code unit :: units, rest)
  | '\\' :: c :: rest => do
    let c ← escaped? c
    let (units, rest) ← textUnits? rest
    return (.plain c :: units, rest)
  | c :: rest =>
    if c == '\\' || c.toNat < 0x20 then none
    else do
      let (units, rest) ← textUnits? rest
      return (.plain c :: units, rest)

/-- The unit is the first half of a surrogate pair. -/
def isHighHalf (unit : Nat) : Bool := 0xD800 ≤ unit && unit < 0xDC00

/-- The unit is the second half of a surrogate pair. -/
def isLowHalf (unit : Nat) : Bool := 0xDC00 ≤ unit && unit < 0xE000

/-- The characters that the parts of a text stand for, unless a half of a surrogate pair stands
alone. -/
def textContent? : List TextUnit → Option (List Char)
  | [] => some []
  | .plain c :: rest => (textContent? rest).map (c :: ·)
  | .code u :: .code v :: rest =>
    if isHighHalf u then
      if isLowHalf v then
        let point := 0x10000 + (u - 0xD800) * 0x400 + (v - 0xDC00)
        (textContent? rest).map (Char.ofNat point :: ·)
      else none
    else if isLowHalf u then none
    else (textContent? (.code v :: rest)).map (Char.ofNat u :: ·)
  | .code u :: rest =>
    if isHighHalf u || isLowHalf u then none
    else (textContent? rest).map (Char.ofNat u :: ·)

/-- A text after its opening quote, and the rest. -/
def text? (cs : List Char) : Option (Option String × List Char) :=
  (textUnits? cs).map fun (units, rest) => ((textContent? units).map String.ofList, rest)

/-! ## Values -/

/-- The rest after a word, if the text starts with it. -/
def word? : List Char → List Char → Option (List Char)
  | [], cs => some cs
  | w :: ws, c :: cs => if w = c then word? ws cs else none
  | _ :: _, [] => none

mutual

/-- A value, and the rest, through at most `fuel` nested readers. -/
def value? : Nat → List Char → Option (Json × List Char)
  | 0, _ => none
  | fuel + 1, cs =>
    match skipBlanks cs with
    | 'n' :: cs => (word? ['u', 'l', 'l'] cs).map (null, ·)
    | 't' :: cs => (word? ['r', 'u', 'e'] cs).map (bool true, ·)
    | 'f' :: cs => (word? ['a', 'l', 's', 'e'] cs).map (bool false, ·)
    | '"' :: cs => (text? cs).map fun (content, rest) => (text content, rest)
    | '[' :: cs =>
      match skipBlanks cs with
      | ']' :: rest => some (array [], rest)
      | cs => (items? fuel cs).map fun (items, rest) => (array items, rest)
    | '\x7b' :: cs =>
      match skipBlanks cs with
      | '\x7d' :: rest => some (object [], rest)
      | cs => (members? fuel cs).map fun (members, rest) => (object members, rest)
    | cs => number? cs
  termination_by structural fuel => fuel

/-- One or more values up to the closing bracket, and the rest. -/
def items? : Nat → List Char → Option (List Json × List Char)
  | 0, _ => none
  | fuel + 1, cs => do
    let (item, cs) ← value? fuel cs
    match skipBlanks cs with
    | ']' :: rest => return ([item], rest)
    | ',' :: rest =>
      let (items, rest) ← items? fuel rest
      return (item :: items, rest)
    | _ => none
  termination_by structural fuel => fuel

/-- One or more members up to the closing brace, and the rest. -/
def members? : Nat → List Char → Option (List (Option String × Json) × List Char)
  | 0, _ => none
  | fuel + 1, cs => do
    match skipBlanks cs with
    | '"' :: cs =>
      let (name, cs) ← text? cs
      match skipBlanks cs with
      | ':' :: cs =>
        let (value, cs) ← value? fuel cs
        match skipBlanks cs with
        | '\x7d' :: rest => return ([(name, value)], rest)
        | ',' :: rest =>
          let (members, rest) ← members? fuel rest
          return ((name, value) :: members, rest)
        | _ => none
      | _ => none
    | _ => none
  termination_by structural fuel => fuel

end

/-- The value a text spells, if it spells one.  Of two nested readers at least one takes a
character, so none nests deeper than twice the text's length. -/
def ofString? (s : String) : Option Json := do
  let cs := s.toList
  let (value, rest) ← value? (2 * cs.length + 2) cs
  if (skipBlanks rest).isEmpty then return value else none

end Json

end TypeFlow
