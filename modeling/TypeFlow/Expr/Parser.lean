import TypeFlow.Expr.Basic
import TypeFlow.Text.Digits

/-!
# Reading expressions

The notation of programs:

    expression := atom ("." label)*
    atom       := integer | integer "." digits | "\"" characters "\""
                | "(" expression expression* ")"
                | "{" name* "->" expression "}"
                | name "=" expression ";" expression
                | "@" "{" (label "=" expression ","?)* "}"
                | primitive | name

Blanks may stand between any two signs.  The literal `0` ends after its digit unless a fraction
follows.  Positions count bytes of the UTF-8 form.

Main definitions:

- `ParseError`: why a text is no program.
- `Expr.parse`: the expression of a program text.
-/

namespace TypeFlow

/-- Why a text is no program. -/
inductive ParseError
  | unexpectedEnd
  | expected (sign : Char) (offset : Nat)
  | missingName (offset : Nat)
  | unknownForm (offset : Nat)
  | badNumber (offset : Nat)
  | trailing (offset : Nat)
  deriving DecidableEq

/-- The text of an error. -/
def ParseError.message : ParseError → String
  | unexpectedEnd => "unexpected end of input"
  | expected sign offset =>
    "expected '" ++ sign.toString ++ "' at offset " ++ toString offset
  | missingName offset => "missing identifier at offset " ++ toString offset
  | unknownForm offset => "unknown syntax at offset " ++ toString offset
  | badNumber offset => "bad number literal at offset " ++ toString offset
  | trailing offset => "junk at end of program at offset " ++ toString offset

/-- What is left to read, and where it starts in the text. -/
structure Cursor where
  rest : List Char
  offset : Nat

/-- The cursor moved past the first character. -/
def Cursor.advance : Cursor → Cursor
  | ⟨c :: rest, offset⟩ => ⟨rest, offset + c.utf8Size⟩
  | c => c

/-- A reader.  It has no result at all if its recursion is cut off; a text is never long enough
for that when the recursion is allowed its length. -/
abbrev ParseM := StateT Cursor (ExceptT ParseError Option)

namespace Parse

/-! ## Signs -/

/-- The reader whose recursion is cut off. -/
def cutOff {α : Type} : ParseM α := fun _ => .mk none

/-- The characters that separate signs. -/
def isBlank (c : Char) : Bool :=
  c == ' ' || c == '\t' || c == '\n' || c == '\x0c' || c == '\r'

/-- The characters a name starts with. -/
def startsName (c : Char) : Bool := c.isAlpha || c == '_' || c == '*' || c == '?' || c == '+'

/-- The characters a name goes on with. -/
def continuesName (c : Char) : Bool := startsName c || c.isDigit || c == '/'

/-- The position. -/
def position : ParseM Nat := do return (← get).offset

/-- The next character. -/
def peek : ParseM (Option Char) := do return (← get).rest.head?

/-- Moves past the next character. -/
def advance : ParseM Unit := modify Cursor.advance

/-- The longest run of characters of a kind, which is moved past. -/
def takeRun (kind : Char → Bool) : ParseM (List Char) :=
  modifyGet fun ⟨rest, offset⟩ =>
    let run := rest.takeWhile kind
    (run, ⟨rest.dropWhile kind, run.foldl (fun n c => n + c.utf8Size) offset⟩)

/-- The next character after blanks, which are moved past. -/
def next : ParseM (Option Char) := do
  let _ ← takeRun isBlank
  peek

/-- The next character after blanks; there must be one. -/
def nextSome : ParseM Char := do
  match ← next with
  | some c => return c
  | none => throw .unexpectedEnd

/-- Moves past a sign, which must come next. -/
def require (sign : Char) : ParseM Unit := do
  match ← next with
  | some c => if c = sign then advance else throw (.expected sign (← position))
  | none => throw (.expected sign (← position))

/-- A name. -/
def name : ParseM String := do
  match ← next with
  | some c =>
    if startsName c then return String.ofList (← takeRun continuesName)
    else throw (.missingName (← position))
  | none => throw (.missingName (← position))

/-! ## Literals -/

/-- A point and a digit come next. -/
def fractionFollows : ParseM Bool := do
  match (← get).rest with
  | '.' :: c :: _ => return c.isDigit
  | _ => return false

/-- The digits of a number that starts at a position, but for a leading zero. -/
def digits (start : Nat) : ParseM Expr := do
  let whole ← takeRun Char.isDigit
  if ← fractionFollows then
    advance
    let fraction ← takeRun Char.isDigit
    return .float (.ofDecimal (decimalValue (whole ++ fraction)) (-(fraction.length : Int)))
  else
    let value := decimalValue whole
    if value < Nat.pow 2 63 then return .int (Int64.ofNat value) else throw (.badNumber start)

/-- A number, at whose first digit the cursor stands. -/
def number : ParseM Expr := do
  let start ← position
  if (← peek) = some '0' then
    advance
    if ← fractionFollows then digits start else return .nil
  else digits start

/-- A text, at whose opening quote the cursor stands. -/
def quotedText : ParseM Expr := do
  advance
  let content ← takeRun (· != '"')
  match ← peek with
  | some _ =>
    advance
    return .text (String.ofList content)
  | none => throw (.expected '"' (← position))

/-! ## Compound forms

Each form is given the reader of its parts.  A list is read by a loop that may take as many turns
as characters are left, and every turn moves on. -/

/-- The arguments of a call up to its closing parenthesis. -/
def arguments (part : ParseM Expr) : Nat → ParseM (List Expr)
  | 0 => cutOff
  | fuel + 1 => do
    if (← nextSome) = ')' then
      advance
      return []
    else
      let e ← part
      return e :: (← arguments part fuel)

/-- A call, at whose opening parenthesis the cursor stands. -/
def callForm (part : ParseM Expr) : ParseM Expr := do
  advance
  let fn ← part
  let args ← arguments part ((← get).rest.length + 1)
  return .call fn args

/-- The parameters of a function up to its arrow. -/
def parameters : Nat → ParseM (List String)
  | 0 => cutOff
  | fuel + 1 => do
    if (← nextSome) = '-' then
      advance
      return []
    else
      let x ← name
      return x :: (← parameters fuel)

/-- A function, at whose opening brace the cursor stands. -/
def functionForm (part : ParseM Expr) : ParseM Expr := do
  advance
  let params ← parameters ((← get).rest.length + 1)
  if (← peek) = some '>' then
    advance
    let body ← part
    require '\x7d'
    return .lambda params body true
  else throw (.expected '>' (← position))

/-- The fields of a record up to its closing brace. -/
def entries (part : ParseM Expr) : Nat → ParseM (List (String × Expr))
  | 0 => cutOff
  | fuel + 1 => do
    if (← nextSome) = '\x7d' then
      advance
      return []
    else
      let label ← name
      require '='
      let e ← part
      if (← next) = some ',' then advance
      return (label, e) :: (← entries part fuel)

/-- A record, at whose sign the cursor stands. -/
def recordForm (part : ParseM Expr) : ParseM Expr := do
  advance
  require '\x7b'
  return .record (← entries part ((← get).rest.length + 1))

/-- A definition, a primitive or an identifier. -/
def namedForm (part : ParseM Expr) : ParseM Expr := do
  let x ← name
  if (← next) = some '=' then
    advance
    let definition ← part
    require ';'
    let body ← part
    return .letIn x definition body
  else
    match Primitive.ofName? x with
    | some p => return .prim p
    | none => return .ident x

/-- An expression without the fields loaded from it. -/
def atom (part : ParseM Expr) : ParseM Expr := do
  let c ← nextSome
  if c.isDigit then number
  else if c = '"' then quotedText
  else if c = '(' then callForm part
  else if c = '\x7b' then functionForm part
  else if c = '@' then recordForm part
  else if startsName c then namedForm part
  else throw (.unknownForm (← position))

/-- The field loads that follow an expression. -/
def loads : Nat → Expr → ParseM Expr
  | 0, _ => cutOff
  | fuel + 1, e => do
    if (← next) = some '.' then
      advance
      let label ← name
      loads fuel (.field e label)
    else return e

/-- An expression nested less than `depth` times. -/
def expression : Nat → ParseM Expr
  | 0 => cutOff
  | depth + 1 => do
    let e ← atom (expression depth)
    loads ((← get).rest.length + 1) e

/-- An expression that is followed by nothing but blanks. -/
def program (depth : Nat) : ParseM Expr := do
  let e ← expression depth
  match ← next with
  | none => return e
  | some _ => throw (.trailing (← position))

end Parse

namespace Expr

/-- The expression of a program text, or its first error.  Each nested expression starts after its
parent, so none is nested deeper than the text is long. -/
def parse? (text : String) : Option (Except ParseError Expr) :=
  let chars := text.toList
  ((Parse.program (chars.length + 1)).run ⟨chars, 0⟩).run.map fun
    | .ok (e, _) => .ok e
    | .error cause => .error cause

/-- The expression of a program text, or its first error. -/
def parse (text : String) : Except ParseError Expr :=
  (parse? text).getD (.error .unexpectedEnd)

end Expr

end TypeFlow
