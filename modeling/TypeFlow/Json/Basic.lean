import TypeFlow.Text.Digits

/-!
# JSON values

JSON as it is read: numbers keep their spelling, objects their order and repeated names, and a text
may be no text at all, since its escapes can name half of a surrogate pair.  Which of these matters
is up to who looks at the value.
-/

namespace TypeFlow

/-- A JSON value. -/
inductive Json
  | null
  | bool (value : Bool)
  /-- A number by its spelling. -/
  | number (spelling : List Char)
  /-- A text; none if its escapes name half of a surrogate pair. -/
  | text (content : Option String)
  | array (items : List Json)
  /-- Members in their order, names given as texts are. -/
  | object (members : List (Option String × Json))

namespace Json

/-- The truth value. -/
def bool? : Json → Option Bool
  | bool b => some b
  | _ => none

/-- The count, spelled without sign, fraction and exponent. -/
def count? : Json → Option Nat
  | number spelling => TypeFlow.count? spelling
  | _ => none

end Json

end TypeFlow
