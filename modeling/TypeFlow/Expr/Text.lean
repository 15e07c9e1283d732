import TypeFlow.Double.Text
import TypeFlow.Expr.Basic

/-!
# Text of an expression

An expression is written in the notation it is read in.  Texts stand between quotes as they are,
since the notation has no escapes.
-/

namespace TypeFlow

namespace Expr

mutual

/-- The written form. -/
def render : Expr → String
  | nil => "0"
  | int c => toString c.toInt
  | float x => x.render
  | text s => "\"" ++ s ++ "\""
  | prim p => p.shownName
  | ident name => name
  | apply fn args => "(" ++ render fn ++ renderArgs args ++ ")"
  | lambda params body _ =>
    "\x7b" ++ String.join (params.map (" " ++ ·)) ++ " -> " ++ render body ++ " \x7d"
  | letIn name definition body => name ++ " = " ++ render definition ++ "; " ++ render body
  | record fields => "@\x7b" ++ renderFields " " fields ++ " \x7d"
  | field rec label => render rec ++ "." ++ label
  termination_by structural e => e

/-- The written forms of arguments, each after a blank. -/
def renderArgs : List Expr → String
  | [] => ""
  | e :: rest => " " ++ render e ++ renderArgs rest
  termination_by structural es => es

/-- The written forms of fields, the first after `lead` and the others after a comma. -/
def renderFields (lead : String) : List (String × Expr) → String
  | [] => ""
  | e :: rest => lead ++ renderField e ++ renderFields ", " rest
  termination_by structural es => es

/-- The written form of one field. -/
def renderField : String × Expr → String
  | (label, e) => label ++ " = " ++ render e
  termination_by structural e => e

end

end Expr

end TypeFlow
