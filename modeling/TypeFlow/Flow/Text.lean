import TypeFlow.Double.Text
import TypeFlow.Flow.Basic
import TypeFlow.Text.Quoted

/-!
# Text of a flow

Constants are written as they are, classes by name.  A function flow lists its functions, a record
flow its sites and fields; a record whose first label is `0` is written as a tuple.  A question
mark follows what may be nil.
-/

namespace TypeFlow

/-- The identities between brackets; the function outside the program has a name. -/
def IdSet.render (s : IdSet) : String :=
  "[" ++ String.intercalate "," (s.toList.map fun x => if x == 0 then "ext" else toString x) ++ "]"

/-- The mark of what may be nil. -/
def nilMark (nil : Bool) : String := if nil then "?" else ""

/-- Labelled parts are written as a tuple when the first label is `0`. -/
def isTuple (labels : List String) : Bool := labels.head? == some "0"

mutual

/-- The written form. -/
def Flow.render : Flow → String
  | .any => "~Scalar"
  | .scalar n => if n then "Scalar" else "nScalar"
  | .nil => "nil"
  | .int (.const c) => toString c.toInt
  | .int .bool => "int1"
  | .int .int64 => "int64"
  | .float (.const x) => x.render
  | .float .double => "flt64"
  | .text c n => c.elim "str" quoted ++ nilMark n
  | .function s n => "fn" ++ s.render ++ nilMark n
  | .record s none n => "*" ++ s.render ++ "@\x7b...\x7d" ++ nilMark n
  | .record s (some f) n =>
    let parts := Flow.renderFields f
    let layout :=
      if isTuple f.labels then "(" ++ String.intercalate ", " (parts.map Prod.snd) ++ ")"
      else "@\x7b" ++ String.intercalate "; " (parts.map fun p => p.1 ++ " = " ++ p.2) ++ "\x7d"
    "*" ++ s.render ++ layout ++ nilMark n
  termination_by structural a => a

/-- The labels with the written forms of their flows. -/
def Flow.renderFields {bound : Option String} : Fields Flow bound → List (String × String)
  | .nil => []
  | .cons l _ v f => (l, Flow.render v) :: Flow.renderFields f
  termination_by structural f => f

end

end TypeFlow
