import TypeFlow.Json.Reader
import TypeFlow.Settings

/-!
# Reading settings

Settings are written in JSON, as an object or as an array of their values in a fixed order.  What is
missing keeps its default, members of other names are ignored, and a repeated setting or a value of
the wrong kind makes the whole text unreadable.

Main definitions:

- `Settings.names`: the settings in their order.
- `Settings.ofString?`: the settings of a text.
-/

namespace TypeFlow

/-- The pop order of a JSON value: its name, or an object whose only member has that name and no
value. -/
def PopOrder.ofJson? : Json → Option PopOrder
  | .text (some name) | .object [(some name, .null)] =>
    match name with
    | "lifo" => some .lifo
    | "fifo" => some .fifo
    | _ => none
  | _ => none

namespace Settings

/-- The names of the settings, in the order in which an array gives them. -/
def names : List String :=
  ["do_hm", "do_gcp", "check_invariants", "max_iterations", "max_widen_rounds",
    "struct_depth_cutoff", "pop_order"]

/-- The settings with one of them replaced, if the name is that of a setting. -/
def replace? (s : Settings) (name : String) (value : Json) : Option Settings :=
  let count := value.count?
  match name with
  | "do_hm" => value.bool?.map fun b => { s with types := b }
  | "do_gcp" => value.bool?.map fun b => { s with flows := b }
  | "check_invariants" => value.bool?.map fun b => { s with checkInvariants := b }
  | "max_iterations" => count.map fun n => { s with maxIterations := n }
  | "max_widen_rounds" => count.map fun n => { s with maxWidenRounds := n }
  | "struct_depth_cutoff" => count.map fun n => { s with nestingCutoff := n }
  | "pop_order" => (PopOrder.ofJson? value).map fun o => { s with popOrder := o }
  | _ => some s

/-- The default settings with several of them replaced in turn. -/
def ofMembers? (members : List (String × Json)) : Option Settings :=
  members.foldlM (fun s m => s.replace? m.1 m.2) {}

/-- The members under their names, if all names are texts. -/
def namedMembers? (members : List (Option String × Json)) : Option (List (String × Json)) :=
  members.mapM fun m => m.1.map (·, m.2)

/-- The settings of a JSON value. -/
def ofJson? : Json → Option Settings
  | .array items => if items.length ≤ names.length then ofMembers? (names.zip items) else none
  | .object members => do
    let members ← namedMembers? members
    if ((members.map Prod.fst).filter names.contains).Nodup then ofMembers? members else none
  | _ => none

/-- The settings of a text. -/
def ofString? (text : String) : Option Settings := Json.ofString? text >>= ofJson?

end Settings

end TypeFlow
