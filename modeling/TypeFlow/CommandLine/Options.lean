import TypeFlow.Text.Digits

/-!
# Options of the command line

Arguments are switches (`--json`), options with a value (`--expr TEXT`, `--expr=TEXT`, `-eTEXT`)
and the name of one file.  Short switches can be run together, and after `--` everything is a file
name.  Nothing but `-v` may be given twice.

Main definitions:

- `Options`: what the arguments ask for.
- `Options.ofArguments`: reads the arguments.
-/

namespace TypeFlow

/-- What the arguments ask for. -/
structure Options where
  file : Option String := none
  expr : Option String := none
  json : Bool := false
  dump : Bool := false
  config : Option String := none
  noTypes : Bool := false
  noFlows : Bool := false
  maxIterations : Option Nat := none
  verbosity : Nat := 0

/-- An option without a value. -/
inductive Switch
  | json | dump | noTypes | noFlows | verbose | help | version

/-- An option with a value. -/
inductive Valued
  | expr | config | maxIterations

/-- What an option's name stands for. -/
inductive OptionName
  | switch (s : Switch)
  | valued (v : Valued)

/-- What reading the arguments came to. -/
inductive Request
  | analyze (options : Options)
  | help
  | version
  /-- The arguments make no sense. -/
  | refused

/-- The option of a long name. -/
def OptionName.ofLong? : String → Option OptionName
  | "json" => some (.switch .json)
  | "dump" => some (.switch .dump)
  | "no-hm" => some (.switch .noTypes)
  | "no-gcp" => some (.switch .noFlows)
  | "verbose" => some (.switch .verbose)
  | "help" => some (.switch .help)
  | "version" => some (.switch .version)
  | "expr" => some (.valued .expr)
  | "config" => some (.valued .config)
  | "max-iterations" => some (.valued .maxIterations)
  | _ => none

/-- The option of a short name. -/
def OptionName.ofShort? : Char → Option OptionName
  | 'v' => some (.switch .verbose)
  | 'h' => some (.switch .help)
  | 'V' => some (.switch .version)
  | 'e' => some (.valued .expr)
  | _ => none

namespace Options

/-- The count that digits, perhaps after a plus sign, stand for. -/
def count? (text : String) : Option Nat :=
  match text.toList with
  | '+' :: digits => TypeFlow.count? digits
  | digits => TypeFlow.count? digits

/-- A file name; it is not empty. -/
def fileName? (text : String) : Option String := if text.isEmpty then none else some text

/-- Gives a value to something that has none yet. -/
def once {α : Type} (old : Option α) (value : Option α) : Option (Option α) :=
  match old, value with
  | none, some v => some (some v)
  | _, _ => none

/-- The options with a value given to one of them, unless it has one already or the value does not
fit. -/
def give (o : Options) (v : Valued) (text : String) : Option Options :=
  match v with
  | .expr => (once o.expr (some text)).map fun e => { o with expr := e }
  | .config => (once o.config (fileName? text)).map fun c => { o with config := c }
  | .maxIterations =>
    (once o.maxIterations (count? text)).map fun n => { o with maxIterations := n }

/-- The options with a file given, unless there is one already. -/
def giveFile (o : Options) (text : String) : Option Options :=
  (once o.file (fileName? text)).map fun f => { o with file := f }

/-- The options with a switch thrown, or the request it makes at once. -/
def throwSwitch (o : Options) (s : Switch) : Except Request Options :=
  let set (old : Bool) (new : Options) : Except Request Options :=
    if old then .error .refused else .ok new
  match s with
  | .json => set o.json { o with json := true }
  | .dump => set o.dump { o with dump := true }
  | .noTypes => set o.noTypes { o with noTypes := true }
  | .noFlows => set o.noFlows { o with noFlows := true }
  | .verbose => .ok { o with verbosity := o.verbosity + 1 }
  | .help => .error .help
  | .version => .error .version

/-- What an argument leaves to do. -/
inductive Reading
  /-- The argument is read. -/
  | done (options : Options)
  /-- The next argument is a value. -/
  | awaits (option : Valued) (options : Options)
  /-- No further argument counts. -/
  | ended (request : Request)

/-- The reading after a value was given. -/
def Reading.ofGiven : Option Options → Reading
  | some o => done o
  | none => ended .refused

/-- The reading after a switch was thrown. -/
def Reading.ofThrown : Except Request Options → Reading
  | .ok o => done o
  | .error r => ended r

/-- The value attached to a short option, after an equals sign that does not count. -/
def attachedValue : List Char → String
  | '=' :: cs => String.ofList cs
  | cs => String.ofList cs

/-- Reads short options that are run together. -/
def readShort (o : Options) : List Char → Reading
  | [] => .done o
  | c :: cs =>
    match OptionName.ofShort? c with
    | none => .ended .refused
    | some (.valued v) => if cs.isEmpty then .awaits v o else .ofGiven (o.give v (attachedValue cs))
    | some (.switch s) =>
      match o.throwSwitch s with
      | .ok o => readShort o cs
      | .error r => .ended r

/-- Reads a long option, perhaps with a value after an equals sign. -/
def readLong (o : Options) (cs : List Char) : Reading :=
  let name := String.ofList (cs.takeWhile (· != '='))
  let attached := cs.dropWhile (· != '=')
  match OptionName.ofLong? name, attached with
  | some (.valued v), [] => .awaits v o
  | some (.valued v), _ :: value => .ofGiven (o.give v (String.ofList value))
  | some (.switch s), [] => .ofThrown (o.throwSwitch s)
  | _, _ => .ended .refused

/-- The argument is an option, or the mark that ends the options. -/
def isOption (argument : String) : Bool :=
  match argument.toList with
  | '-' :: _ :: _ => true
  | _ => false

/-- Reads one argument that no option awaits. -/
def readArgument (o : Options) (argument : String) : Reading :=
  match argument.toList with
  | '-' :: '-' :: cs => o.readLong cs
  | '-' :: c :: cs => o.readShort (c :: cs)
  | _ => .ofGiven (o.giveFile argument)

/-- The options with file names given in turn. -/
def giveFiles (o : Options) : List String → Option Options
  | [] => some o
  | name :: rest => do giveFiles (← o.giveFile name) rest

/-- Reads arguments.  Options end at `--`. -/
def readAll (o : Options) : List String → Request
  | [] => .analyze o
  | argument :: rest =>
    if argument = "--" then
      match o.giveFiles rest with
      | some o => .analyze o
      | none => .refused
    else
      match o.readArgument argument with
      | .ended request => request
      | .done o => readAll o rest
      | .awaits v o =>
        match rest with
        | [] => .refused
        | value :: rest =>
          if isOption value then .refused
          else
            match o.give v value with
            | some o => readAll o rest
            | none => .refused

/-- What the arguments of a command line ask for.  A program is given in one way only. -/
def ofArguments (arguments : List String) : Request :=
  match readAll {} arguments with
  | .analyze o => if o.file.isSome && o.expr.isSome then .refused else .analyze o
  | request => request

end Options

end TypeFlow
