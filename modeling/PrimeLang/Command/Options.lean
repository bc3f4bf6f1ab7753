/-! # Command lines

Settings take a value, flags do not; each may be given once. Long names follow two dashes, and a
value may follow them behind `=`. Short names follow one dash, flags may stand together, and the
rest of the argument behind a setting is its value, with or without `=`. -/

namespace PrimeLang.Command

/-- What the command is asked to do. -/
structure Options where
  input : String
  output : String
  listing : Option String
  dump : Bool
  denyWarnings : Bool
deriving DecidableEq, Repr

/-- Options that take a value. -/
inductive Setting where
  | output
  | listing
deriving DecidableEq, Repr

def Setting.ofLong? : String → Option Setting
  | "output" => some .output
  | "listing" => some .listing
  | _ => none

def Setting.ofShort? : Char → Option Setting
  | 'o' => some .output
  | 'l' => some .listing
  | _ => none

/-- Options that take no value. -/
inductive Flag where
  | dump
  | denyWarnings
deriving DecidableEq, Repr

def Flag.ofLong? : String → Option Flag
  | "dump" => some .dump
  | "deny-warnings" => some .denyWarnings
  | _ => none

def Flag.ofShort? : Char → Option Flag
  | 'd' => some .dump
  | 'W' => some .denyWarnings
  | _ => none

/-- What the arguments read so far have given. -/
structure Given where
  input : Option String
  output : Option String
  listing : Option String
  dump : Bool
  denyWarnings : Bool
deriving DecidableEq, Repr

namespace Given

def empty : Given := ⟨none, none, none, false, false⟩

/-- The options, with defaults for what was not given. -/
def options (g : Given) : Options :=
  ⟨g.input.getD "main.prime", g.output.getD "main.tam", g.listing, g.dump, g.denyWarnings⟩

/-- Gives a setting its value, unless it has one. -/
def set? (g : Given) (s : Setting) (value : String) : Option Given :=
  match s with
  | .output => if g.output.isSome then none else some { g with output := some value }
  | .listing => if g.listing.isSome then none else some { g with listing := some value }

/-- Turns a flag on, unless it is on. -/
def raise? (g : Given) : Flag → Option Given
  | .dump => if g.dump then none else some { g with dump := true }
  | .denyWarnings => if g.denyWarnings then none else some { g with denyWarnings := true }

/-- Takes the name of the input file, unless there is one. -/
def input? (g : Given) (name : String) : Option Given :=
  if g.input.isSome then none else some { g with input := some name }

/-- Takes the names of input files, of which there can be one. -/
def inputs? (g : Given) : List String → Option Given
  | [] => some g
  | name :: names => (g.input? name).bind (·.inputs? names)

/-- Reads the characters after a dash. A setting at the end waits for its value. -/
def shorts? (g : Given) : List Char → Option (Given × Option Setting)
  | [] => some (g, none)
  | c :: cs =>
    match Flag.ofShort? c, Setting.ofShort? c, cs with
    | some flag, _, cs => (g.raise? flag).bind (·.shorts? cs)
    | none, some s, [] => some (g, some s)
    | none, some s, '=' :: value => (g.set? s (.ofList value)).map (·, none)
    | none, some s, value => (g.set? s (.ofList value)).map (·, none)
    | none, none, _ => none

/-- Reads the characters after two dashes. A setting without `=` waits for its value. -/
def long? (g : Given) (cs : List Char) : Option (Given × Option Setting) :=
  let name := String.ofList (cs.takeWhile (· != '='))
  match Flag.ofLong? name, Setting.ofLong? name, cs.dropWhile (· != '=') with
  | some flag, _, [] => (g.raise? flag).map (·, none)
  | none, some s, [] => some (g, some s)
  | none, some s, _ :: value => (g.set? s (.ofList value)).map (·, none)
  | _, _, _ => none

/-- Reads arguments, the first of which is the value of `waiting` if there is a setting that waits.
After `--` only names of input files follow. -/
def arguments? (g : Given) : Option Setting → List String → Option Given
  | none, [] => some g
  | some _, [] => none
  | waiting, arg :: args =>
    match waiting, arg.toList with
    | none, ['-', '-'] => g.inputs? args
    | none, '-' :: '-' :: cs => (g.long? cs).bind fun (g, waiting) => g.arguments? waiting args
    | none, '-' :: c :: cs =>
      (g.shorts? (c :: cs)).bind fun (g, waiting) => g.arguments? waiting args
    | none, _ => (g.input? arg).bind (·.arguments? none args)
    | some _, '-' :: _ :: _ => none
    | some s, _ => (g.set? s arg).bind (·.arguments? none args)

end Given

/-- The options that a command line gives, or nothing if it is not well formed. -/
def Options.ofArguments? (args : List String) : Option Options :=
  (Given.empty.arguments? none args).map Given.options

end PrimeLang.Command
