import PrimeLang.Command.Options
import PrimeLang.Machine.Record
import PrimeLang.Object.Dump
import PrimeLang.Program.Compile
import PrimeLang.Report.Message

/-! # What the command does

A run of the command prints and writes files, in an order that depends on its options and on the
source text alone. The first file that cannot be written ends the run. -/

namespace PrimeLang.Command
open Machine

/-- One thing that the command does. -/
inductive Action where
  | print (text : String)
  | write (path : String) (content : ByteArray)

/-- What the command does, and its exit status if all of that succeeds. -/
structure Plan where
  actions : List Action
  status : UInt32

/-- A message about an error that has no place in the source text. -/
def errorText (text : String) : String := (Message.bare .error text).render

/-- The input file cannot be read. -/
def readFailure (input reason : String) : String := errorText s!"Failed to read {input}: {reason}"

/-- An output file cannot be written. -/
def writeFailure (reason : String) : String := errorText s!"IO error: {reason}"

/-- The source text cannot be compiled. -/
def compileFailure (input code : String) (e : CompileError) : String :=
  Message.render ⟨.error, e.message, e.pos?.map fun pos => ⟨input, code, pos⟩⟩

namespace Options

def warningActions (warnings : List Warning) : List Action :=
  warnings.map fun w => .print (Message.bare .warning w.message).render

/-- What follows the warnings: the dump, the listing and the object file. -/
def outputActions (o : Options) (p : Program) (object : Object) : List Action :=
  let dump := if o.dump then [.print (object.dump p)] else []
  let listing := match o.listing with
    | none => []
    | some path =>
      [.write path (Listing.ofObject p object).yaml.render.toUTF8,
        .print (Message.bare .note s!"Listing written to {path}").render]
  let size := object.code.size
  dump ++ listing ++
    [.write o.output ⟨(image object.code.toList).toArray⟩,
      .print s!"Successfully compiled {o.input} to {o.output} ({size} instructions)\n"]

/-- What the command does with the source text that it read. -/
def plan (o : Options) (code : String) : Plan :=
  match compile code with
  | .error e => ⟨[.print (compileFailure o.input code e)], 1⟩
  | .ok (p, object) =>
    let warnings := object.warnings.toList
    if o.denyWarnings && !warnings.isEmpty then
      let denied := errorText s!"Aborted due to {warnings.length} warning(s)"
      ⟨warningActions warnings ++ [.print denied], 1⟩
    else ⟨warningActions warnings ++ o.outputActions p object, 0⟩

end Options

/-- The exit status for a command line that is not well formed. -/
def usageStatus : UInt32 := 2

/-- The exit status for files that cannot be read or written. -/
def fileStatus : UInt32 := 1

end PrimeLang.Command
