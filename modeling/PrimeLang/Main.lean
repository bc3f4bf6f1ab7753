import PrimeLang.Command.Directory

/-! # The command -/

namespace PrimeLang.Command

/-- The system's number for an operation that a directory does not allow. -/
def isDirectoryCode : UInt32 := 21

/-- The reason for a failure of the file system. -/
def failureReason : IO.Error → String
  | .noFileOrDirectory .. => FileError.notFound.reason
  | .inappropriateType _ code _ =>
    if code = isDirectoryCode then FileError.isDirectory.reason else FileError.notDirectory.reason
  | e => toString e

/-- The text of a file, or the reason why it cannot be read. -/
def readSource (path : String) : IO (Except String String) := do
  try
    match String.fromUTF8? (← IO.FS.readBinFile path) with
    | some text => return .ok text
    | none => return .error FileError.notText.reason
  catch e => return .error (failureReason e)

/-- Performs actions in order until one fails, and returns the exit status. -/
def performAll (status : UInt32) : List Action → IO UInt32
  | [] => return status
  | .print text :: rest => do
    IO.print text
    performAll status rest
  | .write path content :: rest => do
    let failed ← try
        IO.FS.writeBinFile path content
        pure none
      catch e => pure (some (failureReason e))
    match failed with
    | none => performAll status rest
    | some reason =>
      IO.print (writeFailure reason)
      return fileStatus

end PrimeLang.Command

open PrimeLang.Command in
/-- Compiles a source file to an object file. -/
def main (args : List String) : IO UInt32 := do
  match Options.ofArguments? args with
  | none =>
    IO.eprintln "usage: [-o FILE] [-d] [-l FILE] [-W] [INPUT]"
    return usageStatus
  | some o =>
    match ← readSource o.input with
    | .error reason =>
      IO.print (readFailure o.input reason)
      return fileStatus
    | .ok code =>
      let plan := o.plan code
      performAll plan.status plan.actions
