import PrimeLang.Object.Generate

/-! # From text to object code -/

namespace PrimeLang

/-- Why a text cannot be compiled. -/
inductive CompileError where
  | grammar (e : SyntaxError)
  | binding (e : BindingError)
  | unresolved (e : Unresolved)
deriving DecidableEq, Repr

namespace CompileError

def message : CompileError → String
  | grammar e => e.message
  | binding e => e.message
  | unresolved e => e.message

/-- The place in the text that is at fault, if there is one. -/
def pos? : CompileError → Option Pos
  | grammar e => some e.pos
  | binding e => some e.pos
  | unresolved _ => none

end CompileError

namespace Program

/-- Resolves the names of a program and generates its code. -/
def compile (p : Program) : Except CompileError Object := do
  let resolution ← p.resolve.mapError .binding
  (p.generate resolution).mapError .unresolved

end Program

/-- The program that a text declares, and its object code. -/
def compile (text : String) : Except CompileError (Program × Object) := do
  let p ← (Program.parse text).mapError .grammar
  let object ← p.compile
  return (p, object)

end PrimeLang
