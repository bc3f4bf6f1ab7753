/-! # Warnings of code generation -/

namespace PrimeLang

/-- What is worth telling about code that was generated all the same. -/
inductive Warning where
  /-- An operand was cut to what its field holds. -/
  | operandCut (field : Char) (value clamped : Int)
  /-- The code store, with that many places, is full. -/
  | storeFull (capacity : Int)
  /-- No register reaches a frame that many static levels out. -/
  | outOfReach (levels : Nat)
  | noEntry
deriving DecidableEq, Repr

def Warning.message : Warning → String
  | operandCut field value clamped =>
    s!"Operand {field} = {value} does not fit, clamped to {clamped}"
  | storeFull capacity =>
    s!"Program exceeds the code store of {capacity} instructions, further code is dropped"
  | outOfReach levels => s!"Accessing across too many levels: {levels}"
  | noEntry => "No entry function main, the program halts immediately"

end PrimeLang
