import PrimeLang.Machine.Opcode
import PrimeLang.Machine.Register
import PrimeLang.Machine.Routine

/-! # Instructions of the Triangle Abstract Machine

An instruction names an operation, a register, a length and a displacement. Object files hold them
as 32-bit words, whatever the machine's own field widths are. -/

namespace PrimeLang.Machine

/-- One instruction: operation, register, length and displacement. -/
structure Instruction where
  op : Opcode
  r : Register
  n : Int32
  d : Int32
deriving DecidableEq, Repr, Inhabited

/-! ## Limits of the machine -/

/-- Number of instructions in the code store; the primitive routines lie above it. -/
def codeCapacity : Nat := 1024

/-- The widest length that fits its field. -/
def maxLength : Int := 255

/-- The least displacement that fits its field. -/
def minDisplacement : Int := -32768

/-- The greatest displacement that fits its field. -/
def maxDisplacement : Int := 32767

/-- Words that a call saves between the parameters and the locals of a frame. -/
def linkSize : Int := 3

/-- Words of an integer. -/
def integerSize : Int := 1

/-- Words of an address. -/
def addressSize : Int := 1

/-- How the machine represents falsity. -/
def falseWord : Int := 0

end PrimeLang.Machine
