import PrimeLang.Machine.Instruction
import PrimeLang.Object.Address
import PrimeLang.Object.Warning
import PrimeLang.Table

/-! # Object code -/

namespace PrimeLang

/-- Where functions and variables lie, by their numbers. -/
structure Layout where
  funcs : Table Address
  vars : Table Address
deriving Inhabited

/-- The result of code generation. -/
structure Object where
  code : Array Machine.Instruction
  layout : Layout
  warnings : Array Warning
deriving Inhabited

end PrimeLang
