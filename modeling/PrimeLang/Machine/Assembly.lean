import PrimeLang.Machine.Instruction
import PrimeLang.Text.Column

/-! # Instructions as text -/

namespace PrimeLang.Machine.Instruction

/-- The register with number `w`. -/
def registerOf? (w : Int32) : Option Register :=
  if 0 ≤ w.toInt then Register.ofNumber? w.toInt.toNat else none

/-- The routine at displacement `w`. -/
def routineOf? (w : Int32) : Option Routine :=
  if 0 ≤ w.toInt then Routine.ofDisplacement? w.toInt.toNat else none

/-- `d[r]`. -/
def placeText (i : Instruction) : String := s!"{i.d.toInt}[{i.r.name}]"

/-- `(n)`. -/
def lengthText (i : Instruction) : String := s!"({i.n.toInt})"

/-- The operands that matter to the operation. A call shows the routine or the static link by name
where there is one. -/
def operands (i : Instruction) : String :=
  match i.op with
  | .load | .store | .jumpIf => s!"{i.lengthText} {i.placeText}"
  | .loadAddress | .jump => i.placeText
  | .loadIndirect | .storeIndirect => i.lengthText
  | .loadLiteral | .push => toString i.d.toInt
  | .ret | .pop => s!"{i.lengthText} {i.d.toInt}"
  | .callIndirect | .jumpIndirect | .halt => ""
  | .call =>
    if i.r = .pb then
      match routineOf? i.d with
      | some routine => routine.name
      | none => s!"{i.lengthText} {i.placeText}"
    else
      match registerOf? i.n with
      | some link => s!"({link.name}) {i.placeText}"
      | none => s!"{i.lengthText} {i.placeText}"

/-- The instruction in assembly language. -/
def text (i : Instruction) : String :=
  if i.operands = "" then i.op.name else s!"{i.op.name} {i.operands}"

/-- The width of the column for operation names. -/
def nameWidth : Nat := 7

/-- The instruction for a terminal: the operation red in a column of its own, the operands blue. -/
def colored (i : Instruction) : String :=
  "\x1b[31m" ++ padRight nameWidth i.op.name ++ "\x1b[34m" ++ i.operands ++ "\x1b[39m"

end PrimeLang.Machine.Instruction
