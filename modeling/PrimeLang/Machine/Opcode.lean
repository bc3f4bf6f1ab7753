/-! # Operation codes of the Triangle Abstract Machine -/

namespace PrimeLang.Machine

/-- What an instruction does. -/
inductive Opcode where
  | load | loadAddress | loadIndirect | loadLiteral
  | store | storeIndirect
  | call | callIndirect | ret
  | push | pop
  | jump | jumpIndirect | jumpIf
  | halt
deriving DecidableEq, Repr, Inhabited

namespace Opcode

def all : List Opcode :=
  [load, loadAddress, loadIndirect, loadLiteral, store, storeIndirect, call, callIndirect, ret,
    push, pop, jump, jumpIndirect, jumpIf, halt]

/-- The number in an instruction record. Nine is not in use. -/
def number : Opcode → Nat
  | load => 0
  | loadAddress => 1
  | loadIndirect => 2
  | loadLiteral => 3
  | store => 4
  | storeIndirect => 5
  | call => 6
  | callIndirect => 7
  | ret => 8
  | push => 10
  | pop => 11
  | jump => 12
  | jumpIndirect => 13
  | jumpIf => 14
  | halt => 15

def name : Opcode → String
  | load => "LOAD"
  | loadAddress => "LOADA"
  | loadIndirect => "LOADI"
  | loadLiteral => "LOADL"
  | store => "STORE"
  | storeIndirect => "STOREI"
  | call => "CALL"
  | callIndirect => "CALLI"
  | ret => "RETURN"
  | push => "PUSH"
  | pop => "POP"
  | jump => "JUMP"
  | jumpIndirect => "JUMPI"
  | jumpIf => "JUMPIF"
  | halt => "HALT"

def ofNumber? (n : Nat) : Option Opcode := all.find? (·.number == n)

def ofName? (s : String) : Option Opcode := all.find? (·.name == s)

theorem ofNumber?_number (op : Opcode) : ofNumber? op.number = some op := by
  cases op <;> rfl

end Opcode
end PrimeLang.Machine
