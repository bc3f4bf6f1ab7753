import PrimeLang.Machine.Instruction
import PrimeLang.Object.Warning

/-! # Code under construction

Instructions are numbered from zero, and the address of each is its number as a word. Once the code
store is full they still get numbers and addresses but are dropped. Operands are cut to the widths
of the machine's fields. -/

namespace PrimeLang
open Machine

/-- Code so far, how many instructions were dropped after it, and the warnings in order. -/
structure Segment where
  code : Array Instruction
  dropped : Nat
  warnings : Array Warning
deriving DecidableEq, Repr, Inhabited

namespace Segment

def empty : Segment := ⟨#[], 0, #[]⟩

/-- The value nearest to `v` from `lo` to `hi`. -/
@[inline] def clamp (lo hi v : Int) : Int := max lo (min hi v)

/-- The length nearest to `n` that fits its field. -/
@[inline] def clampLength (n : Int) : Int := clamp 0 maxLength n

/-- The displacement nearest to `d` that fits its field. -/
@[inline] def clampDisplacement (d : Int) : Int := clamp minDisplacement maxDisplacement d

/-- The number of the next instruction. -/
@[inline] def next (s : Segment) : Nat := s.code.size + s.dropped

/-- The address of the instruction numbered `k`, which is a signed word. -/
def addressOf (k : Nat) : Int := (Int32.ofNat k).toInt

/-- The first number that is no address: addresses go on from the least word there. -/
def addressLimit : Nat := 2147483648

/-- The address of the next instruction. -/
def address (s : Segment) : Int := addressOf s.next

def warn (w : Warning) (s : Segment) : Segment := { s with warnings := s.warnings.push w }

/-- Warns that an operand was cut, if it was. -/
@[inline] def warnCut (field : Char) (value clamped : Int) (s : Segment) : Segment :=
  if clamped = value then s else s.warn (.operandCut field value clamped)

/-- Adds an instruction, or drops it if the code store is full. Room goes by numbers, so from
`addressLimit` on there is none either, where addresses are negative. -/
@[inline] def add (op : Opcode) (n : Int) (r : Register) (d : Int) (s : Segment) : Segment :=
  let cut := (s.warnCut 'n' n (clampLength n)).warnCut 'd' d (clampDisplacement d)
  if s.next < codeCapacity then
    let i := ⟨op, r, .ofInt (clampLength n), .ofInt (clampDisplacement d)⟩
    { cut with code := cut.code.push i }
  else
    let full := if s.dropped = 0 then cut.warn (.storeFull codeCapacity) else cut
    { full with dropped := full.dropped + 1 }

/-- Adds an instruction at the next address, which is returned. -/
def emit (op : Opcode) (n : Int) (r : Register) (d : Int) (s : Segment) : Int × Segment :=
  (s.address, s.add op n r d)

/-- Gives the instruction at `addr` another displacement, if there is one. -/
def patch (addr d : Int) (s : Segment) : Segment :=
  let cut := s.warnCut 'd' d (clampDisplacement d)
  if 0 ≤ addr then
    { cut with
      code := cut.code.modify addr.toNat fun i => { i with d := .ofInt (clampDisplacement d) } }
  else cut

theorem addressOf_of_lt {k : Nat} (h : k < addressLimit) : addressOf k = k :=
  Int32.toInt_ofNat_of_lt h

@[simp] theorem next_warn (w : Warning) (s : Segment) : (s.warn w).next = s.next := rfl

@[simp] theorem code_warn (w : Warning) (s : Segment) : (s.warn w).code = s.code := rfl

@[simp] theorem dropped_warn (w : Warning) (s : Segment) : (s.warn w).dropped = s.dropped := rfl

@[simp] theorem code_warnCut (field : Char) (value clamped : Int) (s : Segment) :
    (s.warnCut field value clamped).code = s.code := by
  unfold warnCut
  split <;> rfl

@[simp] theorem dropped_warnCut (field : Char) (value clamped : Int) (s : Segment) :
    (s.warnCut field value clamped).dropped = s.dropped := by
  unfold warnCut
  split <;> rfl

/-- An instruction gets the next address, whether or not it is dropped. -/
@[simp] theorem fst_emit (op : Opcode) (n : Int) (r : Register) (d : Int) (s : Segment) :
    (s.emit op n r d).1 = s.address := rfl

/-- An instruction takes one number, whether or not it is dropped. -/
@[simp] theorem next_emit (op : Opcode) (n : Int) (r : Register) (d : Int) (s : Segment) :
    (s.emit op n r d).2.next = s.next + 1 := by
  unfold emit add
  split
  · simp only [next, code_warnCut, dropped_warnCut, Array.size_push]
    omega
  · split <;> simp [next] <;> omega

/-- A new displacement takes no number. -/
@[simp] theorem next_patch (addr d : Int) (s : Segment) : (s.patch addr d).next = s.next := by
  unfold patch
  split <;> simp [next]

end Segment
end PrimeLang
