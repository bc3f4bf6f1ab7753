import Mathlib.Logic.Relation
import PrimeLang.Machine.Instruction

/-! # What instructions do

The machine works on a stack of words, bottom first, and a heap. A call puts three words of link data
above its arguments: the static link, where the link data of the caller begin, and the address to go
on at. Registers other than the ones that code of one static level uses have no value here. -/

namespace PrimeLang.Machine

/-- What the machine leaves open: the primitive routines, each a function of the two topmost words,
and what is in words that nobody has written yet. -/
structure Interpretation where
  routine : Routine → Int → Int → Int
  blank : List Int → Nat → Int

/-- The state of a run. -/
structure State where
  /-- The address of the next instruction. -/
  cp : Nat
  /-- Where the link data of the current frame begin. -/
  lb : Nat
  stack : List Int
  heap : Int → Option Int

/-- An address, unless it is negative. -/
def address? (a : Int) : Option Nat := if 0 ≤ a then some a.toNat else none

@[simp] theorem address?_natCast (n : Nat) : address? n = some n := by simp [address?]

/-- The words below the topmost `n`, and these. -/
def pop? (n : Int) (stack : List Int) : Option (List Int × List Int) := do
  let n ← address? n
  if n ≤ stack.length then
    some (stack.take (stack.length - n), stack.drop (stack.length - n))
  else none

namespace State
variable (s : State)

/-- The state after an instruction that changes the stack only. -/
def next (stack : List Int) : State := { s with cp := s.cp + 1, stack }

def register? : Register → Option Int
  | .cb => some 0
  | .sb => some 0
  | .st => some s.stack.length
  | .lb => some s.lb
  | _ => none

/-- The address `d[r]`. -/
def place? (r : Register) (d : Int) : Option Nat := do address? ((← s.register? r) + d)

/-- `n` words of the stack from `a` on. -/
def load? (a n : Nat) : Option (List Int) :=
  if a + n ≤ s.stack.length then some ((s.stack.drop a).take n) else none

/-- Puts words on the stack in the place of those from `a` on. -/
def store? (a : Nat) (ws : List Int) : Option State :=
  if a + ws.length ≤ s.stack.length then
    some { s with stack := s.stack.take a ++ ws ++ s.stack.drop (a + ws.length) }
  else none

/-- The word at an address, which is one of the stack unless it is on the heap. -/
def fetch? (a : Int) : Option Int :=
  (s.heap a).or ((address? a).bind (s.stack[·]?))

/-- Puts a word at an address, which is one of the stack unless it is on the heap. -/
def put? (a w : Int) : Option State :=
  if (s.heap a).isSome then
    some { s with heap := fun b => if b = a then some w else s.heap b }
  else (address? a).bind (s.store? · [w])

/-- `n` words from an address on. -/
def fetchAll? : Nat → Int → Option (List Int)
  | 0, _ => some []
  | n + 1, a => do return (← s.fetch? a) :: (← fetchAll? n (a + 1))

/-- Puts words at an address and the following ones. -/
def putAll? (s : State) (a : Int) : List Int → Option State
  | [] => some s
  | w :: ws => do putAll? (← s.put? a w) (a + 1) ws

end State

variable (m : Interpretation)

/-- Calls: of a primitive routine, or of code with the register numbered `n` as static link. -/
def call? (n : Int) (r : Register) (d : Int) (s : State) : Option State :=
  match r with
  | .pb => do
    let routine ← Routine.ofDisplacement? (← address? d)
    let (rest, [x, y]) ← pop? 2 s.stack | none
    return s.next (rest ++ [m.routine routine x y])
  | .cb => do
    let link ← s.register? (← Register.ofNumber? (← address? n))
    return { s with
      cp := ← address? d
      lb := s.stack.length
      stack := s.stack ++ [link, s.lb, s.cp + 1] }
  | _ => none

/-- Leaves the current frame and its `d` arguments for the topmost `n` words. -/
def return? (n d : Int) (s : State) : Option State := do
  let (_, result) ← pop? n s.stack
  let [_, lb, cp] ← s.load? s.lb 3 | none
  return { s with
    cp := ← address? cp
    lb := ← address? lb
    stack := s.stack.take (← address? (s.lb - d)) ++ result }

/-- What an instruction does; `none` if it cannot be carried out, or halts the machine. -/
def execute (op : Opcode) (n : Int) (r : Register) (d : Int) (s : State) : Option State :=
  match op with
  | .load => do return s.next (s.stack ++ (← s.load? (← s.place? r d) (← address? n)))
  | .loadLiteral => some (s.next (s.stack ++ [d]))
  | .loadIndirect => do
    let (rest, [a]) ← pop? 1 s.stack | none
    return s.next (rest ++ (← { s with stack := rest }.fetchAll? (← address? n) a))
  | .store => do
    let (rest, ws) ← pop? n s.stack
    (s.next rest).store? (← s.place? r d) ws
  | .storeIndirect => do
    let (rest, [a]) ← pop? 1 s.stack | none
    let (rest, ws) ← pop? n rest
    (s.next rest).putAll? a ws
  | .call => call? m n r d s
  | .ret => return? n d s
  | .push => do return s.next (s.stack ++ (List.range (← address? d)).map (m.blank s.stack))
  | .pop => do
    let (rest, kept) ← pop? n s.stack
    let (rest, _) ← pop? d rest
    return s.next (rest ++ kept)
  | .jump => do return { s with cp := ← s.place? r d }
  | .jumpIf => do
    let (rest, [w]) ← pop? 1 s.stack | none
    if w = n then return { s with cp := ← s.place? r d, stack := rest } else return s.next rest
  | _ => none

/-- One step of a run. -/
def step? (code : Array Instruction) (s : State) : Option State := do
  let i ← code[s.cp]?
  execute m i.op i.n.toInt i.r i.d.toInt s

/-- A run of any length. -/
def Runs (code : Array Instruction) : State → State → Prop :=
  Relation.ReflTransGen fun s s' => step? m code s = some s'

end PrimeLang.Machine
