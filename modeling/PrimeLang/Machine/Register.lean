/-! # Registers of the Triangle Abstract Machine -/

namespace PrimeLang.Machine

/-- A register. The display registers `lb`, `l1`, … `l6` hold the frames of the enclosing static
levels, innermost first. -/
inductive Register where
  | cb | ct | pb | pt | sb | st | hb | ht
  | lb | l1 | l2 | l3 | l4 | l5 | l6
  | cp
deriving DecidableEq, Repr, Inhabited

namespace Register

def all : List Register := [cb, ct, pb, pt, sb, st, hb, ht, lb, l1, l2, l3, l4, l5, l6, cp]

/-- The number in an instruction record. -/
def number : Register → Nat
  | cb => 0
  | ct => 1
  | pb => 2
  | pt => 3
  | sb => 4
  | st => 5
  | hb => 6
  | ht => 7
  | lb => 8
  | l1 => 9
  | l2 => 10
  | l3 => 11
  | l4 => 12
  | l5 => 13
  | l6 => 14
  | cp => 15

def name : Register → String
  | cb => "CB"
  | ct => "CT"
  | pb => "PB"
  | pt => "PT"
  | sb => "SB"
  | st => "ST"
  | hb => "HB"
  | ht => "HT"
  | lb => "LB"
  | l1 => "L1"
  | l2 => "L2"
  | l3 => "L3"
  | l4 => "L4"
  | l5 => "L5"
  | l6 => "L6"
  | cp => "CP"

def ofNumber? (n : Nat) : Option Register := all.find? (·.number == n)

def ofName? (s : String) : Option Register := all.find? (·.name == s)

/-- The register for the frame `up` static levels out. -/
def display? (up : Nat) : Option Register := [lb, l1, l2, l3, l4, l5, l6][up]?

theorem ofNumber?_number (r : Register) : ofNumber? r.number = some r := by
  cases r <;> rfl

end Register
end PrimeLang.Machine
