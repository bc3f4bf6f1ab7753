import PrimeLang.Object.Listing

/-! # Object code on a terminal

One line an instruction, in a frame. The first instruction of a function stands below the head of
the function. Heads are found by turning the layout around: its entries are gone through in some
order, and where several functions start at one address, the last of them has its head there. -/

namespace PrimeLang
open Machine

/-- A line of a dump. -/
inductive DumpRow where
  /-- The head of a function. -/
  | head (f : Tree.Func)
  | code (address : Nat) (i : Instruction)
deriving Repr

namespace DumpRow

/-- The name of a function is green. -/
def text : DumpRow → String
  | head f => s!"+--------+ \x1b[32m{f.name}\x1b[39m : {f.signature}"
  | code address i => s!"| 0x{hex4 address} : {i.colored}"

def top : String :=
  "+-[Code]-+------------------------------------------------------------------------"

def bottom : String :=
  "+--------+------------------------------------------------------------------------"

/-- The lines in their frame. -/
def framed (rows : List DumpRow) : String :=
  String.join (([top] ++ rows.map text ++ [bottom]).map (· ++ "\n"))

end DumpRow

namespace Object

/-- The function that starts at an address, by places that are gone through in order. -/
def headAt (places : List (FuncId × Address)) (address : Nat) : Option FuncId :=
  (places.reverse.find? (·.2.displacement = (address : Int))).map Prod.fst

/-- The lines of a dump for which the places of functions are gone through in the given order. -/
def dumpRows (o : Object) (p : Program) (places : List (FuncId × Address)) : List DumpRow :=
  (o.code.toList.mapIdx fun address i =>
    let head := (headAt places address).bind (p.funcs[·]?)
    head.toList.map .head ++ [.code address i]).flatten

/-- The code of an object. -/
def dump (o : Object) (p : Program) : String :=
  DumpRow.framed (o.dumpRows p o.layout.funcs.toList)

end Object
end PrimeLang
