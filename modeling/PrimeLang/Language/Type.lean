/-! # Types of the language -/

namespace PrimeLang

/-- The type that a variable or a function result is declared with. -/
inductive Ty where
  | int
  | bool
  | char
  | array
deriving DecidableEq, Repr, Inhabited

namespace Ty

def all : List Ty := [int, bool, char, array]

def name : Ty → String
  | int => "int"
  | bool => "bool"
  | char => "char"
  | array => "array"

/-- Words of storage. An array variable holds the address of its elements. -/
def size : Ty → Nat
  | int => 1
  | bool => 1
  | char => 1
  | array => 1

end Ty
end PrimeLang
