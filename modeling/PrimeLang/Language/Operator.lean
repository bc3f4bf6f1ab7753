/-! # Operators and their precedence -/

namespace PrimeLang

/-- The binary operators of expressions. -/
inductive BinaryOp where
  | and | or
  | eq | ne | lt | le | gt | ge
  | add | sub
  | mul | div | mod
deriving DecidableEq, Repr, Inhabited

namespace BinaryOp

def all : List BinaryOp := [and, or, eq, ne, lt, le, gt, ge, add, sub, mul, div, mod]

def spelling : BinaryOp → String
  | and => "&&"
  | or => "||"
  | eq => "=="
  | ne => "!="
  | lt => "<"
  | le => "<="
  | gt => ">"
  | ge => ">="
  | add => "+"
  | sub => "-"
  | mul => "*"
  | div => "/"
  | mod => "%"

def ofSpelling? (s : String) : Option BinaryOp := all.find? (·.spelling == s)

end BinaryOp

/-- How tightly an operator binds, loosest first. -/
inductive Tier where
  | assignment
  | logical
  | comparison
  | additive
  | multiplicative
deriving DecidableEq, Repr, Inhabited

/-- The tier of a binary operator. -/
def BinaryOp.tier : BinaryOp → Tier
  | and | or => .logical
  | eq | ne | lt | le | gt | ge => .comparison
  | add | sub => .additive
  | mul | div | mod => .multiplicative

end PrimeLang
