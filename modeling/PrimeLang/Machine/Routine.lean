/-! # Primitive routines of the Triangle Abstract Machine -/

namespace PrimeLang.Machine

/-- A routine that the machine itself provides. -/
inductive Routine where
  | id | not | and | or
  | succ | pred | neg
  | add | sub | mult | div | mod
  | lt | le | ge | gt | eq | ne
  | eol | eof | get | put | geteol | puteol | getint | putint
  | new | dispose
deriving DecidableEq, Repr, Inhabited

namespace Routine

/-- All routines in the order of their displacements, which start at one. -/
def all : List Routine :=
  [id, not, and, or, succ, pred, neg, add, sub, mult, div, mod, lt, le, ge, gt, eq, ne,
    eol, eof, get, put, geteol, puteol, getint, putint, new, dispose]

def name : Routine → String
  | id => "id"
  | not => "not"
  | and => "and"
  | or => "or"
  | succ => "succ"
  | pred => "pred"
  | neg => "neg"
  | add => "add"
  | sub => "sub"
  | mult => "mult"
  | div => "div"
  | mod => "mod"
  | lt => "lt"
  | le => "le"
  | ge => "ge"
  | gt => "gt"
  | eq => "eq"
  | ne => "ne"
  | eol => "eol"
  | eof => "eof"
  | get => "get"
  | put => "put"
  | geteol => "geteol"
  | puteol => "puteol"
  | getint => "getint"
  | putint => "putint"
  | new => "new"
  | dispose => "dispose"

/-- The place of a routine above the register for primitive routines. -/
def displacement (r : Routine) : Nat := all.idxOf r + 1

def ofDisplacement? : Nat → Option Routine
  | 0 => none
  | d + 1 => all[d]?

theorem ofDisplacement?_displacement (r : Routine) :
    ofDisplacement? r.displacement = some r := by
  cases r <;> rfl

end Routine
end PrimeLang.Machine
