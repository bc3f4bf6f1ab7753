import PrimeLang.Text.Position

/-! # Errors of name resolution -/

namespace PrimeLang

/-- Why the names of a program cannot be resolved, with the place where that shows. -/
inductive BindingError where
  | duplicateFunction (name : String) (pos : Pos)
  | duplicateParameter (name func : String) (pos : Pos)
  | duplicateVariable (name : String) (pos : Pos)
  | undefinedVariable (name : String) (pos : Pos)
  | undefinedFunction (name : String) (pos : Pos)
  /-- What is called is a variable. -/
  | notAFunction (name : String) (pos : Pos)
  /-- A call with a wrong number of arguments. -/
  | arity (name : String) (expected found : Nat) (pos : Pos)
deriving DecidableEq, Repr

namespace BindingError

def pos : BindingError → Pos
  | duplicateFunction _ pos => pos
  | duplicateParameter _ _ pos => pos
  | duplicateVariable _ pos => pos
  | undefinedVariable _ pos => pos
  | undefinedFunction _ pos => pos
  | notAFunction _ pos => pos
  | arity _ _ _ pos => pos

def message : BindingError → String
  | duplicateFunction name _ => s!"Duplicate function: {name}"
  | duplicateParameter name func _ => s!"Duplicate parameter {name} in function {func}"
  | duplicateVariable name _ => s!"Duplicate variable: {name}"
  | undefinedVariable name _ => s!"Undefined variable: {name}"
  | undefinedFunction name _ => s!"Undefined function: {name}"
  | notAFunction name _ => s!"{name} is not a function"
  | arity name expected found _ =>
    s!"Function {name} takes {expected} arguments but {found} were given"

end BindingError
end PrimeLang
