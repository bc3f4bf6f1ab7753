import PrimeLang.Language.Type
import PrimeLang.Text.Position

/-! # Statements and functions

Statements have the same shape in every representation of a program, so they are generic in the
type `ε` of expressions and the type `β` of what a declaration binds. -/

namespace PrimeLang

/-- The declaration of a variable. -/
structure Var where
  ty : Ty
  name : String
  pos : Pos
deriving DecidableEq, Repr, Inhabited

namespace Var

/-- `type name`. -/
def text (v : Var) : String := s!"{v.ty.name} {v.name}"

/-- Words of storage that variables take together. -/
def storage (vs : List Var) : Nat := vs.foldr (fun v n => v.ty.size + n) 0

end Var

/-- Parameters in parentheses, then the type of the result if there is one. -/
def signature (params : List Var) (ret : Option Ty) : String :=
  let head := "(" ++ ", ".intercalate (params.map Var.text) ++ ")"
  match ret with
  | some ty => s!"{head} -> {ty.name}"
  | none => head

/-- A statement with expressions in `ε` that declares variables in `β`. -/
inductive Stmt (ε β : Type) where
  /-- Declares a variable and gives it its first value. -/
  | decl (var : β) (init : ε)
  | ifThen (cond : ε) (body : List (Stmt ε β))
  | ifElse (cond : ε) (body orElse : List (Stmt ε β))
  /-- Declares a variable, then runs `body` and `step` as long as `cond` holds. -/
  | loop (var : β) (init cond step : ε) (body : List (Stmt ε β))
  /-- Leaves the function, with a value if there is one. -/
  | ret (value : Option ε)
  /-- Evaluates an expression for what it does. -/
  | eval (expr : ε)
deriving Repr, Inhabited

/-- A function declaration. -/
structure Func (ε β : Type) where
  name : String
  pos : Pos
  params : List β
  ret : Option Ty
  body : List (Stmt ε β)
deriving Repr, Inhabited

namespace Stmt
variable {ε β : Type}

mutual

/-- The variables that a statement declares, outermost and leftmost first. -/
def decls : Stmt ε β → List β
  | decl var _ => [var]
  | ifThen _ body => declsOf body
  | ifElse _ body orElse => declsOf body ++ declsOf orElse
  | loop var _ _ _ body => var :: declsOf body
  | ret _ => []
  | eval _ => []

/-- The variables that a list of statements declares, in order. -/
def declsOf : List (Stmt ε β) → List β
  | [] => []
  | s :: ss => decls s ++ declsOf ss

end

def isReturn : Stmt ε β → Bool
  | ret _ => true
  | _ => false

end Stmt

namespace Func
variable {ε β : Type}

/-- The parameters of a function, then the variables of its body. -/
def vars (f : Func ε β) : List β := f.params ++ Stmt.declsOf f.body

/-- The body ends in a `ret`. -/
def endsInReturn (f : Func ε β) : Bool := f.body.getLast?.any Stmt.isReturn

end Func
end PrimeLang
