import PrimeLang.Nodes.Basic

/-! # Programs as trees

Expressions with a label of type `α` at every node: a position alone, or the number and position of
the node that the tree was read off. -/

namespace PrimeLang

/-- Which expression node a tree stands for, and where that is in the text. -/
structure Site where
  id : ExprId
  pos : Pos
deriving DecidableEq, Repr, Inhabited

namespace Tree

/-- An expression whose nodes are labelled with `α`. -/
inductive Expr (α : Type) where
  | assign (label : α) (target value : Expr α)
  | binary (label : α) (op : BinaryOp) (lhs rhs : Expr α)
  | ident (label : α) (name : String) (indices : List (Expr α))
  | literal (label : α) (value : Int32)
  | call (label : α) (name : String) (args : List (Expr α))
deriving Repr, Inhabited

namespace Expr
variable {α β : Type}

/-- The label of the root. -/
def label : Expr α → α
  | assign a .. => a
  | binary a .. => a
  | ident a .. => a
  | literal a .. => a
  | call a .. => a

mutual

/-- The same tree with other labels. -/
def map (f : α → β) : Expr α → Expr β
  | assign a target value => assign (f a) (target.map f) (value.map f)
  | binary a op lhs rhs => binary (f a) op (lhs.map f) (rhs.map f)
  | ident a name indices => ident (f a) name (mapAll f indices)
  | literal a value => literal (f a) value
  | call a name args => call (f a) name (mapAll f args)

/-- The same trees with other labels. -/
def mapAll (f : α → β) : List (Expr α) → List (Expr β)
  | [] => []
  | e :: es => e.map f :: mapAll f es

end

end Expr

/-- A declared variable and its number. -/
structure Var extends PrimeLang.Var where
  id : VarId
deriving DecidableEq, Repr, Inhabited

abbrev Stmt := PrimeLang.Stmt (Expr Site) Var

/-- A function and its number. -/
structure Func extends PrimeLang.Func (Expr Site) Var where
  id : FuncId
deriving Repr, Inhabited

/-- Words of storage for the variables declared anywhere in a block. -/
def storage (body : List Stmt) : Nat :=
  PrimeLang.Var.storage ((PrimeLang.Stmt.declsOf body).map (·.toVar))

/-- The signature of a function. -/
def Func.signature (f : Func) : String := PrimeLang.signature (f.params.map (·.toVar)) f.ret

end Tree
end PrimeLang
