import PrimeLang.Language.Operator
import PrimeLang.Language.Statement

/-! # Programs as tables of nodes

Every function, variable, statement and expression of a program has a number, its place in the table
of its sort. A node refers to other nodes by their numbers. -/

namespace PrimeLang

abbrev FuncId := Nat
abbrev VarId := Nat
abbrev StmtId := Nat
abbrev ExprId := Nat

namespace Node

/-- An expression node. -/
inductive Expr where
  | assign (target value : ExprId)
  | binary (op : BinaryOp) (lhs rhs : ExprId)
  /-- A variable, or the element of an array that the indices lead to. -/
  | ident (name : String) (indices : List ExprId)
  | literal (value : Int32)
  | call (name : String) (args : List ExprId)
deriving DecidableEq, Repr, Inhabited

/-- A statement node. -/
inductive Stmt where
  | decl (var : VarId) (init : ExprId)
  | ifThen (cond : ExprId) (body : List StmtId)
  | ifElse (cond : ExprId) (body orElse : List StmtId)
  | loop (var : VarId) (init cond step : ExprId) (body : List StmtId)
  | ret (value : Option ExprId)
  | eval (expr : ExprId)
deriving DecidableEq, Repr, Inhabited

/-- A function node. -/
structure Func where
  name : String
  params : List VarId
  ret : Option Ty
  body : List StmtId
  pos : Pos
deriving DecidableEq, Repr, Inhabited

end Node

/-- The nodes of a program, by sort and number. -/
structure Nodes where
  funcs : Array Node.Func
  vars : Array Var
  stmts : Array Node.Stmt
  exprs : Array (Node.Expr × Pos)
deriving DecidableEq, Repr, Inhabited

namespace Nodes

def empty : Nodes := ⟨#[], #[], #[], #[]⟩

def addFunc (f : Node.Func) (ns : Nodes) : FuncId × Nodes :=
  (ns.funcs.size, { ns with funcs := ns.funcs.push f })

def addVar (v : Var) (ns : Nodes) : VarId × Nodes :=
  (ns.vars.size, { ns with vars := ns.vars.push v })

def addStmt (s : Node.Stmt) (ns : Nodes) : StmtId × Nodes :=
  (ns.stmts.size, { ns with stmts := ns.stmts.push s })

def addExpr (e : Node.Expr) (pos : Pos) (ns : Nodes) : ExprId × Nodes :=
  (ns.exprs.size, { ns with exprs := ns.exprs.push (e, pos) })

/-- The name of the function that a program starts in. -/
def entryName : String := "main"

/-- The function that the program starts in: the first one of that name. -/
def entry? (ns : Nodes) : Option FuncId := ns.funcs.findIdx? (·.name == entryName)

end Nodes
end PrimeLang
