import PrimeLang.Language.Operator
import PrimeLang.Language.Statement

/-! # Programs as written

The tree of a program with every construct as the text has it: compound assignments are not yet
spelled out, and each expression carries its position only. Parentheses leave no node. -/

namespace PrimeLang.Source

/-- An expression of the source text. -/
inductive Expr where
  /-- `target := value`, or `target op= value` if there is an operator. -/
  | assign (op : Option BinaryOp) (pos : Pos) (target value : Expr)
  | binary (op : BinaryOp) (pos : Pos) (lhs rhs : Expr)
  | var (name : String) (pos : Pos)
  /-- An element of an array variable. -/
  | element (name : String) (pos : Pos) (index : Expr)
  | literal (value : Int32) (pos : Pos)
  | call (name : String) (pos : Pos) (args : List Expr)
deriving Repr, Inhabited

/-- A value can be assigned to the expression. -/
def Expr.isVariable : Expr → Bool
  | var .. => true
  | element .. => true
  | _ => false

abbrev Stmt := PrimeLang.Stmt Expr Var

abbrev Func := PrimeLang.Func Expr Var

end PrimeLang.Source
