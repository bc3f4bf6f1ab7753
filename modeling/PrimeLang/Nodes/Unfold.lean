import PrimeLang.Tree.Basic

/-! # Reading trees off node tables

Nodes may be shared, so one node can occur several times in a tree. There is no tree under a node
that refers to a number without a node, or to itself through other nodes. A path without a
repetition has no more nodes than the table, which bounds the descent. -/

namespace PrimeLang.Nodes

/-- The tree under an expression node, if its paths have at most `n` nodes. -/
def exprWithin? (ns : Nodes) : Nat → ExprId → Option (Tree.Expr Site)
  | 0, _ => none
  | n + 1, id => do
    let (e, pos) ← ns.exprs[id]?
    match e with
    | .assign target value =>
      let target ← ns.exprWithin? n target
      let value ← ns.exprWithin? n value
      return .assign ⟨id, pos⟩ target value
    | .binary op lhs rhs =>
      let lhs ← ns.exprWithin? n lhs
      let rhs ← ns.exprWithin? n rhs
      return .binary ⟨id, pos⟩ op lhs rhs
    | .ident name indices =>
      let indices ← indices.mapM (ns.exprWithin? n)
      return .ident ⟨id, pos⟩ name indices
    | .literal value => return .literal ⟨id, pos⟩ value
    | .call name args =>
      let args ← args.mapM (ns.exprWithin? n)
      return .call ⟨id, pos⟩ name args

/-- The tree under an expression node. -/
def expr? (ns : Nodes) (id : ExprId) : Option (Tree.Expr Site) := ns.exprWithin? ns.exprs.size id

/-- A variable with its number. -/
def var? (ns : Nodes) (id : VarId) : Option Tree.Var := ns.vars[id]?.map fun v => ⟨v, id⟩

/-- The tree under a statement node, if its paths have at most `n` statements. -/
def stmtWithin? (ns : Nodes) : Nat → StmtId → Option Tree.Stmt
  | 0, _ => none
  | n + 1, id => do
    match ← ns.stmts[id]? with
    | .decl var init =>
      let var ← ns.var? var
      let init ← ns.expr? init
      return .decl var init
    | .ifThen cond body =>
      let cond ← ns.expr? cond
      let body ← body.mapM (ns.stmtWithin? n)
      return .ifThen cond body
    | .ifElse cond body orElse =>
      let cond ← ns.expr? cond
      let body ← body.mapM (ns.stmtWithin? n)
      let orElse ← orElse.mapM (ns.stmtWithin? n)
      return .ifElse cond body orElse
    | .loop var init cond step body =>
      let var ← ns.var? var
      let init ← ns.expr? init
      let cond ← ns.expr? cond
      let step ← ns.expr? step
      let body ← body.mapM (ns.stmtWithin? n)
      return .loop var init cond step body
    | .ret none => return .ret none
    | .ret (some value) =>
      let value ← ns.expr? value
      return .ret (some value)
    | .eval e =>
      let e ← ns.expr? e
      return .eval e

/-- The tree under a statement node. -/
def stmt? (ns : Nodes) (id : StmtId) : Option Tree.Stmt := ns.stmtWithin? ns.stmts.size id

/-- The trees under statement nodes. -/
def block? (ns : Nodes) (ids : List StmtId) : Option (List Tree.Stmt) := ids.mapM ns.stmt?

/-- A function with its parameters and body. -/
def func? (ns : Nodes) (id : FuncId) : Option Tree.Func := do
  let f ← ns.funcs[id]?
  let params ← f.params.mapM ns.var?
  let body ← ns.block? f.body
  return { name := f.name, pos := f.pos, params, ret := f.ret, body, id }

/-- All functions in order. -/
def funcs? (ns : Nodes) : Option (List Tree.Func) := (List.range ns.funcs.size).mapM ns.func?

/-- Words of storage for the variables declared anywhere in a block. -/
def storage? (ns : Nodes) (ids : List StmtId) : Option Nat := (ns.block? ids).map Tree.storage

/-- The parameters of a function, then the variables of its body. -/
def varsOf? (ns : Nodes) (id : FuncId) : Option (List VarId) :=
  (ns.func? id).map fun f => f.vars.map (·.id)

/-- The signature of a function. -/
def signature? (ns : Nodes) (id : FuncId) : Option String := do
  let f ← ns.funcs[id]?
  let params ← f.params.mapM (ns.vars[·]?)
  return signature params f.ret

end PrimeLang.Nodes
