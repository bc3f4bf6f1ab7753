import PrimeLang.Nodes.Store
import PrimeLang.Source.Basic

/-! # Storing programs as written

Stores source trees with compound assignments spelled out: `x op= e` becomes `x := x op e`. The
second `x` is stored after `e`, as a copy of the first. -/

namespace PrimeLang.Source

namespace Expr

mutual

/-- The expression with compound assignments spelled out. -/
def tree : Expr → Tree.Expr Pos
  | assign none pos target value => .assign pos target.tree value.tree
  | assign (some op) pos target value =>
    .assign pos target.tree (.binary pos op target.tree value.tree)
  | binary op pos lhs rhs => .binary pos op lhs.tree rhs.tree
  | var name pos => .ident pos name []
  | element name pos index => .ident pos name [index.tree]
  | literal value pos => .literal pos value
  | call name pos args => .call pos name (treeAll args)

/-- The expressions with compound assignments spelled out. -/
def treeAll : List Expr → List (Tree.Expr Pos)
  | [] => []
  | e :: es => e.tree :: treeAll es

end

mutual

/-- Stores an expression. -/
def store : Expr → Storing (Tree.Expr Site)
  | assign none pos target value => do
    let target ← target.store
    let value ← value.store
    let id ← modifyGet (Nodes.addExpr (.assign target.label.id value.label.id) pos)
    return .assign ⟨id, pos⟩ target value
  | assign (some op) pos target value => do
    let stored ← target.store
    let value ← value.store
    let copy ← target.tree.store
    let result ← modifyGet (Nodes.addExpr (.binary op copy.label.id value.label.id) pos)
    let id ← modifyGet (Nodes.addExpr (.assign stored.label.id result) pos)
    return .assign ⟨id, pos⟩ stored (.binary ⟨result, pos⟩ op copy value)
  | binary op pos lhs rhs => do
    let lhs ← lhs.store
    let rhs ← rhs.store
    let id ← modifyGet (Nodes.addExpr (.binary op lhs.label.id rhs.label.id) pos)
    return .binary ⟨id, pos⟩ op lhs rhs
  | var name pos => do
    let id ← modifyGet (Nodes.addExpr (.ident name []) pos)
    return .ident ⟨id, pos⟩ name []
  | element name pos index => do
    let index ← index.store
    let id ← modifyGet (Nodes.addExpr (.ident name [index.label.id]) pos)
    return .ident ⟨id, pos⟩ name [index]
  | literal value pos => do
    let id ← modifyGet (Nodes.addExpr (.literal value) pos)
    return .literal ⟨id, pos⟩ value
  | call name pos args => do
    let args ← storeAll args
    let id ← modifyGet (Nodes.addExpr (.call name (args.map (·.label.id))) pos)
    return .call ⟨id, pos⟩ name args

/-- Stores expressions from left to right. -/
def storeAll : List Expr → Storing (List (Tree.Expr Site))
  | [] => return []
  | e :: es => do
    let e ← e.store
    let es ← storeAll es
    return e :: es

end

end Expr

/-- Stores the declaration of a variable. -/
def storeVar (v : Var) : Storing Tree.Var := do
  let id ← modifyGet (Nodes.addVar v)
  return ⟨v, id⟩

mutual

/-- Stores a statement after what it consists of, and tells its number. -/
def storeStmt : Stmt → Storing (StmtId × Tree.Stmt)
  | .decl v init => do
    let v ← storeVar v
    let init ← init.store
    let id ← modifyGet (Nodes.addStmt (.decl v.id init.label.id))
    return (id, .decl v init)
  | .ifThen cond body => do
    let cond ← cond.store
    let (ids, body) ← storeBlock body
    let id ← modifyGet (Nodes.addStmt (.ifThen cond.label.id ids))
    return (id, .ifThen cond body)
  | .ifElse cond body orElse => do
    let cond ← cond.store
    let (ids, body) ← storeBlock body
    let (elseIds, orElse) ← storeBlock orElse
    let id ← modifyGet (Nodes.addStmt (.ifElse cond.label.id ids elseIds))
    return (id, .ifElse cond body orElse)
  | .loop v init cond step body => do
    let v ← storeVar v
    let init ← init.store
    let cond ← cond.store
    let step ← step.store
    let (ids, body) ← storeBlock body
    let id ← modifyGet
      (Nodes.addStmt (.loop v.id init.label.id cond.label.id step.label.id ids))
    return (id, .loop v init cond step body)
  | .ret none => do
    let id ← modifyGet (Nodes.addStmt (.ret none))
    return (id, .ret none)
  | .ret (some value) => do
    let value ← value.store
    let id ← modifyGet (Nodes.addStmt (.ret (some value.label.id)))
    return (id, .ret (some value))
  | .eval e => do
    let e ← e.store
    let id ← modifyGet (Nodes.addStmt (.eval e.label.id))
    return (id, .eval e)

/-- Stores statements in order, and tells their numbers. -/
def storeBlock : List Stmt → Storing (List StmtId × List Tree.Stmt)
  | [] => return ([], [])
  | s :: ss => do
    let (id, s) ← storeStmt s
    let (ids, ss) ← storeBlock ss
    return (id :: ids, s :: ss)

end

/-- Stores a function after its parameters and body. -/
def storeFunc (f : Func) : Storing Tree.Func := do
  let params ← f.params.mapM storeVar
  let (ids, body) ← storeBlock f.body
  let id ← modifyGet (Nodes.addFunc ⟨f.name, params.map (·.id), f.ret, ids, f.pos⟩)
  return { name := f.name, pos := f.pos, params, ret := f.ret, body, id }

end PrimeLang.Source
