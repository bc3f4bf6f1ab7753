import PrimeLang.Nodes.Unfold

/-! # Storing trees in node tables

The nodes of a stored tree are new: children come before their parent, and left before right. What
is stored comes back as the tree that stands for the new nodes. A copy of what is under a node is
stored in the same order, without a tree of it. -/

namespace PrimeLang

/-- Actions that add nodes. -/
abbrev Storing := StateM Nodes

namespace Tree.Expr

mutual

/-- Stores an expression. -/
def store : Expr Pos → Storing (Expr Site)
  | assign pos target value => do
    let target ← target.store
    let value ← value.store
    let id ← modifyGet (Nodes.addExpr (.assign target.label.id value.label.id) pos)
    return assign ⟨id, pos⟩ target value
  | binary pos op lhs rhs => do
    let lhs ← lhs.store
    let rhs ← rhs.store
    let id ← modifyGet (Nodes.addExpr (.binary op lhs.label.id rhs.label.id) pos)
    return binary ⟨id, pos⟩ op lhs rhs
  | ident pos name indices => do
    let indices ← storeAll indices
    let id ← modifyGet (Nodes.addExpr (.ident name (indices.map (·.label.id))) pos)
    return ident ⟨id, pos⟩ name indices
  | literal pos value => do
    let id ← modifyGet (Nodes.addExpr (.literal value) pos)
    return literal ⟨id, pos⟩ value
  | call pos name args => do
    let args ← storeAll args
    let id ← modifyGet (Nodes.addExpr (.call name (args.map (·.label.id))) pos)
    return call ⟨id, pos⟩ name args

/-- Stores expressions from left to right. -/
def storeAll : List (Expr Pos) → Storing (List (Expr Site))
  | [] => return []
  | e :: es => do
    let e ← e.store
    let es ← storeAll es
    return e :: es

end

end Tree.Expr

namespace Nodes

/-- Copies the expression under a node into new nodes, positions included, if its paths have at most
`n` nodes, and tells the number of the copy. Children are copied before their parent, each into the
tables that the ones before it left. -/
def copyWithin? : Nat → ExprId → StateT Nodes Option ExprId
  | 0, _ => failure
  | n + 1, id => do
    let (e, pos) ← liftM (← get).exprs[id]?
    let copy ← match e with
      | .assign target value => do
        let target ← copyWithin? n target
        let value ← copyWithin? n value
        pure (.assign target value)
      | .binary op lhs rhs => do
        let lhs ← copyWithin? n lhs
        let rhs ← copyWithin? n rhs
        pure (.binary op lhs rhs)
      | .ident name indices => do
        let indices ← indices.mapM (copyWithin? n)
        pure (.ident name indices)
      | .literal value => pure (.literal value)
      | .call name args => do
        let args ← args.mapM (copyWithin? n)
        pure (.call name args)
    modifyGet (addExpr copy pos)

/-- Copies the expression under a node into new nodes. -/
def copy? (ns : Nodes) (id : ExprId) : Option (ExprId × Nodes) :=
  (copyWithin? ns.exprs.size id).run ns

end Nodes
end PrimeLang
