import PrimeLang.Binding.Error
import PrimeLang.Binding.Scopes
import PrimeLang.Program.Basic
import PrimeLang.Table

/-! # Resolution of names

Every name in an expression stands for the variable of that name in the innermost scope, and every
call for the function of its name. Functions can be called from their own body on. What was resolved
before an error stays resolved. -/

namespace PrimeLang

/-- What the names in expressions stand for, by the number of the expression. -/
structure Resolution where
  calls : Table FuncId
  idents : Table VarId
deriving Inhabited

/-- What a call needs to know of a function. -/
structure Callee where
  id : FuncId
  arity : Nat
deriving DecidableEq, Repr, Inhabited

/-- The functions declared so far, the open scopes, and what is resolved. -/
structure Resolver where
  funcs : List (String × Callee)
  scopes : Scopes
  resolution : Resolution
deriving Inhabited

namespace Resolver

def initial : Resolver := ⟨[], .global, ⟨∅, ∅⟩⟩

/-- Notes that the expression numbered `id` stands for a variable. -/
def bindIdent (id : ExprId) (var : VarId) (s : Resolver) : Resolver :=
  { s with resolution.idents := s.resolution.idents.insert id var }

/-- Notes that the expression numbered `id` calls a function. -/
def bindCall (id : ExprId) (func : FuncId) (s : Resolver) : Resolver :=
  { s with resolution.calls := s.resolution.calls.insert id func }

/-- Declares a variable in the innermost scope; `error` says that it has one of that name. -/
def declare (s : Resolver) (error : BindingError) (v : Tree.Var) : Except BindingError Resolver :=
  match s.scopes.declare? v.name v.id with
  | some scopes => .ok { s with scopes }
  | none => .error error

/-- Declares a function, unless there is one of that name. -/
def declareFunc (s : Resolver) (f : Tree.Func) : Except BindingError Resolver :=
  if (s.funcs.lookup f.name).isSome then .error (.duplicateFunction f.name f.pos)
  else .ok { s with funcs := (f.name, ⟨f.id, f.params.length⟩) :: s.funcs }

/-- The variable that `name` stands for. -/
def variableOf (s : Resolver) (name : String) (pos : Pos) : Except BindingError VarId :=
  match s.scopes.lookup? name with
  | some var => .ok var
  | none => .error (.undefinedVariable name pos)

/-- The function that a call of `name` with `found` arguments calls. A variable of that name hides
the function. -/
def calleeOf (s : Resolver) (name : String) (found : Nat) (pos : Pos) :
    Except BindingError FuncId :=
  if (s.scopes.lookup? name).isSome then .error (.notAFunction name pos)
  else
    match s.funcs.lookup name with
    | none => .error (.undefinedFunction name pos)
    | some f => if f.arity = found then .ok f.id else .error (.arity name f.arity found pos)

end Resolver

/-- Actions that resolve names; their effect stays when they fail. -/
abbrev Resolve := ExceptT BindingError (StateM Resolver)

namespace Resolve

/-- Runs an action in a scope of its own, which is closed also when the action fails. -/
def inScope {α : Type} (act : Resolve α) : Resolve α := ExceptT.mk do
  modify fun s => { s with scopes := s.scopes.push }
  let result ← act.run
  modify fun s => { s with scopes := s.scopes.pop }
  return result

/-- Declares a variable in the innermost scope, or fails with the error for that. -/
def declareOr (error : BindingError) (v : Tree.Var) : Resolve Unit := do
  set (← (← get).declare error v)

/-- Declares a variable in the innermost scope. -/
def declare (v : Tree.Var) : Resolve Unit := declareOr (.duplicateVariable v.name v.pos) v

mutual

/-- Resolves the names in an expression, from left to right and outer before inner. -/
def expr : Tree.Expr Site → Resolve Unit
  | .assign _ target value => do
    expr target
    expr value
  | .binary _ _ lhs rhs => do
    expr lhs
    expr rhs
  | .ident site name indices => do
    let var ← (← get).variableOf name site.pos
    modify (Resolver.bindIdent site.id var)
    exprs indices
  | .literal _ _ => return
  | .call site name args => do
    let func ← (← get).calleeOf name args.length site.pos
    modify (Resolver.bindCall site.id func)
    exprs args

/-- Resolves the names in expressions in order. -/
def exprs : List (Tree.Expr Site) → Resolve Unit
  | [] => return
  | e :: es => do
    expr e
    exprs es

end

mutual

/-- Resolves the names in a statement. A variable is visible already in its first value. -/
def stmt : Tree.Stmt → Resolve Unit
  | .decl var init => do
    declare var
    expr init
  | .ifThen cond body => do
    expr cond
    inScope (stmts body)
  | .ifElse cond body orElse => do
    expr cond
    inScope (stmts body)
    inScope (stmts orElse)
  | .loop var init cond step body => inScope do
    declare var
    expr init
    expr cond
    expr step
    stmts body
  | .ret none => return
  | .ret (some value) => expr value
  | .eval e => expr e

/-- Resolves the names in statements in order, in the scope that is open. -/
def stmts : List Tree.Stmt → Resolve Unit
  | [] => return
  | s :: ss => do
    stmt s
    stmts ss

end

/-- Declares the parameters of the function called `func`. -/
def params (func : String) : List Tree.Var → Resolve Unit
  | [] => return
  | v :: vs => do
    declareOr (.duplicateParameter v.name func v.pos) v
    params func vs

/-- Declares a function and resolves its body. Parameters and body share one scope. -/
def func (f : Tree.Func) : Resolve Unit := do
  set (← (← get).declareFunc f)
  inScope do
    params f.name f.params
    stmts f.body

/-- Declares functions and resolves their bodies in order. -/
def funcs : List Tree.Func → Resolve Unit
  | [] => return
  | f :: fs => do
    func f
    funcs fs

end Resolve

/-- What the names of a program stand for. -/
def Program.resolve (p : Program) : Except BindingError Resolution :=
  let (result, s) := (Resolve.funcs p.funcs).run.run .initial
  result.map fun _ => s.resolution

end PrimeLang
