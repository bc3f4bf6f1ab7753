import PrimeLang.Binding.Resolution
import PrimeLang.Machine.Routine

/-! # What programs mean

A big-step semantics of programs whose names are resolved, with words as values. Operands are
evaluated from left to right, and both of them always. A word is false if it is zero. Every call has
variables of its own, and all calls share the heap, where the elements of arrays are.

There is no rule for a variable that is read before it is set, for a word of the heap that does not
exist, for a function that ends without the value it declares or with one it does not declare, and
for a call without a value in a place where one is needed. -/

namespace PrimeLang
open Machine

/-- What the meaning of a program depends on. -/
structure Semantics where
  funcs : List Tree.Func
  resolution : Resolution
  /-- What the primitive routines compute from two words. -/
  routine : Routine → Int → Int → Int

/-- The variables of a call that have been set, and the heap. -/
structure Store where
  vars : VarId → Option Int
  heap : Int → Option Int

namespace Store

def setVar (σ : Store) (v : VarId) (w : Int) : Store :=
  { σ with vars := fun u => if u = v then some w else σ.vars u }

def setHeap (σ : Store) (a w : Int) : Store :=
  { σ with heap := fun b => if b = a then some w else σ.heap b }

/-- Only parameters are set, to the arguments. -/
def ofArgs (params : List Tree.Var) (args : List Int) (heap : Int → Option Int) : Store :=
  ⟨fun v => ((params.map (·.id)).zip args).lookup v, heap⟩

end Store

/-- How a statement ends. -/
inductive Outcome where
  | normal
  /-- The function is left, with a value if there is one. -/
  | returned (value : Option Int)

/-- What a call yields if the function has results of the given type and its body ends as given. -/
inductive Outcome.Yields : Option Ty → Outcome → Option Int → Prop
  | value (ty : Ty) (w : Int) : Yields (some ty) (.returned (some w)) (some w)
  | finish : Yields none .normal none
  | leave : Yields none (.returned none) none

namespace Semantics
variable (S : Semantics)

/-- The value of a binary operator. -/
def operate : BinaryOp → Int → Int → Int
  | .and => S.routine .and
  | .or => S.routine .or
  | .eq => S.routine .eq
  | .ne => S.routine .ne
  | .lt => S.routine .lt
  | .le => S.routine .le
  | .gt => S.routine .gt
  | .ge => S.routine .ge
  | .add => S.routine .add
  | .sub => S.routine .sub
  | .mul => S.routine .mult
  | .div => S.routine .div
  | .mod => S.routine .mod

mutual

/-- An expression has a value, or is a call that yields none, and leaves a store behind. -/
inductive Eval : Store → Tree.Expr Site → Option Int → Store → Prop
  | literal {σ site n} : Eval σ (.literal site n) (some n.toInt) σ
  | var {σ site name v w} : S.resolution.idents.get? site.id = some v → σ.vars v = some w →
    Eval σ (.ident site name []) (some w) σ
  | element {σ σ' site name index indices v a a' w} :
    S.resolution.idents.get? site.id = some v → σ.vars v = some a →
    Index σ a (index :: indices) a' σ' → σ'.heap a' = some w →
    Eval σ (.ident site name (index :: indices)) (some w) σ'
  | binary {σ σ₁ σ₂ site op lhs rhs x y} : Eval σ lhs (some x) σ₁ → Eval σ₁ rhs (some y) σ₂ →
    Eval σ (.binary site op lhs rhs) (some (S.operate op x y)) σ₂
  | assign {σ σ' label site name value v w} : Eval σ value (some w) σ' →
    S.resolution.idents.get? site.id = some v →
    Eval σ (.assign label (.ident site name []) value) (some w) (σ'.setVar v w)
  | assignElement {σ σ₁ σ₂ label site name index indices value v w a a'} :
    Eval σ value (some w) σ₁ → S.resolution.idents.get? site.id = some v → σ₁.vars v = some a →
    Index σ₁ a (index :: indices) a' σ₂ → (σ₂.heap a').isSome →
    Eval σ (.assign label (.ident site name (index :: indices)) value) (some w) (σ₂.setHeap a' w)
  | call {σ σ' site name args ws f r heap'} : Evals σ args ws σ' →
    S.resolution.calls.get? site.id = some f.id → f ∈ S.funcs → Call f ws σ'.heap r heap' →
    Eval σ (.call site name args) r { σ' with heap := heap' }

/-- Expressions in order have values. -/
inductive Evals : Store → List (Tree.Expr Site) → List Int → Store → Prop
  | nil {σ} : Evals σ [] [] σ
  | cons {σ σ₁ σ₂ e es w ws} : Eval σ e (some w) σ₁ → Evals σ₁ es ws σ₂ →
    Evals σ (e :: es) (w :: ws) σ₂

/-- Indices lead from one address to another. -/
inductive Index : Store → Int → List (Tree.Expr Site) → Int → Store → Prop
  | nil {σ a} : Index σ a [] a σ
  | cons {σ σ₁ σ₂ a a' e es i} : Eval σ e (some i) σ₁ → Index σ₁ (S.operate .add a i) es a' σ₂ →
    Index σ a (e :: es) a' σ₂

/-- A statement ends. -/
inductive Exec : Store → Tree.Stmt → Outcome → Store → Prop
  | decl {σ σ' v init w} : Eval σ init (some w) σ' →
    Exec σ (.decl v init) .normal (σ'.setVar v.id w)
  | ifTrue {σ σ₁ σ₂ cond body w out} : Eval σ cond (some w) σ₁ → w ≠ 0 →
    ExecBlock σ₁ body out σ₂ → Exec σ (.ifThen cond body) out σ₂
  | ifFalse {σ σ' cond body} : Eval σ cond (some 0) σ' → Exec σ (.ifThen cond body) .normal σ'
  | thenTrue {σ σ₁ σ₂ cond body orElse w out} : Eval σ cond (some w) σ₁ → w ≠ 0 →
    ExecBlock σ₁ body out σ₂ → Exec σ (.ifElse cond body orElse) out σ₂
  | elseFalse {σ σ₁ σ₂ cond body orElse out} : Eval σ cond (some 0) σ₁ →
    ExecBlock σ₁ orElse out σ₂ → Exec σ (.ifElse cond body orElse) out σ₂
  | loop {σ σ₁ σ₂ v init cond step body w out} : Eval σ init (some w) σ₁ →
    Loop (σ₁.setVar v.id w) cond step body out σ₂ → Exec σ (.loop v init cond step body) out σ₂
  | leave {σ} : Exec σ (.ret none) (.returned none) σ
  | ret {σ σ' e w} : Eval σ e (some w) σ' → Exec σ (.ret (some e)) (.returned (some w)) σ'
  | eval {σ σ' e r} : Eval σ e r σ' → Exec σ (.eval e) .normal σ'

/-- Statements in order end, the last ones not being reached if the function is left. -/
inductive ExecBlock : Store → List Tree.Stmt → Outcome → Store → Prop
  | nil {σ} : ExecBlock σ [] .normal σ
  | cons {σ σ₁ σ₂ s ss out} : Exec σ s .normal σ₁ → ExecBlock σ₁ ss out σ₂ →
    ExecBlock σ (s :: ss) out σ₂
  | leave {σ σ' s ss r} : Exec σ s (.returned r) σ' → ExecBlock σ (s :: ss) (.returned r) σ'

/-- The condition, body and step of a loop repeat until it ends. -/
inductive Loop : Store → Tree.Expr Site → Tree.Expr Site → List Tree.Stmt → Outcome → Store → Prop
  | done {σ σ' cond step body} : Eval σ cond (some 0) σ' → Loop σ cond step body .normal σ'
  | next {σ σ₁ σ₂ σ₃ σ₄ cond step body w r out} : Eval σ cond (some w) σ₁ → w ≠ 0 →
    ExecBlock σ₁ body .normal σ₂ → Eval σ₂ step r σ₃ → Loop σ₃ cond step body out σ₄ →
    Loop σ cond step body out σ₄
  | leave {σ σ₁ σ₂ cond step body w r} : Eval σ cond (some w) σ₁ → w ≠ 0 →
    ExecBlock σ₁ body (.returned r) σ₂ → Loop σ cond step body (.returned r) σ₂

/-- A call of a function with arguments and a heap yields a value or none and leaves a heap. -/
inductive Call : Tree.Func → List Int → (Int → Option Int) → Option Int → (Int → Option Int) → Prop
  | mk {f args heap out r σ'} : args.length = f.params.length →
    ExecBlock (.ofArgs f.params args heap) f.body out σ' → out.Yields f.ret r →
    Call f args heap r σ'.heap

end

end Semantics
end PrimeLang
