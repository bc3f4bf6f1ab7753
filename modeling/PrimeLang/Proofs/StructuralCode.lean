import PrimeLang.Proofs.Placement
import PrimeLang.Proofs.SegmentContents

/-! # Code by the structure of the tree

The code of each piece of a program as a list that is put together from the code of its parts. Places
come from a finished layout and jumps know their targets, because what lies in between has a known
length. -/

namespace PrimeLang.Code
open Machine

/-- What the code of a piece depends on: the names of the program, where everything lies, and the
frame that the code runs in. -/
structure Env where
  cx : Context
  layout : Layout
  /-- The static level of the code. -/
  level : Nat
  /-- Words of parameters in the frame. -/
  params : Int

namespace Env
variable (env : Env)

/-- The type of the variable that an expression stands for. -/
def typeAt (site : Site) : Ty :=
  ((env.cx.resolution.idents.get? site.id).bind (env.cx.nodes.vars[·]?)).elim default (·.ty)

/-- The place of the variable that an expression stands for. -/
def placeAt (site : Site) : Address :=
  ((env.cx.resolution.idents.get? site.id).bind env.layout.vars.get?).getD default

/-- The type of the result of the function that an expression calls. -/
def resultAt (site : Site) : Option Ty :=
  ((env.cx.resolution.calls.get? site.id).bind (env.cx.nodes.funcs[·]?)).elim none (·.ret)

/-- The place of the function that an expression calls. -/
def entryAt (site : Site) : Address :=
  ((env.cx.resolution.calls.get? site.id).bind env.layout.funcs.get?).getD default

/-- The register for the frames of a static level. -/
def register (level : Nat) : Register :=
  if level = 0 then .sb else (Register.display? (env.level - level)).getD .l6

/-- Moves `size` words from or to a place in a frame. -/
def access (op : Opcode) (size : Int) (a : Address) : Request :=
  ⟨op, size, env.register a.level, Generate.frameDisplacement env.params a⟩

/-- Loads or stores the variable that an expression stands for. -/
def moveAt (op : Opcode) (site : Site) : Request :=
  env.access op (env.typeAt site).size (env.placeAt site)

/-- Loads the address that is in the variable that an expression stands for. -/
def loadArrayAt (site : Site) : Request := env.access .load addressSize (env.placeAt site)

/-- Calls the function that an expression calls. -/
def callAt (site : Site) : Request :=
  ⟨.call, (env.register (env.entryAt site).level).number, .cb, (env.entryAt site).displacement⟩

end Env

/-- Calls a primitive routine. -/
def routine (r : Routine) : Request := ⟨.call, 0, .pb, r.displacement⟩

/-- Discards `size` words. -/
def pop (size : Int) : Request := ⟨.pop, 0, .cb, size⟩

/-- Combines the operands of a binary operator, or discards them. -/
def combine : Use → BinaryOp → Request
  | .value, op => routine op.routine
  | .effect, _ => pop (2 * integerSize)

/-- Discards the result of a call unless it is used. -/
def discard : Use → Option Ty → List Request
  | .effect, some ty => [pop ty.size]
  | _, _ => []

mutual

/-- Code for an expression. -/
def expr (env : Env) (use : Use) : Tree.Expr Site → List Request
  | .assign _ (.ident site _ []) value =>
    expr env .value value ++ [env.moveAt .store site] ++
      if use = .value then [env.moveAt .load site] else []
  | .assign _ (.ident site _ (index :: indices)) value =>
    expr env .value value ++
      (if use = .value then [⟨.load, integerSize, .st, -integerSize⟩] else []) ++
      [env.loadArrayAt site] ++ element env (index :: indices) ++
      [⟨.storeIndirect, integerSize, .cb, 0⟩]
  | .assign _ _ _ => []
  | .binary _ op lhs rhs =>
    expr env .value lhs ++ expr env .value rhs ++ [combine use op]
  | .ident site _ indices =>
    match use, indices with
    | .effect, indices => exprs env .effect indices
    | .value, [] => [env.moveAt .load site]
    | .value, index :: indices =>
      [env.loadArrayAt site] ++ element env (index :: indices) ++
        [⟨.loadIndirect, integerSize, .cb, 0⟩]
  | .literal _ value =>
    match use with
    | .value => [⟨.loadLiteral, 0, .cb, value.toInt⟩]
    | .effect => []
  | .call site _ args =>
    exprs env .value args ++ [env.callAt site] ++ discard use (env.resultAt site)

/-- Code for expressions in order, all for the same use. -/
def exprs (env : Env) (use : Use) : List (Tree.Expr Site) → List Request
  | [] => []
  | e :: es => expr env use e ++ exprs env use es

/-- Code that adds indices to the address on the stack. -/
def element (env : Env) : List (Tree.Expr Site) → List Request
  | [] => []
  | index :: indices => expr env .value index ++ [routine .add] ++ element env indices

end

theorem expr_literal (env : Env) (site : Site) (n : Int32) :
    expr env .value (.literal site n) = [⟨.loadLiteral, 0, .cb, n.toInt⟩] := by
  rw [expr]

/-- Code that gives a variable its first value. -/
def declare (env : Env) (v : Tree.Var) (init : Tree.Expr Site) : List Request :=
  expr env .value init ++
    [env.access .store v.ty.size ((env.layout.vars.get? v.id).getD default)]

/-- Jumps to the instruction numbered `target` if the word on top of the stack means false. -/
def jumpIfFalse (target : Nat) : Request := ⟨.jumpIf, falseWord, .cb, Segment.addressOf target⟩

def jump (target : Nat) : Request := ⟨.jump, 0, .cb, Segment.addressOf target⟩

/-- From the address `start` on the condition `c`, and `b` unless that is false. -/
def guarded (start : Nat) (c b : List Request) : List Request :=
  c ++ jumpIfFalse (start + c.length + 1 + b.length) :: b

theorem length_guarded (start : Nat) (c b : List Request) :
    (guarded start c b).length = c.length + 1 + b.length := by
  rw [guarded, List.length_append, List.length_cons]
  omega

theorem guarded_append_singleton (start : Nat) (c b o : List Request) (q : Request) :
    guarded start c (b ++ [q]) ++ o =
      (c ++ jumpIfFalse (start + c.length + 1 + (b.length + 1)) :: b) ++ q :: o := by
  simp [guarded]

/-- Leaves a function with `n` words. -/
def ret (env : Env) (n : Int) : Request := ⟨.ret, n, .cb, env.params⟩

mutual

/-- Code from the address `start` on for a statement. -/
def stmt (env : Env) (start : Nat) : Tree.Stmt → List Request
  | .decl v init => declare env v init
  | .ifThen cond body =>
    let c := expr env .value cond
    guarded start c (block env (start + c.length + 1) body)
  | .ifElse cond body orElse =>
    let c := expr env .value cond
    let b := block env (start + c.length + 1) body
    let other := start + c.length + 1 + (b.length + 1)
    let o := block env other orElse
    guarded start c (b ++ [jump (other + o.length)]) ++ o
  | .loop v init cond step body =>
    let i := declare env v init
    let head := start + i.length
    let c := expr env .value cond
    let b := block env (head + c.length + 1) body
    i ++ guarded head c (b ++ expr env .effect step ++ [jump head])
  | .ret none => [ret env 0]
  | .ret (some value) => expr env .value value ++ [ret env integerSize]
  | .eval e => expr env .effect e

/-- Code from the address `start` on for statements in order. -/
def block (env : Env) (start : Nat) : List Tree.Stmt → List Request
  | [] => []
  | s :: ss =>
    let c := stmt env start s
    c ++ block env (start + c.length) ss

end

/-- Code from the address `head` on for a loop without its declaration. -/
def loop (env : Env) (head : Nat) (cond step : Tree.Expr Site) (body : List Tree.Stmt) :
    List Request :=
  let c := expr env .value cond
  guarded head c (block env (head + c.length + 1) body ++ expr env .effect step ++ [jump head])

theorem stmt_loop (env : Env) (start : Nat) (v : Tree.Var) (init cond step : Tree.Expr Site)
    (body : List Tree.Stmt) :
    stmt env start (.loop v init cond step body) =
      declare env v init ++ loop env (start + (declare env v init).length) cond step body := by
  rw [stmt]
  rfl

/-- The environment of the body of a function that is declared at `level`. -/
def bodyEnv (cx : Context) (layout : Layout) (level : Nat) (f : Tree.Func) : Env :=
  ⟨cx, layout, level + 1, Tree.words f.params⟩

/-- Makes space for the variables of a block. -/
def space (body : List Tree.Stmt) : List Request :=
  if 0 < Tree.storage body then [⟨.push, 0, .cb, Tree.storage body⟩] else []

/-- Code from the address `start` on for a function that is left in the frame of `env`: space for its
locals, its body, and a return unless the body ends in one. -/
def funcBody (env : Env) (start : Nat) (f : Tree.Func) : List Request :=
  space f.body ++ block env (start + (space f.body).length) f.body ++
    if !f.endsInReturn then [ret env 0] else []

/-- Code from the address `start` on for a function that is declared at `level`. -/
def func (cx : Context) (layout : Layout) (level : Nat) (start : Nat) (f : Tree.Func) :
    List Request :=
  funcBody (bodyEnv cx layout level f) start f

/-- Code from the address `start` on for functions in order. -/
def funcs (cx : Context) (layout : Layout) (level : Nat) (start : Nat) :
    List Tree.Func → List Request
  | [] => []
  | f :: fs =>
    let c := func cx layout level start f
    c ++ funcs cx layout level (start + c.length) fs

/-- The places of functions whose code starts at the address `start`. -/
def entries (cx : Context) (layout : Layout) (level : Nat) (start : Nat) :
    List Tree.Func → List (FuncId × Address)
  | [] => []
  | f :: fs =>
    (f.id, ⟨level, Segment.addressOf start⟩) ::
      entries cx layout level (start + (func cx layout level start f).length) fs

/-- Code for a program: a jump to the entry function, the functions, and a halt, which is the entry
where there is no entry function. -/
def program (cx : Context) (layout : Layout) (fs : List Tree.Func) : List Request :=
  let c := funcs cx layout 0 1 fs
  let entry : Int :=
    match cx.nodes.entry?.bind layout.funcs.get? with
    | some a => a.displacement
    | none => Segment.addressOf (1 + c.length)
  ⟨.jump, 0, .cb, entry⟩ :: (c ++ [⟨.halt, 0, .cb, 0⟩])

end PrimeLang.Code
