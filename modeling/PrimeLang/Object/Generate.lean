import PrimeLang.Object.Generator

/-! # Code generation

Expressions leave their value on the stack, or nothing where only their effect is wanted. Jumps
forward are emitted with displacement zero and patched once their target is known. -/

namespace PrimeLang
open Machine

/-- The routine that computes a binary operator. -/
def BinaryOp.routine : BinaryOp → Routine
  | and => .and
  | or => .or
  | eq => .eq
  | ne => .ne
  | lt => .lt
  | le => .le
  | gt => .gt
  | ge => .ge
  | add => .add
  | sub => .sub
  | mul => .mult
  | div => .div
  | mod => .mod

/-- What an expression is evaluated for. -/
inductive Use where
  | value
  | effect
deriving DecidableEq, Repr, Inhabited

/-- What code generation knows of the program beside the tree at hand. -/
structure Context where
  nodes : Nodes
  resolution : Resolution
deriving Inhabited

namespace Generator

/-- The variable that an expression stands for, and its place. -/
def variableOf (g : Generator) (cx : Context) (site : Site) (name : String) :
    Except Unresolved (Var × Address) := do
  let some id := cx.resolution.idents.get? site.id | throw ⟨name⟩
  let some v := cx.nodes.vars[id]? | throw ⟨name⟩
  let some a := g.layout.vars.get? id | throw ⟨v.name⟩
  return (v, a)

/-- The type of the result, if there is one, and the place of the function that an expression
calls. -/
def calleeOf (g : Generator) (cx : Context) (site : Site) (name : String) :
    Except Unresolved (Option Ty × Address) := do
  let some id := cx.resolution.calls.get? site.id | throw ⟨name⟩
  let some f := cx.nodes.funcs[id]? | throw ⟨name⟩
  let some a := g.layout.funcs.get? id | throw ⟨name⟩
  return (f.ret, a)

end Generator

namespace Generate

mutual

/-- Code for an expression. -/
def expr (cx : Context) (use : Use) : Tree.Expr Site → Generate Unit
  | .assign _ (.ident site name []) value => do
    let (v, a) ← (← get).variableOf cx site name
    expr cx .value value
    store v.ty.size a
    if use = .value then load v.ty.size a
  | .assign _ (.ident site name (index :: indices)) value => do
    let (_, a) ← (← get).variableOf cx site name
    expr cx .value value
    if use = .value then emit .load integerSize .st (-integerSize)
    load addressSize a
    element cx (index :: indices)
    emit .storeIndirect integerSize .cb 0
  | .assign _ _ _ => throw ⟨"assignment target"⟩
  | .binary _ op lhs rhs => do
    expr cx .value lhs
    expr cx .value rhs
    match use with
    | .value => callRoutine op.routine
    | .effect => emit .pop 0 .cb (2 * integerSize)
  | .ident site name indices => do
    let (v, a) ← (← get).variableOf cx site name
    match use, indices with
    | .effect, indices => exprs cx .effect indices
    | .value, [] => load v.ty.size a
    | .value, index :: indices =>
      load addressSize a
      element cx (index :: indices)
      emit .loadIndirect integerSize .cb 0
  | .literal _ value =>
    match use with
    | .value => emit .loadLiteral 0 .cb value.toInt
    | .effect => return
  | .call site name args => do
    let (ret, a) ← (← get).calleeOf cx site name
    exprs cx .value args
    let link ← registerFor a.level
    emit .call link.number .cb a.displacement
    match use, ret with
    | .effect, some ty => emit .pop 0 .cb ty.size
    | _, _ => return

/-- Code for expressions in order, all for the same use. -/
def exprs (cx : Context) (use : Use) : List (Tree.Expr Site) → Generate Unit
  | [] => return
  | e :: es => do
    expr cx use e
    exprs cx use es

/-- Code that adds indices to the address on the stack. -/
def element (cx : Context) : List (Tree.Expr Site) → Generate Unit
  | [] => return
  | index :: indices => do
    expr cx .value index
    callRoutine .add
    element cx indices

end

theorem expr_literal (cx : Context) (site : Site) (n : Int32) :
    expr cx .value (.literal site n) = emit .loadLiteral 0 .cb n.toInt := by
  rw [expr]

/-- Gives a variable a place and returns the next free one. -/
def param (v : Tree.Var) (slot : Address) : Generate Address := do
  modify (Generator.placeVar v.id slot)
  return slot.offset v.ty.size

/-- Gives variables places from `slot` on and returns the next free one. -/
def params : List Tree.Var → Address → Generate Address
  | [], slot => return slot
  | v :: vs, slot => do
    let slot ← param v slot
    params vs slot

/-- Gives a variable a place and its first value there, and returns the next free place. -/
def declare (cx : Context) (v : Tree.Var) (init : Tree.Expr Site) (slot : Address) :
    Generate Address := do
  let next ← param v slot
  expr cx .value init
  store v.ty.size slot
  return next

/-- Emits a jump whose target is patched in later; `patchHere` does that. -/
def jumpIfFalse : Generate Nat := emitAt .jumpIf falseWord .cb 0

/-- Makes the jump numbered `k` lead to the next instruction. -/
def patchHere (k : Nat) : Generate Unit := do patch k (← here)

mutual

/-- Code for a statement whose variables take places from `slot` on. Returns the next free place. -/
def stmt (cx : Context) : Tree.Stmt → Address → Generate Address
  | .decl v init, slot => declare cx v init slot
  | .ifThen cond body, slot => do
    expr cx .value cond
    let exit ← jumpIfFalse
    let slot ← block cx body slot
    patchHere exit
    return slot
  | .ifElse cond body orElse, slot => do
    expr cx .value cond
    let exit ← jumpIfFalse
    let slot ← block cx body slot
    let skip ← emitAt .jump 0 .cb 0
    patchHere exit
    let slot ← block cx orElse slot
    patchHere skip
    return slot
  | .loop v init cond step body, slot => do
    let slot ← declare cx v init slot
    let head ← here
    expr cx .value cond
    let exit ← jumpIfFalse
    let slot ← block cx body slot
    expr cx .effect step
    emit .jump 0 .cb head
    patchHere exit
    return slot
  | .ret none, slot => do
    emit .ret 0 .cb (← get).params
    return slot
  | .ret (some value), slot => do
    expr cx .value value
    emit .ret integerSize .cb (← get).params
    return slot
  | .eval e, slot => do
    expr cx .effect e
    return slot

/-- Code for statements in order, each taking places after the ones before it. -/
def block (cx : Context) : List Tree.Stmt → Address → Generate Address
  | [], slot => return slot
  | s :: ss, slot => do
    let slot ← stmt cx s slot
    block cx ss slot

end

theorem stmt_eval (cx : Context) (e : Tree.Expr Site) (slot : Address) :
    stmt cx (.eval e) slot = (do
      expr cx .effect e
      return slot) := by
  rw [stmt]

/-- Code for a function that is declared in the frame at `frame`, which stays as it is. A body that
does not end in a `ret` gets one. -/
def func (cx : Context) (f : Tree.Func) (frame : Address) : Generate Address := do
  let entry ← here
  modify (Generator.placeFunc f.id ⟨frame.level, entry⟩)
  modify fun g => { g with level := g.level + 1 }
  let slot ← params f.params frame.nested
  modify fun g => { g with params := slot.displacement }
  let locals := Tree.storage f.body
  if 0 < locals then emit .push 0 .cb locals
  let _ ← block cx f.body slot
  if !f.endsInReturn then emit .ret 0 .cb (← get).params
  modify fun g => { g with level := g.level - 1 }
  return frame

/-- Code for functions in order. -/
def funcs (cx : Context) : List Tree.Func → Address → Generate Address
  | [], frame => return frame
  | f :: fs, frame => do
    let frame ← func cx f frame
    funcs cx fs frame

/-- Code for a program: a jump to the entry function, the functions, and a halt. -/
def program (cx : Context) (fs : List Tree.Func) (frame : Address) : Generate Address := do
  let entry ← emitAt .jump 0 .cb 0
  let frame ← funcs cx fs frame
  let main := cx.nodes.entry?.bind (← get).layout.funcs.get?
  if 0 < frame.displacement then emit .push 0 .cb frame.displacement
  let halt ← emitAt .halt 0 .cb 0
  match main with
  | some a => patch entry a.displacement
  | none =>
    warn .noEntry
    patch entry (Segment.addressOf halt)
  return frame

end Generate

/-- The object code of a program whose names are resolved. -/
def Program.generate (p : Program) (resolution : Resolution) : Except Unresolved Object :=
  let (result, g) := (Generate.program ⟨p.nodes, resolution⟩ p.funcs .origin).run.run .initial
  result.map fun _ => g.object

end PrimeLang
