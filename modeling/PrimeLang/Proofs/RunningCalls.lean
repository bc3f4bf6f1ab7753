import PrimeLang.Proofs.Evaluation
import PrimeLang.Proofs.Frames
import PrimeLang.Proofs.LoadedCode

/-! # Calls that run

A call of a function runs in a frame on the stack. Its state shows a store if the slots of the frame
hold the variables that are set there. For each kind of instruction that the code of a function
consists of, this module says to what point of the call it leads. -/

namespace PrimeLang
open Machine

/-- A program in the machine. -/
structure Image where
  m : Interpretation
  code : Array Instruction
  layout : Layout
  cx : Context
  funcs : List Tree.Func
  loaded : Loaded code layout cx funcs

namespace Image
variable (I : Image)

/-- What the program means if primitive routines do what they do in the machine. -/
def semantics : Semantics := ⟨I.funcs, I.cx.resolution, I.m.routine⟩

theorem operate_semantics (op : BinaryOp) : I.semantics.operate op = I.m.routine op.routine := by
  cases op <;> rfl

/-- Addresses of the code, and of what is right behind it, are numbers. -/
theorem addressOf_eq {k : Nat} (h : k ≤ I.code.size) : Segment.addressOf k = k :=
  Segment.addressOf_of_le_capacity (h.trans I.loaded.small)

/-- Every run from `P` comes to `Q`. -/
def Reaches (P Q : State → Prop) : Prop := ∀ s, P s → ∃ s', Q s' ∧ Runs I.m I.code s s'

theorem Reaches.refl (P : State → Prop) : I.Reaches P P := by
  intro s hs
  exact ⟨s, hs, .refl⟩

variable {I}

theorem Reaches.trans {P Q R : State → Prop} (h : I.Reaches P Q) (h' : I.Reaches Q R) :
    I.Reaches P R := by
  intro s hs
  obtain ⟨s', hs', hrun⟩ := h s hs
  obtain ⟨s'', hs'', hrun'⟩ := h' s' hs'
  exact ⟨s'', hs'', hrun.trans hrun'⟩

theorem runs_of_execute {q : Request} {a : Nat} (hcode : CodeAt I.code a [q]) {s s' : State}
    (hs : s.cp = a) (h : execute I.m q.op q.n q.r q.d s = some s') : Runs I.m I.code s s' :=
  .single ((hcode.step?_eq I.m hs).trans h)

variable (I)

/-- A call of a function. -/
structure Frame where
  func : Tree.Func
  mem : func ∈ I.funcs
  act : Activation
  params : act.params = func.params.length

namespace Frame
variable {I} (F : I.Frame)

/-- The environment that the code of the function was generated in. -/
def env : Code.Env := Code.bodyEnv I.cx I.layout 0 F.func

theorem env_params : F.env.params = F.act.params := by
  rw [F.params, ← Tree.words_eq_length]
  rfl

/-- The slots hold what the variables are set to. -/
structure Models (vars : VarId → Option Int) (slots : List Int) : Prop where
  length : slots.length = F.func.vars.length
  get : ∀ v w, vars v = some w →
    ∃ (i : Nat) (u : Tree.Var), F.func.vars[i]? = some u ∧ u.id = v ∧ slots[i]? = some w

/-- Before the instruction at `cp`, with the given store and operands of unfinished expressions. -/
def At (cp : Nat) (σ : Store) (operands : List Int) (s : State) : Prop :=
  ∃ slots, F.Models σ.vars slots ∧ s = F.act.state cp slots operands σ.heap

/-- Back in the caller, with a result in the place of the arguments. -/
def Left (result : List Int) (heap : Int → Option Int) (s : State) : Prop :=
  s = ⟨F.act.resume, F.act.callerBase, F.act.below ++ result, heap⟩

/-- After a statement whose code ends at `cp`. -/
def After (cp : Nat) (σ : Store) : Outcome → State → Prop
  | .normal => F.At cp σ []
  | .returned r => F.Left r.toList σ.heap

variable {F} {vars : VarId → Option Int} {slots : List Int}

theorem Models.params_le (h : F.Models vars slots) : F.act.params ≤ slots.length := by
  have hvars : F.func.vars.length = F.func.params.length + (Stmt.declsOf F.func.body).length :=
    List.length_append
  rw [h.length, F.params]
  omega

theorem Models.lt (h : F.Models vars slots) {i : Nat} {v : Tree.Var}
    (hv : F.func.vars[i]? = some v) : i < slots.length :=
  h.length ▸ (List.getElem?_eq_some_iff.1 hv).1

/-- A variable is set in its slot. -/
theorem Models.set {σ : Store} (h : F.Models σ.vars slots) {i : Nat} {v : Tree.Var}
    (hv : F.func.vars[i]? = some v) (w : Int) :
    F.Models (σ.setVar v.id w).vars (slots.set i w) where
  length := by rw [List.length_set, h.length]
  get := by
    intro u w' hu
    by_cases huv : u = v.id
    · have hw : w = w' := by simpa [Store.setVar, huv] using hu
      refine ⟨i, v, hv, huv.symm, ?_⟩
      rw [List.getElem?_set_self (h.lt hv), hw]
    · have hold : σ.vars u = some w' := by simpa [Store.setVar, huv] using hu
      obtain ⟨j, v', hv', hid, hj⟩ := h.get u w' hold
      have hij : i ≠ j := by
        rintro rfl
        rw [hv] at hv'
        cases hv'
        exact huv hid.symm
      exact ⟨j, v', hv', hid, (List.getElem?_set_ne hij).trans hj⟩

/-- Code that can be anywhere leads from one store and operands to others. -/
def Leads (F : I.Frame) (qs : List Request) (σ : Store) (operands : List Int) (σ' : Store)
    (operands' : List Int) : Prop :=
  ∀ a, CodeAt I.code a qs → I.Reaches (F.At a σ operands) (F.At (a + qs.length) σ' operands')

theorem Leads.nil (σ : Store) (ops : List Int) : F.Leads [] σ ops σ ops :=
  fun _ _ => .refl I _

theorem Leads.append {qs qs' : List Request} {σ σ₁ σ₂ : Store} {ops ops₁ ops₂ : List Int}
    (h : F.Leads qs σ ops σ₁ ops₁) (h' : F.Leads qs' σ₁ ops₁ σ₂ ops₂) :
    F.Leads (qs ++ qs') σ ops σ₂ ops₂ := by
  intro a hcode
  rw [List.length_append, ← Nat.add_assoc]
  exact (h a hcode.left).trans (h' _ hcode.right)

/-! ## Instructions -/

variable {a : Nat} {σ : Store} {ops : List Int}

theorem reaches_of_execute {q : Request} {P : State → Prop} (hcode : CodeAt I.code a [q])
    (h : ∀ slots, F.Models σ.vars slots →
      ∃ s', P s' ∧ execute I.m q.op q.n q.r q.d (F.act.state a slots ops σ.heap) = some s') :
    I.Reaches (F.At a σ ops) P := by
  rintro s ⟨slots, hslots, rfl⟩
  obtain ⟨s', hs', hexecute⟩ := h slots hslots
  exact ⟨s', hs', runs_of_execute hcode rfl hexecute⟩

/-- An instruction that does nothing to the slots. -/
theorem reaches_of_execute_same {q : Request} {a' : Nat} {ops' : List Int}
    {heap' : Int → Option Int} (hcode : CodeAt I.code a [q])
    (h : ∀ slots, execute I.m q.op q.n q.r q.d (F.act.state a slots ops σ.heap) =
      some (F.act.state a' slots ops' heap')) :
    I.Reaches (F.At a σ ops) (F.At a' { σ with heap := heap' } ops') := by
  apply reaches_of_execute hcode
  intro slots hslots
  exact ⟨_, ⟨slots, hslots, rfl⟩, h slots⟩

/-- Moves to and from a slot go through the frame's own register. -/
theorem access_slot (op : Opcode) (i : Nat) :
    F.env.access op 1 ⟨1, i⟩ =
      ⟨op, 1, .lb, Generate.frameDisplacement F.act.params ⟨1, i⟩⟩ := by
  rw [← F.env_params]
  rfl

theorem placeAt_eq {site : Site} {i : Nat} {v : Tree.Var} (hv : F.func.vars[i]? = some v)
    (hid : I.cx.resolution.idents.get? site.id = some v.id) : F.env.placeAt site = ⟨1, i⟩ := by
  show ((I.cx.resolution.idents.get? site.id).bind I.layout.vars.get?).getD default = _
  rw [hid, Option.bind_some, I.loaded.slot F.func F.mem i v hv, Option.getD_some]

theorem moveAt_eq (op : Opcode) (site : Site) :
    F.env.moveAt op site = F.env.access op 1 (F.env.placeAt site) := by
  rw [Code.Env.moveAt, Ty.size_eq_one]
  rfl

theorem leads_load {site : Site} {v : VarId} {w : Int}
    (hid : I.cx.resolution.idents.get? site.id = some v) (hw : σ.vars v = some w) :
    F.Leads [F.env.access .load 1 (F.env.placeAt site)] σ ops σ (ops ++ [w]) := by
  intro a hcode
  apply reaches_of_execute hcode
  intro slots hslots
  obtain ⟨i, u, hu, rfl, hslot⟩ := hslots.get v w hw
  refine ⟨_, ⟨slots, hslots, rfl⟩, ?_⟩
  rw [placeAt_eq hu hid, access_slot]
  exact Activation.execute_load_slot hslots.params_le hslot

theorem leads_store_slot {i : Nat} {v : Tree.Var} (hv : F.func.vars[i]? = some v) (w : Int) :
    F.Leads [F.env.access .store 1 ⟨1, i⟩] σ (ops ++ [w]) (σ.setVar v.id w) ops := by
  intro a hcode
  apply reaches_of_execute hcode
  intro slots hslots
  refine ⟨_, ⟨slots.set i w, hslots.set hv w, rfl⟩, ?_⟩
  rw [access_slot]
  exact Activation.execute_store_slot hslots.params_le (hslots.lt hv) w

theorem leads_store {site : Site} {v : Tree.Var} (hv : v ∈ F.func.vars)
    (hid : I.cx.resolution.idents.get? site.id = some v.id) (w : Int) :
    F.Leads [F.env.moveAt .store site] σ (ops ++ [w]) (σ.setVar v.id w) ops := by
  obtain ⟨i, hi⟩ := List.getElem?_of_mem hv
  rw [moveAt_eq, placeAt_eq hi hid]
  exact leads_store_slot hi w

/-- The first value of a variable. -/
theorem leads_store_decl {v : Tree.Var} (hv : v ∈ F.func.vars) (w : Int) :
    F.Leads [F.env.access .store v.ty.size ((F.env.layout.vars.get? v.id).getD default)] σ
      (ops ++ [w]) (σ.setVar v.id w) ops := by
  obtain ⟨i, hi⟩ := List.getElem?_of_mem hv
  have hplace : F.env.layout.vars.get? v.id = some ⟨1, i⟩ := I.loaded.slot F.func F.mem i v hi
  rw [hplace, Ty.size_eq_one]
  exact leads_store_slot hi w

theorem leads_literal (n : Int) (r : Register) (d : Int) :
    F.Leads [⟨.loadLiteral, n, r, d⟩] σ ops σ (ops ++ [d]) := by
  intro a hcode
  apply reaches_of_execute_same hcode
  intro slots
  exact Activation.execute_loadLiteral n r d

theorem leads_copy (w : Int) :
    F.Leads [⟨.load, integerSize, .st, -integerSize⟩] σ (ops ++ [w]) σ (ops ++ [w] ++ [w]) := by
  intro a hcode
  apply reaches_of_execute_same hcode
  intro slots
  exact Activation.execute_load_top w

theorem leads_routine (routine : Routine) (x y : Int) :
    F.Leads [Code.routine routine] σ (ops ++ [x] ++ [y]) σ (ops ++ [I.m.routine routine x y]) := by
  intro a hcode
  apply reaches_of_execute_same hcode
  intro slots
  exact Activation.execute_routine 0 routine x y

theorem leads_pop (ws : List Int) : F.Leads [Code.pop ws.length] σ (ops ++ ws) σ ops := by
  intro a hcode
  apply reaches_of_execute_same hcode
  intro slots
  exact Activation.execute_pop .cb ws

theorem leads_loadIndirect {address w : Int} (hw : σ.heap address = some w) :
    F.Leads [⟨.loadIndirect, integerSize, .cb, 0⟩] σ (ops ++ [address]) σ (ops ++ [w]) := by
  intro a hcode
  apply reaches_of_execute_same hcode
  intro slots
  exact Activation.execute_loadIndirect .cb 0 hw

theorem leads_storeIndirect {address : Int} (ha : (σ.heap address).isSome) (w : Int) :
    F.Leads [⟨.storeIndirect, integerSize, .cb, 0⟩] σ (ops ++ [w] ++ [address])
      (σ.setHeap address w) ops := by
  intro a hcode
  apply reaches_of_execute_same hcode
  intro slots
  exact Activation.execute_storeIndirect .cb 0 ha w

theorem reaches_jump {target : Nat} (htarget : target ≤ I.code.size)
    (hcode : CodeAt I.code a [Code.jump target]) :
    I.Reaches (F.At a σ ops) (F.At target σ ops) := by
  rw [Code.jump, I.addressOf_eq htarget] at hcode
  apply reaches_of_execute_same hcode
  intro slots
  exact Activation.execute_jump 0 target

theorem reaches_jumpIfFalse {target : Nat} {w : Int} (htarget : target ≤ I.code.size)
    (hcode : CodeAt I.code a [Code.jumpIfFalse target]) :
    I.Reaches (F.At a σ (ops ++ [w])) (F.At (if w = 0 then target else a + 1) σ ops) := by
  rw [Code.jumpIfFalse, I.addressOf_eq htarget] at hcode
  apply reaches_of_execute_same hcode
  intro slots
  exact Activation.execute_jumpIf falseWord target w

theorem reaches_ret {n : Int} (result : List Int) (hn : n = result.length)
    (hcode : CodeAt I.code a [Code.ret F.env n]) :
    I.Reaches (F.At a σ (ops ++ result)) (F.Left result σ.heap) := by
  apply reaches_of_execute hcode
  intro slots hslots
  refine ⟨_, rfl, ?_⟩
  rw [Code.ret, env_params, hn]
  exact Activation.execute_ret hslots.params_le .cb result

theorem reaches_leave (hcode : CodeAt I.code a [Code.ret F.env 0]) :
    I.Reaches (F.At a σ []) (F.Left [] σ.heap) := by
  have hret : I.Reaches (F.At a σ ([] ++ [])) (F.Left [] σ.heap) := reaches_ret [] rfl hcode
  exact hret

/-! ## Control -/

/-- After a condition the code goes on with what it guards, or after that. -/
theorem reaches_guarded {c b : List Request} {σ₁ : Store} {w : Int}
    (hcode : CodeAt I.code a (Code.guarded a c b)) (hc : F.Leads c σ [] σ₁ [w]) :
    I.Reaches (F.At a σ [])
      (F.At (if w = 0 then a + (Code.guarded a c b).length else a + c.length + 1) σ₁ []) := by
  have hend : a + (Code.guarded a c b).length = a + c.length + 1 + b.length := by
    rw [Code.length_guarded]
    omega
  have hjump : I.Reaches (F.At (a + c.length) σ₁ ([] ++ [w])) _ :=
    reaches_jumpIfFalse (hend ▸ hcode.end_le (by rw [Code.length_guarded]; omega)) hcode.right.head
  rw [hend]
  exact (hc a hcode.left).trans hjump

/-- A statement that does not leave the function can be followed by other code. -/
theorem After.trans {P : State → Prop} {a' : Nat} {out : Outcome}
    (h : I.Reaches P (F.After a σ out)) (h' : I.Reaches (F.At a σ []) (F.At a' σ [])) :
    I.Reaches P (F.After a' σ out) := by
  cases out with
  | normal => exact h.trans h'
  | returned r => exact h

end Frame
end Image
end PrimeLang
