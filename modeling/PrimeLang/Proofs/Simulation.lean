import PrimeLang.Proofs.Interpreter
import PrimeLang.Proofs.RunningCalls

/-! # Generated code does what programs mean

Wherever the semantics has a result, the code comes to it: the code of an expression leaves its value
above the operands that are there already, the code of a statement comes to its end or leaves the
function, and the code of a function returns what the call yields, with the stack below the
arguments as it was. There is one lemma for each rule of the semantics. -/

namespace PrimeLang
open Machine

/-- What the code of an expression leaves on the stack. -/
def Use.keep : Use → Option Int → List Int
  | .value, r => r.toList
  | .effect, _ => []

namespace Image
variable {I : Image}

namespace Frame
variable {F : I.Frame}

/-- The variables that are used are parameters and locals of the function. -/
def Owns (F : I.Frame) (us : List Event) : Prop :=
  ∀ site name, .ident site name ∈ us →
    ∃ v ∈ F.func.vars, I.cx.resolution.idents.get? site.id = some v.id

theorem Owns.left {us us' : List Event} (h : F.Owns (us ++ us')) : F.Owns us :=
  fun site name hu => h site name (List.mem_append_left _ hu)

theorem Owns.right {us us' : List Event} (h : F.Owns (us ++ us')) : F.Owns us' :=
  fun site name hu => h site name (List.mem_append_right _ hu)

theorem Owns.tail {u : Event} {us : List Event} (h : F.Owns (u :: us)) : F.Owns us :=
  fun site name hu => h site name (List.mem_cons_of_mem _ hu)

/-- Expressions use, and declarations declare, parameters and locals of the function. -/
structure Governs (F : I.Frame) (es : List (Tree.Expr Site)) (vs : List Tree.Var) : Prop where
  exprs : ∀ e ∈ es, F.Owns e.uses
  decls : ∀ v ∈ vs, v ∈ F.func.vars

theorem Governs.mono {es es' : List (Tree.Expr Site)} {vs vs' : List Tree.Var}
    (h : F.Governs es vs) (hes : es' ⊆ es) (hvs : vs' ⊆ vs) : F.Governs es' vs' :=
  ⟨fun e he => h.exprs e (hes he), fun v hv => h.decls v (hvs hv)⟩

theorem Governs.head {e : Tree.Expr Site} {es : List (Tree.Expr Site)} {vs : List Tree.Var}
    (h : F.Governs (e :: es) vs) : F.Owns e.uses := h.exprs e List.mem_cons_self

theorem Governs.tail {e : Tree.Expr Site} {es : List (Tree.Expr Site)} {vs : List Tree.Var}
    (h : F.Governs (e :: es) vs) : F.Governs es vs :=
  h.mono (List.subset_cons_self _ _) (List.Subset.refl _)

theorem governs_body (F : I.Frame) :
    F.Governs (Stmt.exprsOf F.func.body) (Stmt.declsOf F.func.body) where
  exprs := I.loaded.ident F.func F.mem
  decls _ hv := List.mem_append_right _ hv

end Frame

/-! ## Expressions -/

section
variable (I)

def Evaluates (σ : Store) (e : Tree.Expr Site) (r : Option Int) (σ' : Store) : Prop :=
  ∀ (F : I.Frame) (use : Use) (ops : List Int), F.Owns e.uses →
    F.Leads (Code.expr F.env use e) σ ops σ' (ops ++ use.keep r)

def EvaluatesAll (σ : Store) (es : List (Tree.Expr Site)) (ws : List Int) (σ' : Store) : Prop :=
  ∀ (F : I.Frame) (ops : List Int), F.Owns (Tree.Expr.usesAll es) →
    F.Leads (Code.exprs F.env .value es) σ ops σ' (ops ++ ws)

/-- Indices are added to an address, or evaluated for their effect if that is all that is wanted. -/
structure Indexes (σ : Store) (a : Int) (es : List (Tree.Expr Site)) (a' : Int) (σ' : Store) :
    Prop where
  element : ∀ (F : I.Frame) (ops : List Int), F.Owns (Tree.Expr.usesAll es) →
    F.Leads (Code.element F.env es) σ (ops ++ [a]) σ' (ops ++ [a'])
  effect : ∀ (F : I.Frame) (ops : List Int), F.Owns (Tree.Expr.usesAll es) →
    F.Leads (Code.exprs F.env .effect es) σ ops σ' ops

/-- A call, from the entry of the function to the return. -/
def Calls (f : Tree.Func) (args : List Int) (heap : Int → Option Int) (r : Option Int)
    (heap' : Int → Option Int) : Prop :=
  ∀ (act : Activation) (start : Nat), f ∈ I.funcs → act.params = args.length →
    I.layout.funcs.get? f.id = some ⟨0, start⟩ →
    Runs I.m I.code (act.state start args [] heap)
      ⟨act.resume, act.callerBase, act.below ++ r.toList, heap'⟩

end

variable {σ σ' σ₁ σ₂ : Store}

theorem Evaluates.of_uses {e : Tree.Expr Site} {r : Option Int}
    (hvalue : ∀ (F : I.Frame) (ops : List Int), F.Owns e.uses →
      F.Leads (Code.expr F.env .value e) σ ops σ' (ops ++ r.toList))
    (heffect : ∀ (F : I.Frame) (ops : List Int), F.Owns e.uses →
      F.Leads (Code.expr F.env .effect e) σ ops σ' ops) : I.Evaluates σ e r σ' := by
  intro F use ops hown
  cases use with
  | value => exact hvalue F ops hown
  | effect =>
    rw [Use.keep, List.append_nil]
    exact heffect F ops hown

/-- An expression that has a value leaves it. -/
theorem Evaluates.value {e : Tree.Expr Site} {w : Int} (h : I.Evaluates σ e (some w) σ')
    {F : I.Frame} (ops : List Int) (hown : F.Owns e.uses) :
    F.Leads (Code.expr F.env .value e) σ ops σ' (ops ++ [w]) := h F .value ops hown

theorem Evaluates.effect {e : Tree.Expr Site} {r : Option Int} (h : I.Evaluates σ e r σ')
    {F : I.Frame} (ops : List Int) (hown : F.Owns e.uses) :
    F.Leads (Code.expr F.env .effect e) σ ops σ' ops := by
  have heffect := h F .effect ops hown
  rwa [Use.keep, List.append_nil] at heffect

theorem evaluates_literal (σ : Store) (site : Site) (n : Int32) :
    I.Evaluates σ (.literal site n) (some n.toInt) σ := by
  apply Evaluates.of_uses
  · intro F ops _
    exact Frame.leads_literal 0 .cb n.toInt
  · intro F ops _
    exact .nil σ ops

theorem evaluates_var {site : Site} {v : VarId} {w : Int} (name : String)
    (hid : I.cx.resolution.idents.get? site.id = some v) (hw : σ.vars v = some w) :
    I.Evaluates σ (.ident site name []) (some w) σ := by
  apply Evaluates.of_uses
  · intro F ops _
    show F.Leads [F.env.moveAt .load site] σ ops σ (ops ++ [w])
    rw [Frame.moveAt_eq]
    exact Frame.leads_load hid hw
  · intro F ops _
    exact .nil σ ops

theorem evaluates_element {site : Site} {v : VarId} {a a' w : Int} {index : Tree.Expr Site}
    {indices : List (Tree.Expr Site)} (name : String)
    (hid : I.cx.resolution.idents.get? site.id = some v) (ha : σ.vars v = some a)
    (hindex : I.Indexes σ a (index :: indices) a' σ') (hw : σ'.heap a' = some w) :
    I.Evaluates σ (.ident site name (index :: indices)) (some w) σ' := by
  apply Evaluates.of_uses
  · intro F ops hown
    have haddress := (Frame.leads_load hid ha).append (hindex.element F ops hown.tail)
    exact haddress.append (Frame.leads_loadIndirect hw)
  · intro F ops hown
    exact hindex.effect F ops hown.tail

theorem leads_combine {F : I.Frame} (use : Use) (op : BinaryOp) (ops : List Int) (x y : Int) :
    F.Leads [Code.combine use op] σ (ops ++ [x] ++ [y]) σ
      (ops ++ use.keep (some (I.semantics.operate op x y))) := by
  cases use with
  | value =>
    rw [operate_semantics]
    exact Frame.leads_routine op.routine x y
  | effect =>
    rw [Use.keep, List.append_nil, List.append_assoc]
    exact Frame.leads_pop [x, y]

theorem evaluates_binary {lhs rhs : Tree.Expr Site} {x y : Int} (site : Site) (op : BinaryOp)
    (hlhs : I.Evaluates σ lhs (some x) σ₁) (hrhs : I.Evaluates σ₁ rhs (some y) σ₂) :
    I.Evaluates σ (.binary site op lhs rhs) (some (I.semantics.operate op x y)) σ₂ := by
  intro F use ops hown
  have hoperands := (hlhs.value ops hown.left).append (hrhs.value _ hown.right)
  exact hoperands.append (leads_combine use op ops x y)

theorem evaluates_assign {site : Site} {value : Tree.Expr Site} {v : VarId} {w : Int} (label : Site)
    (name : String) (hvalue : I.Evaluates σ value (some w) σ')
    (hid : I.cx.resolution.idents.get? site.id = some v) :
    I.Evaluates σ (.assign label (.ident site name []) value) (some w) (σ'.setVar v w) := by
  have hstored : ∀ (F : I.Frame) (ops : List Int),
      F.Owns (Tree.Expr.assign label (.ident site name []) value).uses →
      F.Leads (Code.expr F.env .value value ++ [F.env.moveAt .store site]) σ ops
        (σ'.setVar v w) ops := by
    intro F ops hown
    obtain ⟨u, hu, huid⟩ := hown site name List.mem_cons_self
    cases hid.symm.trans huid
    exact (hvalue.value ops hown.tail).append (Frame.leads_store hu hid w)
  apply Evaluates.of_uses
  · intro F ops hown
    refine (hstored F ops hown).append ?_
    show F.Leads [F.env.moveAt .load site] _ ops _ (ops ++ [w])
    rw [Frame.moveAt_eq]
    exact Frame.leads_load hid (if_pos rfl)
  · intro F ops hown
    exact (hstored F ops hown).append (.nil _ ops)

theorem evaluates_assignElement {site : Site} {value index : Tree.Expr Site}
    {indices : List (Tree.Expr Site)} {v : VarId} {w a a' : Int} (label : Site) (name : String)
    (hvalue : I.Evaluates σ value (some w) σ₁)
    (hid : I.cx.resolution.idents.get? site.id = some v) (ha : σ₁.vars v = some a)
    (hindex : I.Indexes σ₁ a (index :: indices) a' σ₂) (ha' : (σ₂.heap a').isSome) :
    I.Evaluates σ (.assign label (.ident site name (index :: indices)) value) (some w)
      (σ₂.setHeap a' w) := by
  -- the value is on top, under it a copy if the assignment itself is used
  have hstored : ∀ (F : I.Frame) (qs : List Request) (ops ops' : List Int),
      F.Owns (Tree.Expr.usesAll (index :: indices)) → F.Leads qs σ ops σ₁ (ops' ++ [w]) →
      F.Leads (qs ++ [F.env.loadArrayAt site] ++ Code.element F.env (index :: indices) ++
        [⟨.storeIndirect, integerSize, .cb, 0⟩]) σ ops (σ₂.setHeap a' w) ops' := by
    intro F qs ops ops' hown hqs
    have haddress := (hqs.append (Frame.leads_load hid ha)).append (hindex.element F _ hown)
    exact haddress.append (Frame.leads_storeIndirect ha' w)
  apply Evaluates.of_uses
  · intro F ops hown
    apply hstored F _ ops (ops ++ [w]) hown.left.tail
    exact (hvalue.value ops hown.right).append (Frame.leads_copy w)
  · intro F ops hown
    apply hstored F _ ops ops hown.left.tail
    exact (hvalue.value ops hown.right).append (.nil _ _)

/-! ### Calls -/

theorem resultAt_eq {F : I.Frame} {site : Site} {f : Tree.Func} (hf : f ∈ I.funcs)
    (hid : I.cx.resolution.calls.get? site.id = some f.id) : F.env.resultAt site = f.ret := by
  obtain ⟨node, hnode, hret⟩ := I.loaded.result f hf
  show ((I.cx.resolution.calls.get? site.id).bind (I.cx.nodes.funcs[·]?)).elim none (·.ret) = _
  rw [hid, Option.bind_some, hnode]
  exact hret

theorem callAt_eq {F : I.Frame} {site : Site} {f : Tree.Func} {start : Nat}
    (hid : I.cx.resolution.calls.get? site.id = some f.id)
    (hstart : I.layout.funcs.get? f.id = some ⟨0, start⟩) :
    F.env.callAt site = ⟨.call, Register.number .sb, .cb, start⟩ := by
  have hentry : F.env.entryAt site = ⟨0, start⟩ := by
    show ((I.cx.resolution.calls.get? site.id).bind I.layout.funcs.get?).getD default = _
    rw [hid, Option.bind_some, hstart, Option.getD_some]
  rw [Code.Env.callAt, hentry]
  rfl

/-- A call leaves what is below its arguments alone. -/
theorem leads_call {F : I.Frame} {site : Site} {f : Tree.Func} {ws ops : List Int} {r : Option Int}
    {heap' : Int → Option Int} (hf : f ∈ I.funcs)
    (hid : I.cx.resolution.calls.get? site.id = some f.id)
    (hcall : I.Calls f ws σ.heap r heap') :
    F.Leads [F.env.callAt site] σ (ops ++ ws) { σ with heap := heap' } (ops ++ r.toList) := by
  obtain ⟨start, hstart, -⟩ := I.loaded.entry f hf
  intro a hcode
  rw [callAt_eq hid hstart] at hcode
  rintro s ⟨slots, hslots, rfl⟩
  refine ⟨_, ⟨slots, hslots, rfl⟩, ?_⟩
  have henter : execute I.m .call (Register.number .sb) .cb start
      ⟨a, F.act.base, F.act.stack slots ops ++ ws, σ.heap⟩ = _ := execute_call I.m
  rw [← Activation.stack_append] at henter
  have hreturn := hcall ⟨F.act.stack slots ops, ws.length, 0, F.act.base, a + 1⟩ start hf rfl hstart
  rw [← Activation.stack_append] at hreturn
  exact (runs_of_execute hcode rfl henter).trans hreturn

theorem leads_discard {F : I.Frame} (use : Use) {ret : Option Ty} {r : Option Int} (ops : List Int)
    (hret : ret.isSome = r.isSome) :
    F.Leads (Code.discard use ret) σ (ops ++ r.toList) σ (ops ++ use.keep r) := by
  cases use with
  | value => exact .nil σ _
  | effect =>
    rw [Use.keep, List.append_nil]
    cases ret with
    | none =>
      cases r with
      | none =>
        rw [Option.toList_none, List.append_nil]
        exact .nil σ ops
      | some w => exact nomatch hret
    | some ty =>
      cases r with
      | none => exact nomatch hret
      | some w =>
        rw [Code.discard, Ty.size_eq_one]
        exact Frame.leads_pop [w]

theorem evaluates_call {site : Site} {args : List (Tree.Expr Site)} {f : Tree.Func} {ws : List Int}
    {r : Option Int} {heap' : Int → Option Int} (name : String)
    (hargs : I.EvaluatesAll σ args ws σ')
    (hid : I.cx.resolution.calls.get? site.id = some f.id) (hf : f ∈ I.funcs)
    (hcall : I.Calls f ws σ'.heap r heap') (hret : f.ret.isSome = r.isSome) :
    I.Evaluates σ (.call site name args) r { σ' with heap := heap' } := by
  intro F use ops hown
  have hcalled := (hargs F ops hown.tail).append (leads_call hf hid hcall)
  refine hcalled.append ?_
  rw [resultAt_eq hf hid]
  exact leads_discard use ops hret

theorem evaluatesAll_nil (σ : Store) : I.EvaluatesAll σ [] [] σ := by
  intro F ops _
  rw [List.append_nil]
  exact .nil σ ops

theorem evaluatesAll_cons {e : Tree.Expr Site} {es : List (Tree.Expr Site)} {w : Int}
    {ws : List Int} (he : I.Evaluates σ e (some w) σ₁) (hes : I.EvaluatesAll σ₁ es ws σ₂) :
    I.EvaluatesAll σ (e :: es) (w :: ws) σ₂ := by
  intro F ops hown
  have hall := (he.value ops hown.left).append (hes F (ops ++ [w]) hown.right)
  rwa [List.append_assoc] at hall

theorem indexes_nil (σ : Store) (a : Int) : I.Indexes σ a [] a σ where
  element _ _ _ := .nil σ _
  effect _ ops _ := .nil σ ops

theorem indexes_cons {e : Tree.Expr Site} {es : List (Tree.Expr Site)} {a i a' : Int}
    (he : I.Evaluates σ e (some i) σ₁) (hes : I.Indexes σ₁ (I.semantics.operate .add a i) es a' σ₂) :
    I.Indexes σ a (e :: es) a' σ₂ where
  element F ops hown := by
    have hadded := (he.value (ops ++ [a]) hown.left).append (Frame.leads_routine .add a i)
    exact hadded.append (hes.element F ops hown.right)
  effect F ops hown := (he.effect ops hown.left).append (hes.effect F ops hown.right)

/-! ## Statements -/

section
variable (I)

def Executes (σ : Store) (s : Tree.Stmt) (out : Outcome) (σ' : Store) : Prop :=
  ∀ (F : I.Frame) (a : Nat), F.Governs s.exprs s.decls → CodeAt I.code a (Code.stmt F.env a s) →
    I.Reaches (F.At a σ []) (F.After (a + (Code.stmt F.env a s).length) σ' out)

def ExecutesBlock (σ : Store) (ss : List Tree.Stmt) (out : Outcome) (σ' : Store) : Prop :=
  ∀ (F : I.Frame) (a : Nat), F.Governs (Stmt.exprsOf ss) (Stmt.declsOf ss) →
    CodeAt I.code a (Code.block F.env a ss) →
    I.Reaches (F.At a σ []) (F.After (a + (Code.block F.env a ss).length) σ' out)

def Loops (σ : Store) (cond step : Tree.Expr Site) (body : List Tree.Stmt) (out : Outcome)
    (σ' : Store) : Prop :=
  ∀ (F : I.Frame) (head : Nat),
    F.Governs (cond :: step :: Stmt.exprsOf body) (Stmt.declsOf body) →
    CodeAt I.code head (Code.loop F.env head cond step body) →
    I.Reaches (F.At head σ []) (F.After (head + (Code.loop F.env head cond step body).length) σ' out)

end

variable {cond step : Tree.Expr Site} {body orElse : List Tree.Stmt} {w : Int} {out : Outcome}

theorem leads_declare {F : I.Frame} {v : Tree.Var} {init : Tree.Expr Site} (hv : v ∈ F.func.vars)
    (hown : F.Owns init.uses) (hinit : I.Evaluates σ init (some w) σ') :
    F.Leads (Code.declare F.env v init) σ [] (σ'.setVar v.id w) [] :=
  (hinit.value [] hown).append (Frame.leads_store_decl hv w)

theorem executes_decl {init : Tree.Expr Site} (v : Tree.Var)
    (hinit : I.Evaluates σ init (some w) σ') :
    I.Executes σ (.decl v init) .normal (σ'.setVar v.id w) := by
  intro F a hgov hcode
  have hv := hgov.decls v List.mem_cons_self
  exact leads_declare hv hgov.head hinit a hcode

/-- A condition that holds leads to what it guards. -/
theorem Evaluates.reaches_guarded_of_ne {F : I.Frame} {a : Nat} {b : List Request}
    (h : I.Evaluates σ cond (some w) σ') (hw : w ≠ 0) (hown : F.Owns cond.uses)
    (hcode : CodeAt I.code a (Code.guarded a (Code.expr F.env .value cond) b)) :
    I.Reaches (F.At a σ []) (F.At (a + (Code.expr F.env .value cond).length + 1) σ' []) := by
  have hguard := Frame.reaches_guarded hcode (h.value [] hown)
  rwa [if_neg hw] at hguard

/-- A condition that does not hold leads past what it guards. -/
theorem Evaluates.reaches_guarded_of_zero {F : I.Frame} {a : Nat} {b : List Request}
    (h : I.Evaluates σ cond (some 0) σ') (hown : F.Owns cond.uses)
    (hcode : CodeAt I.code a (Code.guarded a (Code.expr F.env .value cond) b)) :
    I.Reaches (F.At a σ [])
      (F.At (a + (Code.guarded a (Code.expr F.env .value cond) b).length) σ' []) := by
  have hguard := Frame.reaches_guarded hcode (h.value [] hown)
  rwa [if_pos rfl] at hguard

theorem executes_ifTrue (hcond : I.Evaluates σ cond (some w) σ₁) (hw : w ≠ 0)
    (hbody : I.ExecutesBlock σ₁ body out σ₂) : I.Executes σ (.ifThen cond body) out σ₂ := by
  intro F a hgov hcode
  have hlen : a + (Code.stmt F.env a (.ifThen cond body)).length =
      a + (Code.expr F.env .value cond).length + 1 +
        (Code.block F.env (a + (Code.expr F.env .value cond).length + 1) body).length := by
    rw [Code.stmt, Code.length_guarded]
    omega
  rw [hlen]
  refine (hcond.reaches_guarded_of_ne hw hgov.head hcode).trans ?_
  exact hbody F _ hgov.tail hcode.right.tail

theorem executes_ifFalse (body : List Tree.Stmt) (hcond : I.Evaluates σ cond (some 0) σ') :
    I.Executes σ (.ifThen cond body) .normal σ' := by
  intro F a hgov hcode
  exact hcond.reaches_guarded_of_zero hgov.head hcode

/-- Where the code of the second alternative begins. -/
theorem length_alternative (a : Nat) (c b o : List Request) (q : Request) :
    a + (Code.guarded a c (b ++ [q]) ++ o).length =
      a + c.length + 1 + (b.length + 1) + o.length := by
  rw [List.length_append, Code.length_guarded, List.length_append, List.length_singleton]
  omega

theorem executes_thenTrue (orElse : List Tree.Stmt) (hcond : I.Evaluates σ cond (some w) σ₁)
    (hw : w ≠ 0) (hbody : I.ExecutesBlock σ₁ body out σ₂) :
    I.Executes σ (.ifElse cond body orElse) out σ₂ := by
  intro F a hgov hcode
  have hinside : F.Governs (Stmt.exprsOf body) (Stmt.declsOf body) :=
    hgov.tail.mono (List.subset_append_left _ _) (List.subset_append_left _ _)
  rw [Code.stmt] at hcode ⊢
  have hend := hcode.end_le (by rw [List.length_append, Code.length_guarded]; omega)
  rw [length_alternative] at hend ⊢
  have hguarded := hcode.left
  have hblock := (hcond.reaches_guarded_of_ne hw hgov.head hguarded).trans
    (hbody F _ hinside hguarded.right.tail.left)
  -- after the first alternative the code skips the second one
  exact Frame.After.trans hblock (Frame.reaches_jump hend hguarded.right.tail.right)

theorem executes_elseFalse (body : List Tree.Stmt) (hcond : I.Evaluates σ cond (some 0) σ₁)
    (horElse : I.ExecutesBlock σ₁ orElse out σ₂) :
    I.Executes σ (.ifElse cond body orElse) out σ₂ := by
  intro F a hgov hcode
  have hinside : F.Governs (Stmt.exprsOf orElse) (Stmt.declsOf orElse) :=
    hgov.tail.mono (List.subset_append_right _ _) (List.subset_append_right _ _)
  rw [Code.stmt] at hcode ⊢
  rw [length_alternative]
  have hskip := hcond.reaches_guarded_of_zero hgov.head hcode.left
  have hother := hcode.right
  rw [Code.length_guarded, List.length_append, List.length_singleton, ← Nat.add_assoc,
    ← Nat.add_assoc] at hskip hother
  exact hskip.trans (horElse F _ hinside hother)

theorem executes_loop {v : Tree.Var} {init : Tree.Expr Site}
    (hinit : I.Evaluates σ init (some w) σ₁)
    (hloop : I.Loops (σ₁.setVar v.id w) cond step body out σ₂) :
    I.Executes σ (.loop v init cond step body) out σ₂ := by
  intro F a hgov hcode
  have hv := hgov.decls v List.mem_cons_self
  have hinside : F.Governs (cond :: step :: Stmt.exprsOf body) (Stmt.declsOf body) :=
    hgov.tail.mono (List.Subset.refl _) (List.subset_cons_self _ _)
  rw [Code.stmt_loop] at hcode ⊢
  rw [List.length_append, ← Nat.add_assoc]
  refine (leads_declare hv hgov.head hinit a hcode.left).trans ?_
  exact hloop F _ hinside hcode.right

theorem executes_leave (σ : Store) : I.Executes σ (.ret none) (.returned none) σ := by
  intro F a _ hcode
  exact Frame.reaches_leave hcode

theorem executes_ret {e : Tree.Expr Site} (he : I.Evaluates σ e (some w) σ') :
    I.Executes σ (.ret (some e)) (.returned (some w)) σ' := by
  intro F a hgov hcode
  have hvalue := he.value [] hgov.head a hcode.left
  exact hvalue.trans (Frame.reaches_ret [w] rfl hcode.right)

theorem executes_eval {e : Tree.Expr Site} {r : Option Int} (he : I.Evaluates σ e r σ') :
    I.Executes σ (.eval e) .normal σ' := by
  intro F a hgov hcode
  exact he.effect [] hgov.head a hcode

/-! ### Blocks -/

theorem executesBlock_nil (σ : Store) : I.ExecutesBlock σ [] .normal σ := by
  intro F a _ _
  exact .refl I _

theorem Frame.Governs.first {F : I.Frame} {s : Tree.Stmt} {ss : List Tree.Stmt}
    (h : F.Governs (Stmt.exprsOf (s :: ss)) (Stmt.declsOf (s :: ss))) :
    F.Governs s.exprs s.decls :=
  h.mono (List.subset_append_left _ _) (List.subset_append_left _ _)

theorem Frame.Governs.rest {F : I.Frame} {s : Tree.Stmt} {ss : List Tree.Stmt}
    (h : F.Governs (Stmt.exprsOf (s :: ss)) (Stmt.declsOf (s :: ss))) :
    F.Governs (Stmt.exprsOf ss) (Stmt.declsOf ss) :=
  h.mono (List.subset_append_right _ _) (List.subset_append_right _ _)

theorem executesBlock_cons {s : Tree.Stmt} {ss : List Tree.Stmt}
    (hs : I.Executes σ s .normal σ₁) (hss : I.ExecutesBlock σ₁ ss out σ₂) :
    I.ExecutesBlock σ (s :: ss) out σ₂ := by
  intro F a hgov hcode
  rw [Code.block] at hcode ⊢
  rw [List.length_append, ← Nat.add_assoc]
  exact (hs F a hgov.first hcode.left).trans (hss F _ hgov.rest hcode.right)

theorem executesBlock_leave {s : Tree.Stmt} {r : Option Int} (ss : List Tree.Stmt)
    (hs : I.Executes σ s (.returned r) σ') : I.ExecutesBlock σ (s :: ss) (.returned r) σ' := by
  intro F a hgov hcode
  rw [Code.block] at hcode
  exact hs F a hgov.first hcode.left

/-! ### Loops -/

theorem loops_done (step : Tree.Expr Site) (body : List Tree.Stmt)
    (hcond : I.Evaluates σ cond (some 0) σ') : I.Loops σ cond step body .normal σ' := by
  intro F head hgov hcode
  exact hcond.reaches_guarded_of_zero hgov.head hcode

theorem loops_leave {r : Option Int} (step : Tree.Expr Site)
    (hcond : I.Evaluates σ cond (some w) σ₁) (hw : w ≠ 0)
    (hbody : I.ExecutesBlock σ₁ body (.returned r) σ₂) :
    I.Loops σ cond step body (.returned r) σ₂ := by
  intro F head hgov hcode
  refine (hcond.reaches_guarded_of_ne hw hgov.head hcode).trans ?_
  exact hbody F _ hgov.tail.tail hcode.right.tail.left.left

/-- One round of a loop leads back to its head. -/
theorem loops_next {σ₃ σ₄ : Store} {r : Option Int} (hcond : I.Evaluates σ cond (some w) σ₁)
    (hw : w ≠ 0) (hbody : I.ExecutesBlock σ₁ body .normal σ₂) (hstep : I.Evaluates σ₂ step r σ₃)
    (hrest : I.Loops σ₃ cond step body out σ₄) : I.Loops σ cond step body out σ₄ := by
  intro F head hgov hcode
  have hstepOwn : F.Owns step.uses := hgov.tail.head
  have hround := hcode.right.tail
  have hblock := (hcond.reaches_guarded_of_ne hw hgov.head hcode).trans
    (hbody F _ hgov.tail.tail hround.left.left)
  have hstepped := hblock.trans (hstep.effect [] hstepOwn _ hround.left.right)
  have hjump := hround.right
  rw [List.length_append, ← Nat.add_assoc] at hjump
  have hend := hjump.end_le Nat.one_pos
  exact (hstepped.trans (Frame.reaches_jump (by omega) hjump)).trans (hrest F head hgov hcode)

/-! ## Functions -/

/-- Arguments are in the first slots. -/
theorem Frame.models_ofArgs {F : I.Frame} {args locals : List Int} {heap : Int → Option Int}
    (hargs : args.length = F.func.params.length)
    (hlocals : locals.length = (Stmt.declsOf F.func.body).length) :
    F.Models (Store.ofArgs F.func.params args heap).vars (args ++ locals) where
  length := by rw [List.length_append, hargs, hlocals, Func.vars, List.length_append]
  get := by
    intro v w hv
    obtain ⟨before, after, hzip, -⟩ := List.lookup_eq_some_iff.1 hv
    have hmem : (v, w) ∈ (F.func.params.map (·.id)).zip args := by
      rw [hzip]
      exact List.mem_append_right _ List.mem_cons_self
    obtain ⟨i, hi⟩ := List.getElem?_of_mem hmem
    obtain ⟨hid, harg⟩ := List.getElem?_zip_eq_some.1 hi
    rw [List.getElem?_map] at hid
    obtain ⟨u, hu, huid⟩ := Option.map_eq_some_iff.1 hid
    have hparam : i < F.func.params.length := (List.getElem?_eq_some_iff.1 hu).1
    refine ⟨i, u, ?_, huid, ?_⟩
    · exact (List.getElem?_append_left hparam).trans hu
    · exact (List.getElem?_append_left (hargs ▸ hparam)).trans harg

/-- A function first makes space for its locals. -/
theorem Frame.exists_entered (F : I.Frame) {start : Nat} {args : List Int} (heap : Int → Option Int)
    (hargs : args.length = F.func.params.length)
    (hcode : CodeAt I.code start (Code.space F.func.body)) :
    ∃ s, F.At (start + (Code.space F.func.body).length) (.ofArgs F.func.params args heap) [] s ∧
      Runs I.m I.code (F.act.state start args [] heap) s := by
  have hparams : args.length = F.act.params := hargs.trans F.params.symm
  have hwords : Tree.storage F.func.body = (Stmt.declsOf F.func.body).length :=
    Tree.words_eq_length _
  unfold Code.space at hcode ⊢
  by_cases hpos : 0 < Tree.storage F.func.body
  · rw [if_pos hpos] at hcode ⊢
    obtain ⟨locals, hlocals, hpush⟩ : ∃ locals : List Int,
        locals.length = Tree.storage F.func.body ∧
          execute I.m .push 0 .cb (Tree.storage F.func.body) (F.act.state start args [] heap) =
            some (F.act.state (start + 1) (args ++ locals) [] heap) :=
      Activation.exists_execute_push 0 .cb _ hparams
    refine ⟨_, ⟨args ++ locals, Frame.models_ofArgs hargs (hlocals.trans hwords), rfl⟩, ?_⟩
    exact runs_of_execute hcode rfl hpush
  · rw [if_neg hpos]
    have hlocals : ([] : List Int).length = (Stmt.declsOf F.func.body).length := by
      rw [← hwords, List.length_nil]
      omega
    refine ⟨_, ⟨args ++ [], Frame.models_ofArgs hargs hlocals, rfl⟩, ?_⟩
    rw [List.append_nil]
    exact .refl

end Image

theorem Outcome.Yields.isSome_eq {ret : Option Ty} {out : Outcome} {r : Option Int}
    (h : out.Yields ret r) : ret.isSome = r.isSome := by
  cases h <;> rfl

/-- A block that comes to its end does not end in a return. -/
theorem Semantics.ExecBlock.isReturn_getLast? {S : Semantics} {σ σ' : Store} {ss : List Tree.Stmt}
    (h : S.ExecBlock σ ss .normal σ') : ss.getLast?.any Stmt.isReturn = false := by
  induction ss generalizing σ with
  | nil => rfl
  | cons s ss ih =>
    cases h with
    | cons hs hss =>
      cases ss with
      | nil => cases hs <;> rfl
      | cons t ts =>
        rw [List.getLast?_cons_cons]
        exact ih hss

namespace Image
variable {I : Image}

/-- A call of a function does what its body does. -/
theorem calls_of_executesBlock {f : Tree.Func} {args : List Int} {heap : Int → Option Int}
    {out : Outcome} {r : Option Int} {σ' : Store} (hargs : args.length = f.params.length)
    (hbody : I.ExecutesBlock (.ofArgs f.params args heap) f.body out σ')
    (hend : out = .normal → f.endsInReturn = false) (hyields : out.Yields f.ret r) :
    I.Calls f args heap r σ'.heap := by
  intro act start hf hparams hstart
  let F : I.Frame := ⟨f, hf, act, hparams.trans hargs⟩
  obtain ⟨start', hstart', hcode⟩ := I.loaded.entry f hf
  rw [hstart] at hstart'
  cases hstart'
  have hcode : CodeAt I.code start (Code.funcBody F.env start f) := hcode
  rw [Code.funcBody] at hcode
  obtain ⟨s, hs, hentered⟩ := F.exists_entered heap hargs hcode.left.left
  have hran := hbody F _ F.governs_body hcode.left.right
  have hleft : I.Reaches (F.At (start + (Code.space f.body).length)
      (.ofArgs f.params args heap) []) (F.Left r.toList σ'.heap) := by
    generalize f.ret = ret at hyields
    cases hyields with
    | value ty w => exact hran
    | leave => exact hran
    | finish =>
      have hret := hcode.right
      rw [hend rfl, List.length_append, ← Nat.add_assoc] at hret
      exact hran.trans (Frame.reaches_leave hret)
  obtain ⟨s', rfl, hrun⟩ := hleft s hs
  exact hentered.trans hrun

/-! ## The whole semantics -/

theorem isSome_eq_of_call {f : Tree.Func} {args : List Int} {heap heap' : Int → Option Int}
    {r : Option Int} (h : I.semantics.Call f args heap r heap') : f.ret.isSome = r.isSome := by
  cases h with
  | mk _ _ hyields => exact hyields.isSome_eq

mutual

theorem evaluates {σ σ' : Store} {e : Tree.Expr Site} {r : Option Int} :
    I.semantics.Eval σ e r σ' → I.Evaluates σ e r σ'
  | .literal => evaluates_literal σ _ _
  | .var hid hw => evaluates_var _ hid hw
  | .element hid ha hindex hw => evaluates_element _ hid ha (indexes hindex) hw
  | .binary hlhs hrhs => evaluates_binary _ _ (evaluates hlhs) (evaluates hrhs)
  | .assign hvalue hid => evaluates_assign _ _ (evaluates hvalue) hid
  | .assignElement hvalue hid ha hindex ha' =>
    evaluates_assignElement _ _ (evaluates hvalue) hid ha (indexes hindex) ha'
  | .call hargs hid hf hcall =>
    evaluates_call _ (evaluatesAll hargs) hid hf (calls hcall) (isSome_eq_of_call hcall)

theorem evaluatesAll {σ σ' : Store} {es : List (Tree.Expr Site)} {ws : List Int} :
    I.semantics.Evals σ es ws σ' → I.EvaluatesAll σ es ws σ'
  | .nil => evaluatesAll_nil σ
  | .cons he hes => evaluatesAll_cons (evaluates he) (evaluatesAll hes)

theorem indexes {σ σ' : Store} {a a' : Int} {es : List (Tree.Expr Site)} :
    I.semantics.Index σ a es a' σ' → I.Indexes σ a es a' σ'
  | .nil => indexes_nil σ a
  | .cons he hes => indexes_cons (evaluates he) (indexes hes)

theorem executes {σ σ' : Store} {s : Tree.Stmt} {out : Outcome} :
    I.semantics.Exec σ s out σ' → I.Executes σ s out σ'
  | .decl hinit => executes_decl _ (evaluates hinit)
  | .ifTrue hcond hw hbody => executes_ifTrue (evaluates hcond) hw (executesBlock hbody)
  | .ifFalse hcond => executes_ifFalse _ (evaluates hcond)
  | .thenTrue hcond hw hbody => executes_thenTrue _ (evaluates hcond) hw (executesBlock hbody)
  | .elseFalse hcond horElse => executes_elseFalse _ (evaluates hcond) (executesBlock horElse)
  | .loop hinit hloop => executes_loop (evaluates hinit) (loops hloop)
  | .leave => executes_leave σ
  | .ret he => executes_ret (evaluates he)
  | .eval he => executes_eval (evaluates he)

theorem executesBlock {σ σ' : Store} {ss : List Tree.Stmt} {out : Outcome} :
    I.semantics.ExecBlock σ ss out σ' → I.ExecutesBlock σ ss out σ'
  | .nil => executesBlock_nil σ
  | .cons hs hss => executesBlock_cons (executes hs) (executesBlock hss)
  | .leave hs => executesBlock_leave _ (executes hs)

theorem loops {σ σ' : Store} {cond step : Tree.Expr Site} {body : List Tree.Stmt} {out : Outcome} :
    I.semantics.Loop σ cond step body out σ' → I.Loops σ cond step body out σ'
  | .done hcond => loops_done _ _ (evaluates hcond)
  | .next hcond hw hbody hstep hrest =>
    loops_next (evaluates hcond) hw (executesBlock hbody) (evaluates hstep) (loops hrest)
  | .leave hcond hw hbody => loops_leave _ (evaluates hcond) hw (executesBlock hbody)

theorem calls {f : Tree.Func} {args : List Int} {heap heap' : Int → Option Int} {r : Option Int} :
    I.semantics.Call f args heap r heap' → I.Calls f args heap r heap'
  | .mk hargs hbody hyields =>
    calls_of_executesBlock hargs (executesBlock hbody)
      (fun hout => (hout ▸ hbody).isReturn_getLast?) hyields

end

/-- From the first instruction of the program the entry function is called. -/
theorem runs_main {f : Tree.Func} {start : Nat} (hf : f ∈ I.funcs)
    (hmain : I.cx.nodes.entry? = some f.id) (hstart : I.layout.funcs.get? f.id = some ⟨0, start⟩)
    (act : Activation) (args : List Int) (heap : Int → Option Int) :
    Runs I.m I.code (act.state 0 args [] heap) (act.state start args [] heap) :=
  runs_of_execute (I.loaded.main f hf hmain start hstart) rfl (Activation.execute_jump 0 start)

end Image

/-- The instruction calls code at `entry` from any level. -/
structure Machine.Instruction.Calls (i : Instruction) (entry : Nat) : Prop where
  op : i.op = .call
  n : i.n.toInt = Register.number .sb
  r : i.r = .cb
  d : i.d.toInt = entry

theorem Machine.Instruction.Calls.step? {i : Instruction} {entry : Nat} (h : i.Calls entry)
    {m : Interpretation} {code : Array Instruction} {cp lb : Nat} (hcode : code[cp]? = some i)
    {below args : List Int} {heap : Int → Option Int} :
    Machine.step? m code ⟨cp, lb, below ++ args, heap⟩ =
      some (Activation.state ⟨below, args.length, 0, lb, cp + 1⟩ entry args [] heap) := by
  show (code[cp]?.bind fun i => execute m i.op i.n.toInt i.r i.d.toInt _) = _
  rw [hcode, Option.bind_some, h.op, h.n, h.r, h.d]
  exact execute_call m

namespace Program

/-- What the interpreter finds for a call of the first function of a text with complete code. -/
def firstCall? (m : Interpretation) (n : Nat) (text : String) (args : List Int)
    (heap : Int → Option Int) : Option (Option Int × (Int → Option Int)) :=
  match PrimeLang.compile text with
  | .error _ => none
  | .ok (p, o) => do
    let R ← p.resolve.toOption
    let f ← p.funcs.head?
    if o.Complete then Semantics.call? ⟨p.funcs, R, m.routine⟩ n f args heap else none

theorem exists_of_firstCall? {m : Interpretation} {n : Nat} {text : String} {args : List Int}
    {heap heap' : Int → Option Int} {r : Option Int}
    (h : firstCall? m n text args heap = some (r, heap')) :
    ∃ p o R f, PrimeLang.compile text = .ok (p, o) ∧ p.resolve = .ok R ∧ o.Complete ∧ f ∈ p.funcs ∧
      Semantics.Call ⟨p.funcs, R, m.routine⟩ f args heap r heap' := by
  unfold firstCall? at h
  split at h
  · cases h
  · next p o ho =>
    obtain ⟨R, hR, h⟩ := Semantics.exists_of_bind h
    obtain ⟨f, hf, h⟩ := Semantics.exists_of_bind h
    obtain ⟨hc, h⟩ := Option.ite_none_right_eq_some.1 h
    refine ⟨p, o, R, f, ho, ?_, hc, List.mem_of_head? hf, Semantics.call_of_call? n h⟩
    cases hresolve : p.resolve with
    | error e => simp [hresolve, Except.toOption] at hR
    | ok R' =>
      rw [hresolve] at hR
      exact congrArg Except.ok (Option.some.inj hR)

/-- Generated code simulates the program it was generated from. If the semantics says that a call of
`f` with `args` yields `r`, then in the machine the code at the entry of `f` returns `r` to its caller,
in the place of the arguments and with everything below them as it was. The same holds for each
instruction that calls `f`, and from the first instruction on if the program starts in `f` and finds a
frame there. -/
theorem generated_code_simulates {text : String} {p : Program} {o : Object} {R : Resolution}
    (ho : PrimeLang.compile text = .ok (p, o)) (hR : p.resolve = .ok R) (hc : o.Complete)
    (m : Interpretation) {f : Tree.Func} (hf : f ∈ p.funcs) {args : List Int} {r : Option Int}
    {heap heap' : Int → Option Int}
    (hcall : Semantics.Call ⟨p.funcs, R, m.routine⟩ f args heap r heap') :
    ∃ entry : Nat, o.layout.funcs.get? f.id = some ⟨0, entry⟩ ∧
      (∀ act : Activation, act.params = args.length → ∀ start : Nat,
        start = entry ∨ start = 0 ∧ p.nodes.entry? = some f.id →
        Runs m o.code (act.state start args [] heap)
          ⟨act.resume, act.callerBase, act.below ++ r.toList, heap'⟩) ∧
      ∀ (cp lb : Nat) (below : List Int) (i : Instruction), o.code[cp]? = some i → i.Calls entry →
        Runs m o.code ⟨cp, lb, below ++ args, heap⟩ ⟨cp + 1, lb, below ++ r.toList, heap'⟩ := by
  obtain ⟨R', hp, hR', hg⟩ := compile_eq_ok ho
  cases hR.symm.trans hR'
  let I : Image := ⟨m, o.code, o.layout, ⟨p.nodes, R⟩, p.funcs,
    (ofTokens_wellFormed hp).loaded hR hg hc⟩
  obtain ⟨entry, hentry, -⟩ := I.loaded.entry f hf
  have hruns : I.Calls f args heap r heap' := Image.calls hcall
  refine ⟨entry, hentry, fun act hparams start hstart => ?_, fun cp lb below i hi hcalls => ?_⟩
  · rcases hstart with rfl | ⟨rfl, hmain⟩
    · exact hruns act start hf hparams hentry
    · exact (Image.runs_main hf hmain hentry act args heap).trans (hruns act entry hf hparams hentry)
  · exact .head (hcalls.step? hi) (hruns _ entry hf rfl hentry)

/-- Whole numbers, with zero in new words of the stack. -/
def arithmetic : Interpretation where
  routine
    | .add, x, y => x + y
    | .sub, x, y => x - y
    | .lt, x, y => if x < y then 1 else 0
    | _, _, _ => 0
  blank _ _ := 0

/-- A loop that is left from inside, with a value that comes from a call of the same function and is
assigned to an element on the way. -/
def descentText : String :=
  "func f(array a, int n) -> int \x7b for int i := n; 0 < i; i -= 1 \x7b " ++
    "if a[i] \x7b return a[i] := f(a, i - 1); \x7d \x7d return n + 5; \x7d"

def descentHeap (a : Int) : Option Int :=
  if a = 101 then some 7 else if a = 102 then some 0 else none

theorem generated_code_simulates_descent :
    ∃ p o R f heap', ∃ entry : Nat, PrimeLang.compile descentText = .ok (p, o) ∧ p.resolve = .ok R ∧
      o.Complete ∧ f ∈ p.funcs ∧
      Semantics.Call ⟨p.funcs, R, arithmetic.routine⟩ f [100, 2] descentHeap (some 5) heap' ∧
      heap' 101 = some 5 ∧ o.layout.funcs.get? f.id = some ⟨0, entry⟩ ∧
      ∀ act : Activation, act.params = 2 →
        Runs arithmetic o.code (act.state entry [100, 2] [] descentHeap)
          ⟨act.resume, act.callerBase, act.below ++ [5], heap'⟩ := by
  have hfound : (firstCall? arithmetic 20 descentText [100, 2] descentHeap).any
      (fun x => x.1 = some 5 ∧ x.2 101 = some 5) = true := by decide +kernel
  obtain ⟨⟨r, heap'⟩, hcall, hresult⟩ := (Option.any_eq_true _ _).1 hfound
  obtain ⟨rfl, hcell⟩ := of_decide_eq_true hresult
  obtain ⟨p, o, R, f, ho, hR, hc, hf, hcall⟩ := exists_of_firstCall? hcall
  obtain ⟨entry, hentry, hruns, -⟩ := generated_code_simulates ho hR hc arithmetic hf hcall
  exact ⟨p, o, R, f, heap', entry, ho, hR, hc, hf, hcall, hcell, hentry,
    fun act hact => hruns act hact entry (.inl rfl)⟩

end Program
end PrimeLang
