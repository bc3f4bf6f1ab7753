import PrimeLang.Proofs.Storing

/-! # Other names and positions

A relabelling puts other names and other positions in the place of those of a program and leaves
everything else. Storing commutes with it: the nodes of relabelled functions are the relabelled
nodes, under the same numbers (`Program.ofSource_relabel`). -/

namespace PrimeLang

/-- Other names and other positions for those of a program. -/
structure Relabelling where
  name : String → String
  pos : Pos → Pos

namespace Relabelling

/-- Other names in the same places. -/
def ofNames (ρ : String → String) : Relabelling := ⟨ρ, fun pos => pos⟩

/-- The same names in other places. -/
def ofPlaces (π : Pos → Pos) : Relabelling := ⟨fun name => name, π⟩

end Relabelling

variable {r : Relabelling}

/-! ## Relabelled programs -/

def Var.relabel (r : Relabelling) (v : Var) : Var := ⟨v.ty, r.name v.name, r.pos v.pos⟩

/-- Another name and place for a function, with `f` for expressions and `g` for variables. -/
def Func.relabel {ε ε' β β' : Type} (r : Relabelling) (f : ε → ε') (g : β → β') (d : Func ε β) :
    Func ε' β' :=
  ⟨r.name d.name, r.pos d.pos, d.params.map g, d.ret, Stmt.mapAll f g d.body⟩

namespace Source

namespace Expr

mutual

def relabel (r : Relabelling) : Expr → Expr
  | assign op pos target value => assign op (r.pos pos) (target.relabel r) (value.relabel r)
  | binary op pos lhs rhs => binary op (r.pos pos) (lhs.relabel r) (rhs.relabel r)
  | var name pos => var (r.name name) (r.pos pos)
  | element name pos index => element (r.name name) (r.pos pos) (index.relabel r)
  | literal value pos => literal value (r.pos pos)
  | call name pos args => call (r.name name) (r.pos pos) (relabelAll r args)

def relabelAll (r : Relabelling) : List Expr → List Expr
  | [] => []
  | e :: es => e.relabel r :: relabelAll r es

end

theorem relabelAll_eq_map (es : List Expr) : relabelAll r es = es.map (relabel r) := by
  induction es with
  | nil => rfl
  | cons e es ih => rw [relabelAll, ih, List.map_cons]

theorem isVariable_relabel (e : Expr) : (e.relabel r).isVariable = e.isVariable := by
  cases e <;> rfl

end Expr

def Stmt.relabel (r : Relabelling) : Stmt → Stmt := PrimeLang.Stmt.map (Expr.relabel r) (.relabel r)

def Func.relabel (r : Relabelling) : Func → Func :=
  PrimeLang.Func.relabel r (Expr.relabel r) (.relabel r)

end Source

namespace Node

def Expr.relabel (r : Relabelling) : Expr → Expr
  | ident name indices => ident (r.name name) indices
  | call name args => call (r.name name) args
  | e => e

def Func.relabel (r : Relabelling) (f : Func) : Func :=
  { f with name := r.name f.name, pos := r.pos f.pos }

end Node

/-- Numbers and statements stay, since they have no names or positions. -/
def Nodes.relabel (r : Relabelling) (ns : Nodes) : Nodes where
  funcs := ns.funcs.map (.relabel r)
  vars := ns.vars.map (.relabel r)
  stmts := ns.stmts
  exprs := ns.exprs.map fun (e, pos) => (e.relabel r, r.pos pos)

def Site.relabel (r : Relabelling) (site : Site) : Site := ⟨site.id, r.pos site.pos⟩

namespace Tree

namespace Expr
variable {α β : Type}

mutual

/-- Other names, with `f` for labels. -/
def relabel (r : Relabelling) (f : α → β) : Expr α → Expr β
  | assign a target value => assign (f a) (target.relabel r f) (value.relabel r f)
  | binary a op lhs rhs => binary (f a) op (lhs.relabel r f) (rhs.relabel r f)
  | ident a name indices => ident (f a) (r.name name) (relabelAll r f indices)
  | literal a value => literal (f a) value
  | call a name args => call (f a) (r.name name) (relabelAll r f args)

/-- Other names, with `f` for labels. -/
def relabelAll (r : Relabelling) (f : α → β) : List (Expr α) → List (Expr β)
  | [] => []
  | e :: es => e.relabel r f :: relabelAll r f es

end

@[simp] theorem label_relabel (f : α → β) (e : Expr α) : (e.relabel r f).label = f e.label := by
  cases e <;> rfl

theorem relabelAll_eq_map (f : α → β) (es : List (Expr α)) :
    relabelAll r f es = es.map (relabel r f) := by
  induction es with
  | nil => rfl
  | cons e es ih => rw [relabelAll, ih, List.map_cons]

end Expr

def Var.relabel (r : Relabelling) (v : Var) : Var := ⟨v.toVar.relabel r, v.id⟩

def Stmt.relabel (r : Relabelling) : Stmt → Stmt :=
  PrimeLang.Stmt.map (Expr.relabel r (.relabel r)) (.relabel r)

def Func.relabel (r : Relabelling) (f : Func) : Func :=
  ⟨f.toFunc.relabel r (Expr.relabel r (.relabel r)) (.relabel r), f.id⟩

end Tree

def Program.relabel (r : Relabelling) (p : Program) : Program :=
  ⟨p.nodes.relabel r, p.funcs.map (.relabel r)⟩

/-! ## Storing relabelled trees -/

namespace Storing
variable {α β γ δ : Type}

/-- On relabelled nodes `y` does what `x` does, and returns by `f` what `x` returns. -/
def Relabels (r : Relabelling) (f : α → β) (x : Storing α) (y : Storing β) : Prop :=
  ∀ ns, y.run (ns.relabel r) = (f (x.run ns).1, (x.run ns).2.relabel r)

namespace Relabels
variable {f : α → β} {x : Storing α} {y : Storing β}

theorem pure {a : α} {b : β} (h : f a = b) : Relabels r f (pure a) (pure b) := fun _ => h ▸ rfl

theorem bind {g : γ → δ} {k : α → Storing γ} {l : β → Storing δ} (h : Relabels r f x y)
    (hk : ∀ a, Relabels r g (k a) (l (f a))) : Relabels r g (x >>= k) (y >>= l) := by
  intro ns
  rw [StateT.run_bind, StateT.run_bind, h ns]
  exact hk _ _

theorem mapM {xs : List γ} {g : γ → δ} {k : γ → Storing α} {l : δ → Storing β}
    (hk : ∀ c, Relabels r f (k c) (l (g c))) :
    Relabels r (List.map f) (xs.mapM k) ((xs.map g).mapM l) := by
  induction xs with
  | nil =>
    rw [List.map_nil, List.mapM_nil, List.mapM_nil]
    exact pure rfl
  | cons c xs ih =>
    rw [List.map_cons, List.mapM_cons, List.mapM_cons]
    exact (hk c).bind fun a => ih.bind fun as => pure rfl

end Relabels

theorem relabels_addExpr {e e' : Node.Expr} (he : e' = e.relabel r) (pos : Pos) :
    Relabels r (fun id => id) (modifyGet (Nodes.addExpr e pos))
      (modifyGet (Nodes.addExpr e' (r.pos pos))) := by
  intro ns
  subst he
  simp [Nodes.addExpr, Nodes.relabel, modifyGet, MonadStateOf.modifyGet, StateT.modifyGet,
    StateT.run, pure]

theorem relabels_addVar (v : Var) :
    Relabels r (fun id => id) (modifyGet (Nodes.addVar v))
      (modifyGet (Nodes.addVar (v.relabel r))) := by
  intro ns
  simp [Nodes.addVar, Nodes.relabel, modifyGet, MonadStateOf.modifyGet, StateT.modifyGet,
    StateT.run, pure]

theorem relabels_addStmt (s : Node.Stmt) :
    Relabels r (fun id => id) (modifyGet (Nodes.addStmt s)) (modifyGet (Nodes.addStmt s)) :=
  fun _ => rfl

theorem relabels_addFunc {f f' : Node.Func} (hf : f' = f.relabel r) :
    Relabels r (fun id => id) (modifyGet (Nodes.addFunc f)) (modifyGet (Nodes.addFunc f')) := by
  intro ns
  subst hf
  simp [Nodes.addFunc, Nodes.relabel, modifyGet, MonadStateOf.modifyGet, StateT.modifyGet,
    StateT.run, pure]

end Storing

open Storing

namespace Tree.Expr

mutual

theorem relabels_store : ∀ e : Expr Pos,
    Relabels r (relabel r (.relabel r)) e.store (e.relabel r r.pos).store
  | assign pos target value => by
    rw [relabel, store, store]
    refine (relabels_store target).bind fun target => (relabels_store value).bind fun value => ?_
    exact (relabels_addExpr (by simp [Node.Expr.relabel, Site.relabel]) pos).bind fun _ => .pure rfl
  | binary pos op lhs rhs => by
    rw [relabel, store, store]
    refine (relabels_store lhs).bind fun lhs => (relabels_store rhs).bind fun rhs => ?_
    exact (relabels_addExpr (by simp [Node.Expr.relabel, Site.relabel]) pos).bind fun _ => .pure rfl
  | ident pos name indices => by
    rw [relabel, store, store]
    refine (relabels_storeAll indices).bind fun indices => ?_
    refine (relabels_addExpr ?_ pos).bind fun id => ?_
    · simp [Node.Expr.relabel, Site.relabel, relabelAll_eq_map]
    · exact .pure rfl
  | literal pos value => by
    rw [relabel, store, store]
    exact (relabels_addExpr rfl pos).bind fun _ => .pure rfl
  | call pos name args => by
    rw [relabel, store, store]
    refine (relabels_storeAll args).bind fun args => ?_
    refine (relabels_addExpr ?_ pos).bind fun id => ?_
    · simp [Node.Expr.relabel, Site.relabel, relabelAll_eq_map]
    · exact .pure rfl

theorem relabels_storeAll : ∀ es : List (Expr Pos),
    Relabels r (relabelAll r (.relabel r)) (storeAll es) (storeAll (relabelAll r r.pos es))
  | [] => by
    rw [relabelAll, storeAll]
    exact .pure rfl
  | e :: es => by
    rw [relabelAll, storeAll, storeAll]
    exact (relabels_store e).bind fun e => (relabels_storeAll es).bind fun es => .pure rfl

end

end Tree.Expr

namespace Source

namespace Expr

mutual

theorem tree_relabel : ∀ e : Expr, (e.relabel r).tree = e.tree.relabel r r.pos
  | assign none pos target value => by
    rw [relabel, tree, tree, Tree.Expr.relabel, tree_relabel target, tree_relabel value]
  | assign (some op) pos target value => by
    rw [relabel, tree, tree, Tree.Expr.relabel, Tree.Expr.relabel, tree_relabel target,
      tree_relabel value]
  | binary op pos lhs rhs => by
    rw [relabel, tree, tree, Tree.Expr.relabel, tree_relabel lhs, tree_relabel rhs]
  | var name pos => by
    rw [relabel, tree, tree]
    rfl
  | element name pos index => by
    rw [relabel, tree, tree, tree_relabel index]
    rfl
  | literal value pos => by
    rw [relabel, tree, tree]
    rfl
  | call name pos args => by
    rw [relabel, tree, tree, Tree.Expr.relabel, treeAll_relabelAll args]

theorem treeAll_relabelAll : ∀ es : List Expr,
    treeAll (relabelAll r es) = Tree.Expr.relabelAll r r.pos (treeAll es)
  | [] => by
    rw [relabelAll, treeAll]
    rfl
  | e :: es => by
    rw [relabelAll, treeAll, treeAll, Tree.Expr.relabelAll, tree_relabel e, treeAll_relabelAll es]

end

mutual

theorem relabels_store : ∀ e : Expr,
    Relabels r (Tree.Expr.relabel r (.relabel r)) e.store (e.relabel r).store
  | assign none pos target value => by
    rw [relabel, store, store]
    refine (relabels_store target).bind fun target => (relabels_store value).bind fun value => ?_
    exact (relabels_addExpr (by simp [Node.Expr.relabel, Site.relabel]) pos).bind fun _ => .pure rfl
  | assign (some op) pos target value => by
    rw [relabel, store, store, tree_relabel]
    refine (relabels_store target).bind fun stored => (relabels_store value).bind fun value => ?_
    refine (Tree.Expr.relabels_store target.tree).bind fun copy => ?_
    refine (relabels_addExpr (by simp [Node.Expr.relabel, Site.relabel]) pos).bind fun result => ?_
    exact (relabels_addExpr (by simp [Node.Expr.relabel, Site.relabel]) pos).bind fun _ => .pure rfl
  | binary op pos lhs rhs => by
    rw [relabel, store, store]
    refine (relabels_store lhs).bind fun lhs => (relabels_store rhs).bind fun rhs => ?_
    exact (relabels_addExpr (by simp [Node.Expr.relabel, Site.relabel]) pos).bind fun _ => .pure rfl
  | var name pos => by
    rw [relabel, store, store]
    exact (relabels_addExpr rfl pos).bind fun id => .pure rfl
  | element name pos index => by
    rw [relabel, store, store]
    refine (relabels_store index).bind fun index => ?_
    refine (relabels_addExpr (by simp [Node.Expr.relabel, Site.relabel]) pos).bind fun id => ?_
    exact .pure rfl
  | literal value pos => by
    rw [relabel, store, store]
    exact (relabels_addExpr rfl pos).bind fun _ => .pure rfl
  | call name pos args => by
    rw [relabel, store, store]
    refine (relabels_storeAll args).bind fun args => ?_
    refine (relabels_addExpr ?_ pos).bind fun id => .pure rfl
    simp [Node.Expr.relabel, Site.relabel, Tree.Expr.relabelAll_eq_map]

theorem relabels_storeAll : ∀ es : List Expr,
    Relabels r (Tree.Expr.relabelAll r (.relabel r)) (storeAll es) (storeAll (relabelAll r es))
  | [] => by
    rw [relabelAll, storeAll]
    exact .pure rfl
  | e :: es => by
    rw [relabelAll, storeAll, storeAll]
    exact (relabels_store e).bind fun e => (relabels_storeAll es).bind fun es => .pure rfl

end

end Expr

theorem relabels_storeVar (v : Var) :
    Relabels r (.relabel r) (storeVar v) (storeVar (v.relabel r)) :=
  (relabels_addVar v).bind fun _ => .pure rfl

mutual

theorem relabels_storeStmt : ∀ s : Stmt,
    Relabels r (Prod.map (fun id => id) (.relabel r)) (storeStmt s) (storeStmt (s.relabel r))
  | .decl v init => by
    rw [Stmt.relabel, PrimeLang.Stmt.map, storeStmt, storeStmt]
    refine (relabels_storeVar v).bind fun v => (init.relabels_store).bind fun init => ?_
    rw [Tree.Expr.label_relabel]
    exact (relabels_addStmt _).bind fun id => .pure rfl
  | .ifThen cond body => by
    rw [Stmt.relabel, PrimeLang.Stmt.map, storeStmt, storeStmt]
    refine cond.relabels_store.bind fun cond => ?_
    refine (relabels_storeBlock body).bind fun (ids, body) => ?_
    rw [Tree.Expr.label_relabel]
    exact (relabels_addStmt _).bind fun id => .pure rfl
  | .ifElse cond body orElse => by
    rw [Stmt.relabel, PrimeLang.Stmt.map, storeStmt, storeStmt]
    refine cond.relabels_store.bind fun cond => ?_
    refine (relabels_storeBlock body).bind fun (ids, body) => ?_
    refine (relabels_storeBlock orElse).bind fun (elseIds, orElse) => ?_
    rw [Tree.Expr.label_relabel]
    exact (relabels_addStmt _).bind fun id => .pure rfl
  | .loop v init cond step body => by
    rw [Stmt.relabel, PrimeLang.Stmt.map, storeStmt, storeStmt]
    refine (relabels_storeVar v).bind fun v => (init.relabels_store).bind fun init => ?_
    refine (cond.relabels_store).bind fun cond => (step.relabels_store).bind fun step => ?_
    refine (relabels_storeBlock body).bind fun (ids, body) => ?_
    simp only [Tree.Expr.label_relabel]
    exact (relabels_addStmt _).bind fun id => .pure rfl
  | .ret none => by
    rw [Stmt.relabel, PrimeLang.Stmt.map, Option.map_none, storeStmt]
    exact (relabels_addStmt _).bind fun id => .pure rfl
  | .ret (some value) => by
    rw [Stmt.relabel, PrimeLang.Stmt.map, Option.map_some, storeStmt, storeStmt]
    refine (value.relabels_store).bind fun value => ?_
    rw [Tree.Expr.label_relabel]
    exact (relabels_addStmt _).bind fun id => .pure rfl
  | .eval e => by
    rw [Stmt.relabel, PrimeLang.Stmt.map, storeStmt, storeStmt]
    refine (e.relabels_store).bind fun e => ?_
    rw [Tree.Expr.label_relabel]
    exact (relabels_addStmt _).bind fun id => .pure rfl

theorem relabels_storeBlock : ∀ ss : List Stmt,
    Relabels r (Prod.map (fun ids => ids)
        (PrimeLang.Stmt.mapAll (Tree.Expr.relabel r (.relabel r)) (.relabel r)))
      (storeBlock ss) (storeBlock (PrimeLang.Stmt.mapAll (Expr.relabel r) (.relabel r) ss))
  | [] => by
    rw [PrimeLang.Stmt.mapAll, storeBlock]
    exact .pure rfl
  | s :: ss => by
    rw [PrimeLang.Stmt.mapAll, storeBlock, storeBlock]
    refine (relabels_storeStmt s).bind fun (id, s) => ?_
    exact (relabels_storeBlock ss).bind fun (ids, ss) => .pure rfl

end

theorem relabels_storeFunc (f : Func) :
    Relabels r (.relabel r) (storeFunc f) (storeFunc (f.relabel r)) := by
  unfold storeFunc
  refine (Relabels.mapM relabels_storeVar).bind fun params => ?_
  refine (relabels_storeBlock f.body).bind fun (ids, body) => ?_
  refine (relabels_addFunc ?_).bind fun id => .pure rfl
  simp [Node.Func.relabel, Func.relabel, PrimeLang.Func.relabel, Tree.Var.relabel,
    Function.comp_def]

end Source

/-- Storing commutes with relabelling. -/
theorem Program.ofSource_relabel (fs : List Source.Func) :
    ofSource (fs.map (.relabel r)) = (ofSource fs).relabel r := by
  have h := @Relabels.mapM r _ _ _ _ _ fs _ _ _ Source.relabels_storeFunc .empty
  have hempty : Nodes.empty.relabel r = .empty := by simp [Nodes.empty, Nodes.relabel]
  rw [hempty] at h
  exact congrArg (fun s => Program.mk s.2 s.1) h

end PrimeLang
