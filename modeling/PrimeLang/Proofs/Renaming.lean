import PrimeLang.Proofs.CodeExists
import PrimeLang.Proofs.Relabelling

/-! # Names only bind

The resolver compares names and does nothing else with them, so it does the same on a program whose
names are replaced one-to-one (`Program.resolve_relabel`), and its errors are the relabelled ones.
The generator asks for one name alone, that of the entry function (`Program.generate_relabel`). -/

namespace PrimeLang
open Action

variable {r : Relabelling}

/-! ## Relabelled resolvers -/

/-- Other names for the entries of a list that is looked up by names. -/
def renameKeys {α : Type} (ρ : String → String) (entries : List (String × α)) :
    List (String × α) := entries.map fun (name, a) => (ρ name, a)

theorem lookup_renameKeys {α : Type} {ρ : String → String} (hρ : Function.Injective ρ)
    (name : String) (entries : List (String × α)) :
    (renameKeys ρ entries).lookup (ρ name) = entries.lookup name := by
  induction entries with
  | nil => rfl
  | cons entry entries ih =>
    obtain ⟨other, a⟩ := entry
    rw [renameKeys, List.map_cons, List.lookup_cons, List.lookup_cons, hρ.beq_eq]
    cases name == other with
    | true => rfl
    | false => exact ih

namespace Scopes

def rename (ρ : String → String) (s : Scopes) : Scopes := ⟨s.stack.map (renameKeys ρ)⟩

theorem lookup?_rename {ρ : String → String} (hρ : Function.Injective ρ) (name : String)
    (s : Scopes) : (s.rename ρ).lookup? (ρ name) = s.lookup? name := by
  rw [lookup?, rename, List.findSome?_map, lookup?]
  congr 1
  funext scope
  exact lookup_renameKeys hρ name scope

theorem declare?_rename {ρ : String → String} (hρ : Function.Injective ρ) (name : String)
    (var : VarId) (s : Scopes) :
    (s.rename ρ).declare? (ρ name) var = (s.declare? name var).map (rename ρ) := by
  obtain ⟨stack⟩ := s
  cases stack with
  | nil => rfl
  | cons scope outer =>
    simp only [rename, List.map_cons, declare?, lookup_renameKeys hρ]
    split <;> rfl

end Scopes

def BindingError.relabel (r : Relabelling) : BindingError → BindingError
  | duplicateFunction name pos => duplicateFunction (r.name name) (r.pos pos)
  | duplicateParameter name func pos => duplicateParameter (r.name name) (r.name func) (r.pos pos)
  | duplicateVariable name pos => duplicateVariable (r.name name) (r.pos pos)
  | undefinedVariable name pos => undefinedVariable (r.name name) (r.pos pos)
  | undefinedFunction name pos => undefinedFunction (r.name name) (r.pos pos)
  | notAFunction name pos => notAFunction (r.name name) (r.pos pos)
  | arity name expected found pos => arity (r.name name) expected found (r.pos pos)

/-- Names are known to a resolver, positions are not. -/
def Resolver.rename (ρ : String → String) (s : Resolver) : Resolver :=
  ⟨renameKeys ρ s.funcs, s.scopes.rename ρ, s.resolution⟩

namespace Resolver
variable (hr : Function.Injective r.name) (s : Resolver)
include hr

theorem declare_relabel (error : BindingError) (v : Tree.Var) :
    (s.rename r.name).declare (error.relabel r) (v.relabel r) =
      ((s.declare error v).map (rename r.name)).mapError (.relabel r) := by
  simp only [declare, rename, Tree.Var.relabel, Var.relabel, Scopes.declare?_rename hr]
  cases s.scopes.declare? v.name v.id <;> rfl

theorem declareFunc_relabel (f : Tree.Func) :
    (s.rename r.name).declareFunc (f.relabel r) =
      ((s.declareFunc f).map (rename r.name)).mapError (.relabel r) := by
  simp only [declareFunc, rename, Tree.Func.relabel, Func.relabel, lookup_renameKeys hr,
    List.length_map]
  split <;> rfl

theorem variableOf_relabel (name : String) (pos : Pos) :
    (s.rename r.name).variableOf (r.name name) (r.pos pos) =
      (s.variableOf name pos).mapError (.relabel r) := by
  simp only [variableOf, rename, Scopes.lookup?_rename hr]
  cases s.scopes.lookup? name <;> rfl

theorem calleeOf_relabel (name : String) (found : Nat) (pos : Pos) :
    (s.rename r.name).calleeOf (r.name name) found (r.pos pos) =
      (s.calleeOf name found pos).mapError (.relabel r) := by
  simp only [calleeOf, rename, Scopes.lookup?_rename hr, lookup_renameKeys hr]
  split
  · rfl
  cases s.funcs.lookup name with
  | none => rfl
  | some f =>
    simp only
    split <;> rfl

end Resolver

namespace Resolve

/-- On relabelled resolvers `y` does what `x` does, with relabelled errors. -/
def Relabels (r : Relabelling) (x y : Resolve Unit) : Prop :=
  ∀ s : Resolver, exec y (s.rename r.name) =
    ((exec x s).1.mapError (.relabel r), (exec x s).2.rename r.name)

namespace Relabels
variable {x y x' y' : Resolve Unit}

theorem pure : Relabels r (pure ()) (pure ()) := fun _ => rfl

theorem bind (h : Relabels r x y) (h' : Relabels r x' y') :
    Relabels r (x >>= fun _ => x') (y >>= fun _ => y') := by
  intro s
  rw [exec_bind, exec_bind, h s]
  rcases exec x s with ⟨_ | _, s₁⟩
  · rfl
  · exact h' s₁

theorem inScope (h : Relabels r x y) : Relabels r (inScope x) (inScope y) := by
  intro s
  rw [exec_inScope, exec_inScope]
  have hpush : ({ s.rename r.name with scopes := (s.rename r.name).scopes.push } : Resolver) =
      ({ s with scopes := s.scopes.push } : Resolver).rename r.name := rfl
  rw [hpush, h]
  simp [Resolver.rename, Scopes.rename, Scopes.pop]

/-- An action that goes on to another resolver, or fails with the resolver as it was. -/
theorem of_step {f g : Resolver → Except BindingError Resolver}
    (hx : ∀ s, exec x s = match f s with | .ok s' => (.ok (), s') | .error e => (.error e, s))
    (hy : ∀ s, exec y s = match g s with | .ok s' => (.ok (), s') | .error e => (.error e, s))
    (hfg : ∀ s, g (s.rename r.name) = ((f s).map (.rename r.name)).mapError (.relabel r)) :
    Relabels r x y := by
  intro s
  rw [hx, hy, hfg]
  cases f s <;> rfl

end Relabels

theorem relabels_declareOr (hr : Function.Injective r.name) (error : BindingError) (v : Tree.Var) :
    Relabels r (declareOr error v) (declareOr (error.relabel r) (v.relabel r)) :=
  .of_step (exec_declareOr error v) (exec_declareOr _ _) fun s => s.declare_relabel hr error v

mutual

theorem relabels_expr (hr : Function.Injective r.name) : ∀ e : Tree.Expr Site,
    Relabels r (expr e) (expr (e.relabel r (.relabel r)))
  | .assign _ target value => by
    rw [Tree.Expr.relabel, expr, expr]
    exact (relabels_expr hr target).bind (relabels_expr hr value)
  | .binary _ _ lhs rhs => by
    rw [Tree.Expr.relabel, expr, expr]
    exact (relabels_expr hr lhs).bind (relabels_expr hr rhs)
  | .ident site name indices => by
    intro s
    rw [Tree.Expr.relabel, expr, expr]
    simp only [exec_bind, exec_get, andThen_ok, exec_lift, Site.relabel, s.variableOf_relabel hr]
    cases s.variableOf name site.pos with
    | error e => rfl
    | ok var => exact relabels_exprs hr indices (s.bindIdent site.id var)
  | .literal _ _ => by
    rw [Tree.Expr.relabel, expr, expr]
    exact .pure
  | .call site name args => by
    intro s
    rw [Tree.Expr.relabel, expr, expr]
    simp only [exec_bind, exec_get, andThen_ok, exec_lift, Site.relabel,
      Tree.Expr.relabelAll_eq_map, List.length_map, s.calleeOf_relabel hr]
    cases s.calleeOf name args.length site.pos with
    | error e => rfl
    | ok func =>
      rw [← Tree.Expr.relabelAll_eq_map]
      exact relabels_exprs hr args (s.bindCall site.id func)

theorem relabels_exprs (hr : Function.Injective r.name) : ∀ es : List (Tree.Expr Site),
    Relabels r (exprs es) (exprs (Tree.Expr.relabelAll r (.relabel r) es))
  | [] => by
    rw [Tree.Expr.relabelAll, exprs]
    exact .pure
  | e :: es => by
    rw [Tree.Expr.relabelAll, exprs, exprs]
    exact (relabels_expr hr e).bind (relabels_exprs hr es)

end

mutual

theorem relabels_stmt (hr : Function.Injective r.name) : ∀ s : Tree.Stmt,
    Relabels r (stmt s) (stmt (s.relabel r))
  | .decl var init => by
    rw [Tree.Stmt.relabel, Stmt.map, stmt, stmt]
    exact (relabels_declareOr hr _ var).bind (relabels_expr hr init)
  | .ifThen cond body => by
    rw [Tree.Stmt.relabel, Stmt.map, stmt, stmt]
    exact (relabels_expr hr cond).bind (relabels_stmts hr body).inScope
  | .ifElse cond body orElse => by
    rw [Tree.Stmt.relabel, Stmt.map, stmt, stmt]
    exact (relabels_expr hr cond).bind
      ((relabels_stmts hr body).inScope.bind (relabels_stmts hr orElse).inScope)
  | .loop var init cond step body => by
    rw [Tree.Stmt.relabel, Stmt.map, stmt, stmt]
    refine Relabels.inScope ?_
    refine (relabels_declareOr hr _ var).bind ((relabels_expr hr init).bind ?_)
    exact (relabels_expr hr cond).bind ((relabels_expr hr step).bind (relabels_stmts hr body))
  | .ret none => by
    rw [Tree.Stmt.relabel, Stmt.map, Option.map_none, stmt]
    exact .pure
  | .ret (some value) => by
    rw [Tree.Stmt.relabel, Stmt.map, Option.map_some, stmt, stmt]
    exact relabels_expr hr value
  | .eval e => by
    rw [Tree.Stmt.relabel, Stmt.map, stmt, stmt]
    exact relabels_expr hr e

theorem relabels_stmts (hr : Function.Injective r.name) : ∀ ss : List Tree.Stmt,
    Relabels r (stmts ss)
      (stmts (Stmt.mapAll (Tree.Expr.relabel r (.relabel r)) (.relabel r) ss))
  | [] => by
    rw [Stmt.mapAll, stmts]
    exact .pure
  | s :: ss => by
    rw [Stmt.mapAll, stmts, stmts]
    exact (relabels_stmt hr s).bind (relabels_stmts hr ss)

end

section
variable (hr : Function.Injective r.name)
include hr

theorem relabels_params (func : String) (vs : List Tree.Var) :
    Relabels r (params func vs) (params (r.name func) (vs.map (.relabel r))) := by
  induction vs with
  | nil => exact .pure
  | cons v vs ih => exact (relabels_declareOr hr (.duplicateParameter v.name func v.pos) v).bind ih

theorem relabels_func (f : Tree.Func) : Relabels r (func f) (func (f.relabel r)) := by
  have hdeclare : ∀ (f : Tree.Func) (s : Resolver),
      exec (do set (← (← get).declareFunc f) : Resolve Unit) s = match s.declareFunc f with
        | .ok s' => (.ok (), s')
        | .error e => (.error e, s) := by
    intro f s
    simp only [exec_bind, exec_get, andThen_ok, exec_lift]
    cases s.declareFunc f <;> rfl
  have hbody : Relabels r (inScope do params f.name f.params; stmts f.body)
      (inScope do params (f.relabel r).name (f.relabel r).params; stmts (f.relabel r).body) :=
    ((relabels_params hr f.name f.params).bind (relabels_stmts hr f.body)).inScope
  have h := (Relabels.of_step (hdeclare f) (hdeclare (f.relabel r)) fun s =>
    s.declareFunc_relabel hr f).bind hbody
  simpa only [func, bind_assoc] using h

theorem relabels_funcs (fs : List Tree.Func) :
    Relabels r (funcs fs) (funcs (fs.map (.relabel r))) := by
  induction fs with
  | nil => exact .pure
  | cons f fs ih => exact (relabels_func hr f).bind ih

end

end Resolve

/-- Relabelled programs are resolved alike, if different names stay different. -/
theorem Program.resolve_relabel (hr : Function.Injective r.name) (p : Program) :
    (p.relabel r).resolve = p.resolve.mapError (.relabel r) := by
  have hresolve : ∀ q : Program, q.resolve =
      (exec (Resolve.funcs q.funcs) .initial).1.map fun _ =>
        (exec (Resolve.funcs q.funcs) .initial).2.resolution := fun _ => rfl
  have h : exec (Resolve.funcs (p.relabel r).funcs) .initial = _ :=
    Resolve.relabels_funcs hr p.funcs .initial
  rw [hresolve, hresolve, h]
  cases (exec (Resolve.funcs p.funcs) .initial).1 <;> rfl

/-! ## Code of relabelled programs -/

namespace Stmt
variable {ε ε' β β' : Type} (f : ε → ε') (g : β → β')

mutual

theorem decls_map : ∀ s : Stmt ε β, (s.map f g).decls = s.decls.map g
  | decl _ _ | ret _ | eval _ => by
    rw [map, decls, decls]
    rfl
  | ifThen _ body => by
    rw [map, decls, decls, declsOf_mapAll body]
  | ifElse _ body orElse => by
    rw [map, decls, decls, declsOf_mapAll body, declsOf_mapAll orElse, List.map_append]
  | loop v _ _ _ body => by
    rw [map, decls, decls, declsOf_mapAll body, List.map_cons]

theorem declsOf_mapAll : ∀ ss : List (Stmt ε β), declsOf (mapAll f g ss) = (declsOf ss).map g
  | [] => by
    rw [mapAll, declsOf, declsOf, List.map_nil]
  | s :: ss => by
    rw [mapAll, declsOf, declsOf, decls_map s, declsOf_mapAll ss, List.map_append]

end

end Stmt

def Context.relabel (r : Relabelling) (cx : Context) : Context :=
  ⟨cx.nodes.relabel r, cx.resolution⟩

namespace Generator
variable (g : Generator) (cx : Context) (site : Site) (name : String)

theorem toOption_variableOf_relabel :
    (g.variableOf (cx.relabel r) (site.relabel r) (r.name name)).toOption =
      (g.variableOf cx site name).toOption.map fun (v, a) => (v.relabel r, a) := by
  simp only [variableOf, Context.relabel, Site.relabel, Nodes.relabel]
  cases cx.resolution.idents.get? site.id with
  | none => rfl
  | some id =>
    simp only [Array.getElem?_map]
    cases cx.nodes.vars[id]? with
    | none => rfl
    | some v =>
      simp only [Option.map_some]
      cases g.layout.vars.get? id <;> rfl

theorem toOption_calleeOf_relabel :
    (g.calleeOf (cx.relabel r) (site.relabel r) (r.name name)).toOption =
      (g.calleeOf cx site name).toOption := by
  simp only [calleeOf, Context.relabel, Site.relabel, Nodes.relabel]
  cases cx.resolution.calls.get? site.id with
  | none => rfl
  | some id =>
    simp only [Array.getElem?_map]
    cases cx.nodes.funcs[id]? with
    | none => rfl
    | some f =>
      simp only [Option.map_some]
      cases g.layout.funcs.get? id <;> rfl

end Generator

namespace Generate
variable {α β : Type}

/-- What an action does to a state, whatever its error says. -/
def outcome (x : Generate α) (g : Generator) : Option α × Generator :=
  ((exec x g).1.toOption, (exec x g).2)

/-- The actions do the same, though their errors may differ. -/
def Alike (x y : Generate α) : Prop := ∀ g, outcome y g = outcome x g

namespace Alike

theorem refl (x : Generate α) : Alike x x := fun _ => rfl

theorem exec_ok {x y : Generate α} (h : Alike x y) {g g' : Generator} {a : α}
    (hx : exec x g = (.ok a, g')) : exec y g = (.ok a, g') := by
  have hg := h g
  rw [outcome, outcome, hx] at hg
  generalize exec y g = ry at hg
  rcases ry with ⟨_ | b, g₁⟩ <;> cases hg
  rfl

theorem bind {x y : Generate α} {k l : α → Generate β} (h : Alike x y)
    (hk : ∀ a, Alike (k a) (l a)) : Alike (x >>= k) (y >>= l) := by
  intro g
  have hg := h g
  simp only [outcome, exec_bind] at hg ⊢
  generalize exec x g = rx at hg
  generalize exec y g = ry at hg
  rcases rx with ⟨_ | a, g₁⟩ <;> rcases ry with ⟨_ | b, g₂⟩ <;> cases hg
  · rfl
  · exact hk a g₁

/-- A step that is taken only sometimes. -/
theorem if_bind {p : Prop} [Decidable p] {x : Generate PUnit} {k l : PUnit → Generate β}
    (hk : ∀ u, Alike (k u) (l u)) :
    Alike (if p then x >>= k else k ⟨⟩) (if p then x >>= l else l ⟨⟩) := by
  split
  · exact (refl x).bind hk
  · exact hk ⟨⟩

/-- A step that asks for something in the present state. -/
theorem of_query {γ δ : Type} {q : Generator → Except Unresolved γ}
    {q' : Generator → Except Unresolved δ} {f : γ → δ} {k : γ → Generate β} {l : δ → Generate β}
    (hq : ∀ g, (q' g).toOption = (q g).toOption.map f) (hk : ∀ c, Alike (k c) (l (f c))) :
    Alike (get >>= fun g => (liftM (q g) : Generate γ) >>= k)
      (get >>= fun g => (liftM (q' g) : Generate δ) >>= l) := by
  intro g
  have hg := hq g
  simp only [outcome, exec_bind, exec_get, andThen_ok, exec_lift]
  generalize q g = c at hg
  generalize q' g = d at hg
  rcases c with _ | c <;> rcases d with _ | d <;> cases hg
  · rfl
  · exact hk c g

end Alike

mutual

theorem alike_expr (cx : Context) : ∀ (use : Use) (e : Tree.Expr Site),
    Alike (expr cx use e) (expr (cx.relabel r) use (e.relabel r (.relabel r)))
  | use, .assign _ (.ident site name []) value => by
    simp only [Tree.Expr.relabel, Tree.Expr.relabelAll]
    rw [expr, expr]
    refine .of_query (fun g => g.toOption_variableOf_relabel cx site name) fun (v, a) => ?_
    exact (alike_expr cx .value value).bind fun _ => .refl _
  | use, .assign _ (.ident site name (index :: indices)) value => by
    simp only [Tree.Expr.relabel, Tree.Expr.relabelAll]
    rw [expr, expr]
    refine .of_query (fun g => g.toOption_variableOf_relabel cx site name) fun (v, a) => ?_
    refine (alike_expr cx .value value).bind fun _ => ?_
    refine .if_bind fun _ => (Alike.refl _).bind fun _ => ?_
    exact (alike_element cx (index :: indices)).bind fun _ => .refl _
  | use, .assign _ (.assign _ _ _) _ => by
    simp only [Tree.Expr.relabel]
    exact .refl _
  | use, .assign _ (.binary _ _ _ _) _ => by
    simp only [Tree.Expr.relabel]
    exact .refl _
  | use, .assign _ (.literal _ _) _ => by
    simp only [Tree.Expr.relabel]
    exact .refl _
  | use, .assign _ (.call _ _ _) _ => by
    simp only [Tree.Expr.relabel]
    exact .refl _
  | use, .binary _ op lhs rhs => by
    rw [Tree.Expr.relabel, expr.eq_def, expr.eq_def]
    refine (alike_expr cx .value lhs).bind fun _ => ?_
    exact (alike_expr cx .value rhs).bind fun _ => .refl _
  | use, .ident site name indices => by
    rw [Tree.Expr.relabel, expr.eq_def, expr.eq_def]
    refine .of_query (fun g => g.toOption_variableOf_relabel cx site name) fun (v, a) => ?_
    cases use with
    | effect => exact alike_exprs cx .effect indices
    | value =>
      cases indices with
      | nil => exact .refl _
      | cons index indices =>
        refine (Alike.refl _).bind fun _ => ?_
        exact (alike_element cx (index :: indices)).bind fun _ => .refl _
  | use, .literal _ value => by
    rw [Tree.Expr.relabel, expr.eq_def, expr.eq_def]
    exact .refl _
  | use, .call site name args => by
    rw [Tree.Expr.relabel, expr.eq_def, expr.eq_def]
    have hcallee : ∀ g : Generator,
        (g.calleeOf (cx.relabel r) (site.relabel r) (r.name name)).toOption =
          (g.calleeOf cx site name).toOption.map fun c => c := by
      intro g
      rw [g.toOption_calleeOf_relabel, Option.map_id']
    refine .of_query hcallee fun (ret, a) => ?_
    exact (alike_exprs cx .value args).bind fun _ => .refl _

theorem alike_exprs (cx : Context) : ∀ (use : Use) (es : List (Tree.Expr Site)),
    Alike (exprs cx use es) (exprs (cx.relabel r) use (Tree.Expr.relabelAll r (.relabel r) es))
  | use, [] => by
    rw [Tree.Expr.relabelAll, exprs, exprs]
    exact .refl _
  | use, e :: es => by
    rw [Tree.Expr.relabelAll, exprs, exprs]
    exact (alike_expr cx use e).bind fun _ => alike_exprs cx use es

theorem alike_element (cx : Context) : ∀ es : List (Tree.Expr Site),
    Alike (element cx es) (element (cx.relabel r) (Tree.Expr.relabelAll r (.relabel r) es))
  | [] => by
    rw [Tree.Expr.relabelAll, element, element]
    exact .refl _
  | e :: es => by
    rw [Tree.Expr.relabelAll, element, element]
    refine (alike_expr cx .value e).bind fun _ => (Alike.refl _).bind fun _ => ?_
    exact alike_element cx es

end

theorem params_relabel (vs : List Tree.Var) (slot : Address) :
    params (vs.map (.relabel r)) slot = params vs slot := by
  induction vs generalizing slot with
  | nil => rfl
  | cons v vs ih =>
    rw [List.map_cons, params, params]
    exact congrArg _ (funext ih)

theorem alike_declare (cx : Context) (v : Tree.Var) (init : Tree.Expr Site) (slot : Address) :
    Alike (declare cx v init slot)
      (declare (cx.relabel r) (v.relabel r) (init.relabel r (.relabel r)) slot) :=
  (Alike.refl _).bind fun _ => (alike_expr cx .value init).bind fun _ => .refl _

mutual

theorem alike_stmt (cx : Context) : ∀ (s : Tree.Stmt) (slot : Address),
    Alike (stmt cx s slot) (stmt (cx.relabel r) (s.relabel r) slot)
  | .decl v init, slot => by
    rw [Tree.Stmt.relabel, Stmt.map, stmt, stmt]
    exact alike_declare cx v init slot
  | .ifThen cond body, slot => by
    rw [Tree.Stmt.relabel, Stmt.map, stmt, stmt]
    refine (alike_expr cx .value cond).bind fun _ => (Alike.refl _).bind fun _ => ?_
    exact (alike_block cx body slot).bind fun _ => .refl _
  | .ifElse cond body orElse, slot => by
    rw [Tree.Stmt.relabel, Stmt.map, stmt, stmt]
    refine (alike_expr cx .value cond).bind fun _ => (Alike.refl _).bind fun _ => ?_
    refine (alike_block cx body slot).bind fun slot => ?_
    refine (Alike.refl _).bind fun _ => (Alike.refl _).bind fun _ => ?_
    exact (alike_block cx orElse slot).bind fun _ => .refl _
  | .loop v init cond step body, slot => by
    rw [Tree.Stmt.relabel, Stmt.map, stmt, stmt]
    refine (alike_declare cx v init slot).bind fun slot => (Alike.refl _).bind fun _ => ?_
    refine (alike_expr cx .value cond).bind fun _ => (Alike.refl _).bind fun _ => ?_
    refine (alike_block cx body slot).bind fun _ => ?_
    exact (alike_expr cx .effect step).bind fun _ => .refl _
  | .ret none, slot => .refl _
  | .ret (some value), slot => by
    rw [Tree.Stmt.relabel, Stmt.map, Option.map_some, stmt, stmt]
    exact (alike_expr cx .value value).bind fun _ => .refl _
  | .eval e, slot => by
    rw [Tree.Stmt.relabel, Stmt.map, stmt, stmt]
    exact (alike_expr cx .effect e).bind fun _ => .refl _

theorem alike_block (cx : Context) : ∀ (ss : List Tree.Stmt) (slot : Address),
    Alike (block cx ss slot) (block (cx.relabel r)
      (Stmt.mapAll (Tree.Expr.relabel r (.relabel r)) (.relabel r) ss) slot)
  | [], slot => by
    rw [Stmt.mapAll, block, block]
    exact .refl _
  | s :: ss, slot => by
    rw [Stmt.mapAll, block, block]
    exact (alike_stmt cx s slot).bind fun slot => alike_block cx ss slot

end

/-- The space for variables and the end of the body do not depend on names. -/
theorem storage_relabel (body : List Tree.Stmt) :
    Tree.storage (Stmt.mapAll (Tree.Expr.relabel r (.relabel r)) (.relabel r) body) =
      Tree.storage body := by
  rw [Tree.storage, Tree.storage, Stmt.declsOf_mapAll, Var.storage, Var.storage, List.foldr_map,
    List.foldr_map, List.foldr_map]
  rfl

theorem endsInReturn_relabel (f : Tree.Func) : (f.relabel r).endsInReturn = f.endsInReturn := by
  have hreturn : ∀ s : Tree.Stmt, (s.relabel r).isReturn = s.isReturn := by
    intro s
    cases s <;> rfl
  show (List.getLast? (Stmt.mapAll _ _ f.body)).any _ = _
  rw [Source.Parse.mapAll_eq_map, List.getLast?_map, Option.any_map]
  exact congrArg (Option.any · f.body.getLast?) (funext hreturn)

theorem alike_func (cx : Context) (f : Tree.Func) (frame : Address) :
    Alike (func cx f frame) (func (cx.relabel r) (f.relabel r) frame) := by
  unfold func
  refine (Alike.refl _).bind fun _ => (Alike.refl _).bind fun _ => (Alike.refl _).bind fun _ => ?_
  have hparams : params (f.relabel r).params frame.nested = params f.params frame.nested :=
    params_relabel f.params frame.nested
  rw [hparams]
  refine (Alike.refl _).bind fun slot => (Alike.refl _).bind fun _ => ?_
  have hstorage : Tree.storage (f.relabel r).body = Tree.storage f.body := storage_relabel f.body
  simp only [hstorage, endsInReturn_relabel]
  exact .if_bind fun _ => (alike_block cx f.body slot).bind fun _ => .refl _

theorem alike_funcs (cx : Context) (fs : List Tree.Func) (frame : Address) :
    Alike (funcs cx fs frame) (funcs (cx.relabel r) (fs.map (.relabel r)) frame) := by
  induction fs generalizing frame with
  | nil => exact .refl _
  | cons f fs ih => exact (alike_func cx f frame).bind ih

theorem alike_program (cx : Context) (fs : List Tree.Func) (frame : Address)
    (hentry : Nodes.entry? (cx.relabel r).nodes = Nodes.entry? cx.nodes) :
    Alike (program cx fs frame) (program (cx.relabel r) (fs.map (.relabel r)) frame) := by
  unfold program
  rw [hentry]
  exact (Alike.refl _).bind fun _ => (alike_funcs cx fs frame).bind fun _ => .refl _

end Generate

theorem Nodes.entry?_relabel (hr : ∀ name, r.name name = entryName ↔ name = entryName)
    (ns : Nodes) : Nodes.entry? (ns.relabel r) = Nodes.entry? ns := by
  have h : ∀ f : Node.Func, ((f.relabel r).name == entryName) = (f.name == entryName) := by
    intro f
    rw [Bool.eq_iff_iff, beq_iff_eq, beq_iff_eq]
    exact hr f.name
  unfold entry?
  rw [Nodes.relabel, Array.findIdx?_map]
  exact congrArg (Array.findIdx? · ns.funcs) (funext h)

namespace Program

/-- Relabelled programs have the same code, if the entry function keeps its name. -/
theorem generate_relabel (hr : ∀ name, r.name name = Nodes.entryName ↔ name = Nodes.entryName)
    {p : Program} {R : Resolution} {o : Object} (ho : p.generate R = .ok o) :
    (p.relabel r).generate R = .ok o := by
  obtain ⟨frame, g, hrun, rfl⟩ := generate_eq_ok.1 ho
  have halike := Generate.alike_program ⟨p.nodes, R⟩ p.funcs .origin (p.nodes.entry?_relabel hr)
  exact generate_eq_ok.2 ⟨frame, g, halike.exec_ok hrun, rfl⟩

/-- The nodes of a relabelled program hold its relabelled trees. -/
theorem ofNodes?_relabel {c : Cursor} {p : Program} (hp : ofTokens c = .ok p) :
    ofNodes? (p.nodes.relabel r) = some (p.relabel r) := by
  obtain ⟨fs, -, rfl⟩ := ofTokens_eq_ok.1 hp
  have hwf := ofSource_wellFormed (fs.map (.relabel r))
  rw [ofSource_relabel] at hwf
  exact congrArg (Option.map _) hwf.funcs?

/-- What a program means depends on which names are the same, not on what they are. If its names
are replaced one-to-one and the entry function keeps its name, then the names are resolved to the
same, the code is the same, and errors differ in the replaced names alone. -/
theorem code_independent_of_names {text : String} {p : Program} (hp : parse text = .ok p)
    {ρ : String → String} (hρ : Function.Injective ρ)
    (hentry : ρ Nodes.entryName = Nodes.entryName) :
    ∃ q, ofNodes? (p.nodes.relabel (.ofNames ρ)) = some q ∧
      q.resolve = p.resolve.mapError (.relabel (.ofNames ρ)) ∧
      ∀ R, p.resolve = .ok R → ∃ o, p.generate R = .ok o ∧ q.generate R = .ok o := by
  refine ⟨_, ofNodes?_relabel hp, resolve_relabel hρ p, fun R hR => ?_⟩
  obtain ⟨o, ho⟩ := exists_generate hp hR
  refine ⟨o, ho, generate_relabel (fun name => ?_) ho⟩
  show ρ name = Nodes.entryName ↔ name = Nodes.entryName
  exact ⟨fun h => hρ (h.trans hentry.symm), fun h => h ▸ hentry⟩

/-- A parameter that is called as the function is, and a variable that hides another one. -/
def hidingText : String :=
  "func f(int f) -> int \x7b if f \x7b int x := f; return x; \x7d return f; \x7d " ++
    "func main() \x7b int x := f(1); if x \x7b int x := 2; x += 1; \x7d \x7d"

/-- The names of the function and of the variable can be swapped. -/
theorem code_independent_of_names_hiding :
    ∃ p q R o, parse hidingText = .ok p ∧
      ofNodes? (p.nodes.relabel (.ofNames (Equiv.swap "f" "x"))) = some q ∧
      q.resolve = .ok R ∧ p.generate R = .ok o ∧ q.generate R = .ok o := by
  obtain ⟨p, R, hp, hR⟩ := exists_resolve_of_eval hidingText (by decide +kernel)
  obtain ⟨q, hq, hresolve, hcode⟩ :=
    code_independent_of_names hp (Equiv.swap "f" "x").injective (by decide)
  obtain ⟨o, ho, ho'⟩ := hcode R hR
  rw [hR] at hresolve
  exact ⟨p, q, R, o, hp, hq, hresolve, ho, ho'⟩

end Program
end PrimeLang
