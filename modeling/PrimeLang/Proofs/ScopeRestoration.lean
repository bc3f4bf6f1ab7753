import PrimeLang.Proofs.AcyclicNodes
import PrimeLang.Proofs.ResolverRuns

/-! # Scopes after a visit

Resolving a piece of a program closes every scope that it opens, also when it fails inside: only a
declaration leaves its variable, in the scope that was innermost before. So visits of nodes one
after another, whether they fail or not, leave the names that they declare themselves, and no others
(`Nodes.visits_restore_scopes`). -/

namespace PrimeLang
open Action

/-- The variable that a statement declares in the scope that is open. -/
def Tree.Stmt.declared? : Tree.Stmt → Option Tree.Var
  | .decl v _ => some v
  | .ifThen .. | .ifElse .. | .loop .. | .ret _ | .eval _ => none

/-! ## What a visit leaves -/

namespace Scopes

/-- `t` has more variables in its innermost scope and is `s` otherwise. -/
def Extended (s t : Scopes) : Prop := ∃ added, t.stack = s.stack.modifyHead (added ++ ·)

theorem Extended.refl (s : Scopes) : s.Extended s := ⟨[], by cases s.stack <;> rfl⟩

theorem Extended.trans {s t u : Scopes} (hst : s.Extended t) (htu : t.Extended u) :
    s.Extended u := by
  obtain ⟨added, hst⟩ := hst
  obtain ⟨more, htu⟩ := htu
  refine ⟨more ++ added, ?_⟩
  rw [htu, hst]
  cases s.stack <;> simp

/-- What was added to a scope goes when it is closed. -/
theorem Extended.pop_eq {s t : Scopes} (h : s.push.Extended t) : t.pop = s := by
  obtain ⟨added, h⟩ := h
  simp [pop, h, push]

/-- What a visit leaves of the scopes: a visit that declares nothing leaves them as they are, and
one that declares a variable puts it into the innermost scope, unless that has one of the name
already. Without a scope nothing can be declared. -/
inductive After : Option Tree.Var → Scopes → Scopes → Prop
  | unchanged {s : Scopes} : After none s s
  | added {v : Tree.Var} {scope : Scope} {outer : List Scope} : scope.lookup v.name = none →
    After (some v) ⟨scope :: outer⟩ ⟨((v.name, v.id) :: scope) :: outer⟩
  | refused {v : Tree.Var} {s : Scopes} :
    (∀ scope ∈ s.stack.head?, (scope.lookup v.name).isSome) → After (some v) s s

variable {declared : Option Tree.Var} {s t : Scopes}

theorem After.eq (h : After none s t) : t = s := by
  cases h
  rfl

theorem After.extended (h : After declared s t) : s.Extended t := by
  cases h with
  | unchanged | refused => exact .refl s
  | @added v => exact ⟨[(v.name, v.id)], rfl⟩

theorem after_of_declare? {v : Tree.Var} (h : s.declare? v.name v.id = some t) :
    After (some v) s t := by
  obtain ⟨_ | ⟨scope, outer⟩⟩ := s
  · cases h
  · simp only [declare?] at h
    split at h
    · cases h
    · next hnew =>
      cases h
      exact .added (Option.not_isSome_iff_eq_none.1 hnew)

theorem after_of_declare?_eq_none {v : Tree.Var} (h : s.declare? v.name v.id = none) :
    After (some v) s s := by
  obtain ⟨_ | ⟨scope, outer⟩⟩ := s
  · exact .refused (by simp)
  · simp only [declare?] at h
    split at h
    · next hold => exact .refused (by simpa using hold)
    · cases h

/-- Where a scope is open, the names found after a visit are those found before and the declared
one. -/
theorem After.lookup?_eq_none_iff (h : After declared s t) (hs : s.stack ≠ []) (name : String) :
    t.lookup? name = none ↔ s.lookup? name = none ∧ ∀ v ∈ declared, v.name ≠ name := by
  cases h with
  | unchanged => simp
  | @added v scope outer hnew =>
    simp only [lookup?, List.findSome?_cons, List.lookup_cons, Option.mem_some_iff, forall_eq']
    by_cases hn : name = v.name
    · simp [hn]
    · simp [beq_false_of_ne hn, Ne.symm hn]
  | @refused v _ hold =>
    obtain ⟨scope, outer, hs⟩ := List.exists_cons_of_ne_nil hs
    obtain ⟨var, hvar⟩ := Option.isSome_iff_exists.1 (hold scope (by simp [hs]))
    refine ⟨fun hnone => ⟨hnone, ?_⟩, And.left⟩
    rintro w hw rfl
    cases Option.mem_some_iff.1 hw
    simp [lookup?, hs, hvar] at hnone

end Scopes

namespace Resolver

/-- The functions known in `r` are known in `r'`, and the expressions resolved in `r` are resolved
in `r'`. -/
structure Grows (r r' : Resolver) : Prop where
  funcs : ∀ name callee, r.funcs.lookup name = some callee → r'.funcs.lookup name = some callee
  idents : ∀ id, (r.resolution.idents.get? id).isSome → (r'.resolution.idents.get? id).isSome
  calls : ∀ id, (r.resolution.calls.get? id).isSome → (r'.resolution.calls.get? id).isSome

theorem Grows.refl (r : Resolver) : r.Grows r := ⟨fun _ _ h => h, fun _ h => h, fun _ h => h⟩

theorem Grows.trans {r r' r'' : Resolver} (h : r.Grows r') (h' : r'.Grows r'') : r.Grows r'' where
  funcs name callee hc := h'.funcs name callee (h.funcs name callee hc)
  idents id hid := h'.idents id (h.idents id hid)
  calls id hid := h'.calls id (h.calls id hid)

theorem grows_scopes (r : Resolver) (scopes : Scopes) : r.Grows { r with scopes } :=
  ⟨fun _ _ h => h, fun _ h => h, fun _ h => h⟩

theorem grows_bindIdent (id : ExprId) (var : VarId) (r : Resolver) :
    r.Grows (r.bindIdent id var) := by
  refine ⟨fun _ _ h => h, fun id' h => ?_, fun _ h => h⟩
  rw [bindIdent, Table.get?_insert]
  split
  · rfl
  · exact h

theorem grows_bindCall (id : ExprId) (func : FuncId) (r : Resolver) :
    r.Grows (r.bindCall id func) := by
  refine ⟨fun _ _ h => h, fun _ h => h, fun id' h => ?_⟩
  rw [bindCall, Table.get?_insert]
  split
  · rfl
  · exact h

/-- A declared function takes no name from another. -/
theorem grows_declareFunc {r r' : Resolver} {f : Tree.Func} (h : r.declareFunc f = .ok r') :
    r.Grows r' ∧ r'.scopes = r.scopes := by
  rw [declareFunc] at h
  split at h
  · cases h
  · next hnew =>
    cases h
    refine ⟨⟨fun name callee hc => ?_, fun _ h => h, fun _ h => h⟩, rfl⟩
    have hne : name ≠ f.name := by
      rintro rfl
      simp [hc] at hnew
    rw [List.lookup_cons, beq_false_of_ne hne]
    exact hc

end Resolver

/-! ## Actions -/

namespace Resolve
variable {P : Scopes → Scopes → Prop} {x y : Resolve Unit}

/-- Whether it fails or not, `x` leaves scopes that stand in the relation `P` to those before, and
forgets nothing else. -/
def Leaves (P : Scopes → Scopes → Prop) (x : Resolve Unit) : Prop :=
  ∀ r, P r.scopes (exec x r).2.scopes ∧ r.Grows (exec x r).2

theorem Leaves.extended {d : Option Tree.Var} (h : Leaves (Scopes.After d) x) :
    Leaves Scopes.Extended x := fun r => ⟨(h r).1.extended, (h r).2⟩

/-- An action after which another runs leaves what either leaves. -/
theorem Leaves.comp {Q R : Scopes → Scopes → Prop} (hx : Leaves P x) (hy : Leaves Q y)
    (hfail : ∀ s t, P s t → R s t) (hgo : ∀ s t u, P s t → Q t u → R s u) :
    Leaves R (x >>= fun _ => y) := by
  intro r
  obtain ⟨hP, hgrows⟩ := hx r
  rw [exec_bind]
  cases hr : exec x r with
  | mk result r' =>
    rw [hr] at hP hgrows
    cases result with
    | error err => exact ⟨hfail _ _ hP, hgrows⟩
    | ok =>
      obtain ⟨hQ, hgrows'⟩ := hy r'
      exact ⟨hgo _ _ _ hP hQ, hgrows.trans hgrows'⟩

theorem Leaves.bind (hx : Leaves P x) (hy : Leaves (Scopes.After none) y) :
    Leaves P (x >>= fun _ => y) :=
  hx.comp hy (fun _ _ hP => hP) fun _ _ _ hP hafter => hafter.eq ▸ hP

theorem Leaves.bind_extended (hx : Leaves Scopes.Extended x) (hy : Leaves Scopes.Extended y) :
    Leaves Scopes.Extended (x >>= fun _ => y) :=
  hx.comp hy (fun _ _ hext => hext) fun _ _ _ => .trans

/-- What is declared in a scope goes with it. -/
theorem Leaves.inScope (hx : Leaves Scopes.Extended x) :
    Leaves (Scopes.After none) (inScope x) := by
  intro r
  obtain ⟨hext, hgrows⟩ := hx { r with scopes := r.scopes.push }
  have hscopes : (exec (Resolve.inScope x) r).2.scopes = r.scopes := hext.pop_eq
  refine ⟨hscopes.symm ▸ .unchanged, ?_⟩
  exact ((r.grows_scopes _).trans hgrows).trans (Resolver.grows_scopes _ _)

theorem leaves_pure : Leaves (Scopes.After none) (pure ()) := fun r => ⟨.unchanged, .refl r⟩

/-- Looking something up and noting it leaves the scopes. -/
theorem leaves_note {α : Type} {g : Resolver → Except BindingError α} {f : α → Resolver → Resolver}
    (hf : ∀ a r, (f a r).scopes = r.scopes ∧ r.Grows (f a r)) :
    Leaves (Scopes.After none) (do let a ← g (← get); modify (f a)) := by
  intro r
  simp only [exec_bind, exec_get, andThen_ok, exec_lift]
  cases g r with
  | error err => exact leaves_pure r
  | ok a =>
    obtain ⟨hscopes, hgrows⟩ := hf a r
    exact ⟨by rw [andThen_ok, exec_modify, hscopes]; exact .unchanged, hgrows⟩

theorem leaves_declareOr (error : BindingError) (v : Tree.Var) :
    Leaves (Scopes.After (some v)) (declareOr error v) := by
  intro r
  rw [exec_declareOr, Resolver.declare]
  cases hd : r.scopes.declare? v.name v.id with
  | none => exact ⟨Scopes.after_of_declare?_eq_none hd, .refl r⟩
  | some scopes => exact ⟨Scopes.after_of_declare? hd, r.grows_scopes scopes⟩

mutual

theorem leaves_expr : ∀ e : Tree.Expr Site, Leaves (Scopes.After none) (expr e)
  | .assign _ target value => by
    rw [expr]
    exact (leaves_expr target).bind (leaves_expr value)
  | .binary _ _ lhs rhs => by
    rw [expr]
    exact (leaves_expr lhs).bind (leaves_expr rhs)
  | .ident site name indices => by
    have hnote := leaves_note (g := (·.variableOf name site.pos)) (f := Resolver.bindIdent site.id)
      fun var r => ⟨rfl, r.grows_bindIdent site.id var⟩
    have hident := hnote.bind (leaves_exprs indices)
    simp only [bind_assoc] at hident
    rwa [expr]
  | .literal _ _ => by
    rw [expr]
    exact leaves_pure
  | .call site name args => by
    have hnote := leaves_note (g := (·.calleeOf name args.length site.pos))
      (f := Resolver.bindCall site.id) fun func r => ⟨rfl, r.grows_bindCall site.id func⟩
    have hcall := hnote.bind (leaves_exprs args)
    simp only [bind_assoc] at hcall
    rwa [expr]

theorem leaves_exprs : ∀ es : List (Tree.Expr Site), Leaves (Scopes.After none) (exprs es)
  | [] => by
    rw [exprs]
    exact leaves_pure
  | e :: es => by
    rw [exprs]
    exact (leaves_expr e).bind (leaves_exprs es)

end

mutual

theorem leaves_stmt : ∀ s : Tree.Stmt, Leaves (Scopes.After s.declared?) (stmt s)
  | .decl v init => by
    rw [stmt]
    exact (leaves_declareOr _ v).bind (leaves_expr init)
  | .ifThen cond body => by
    rw [stmt]
    exact (leaves_expr cond).bind (leaves_stmts body).inScope
  | .ifElse cond body orElse => by
    rw [stmt]
    exact (leaves_expr cond).bind ((leaves_stmts body).inScope.bind (leaves_stmts orElse).inScope)
  | .loop v init cond step body => by
    rw [stmt]
    have hbody := (leaves_expr step).extended.bind_extended (leaves_stmts body)
    have hclauses := (leaves_expr init).extended.bind_extended
      ((leaves_expr cond).extended.bind_extended hbody)
    exact ((leaves_declareOr _ v).extended.bind_extended hclauses).inScope
  | .ret none => by
    rw [stmt]
    exact leaves_pure
  | .ret (some e) => by
    rw [stmt]
    exact leaves_expr e
  | .eval e => by
    rw [stmt]
    exact leaves_expr e

theorem leaves_stmts : ∀ ss : List Tree.Stmt, Leaves Scopes.Extended (stmts ss)
  | [] => by
    rw [stmts]
    exact leaves_pure.extended
  | s :: ss => by
    rw [stmts]
    exact (leaves_stmt s).extended.bind_extended (leaves_stmts ss)

end

theorem leaves_params (func : String) (vs : List Tree.Var) :
    Leaves Scopes.Extended (params func vs) := by
  induction vs with
  | nil => exact leaves_pure.extended
  | cons v vs ih => exact (leaves_declareOr _ v).extended.bind_extended ih

theorem leaves_func (f : Tree.Func) : Leaves (Scopes.After none) (func f) := by
  have hdecl : Leaves (Scopes.After none) (do set (← (← get).declareFunc f)) := by
    intro r
    simp only [exec_bind, exec_get, andThen_ok, exec_lift]
    cases hd : r.declareFunc f with
    | error err => exact leaves_pure r
    | ok r' =>
      obtain ⟨hgrows, hscopes⟩ := Resolver.grows_declareFunc hd
      exact ⟨hscopes ▸ .unchanged, hgrows⟩
  have hbody := ((leaves_params f.name f.params).bind_extended (leaves_stmts f.body)).inScope
  have hfunc := hdecl.bind hbody
  simp only [bind_assoc] at hfunc
  exact hfunc

theorem leaves_funcs (fs : List Tree.Func) : Leaves (Scopes.After none) (funcs fs) := by
  induction fs with
  | nil => exact leaves_pure
  | cons f fs ih => exact (leaves_func f).bind ih

end Resolve

/-! ## Visits of nodes -/

/-- A node that is visited. -/
inductive Visit
  | program
  | func (id : FuncId)
  | param (id : VarId)
  | stmt (id : StmtId)
  | expr (id : ExprId)
deriving DecidableEq, Repr

namespace Nodes

/-- There is such a node. -/
def Holds (ns : Nodes) : Visit → Prop
  | .program => True
  | .func id => id < ns.funcs.size
  | .param id => id < ns.vars.size
  | .stmt id => id < ns.stmts.size
  | .expr id => id < ns.exprs.size

/-- Resolves the names under a node, if there is a tree. -/
def visit? (ns : Nodes) : Visit → Option (Resolve Unit)
  | .program => ns.funcs?.map Resolve.funcs
  | .func id => (ns.func? id).map Resolve.func
  | .param id => (ns.var? id).map Resolve.declare
  | .stmt id => (ns.stmt? id).map Resolve.stmt
  | .expr id => (ns.expr? id).map Resolve.expr

/-- The variable that a visit of a node declares in the scope that is open. -/
def declared? (ns : Nodes) : Visit → Option Tree.Var
  | .param id => ns.var? id
  | .stmt id => (ns.stmt? id).bind Tree.Stmt.declared?
  | .program | .func _ | .expr _ => none

/-- Visits nodes one after another, also after a visit that fails. -/
def visitAll? (ns : Nodes) (visits : List Visit) (r : Resolver) : Option Resolver :=
  visits.foldlM (fun r v => (ns.visit? v).map fun act => (exec act r).2) r

theorem leaves_visit? {ns : Nodes} {v : Visit} {act : Resolve Unit} (h : ns.visit? v = some act) :
    Resolve.Leaves (Scopes.After (ns.declared? v)) act := by
  cases v with
  | program =>
    obtain ⟨fs, -, rfl⟩ := Option.map_eq_some_iff.1 h
    exact Resolve.leaves_funcs fs
  | func id =>
    obtain ⟨f, -, rfl⟩ := Option.map_eq_some_iff.1 h
    exact Resolve.leaves_func f
  | param id =>
    obtain ⟨v, hv, rfl⟩ := Option.map_eq_some_iff.1 h
    rw [declared?, hv]
    exact Resolve.leaves_declareOr _ v
  | stmt id =>
    obtain ⟨s, hs, rfl⟩ := Option.map_eq_some_iff.1 h
    rw [declared?, hs]
    exact Resolve.leaves_stmt s
  | expr id =>
    obtain ⟨e, -, rfl⟩ := Option.map_eq_some_iff.1 h
    exact Resolve.leaves_expr e

theorem Acyclic.exists_visit? {ns : Nodes} (h : ns.Acyclic) {v : Visit} (hv : ns.Holds v) :
    ∃ act, ns.visit? v = some act := by
  cases v with
  | program =>
    obtain ⟨fs, hfs⟩ := h.exists_funcs?
    exact ⟨_, by rw [visit?, hfs]; rfl⟩
  | func id =>
    obtain ⟨f, hf⟩ := h.exists_func? hv
    exact ⟨_, by rw [visit?, hf]; rfl⟩
  | param id =>
    obtain ⟨w, hw⟩ := Acyclic.exists_var? hv
    exact ⟨_, by rw [visit?, hw]; rfl⟩
  | stmt id =>
    obtain ⟨s, hs⟩ := h.exists_stmt? hv
    exact ⟨_, by rw [visit?, hs]; rfl⟩
  | expr id =>
    obtain ⟨e, he⟩ := h.exists_expr? hv
    exact ⟨_, by rw [visit?, he]; rfl⟩

/-- Visits one after another keep the number of scopes, and the names found after them are those
found before and those that they declare. -/
theorem Acyclic.exists_visitAll? {ns : Nodes} (h : ns.Acyclic) {visits : List Visit}
    (hvisits : ∀ v ∈ visits, ns.Holds v) {r : Resolver} (hr : r.scopes.stack ≠ []) :
    ∃ r', ns.visitAll? visits r = some r' ∧
      r'.scopes.stack.length = r.scopes.stack.length ∧ r.Grows r' ∧
      ∀ name, r'.scopes.lookup? name = none ↔
        r.scopes.lookup? name = none ∧ ∀ v ∈ visits, ∀ w ∈ ns.declared? v, w.name ≠ name := by
  induction visits generalizing r with
  | nil => exact ⟨r, rfl, rfl, .refl r, by simp⟩
  | cons v visits ih =>
    obtain ⟨act, hact⟩ := h.exists_visit? (hvisits v List.mem_cons_self)
    obtain ⟨hafter, hgrows⟩ := leaves_visit? hact r
    obtain ⟨added, hstack⟩ := hafter.extended
    have hlength : (exec act r).2.scopes.stack.length = r.scopes.stack.length := by
      rw [hstack, List.length_modifyHead]
    have hopen : (exec act r).2.scopes.stack ≠ [] := by
      rwa [← List.length_pos_iff, hlength, List.length_pos_iff]
    obtain ⟨r', hall, hlength', hgrows', hnames⟩ :=
      ih (fun v hv => hvisits v (List.mem_cons_of_mem _ hv)) hopen
    refine ⟨r', ?_, hlength'.trans hlength, hgrows.trans hgrows', fun name => ?_⟩
    · rw [visitAll?, List.foldlM_cons, hact]
      exact hall
    · rw [hnames, hafter.lookup?_eq_none_iff hr, List.forall_mem_cons, and_assoc]

/-- In nodes without cycles every visit of a node closes the scopes that it opens, whether it fails
or not. It leaves the scopes as they are, except that a parameter or a declaration leaves its
variable in the innermost one; functions stay known and expressions resolved. So a name is found
after a number of visits if and only if one of the visited nodes itself declares it. -/
theorem visits_restore_scopes {ns : Nodes} (h : ns.Acyclic) :
    (∀ v, ns.Holds v → ∃ act, ns.visit? v = some act ∧ ∀ r,
      Scopes.After (ns.declared? v) r.scopes (exec act r).2.scopes ∧ r.Grows (exec act r).2) ∧
    ∀ visits, (∀ v ∈ visits, ns.Holds v) → ∃ r, ns.visitAll? visits .initial = some r ∧
      ∀ name, r.scopes.lookup? name = none ↔
        ∀ v ∈ visits, ∀ w ∈ ns.declared? v, w.name ≠ name := by
  refine ⟨fun v hv => ?_, fun visits hvisits => ?_⟩
  · obtain ⟨act, hact⟩ := h.exists_visit? hv
    exact ⟨act, hact, leaves_visit? hact⟩
  · obtain ⟨r, hr, -, -, hnames⟩ :=
      h.exists_visitAll? hvisits (r := .initial) (List.cons_ne_nil _ _)
    refine ⟨r, hr, fun name => ?_⟩
    rw [hnames, and_iff_right]
    rfl

/-- A function that fails on an unknown name inside a loop inside a conditional, where the
declaration of `a` stands in both. -/
def sharedDecl : Nodes where
  funcs := #[⟨"f", [1], none, [3], ⟨0, 1, 1⟩⟩]
  vars := #[⟨.int, "a", ⟨1, 1, 2⟩⟩, ⟨.int, "p", ⟨2, 1, 3⟩⟩, ⟨.int, "i", ⟨3, 1, 4⟩⟩]
  stmts := #[.decl 0 0, .eval 1, .loop 2 0 0 0 [0, 1], .ifThen 0 [0, 2]]
  exprs := #[(.literal 1, ⟨4, 1, 5⟩), (.ident "x" [0], ⟨5, 1, 6⟩)]

theorem visits_restore_scopes_sharedDecl :
    sharedDecl.Acyclic ∧ ∃ r,
      sharedDecl.visitAll? [.func 0, .stmt 2, .stmt 0, .program, .stmt 0] .initial = some r ∧
      r.scopes.lookup? "a" ≠ none ∧ r.scopes.lookup? "p" = none ∧ r.scopes.lookup? "i" = none := by
  have hacyclic : sharedDecl.Acyclic := by
    refine .of_lt (by decide) ?_ ?_
    · rintro (_ | _ | id) child ⟨e, pos, he, hc⟩ <;> simp [sharedDecl] at he <;>
        obtain ⟨rfl, -⟩ := he <;> simp [Node.Expr.refs] at hc
      simp [hc]
    · rintro (_ | _ | _ | _ | id) child ⟨s, hs, hc⟩ <;> simp [sharedDecl] at hs <;> subst hs <;>
        simp [Node.Stmt.refs] at hc <;> rcases hc with rfl | rfl <;> decide
  obtain ⟨r, hr, hnames⟩ := (visits_restore_scopes hacyclic).2
    [.func 0, .stmt 2, .stmt 0, .program, .stmt 0] (by simp [Holds, sharedDecl])
  refine ⟨hacyclic, r, hr, ?_, ?_, ?_⟩
  · rw [ne_eq, hnames]
    decide
  · rw [hnames]
    decide
  · rw [hnames]
    decide

end Nodes
end PrimeLang
