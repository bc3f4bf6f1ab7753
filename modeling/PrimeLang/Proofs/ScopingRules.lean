import PrimeLang.Proofs.LexicalScoping

/-! # The rules of scoping

A program is well scoped if functions and the variables of a block have different names, if every
name used as a variable is visible, and if every call is of a function that no variable hides, with
as many arguments as it has parameters. These are exactly the programs whose names can be resolved,
and a name is resolved to what it denotes. -/

namespace PrimeLang

/-- `o` is met after `before` in a visit of the program. -/
def Program.Meets (p : Program) (before : List Occurrence) (o : Occurrence) : Prop :=
  ∃ after, p.visits = before ++ o :: after

/-- The rules of scoping. -/
structure Program.WellScoped (p : Program) : Prop where
  funcs : (p.funcs.map (·.name)).Nodup
  vars : ∀ b, ((declaredIn b p.visits).map Prod.fst).Nodup
  idents : ∀ ⦃before b site name⦄, p.Meets before ⟨b, .ident site name⟩ → Visible before b name
  calls : ∀ ⦃before b site name args⦄, p.Meets before ⟨b, .call site name args⟩ →
    ¬ Visible before b name ∧ ∃ f, DenotesFunc before name f ∧ f.params.length = args

/-! ## Names that are declared once -/

/-- What is picked from a list is picked once exactly if nothing is picked that was before. -/
theorem nodup_filterMap_iff {α β : Type} {f : α → Option β} {l : List α} :
    (l.filterMap f).Nodup ↔ ∀ pre a post b, l = pre ++ a :: post → f a = some b →
      b ∉ pre.filterMap f := by
  constructor
  · rintro h pre a post b rfl hb hmem
    rw [List.filterMap_append, List.filterMap_cons_some hb, List.nodup_append] at h
    exact h.2.2 b hmem b List.mem_cons_self rfl
  · intro h
    induction l using List.reverseRecOn with
    | nil => exact List.nodup_nil
    | append_singleton l a ih =>
      have hl : (l.filterMap f).Nodup := by
        refine ih fun pre a' post b heq => h pre a' (post ++ [a]) b ?_
        rw [heq, List.append_assoc, List.cons_append]
      rw [List.filterMap_append]
      cases ha : f a with
      | none => simpa [ha] using hl
      | some b =>
        have hnew := h l a [] b rfl ha
        rw [List.filterMap_cons_some ha, List.filterMap_nil, List.nodup_append]
        refine ⟨hl, List.pairwise_singleton _ b, ?_⟩
        intro x hx y hy hxy
        cases List.mem_singleton.1 hy
        exact hnew (hxy ▸ hx)

/-- The name that an occurrence gives to a function. -/
def Occurrence.funcName? : Occurrence → Option String
  | ⟨_, .func f⟩ => some f.name
  | _ => none

/-- The name that an occurrence gives to a variable of `b`. -/
def Occurrence.varName? (b : Block) : Occurrence → Option String
  | ⟨b', .var v _⟩ => if b' = b then some v.name else none
  | _ => none

theorem funcName?_eq_some {o : Occurrence} {name : String} :
    o.funcName? = some name ↔ ∃ b f, o = ⟨b, .func f⟩ ∧ f.name = name := by
  obtain ⟨b, e⟩ := o
  cases e <;> simp [Occurrence.funcName?]

theorem varName?_eq_some {b : Block} {o : Occurrence} {name : String} :
    o.varName? b = some name ↔ ∃ v paramOf, o = ⟨b, .var v paramOf⟩ ∧ v.name = name := by
  obtain ⟨b', e⟩ := o
  cases e with
  | var v paramOf =>
    by_cases hb : b' = b
    · simp [Occurrence.varName?, hb]
    · simp [Occurrence.varName?, hb]
  | _ => simp [Occurrence.varName?]

theorem map_fst_declaredIn (b : Block) (os : List Occurrence) :
    (declaredIn b os).map Prod.fst = os.filterMap (Occurrence.varName? b) := by
  rw [declaredIn, List.map_filterMap]
  congr 1
  funext o
  obtain ⟨b', e⟩ := o
  cases e with
  | var v paramOf => by_cases hb : b' = b <;> simp [Occurrence.varName?, hb]
  | _ => rfl

theorem funcName?_usesIn (e : Tree.Expr Site) (b : Block) :
    (e.usesIn b).filterMap Occurrence.funcName? = [] := by
  rw [List.filterMap_eq_nil_iff]
  intro o ho
  obtain ⟨u, hu, rfl⟩ := List.mem_map.1 ho
  obtain ⟨site, hsite⟩ := Tree.Expr.site?_of_mem_uses e hu
  cases u with
  | func f => exact nomatch hsite
  | _ => rfl

mutual

/-- Statements declare no functions. -/
theorem funcName?_stmtVisits : ∀ (s : Tree.Stmt) (b : Block) (i : Nat),
    (Stmt.visits b i s).filterMap Occurrence.funcName? = []
  | .decl v init, b, i => funcName?_usesIn init b
  | .ifThen cond body, b, i => by
    simp [Stmt.visits, funcName?_usesIn, funcName?_stmtVisitsOf body]
  | .ifElse cond body orElse, b, i => by
    simp [Stmt.visits, funcName?_usesIn, funcName?_stmtVisitsOf body,
      funcName?_stmtVisitsOf orElse]
  | .loop v init cond step body, b, i => by
    show ((init.usesIn _ ++ cond.usesIn _ ++ step.usesIn _ ++
      Stmt.visitsOf _ 0 body).filterMap Occurrence.funcName?) = _
    simp [funcName?_usesIn, funcName?_stmtVisitsOf body]
  | .ret none, b, i => by simp [Stmt.visits]
  | .ret (some e), b, i => by simp [Stmt.visits, funcName?_usesIn]
  | .eval e, b, i => by simp [Stmt.visits, funcName?_usesIn]

theorem funcName?_stmtVisitsOf : ∀ (ss : List Tree.Stmt) (b : Block) (i : Nat),
    (Stmt.visitsOf b i ss).filterMap Occurrence.funcName? = []
  | [], b, i => rfl
  | s :: ss, b, i => by
    simp [Stmt.visitsOf, funcName?_stmtVisits s, funcName?_stmtVisitsOf ss]

end

theorem funcName?_visits (p : Program) :
    p.visits.filterMap Occurrence.funcName? = p.funcs.map (·.name) := by
  unfold Program.visits
  generalize p.funcs = fs
  generalize 0 = k
  induction fs generalizing k with
  | nil => rfl
  | cons f fs ih =>
    have hparams : (f.params.map fun v => (⟨[k], .var v (some f.name)⟩ : Occurrence)).filterMap
        Occurrence.funcName? = [] := by
      rw [List.filterMap_map, List.filterMap_eq_nil_iff]
      exact fun _ _ => rfl
    have hfunc : (f.visits k).filterMap Occurrence.funcName? =
        f.name :: (f.params.map (fun v => (⟨[k], .var v (some f.name)⟩ : Occurrence)) ++
          Stmt.visitsOf [k] 0 f.body).filterMap Occurrence.funcName? := rfl
    rw [Tree.visitsFrom, List.filterMap_append, ih, hfunc, List.filterMap_append, hparams,
      funcName?_stmtVisitsOf]
    rfl

/-! ## The rules and the violations -/

theorem lawful_iff {h : List Occurrence} :
    Lawful h ↔ ¬ Met (fun early o => ∃ e, Violation early o e) h := by
  induction h with
  | nil => exact iff_of_true trivial (met_nil _)
  | cons o h ih => simp only [Lawful, met_cons, not_or, not_exists, ih]

namespace Program
variable {p : Program}

theorem met_reverse_iff {Q : List Occurrence → Occurrence → Prop}
    (hQ : ∀ before o, Q before.reverse o ↔ Q before o) :
    Met Q p.visits.reverse ↔ ∃ before o, p.Meets before o ∧ Q before o := by
  constructor
  · rintro ⟨late, o, early, h, hq⟩
    refine ⟨early.reverse, o, ⟨late.reverse, ?_⟩, (hQ early o).2 hq⟩
    rw [← List.reverse_reverse p.visits, h]
    simp
  · rintro ⟨before, o, ⟨after, h⟩, hq⟩
    exact ⟨after.reverse, o, before.reverse, by rw [h]; simp, (hQ before o).2 hq⟩

theorem violation_reverse_iff {before : List Occurrence} {o : Occurrence} {e : BindingError} :
    Violation before.reverse o e ↔ Violation before o e :=
  ⟨.congr fun _ => List.mem_reverse, .congr fun _ => List.mem_reverse.symm⟩

theorem denotesFunc_reverse_iff {before : List Occurrence} {name : String} {f : Tree.Func} :
    DenotesFunc before.reverse name f ↔ DenotesFunc before name f := by
  simp only [DenotesFunc, List.mem_reverse]

theorem denotes_reverse_iff {before : List Occurrence} {b : Block} {name : String} {v : Tree.Var} :
    Denotes before.reverse b name v ↔ Denotes before b name v := by
  simp only [Denotes, VisibleFrom, List.mem_reverse]

theorem lawful_visits_iff :
    Lawful p.visits.reverse ↔ ∀ before o, p.Meets before o → ∀ e, ¬ Violation before o e := by
  rw [lawful_iff, met_reverse_iff fun _ _ => by simp only [violation_reverse_iff]]
  simp only [not_exists, not_and]

theorem WellScoped.not_mem_of_varName (h : p.WellScoped) {before after : List Occurrence}
    {o o' : Occurrence} {b : Block} {name : String} (hsplit : p.visits = before ++ o :: after)
    (ho : o.varName? b = some name) (ho' : o' ∈ before) : o'.varName? b ≠ some name := by
  intro hname
  have hnodup := h.vars b
  rw [map_fst_declaredIn, nodup_filterMap_iff] at hnodup
  exact hnodup before o after name hsplit ho (List.mem_filterMap.2 ⟨o', ho', hname⟩)

theorem WellScoped.lawful (h : p.WellScoped) : Lawful p.visits.reverse := by
  rcases visit_spec p.visits (h := []) trivial with
    ⟨hl, -⟩ | ⟨before, o, after, e, hsplit, hl, he, -⟩
  · rwa [List.append_nil] at hl
  rw [List.append_nil] at hl he
  exfalso
  cases violation_reverse_iff.1 he with
  | duplicateFunction hg =>
    obtain ⟨hname, b, hg⟩ := hg
    have hnodup := h.funcs
    rw [← funcName?_visits, nodup_filterMap_iff] at hnodup
    apply hnodup before _ after _ hsplit rfl
    exact List.mem_filterMap.2 ⟨_, hg, congrArg some hname⟩
  | duplicateParameter hw hname =>
    exact h.not_mem_of_varName hsplit (varName?_eq_some.2 ⟨_, _, rfl, rfl⟩) hw
      (varName?_eq_some.2 ⟨_, _, rfl, hname⟩)
  | duplicateVariable hw hname =>
    exact h.not_mem_of_varName hsplit (varName?_eq_some.2 ⟨_, _, rfl, rfl⟩) hw
      (varName?_eq_some.2 ⟨_, _, rfl, hname⟩)
  | undefinedVariable hno => exact hno (h.idents ⟨after, hsplit⟩)
  | notAFunction hyes => exact (h.calls ⟨after, hsplit⟩).1 hyes
  | undefinedFunction _ hnone =>
    obtain ⟨-, f, hf, -⟩ := h.calls ⟨after, hsplit⟩
    exact hnone f hf
  | arity _ hf hargs =>
    obtain ⟨-, g, hg, rfl⟩ := h.calls ⟨after, hsplit⟩
    have hfg := hl.eq_of_denotesFunc (denotesFunc_reverse_iff.2 hf) (denotesFunc_reverse_iff.2 hg)
    exact hargs (by rw [hfg])

theorem nodup_varNames (h : ∀ before o, p.Meets before o → ∀ e, ¬ Violation before o e)
    (b : Block) : ((declaredIn b p.visits).map Prod.fst).Nodup := by
  rw [map_fst_declaredIn, nodup_filterMap_iff]
  intro before o after name hsplit ho hmem
  obtain ⟨v, paramOf, rfl, rfl⟩ := varName?_eq_some.1 ho
  obtain ⟨o, hbefore, ho'⟩ := List.mem_filterMap.1 hmem
  obtain ⟨w, paramOf', rfl, hname⟩ := varName?_eq_some.1 ho'
  cases paramOf with
  | none => exact h before _ ⟨after, hsplit⟩ _ (.duplicateVariable hbefore hname)
  | some func => exact h before _ ⟨after, hsplit⟩ _ (.duplicateParameter hbefore hname)

theorem nodup_funcNames (h : ∀ before o, p.Meets before o → ∀ e, ¬ Violation before o e) :
    (p.funcs.map (·.name)).Nodup := by
  rw [← funcName?_visits, nodup_filterMap_iff]
  intro before o after name hsplit ho hmem
  obtain ⟨b, f, rfl, rfl⟩ := funcName?_eq_some.1 ho
  obtain ⟨o, hbefore, ho'⟩ := List.mem_filterMap.1 hmem
  obtain ⟨b', g, rfl, hname⟩ := funcName?_eq_some.1 ho'
  exact h before _ ⟨after, hsplit⟩ _ (.duplicateFunction ⟨hname, b', hbefore⟩)

/-- A program is well scoped exactly if it violates no rule. -/
theorem wellScoped_iff : p.WellScoped ↔ Lawful p.visits.reverse := by
  refine ⟨WellScoped.lawful, fun hl => ?_⟩
  have h := lawful_visits_iff.1 hl
  refine ⟨nodup_funcNames h, nodup_varNames h, ?_, ?_⟩
  · intro before b site name hmeets
    by_contra hno
    exact h before _ hmeets _ (.undefinedVariable hno)
  · intro before b site name args hmeets
    have hno : ¬ Visible before b name := fun hyes => h before _ hmeets _ (.notAFunction hyes)
    refine ⟨hno, ?_⟩
    by_cases hf : ∃ f, DenotesFunc before name f
    · obtain ⟨f, hf⟩ := hf
      refine ⟨f, hf, ?_⟩
      by_contra hargs
      exact h before _ hmeets _ (.arity hno hf hargs)
    · exact absurd (.undefinedFunction hno (not_exists.1 hf)) (h before _ hmeets _)

/-! ## Resolution -/

theorem exists_denotes_of_visible {before : List Occurrence} {b : Block} {name : String}
    (h : Visible before b name) : ∃ v, Denotes before b name v := by
  cases hs : (scopesIn b before).lookup? name with
  | none => exact absurd h (lookup?_scopesIn_eq_none_iff.1 hs)
  | some var =>
    obtain ⟨v, hv, -⟩ := denotes_of_lookup?_scopesIn hs
    exact ⟨v, hv⟩

theorem exists_meets_of_mem_usesOf {u : Event} (hu : u ∈ usesOf p.visits) :
    ∃ before b, p.Meets before ⟨b, u⟩ := by
  obtain ⟨⟨b, e⟩, ho, he⟩ := List.mem_filterMap.1 hu
  obtain ⟨site, -, rfl⟩ := Option.map_eq_some_iff.1 he
  obtain ⟨before, after, hsplit⟩ := List.append_of_mem ho
  exact ⟨before, b, after, hsplit⟩

theorem mem_usesOf_of_meets {before : List Occurrence} {o : Occurrence} {site : Site}
    (h : p.Meets before o) (ho : o.event.site? = some site) : o.event ∈ usesOf p.visits := by
  obtain ⟨after, hsplit⟩ := h
  exact List.mem_filterMap.2 ⟨o, by rw [hsplit]; simp, by simp [ho]⟩

variable {R : Resolution}

theorem nodup_siteIds (hwf : p.WellFormed) : (Resolver.siteIds p.visits.reverse).Nodup := by
  have hrev : Resolver.siteIds p.visits.reverse =
      (((usesOf p.visits).filterMap Event.site?).map Site.id).reverse := by
    simp [Resolver.siteIds, usesOf, List.filterMap_reverse]
  rw [hrev, (List.reverse_perm _).nodup_iff]
  exact nodup_sites hwf

/-- A use of a variable is resolved to what the name denotes there. -/
theorem idents_get?_iff (hwf : p.WellFormed) (hR : p.resolve = .ok R) (id : ExprId) (var : VarId) :
    R.idents.get? id = some var ↔ ∃ before o, p.Meets before o ∧ BindsIdent id var before o := by
  obtain ⟨hl, rfl⟩ := resolve_eq_ok_iff.1 hR
  rw [(Resolver.resolved_get?_iff hl (nodup_siteIds hwf)).1, met_reverse_iff]
  intro before o
  simp only [BindsIdent, denotes_reverse_iff]

/-- A call is resolved to what the name denotes there. -/
theorem calls_get?_iff (hwf : p.WellFormed) (hR : p.resolve = .ok R) (id : ExprId) (func : FuncId) :
    R.calls.get? id = some func ↔ ∃ before o, p.Meets before o ∧ BindsCall id func before o := by
  obtain ⟨hl, rfl⟩ := resolve_eq_ok_iff.1 hR
  rw [(Resolver.resolved_get?_iff hl (nodup_siteIds hwf)).2, met_reverse_iff]
  intro before o
  simp only [BindsCall, denotesFunc_reverse_iff]

theorem exists_idents_get?_iff (hwf : p.WellFormed) (hR : p.resolve = .ok R) (id : ExprId) :
    (∃ var, R.idents.get? id = some var) ↔
      ∃ name indices pos, p.nodes.exprs[id]? = some (.ident name indices, pos) := by
  simp only [idents_get?_iff hwf hR]
  constructor
  · intro ⟨var, before, o, hmeets, site, name, v, ho, hid, hvar, hv⟩
    have hmem := mem_usesOf_of_meets hmeets (by rw [ho]; rfl)
    rw [ho, mem_usesOf_iff hwf] at hmem
    obtain ⟨site', -, node, hnode, hu⟩ := hmem
    cases node with
    | ident name' indices =>
      cases hu
      exact ⟨name, indices, site.pos, hid ▸ hnode⟩
    | _ => exact nomatch hu
  · intro ⟨name, indices, pos, hnode⟩
    obtain ⟨before, b, hmeets⟩ := exists_meets_of_mem_usesOf (mem_usesOf_of_node hwf hnode rfl)
    have hscoped := wellScoped_iff.2 (resolve_eq_ok_iff.1 hR).1
    obtain ⟨v, hv⟩ := exists_denotes_of_visible (hscoped.idents hmeets)
    exact ⟨v.id, before, _, hmeets, ⟨id, pos⟩, name, v, rfl, rfl, rfl, hv⟩

theorem exists_calls_get?_iff (hwf : p.WellFormed) (hR : p.resolve = .ok R) (id : ExprId) :
    (∃ func, R.calls.get? id = some func) ↔
      ∃ name args pos, p.nodes.exprs[id]? = some (.call name args, pos) := by
  simp only [calls_get?_iff hwf hR]
  constructor
  · intro ⟨func, before, o, hmeets, site, name, args, f, ho, hid, hfunc, hf⟩
    have hmem := mem_usesOf_of_meets hmeets (by rw [ho]; rfl)
    rw [ho, mem_usesOf_iff hwf] at hmem
    obtain ⟨site', -, node, hnode, hu⟩ := hmem
    cases node with
    | call name' args' =>
      cases hu
      exact ⟨name, args', site.pos, hid ▸ hnode⟩
    | _ => exact nomatch hu
  · intro ⟨name, args, pos, hnode⟩
    obtain ⟨before, b, hmeets⟩ := exists_meets_of_mem_usesOf (mem_usesOf_of_node hwf hnode rfl)
    have hscoped := wellScoped_iff.2 (resolve_eq_ok_iff.1 hR).1
    obtain ⟨-, f, hf, -⟩ := hscoped.calls hmeets
    exact ⟨f.id, before, _, hmeets, ⟨id, pos⟩, name, _, f, rfl, rfl, rfl, hf⟩

/-- `o` is the first thing in a visit that violates a rule, in the way that `e` says. -/
def FirstViolation (p : Program) (e : BindingError) : Prop :=
  ∃ before o, p.Meets before o ∧ Violation before o e ∧
    ∀ before' o', p.Meets before' o' → before'.length < before.length →
      ∀ e', ¬ Violation before' o' e'

theorem resolve_eq_error_iff_firstViolation {e : BindingError} :
    p.resolve = .error e ↔ p.FirstViolation e := by
  rw [resolve_eq_error_iff]
  constructor
  · intro ⟨before, o, after, hsplit, hl, hviol⟩
    refine ⟨before, o, ⟨after, hsplit⟩, violation_reverse_iff.1 hviol, ?_⟩
    intro before' o' ⟨after', hsplit'⟩ hlt e' hviol'
    rcases List.append_eq_append_iff.1 (hsplit'.symm.trans hsplit) with
      ⟨mid, rfl, hmid⟩ | ⟨mid, rfl, -⟩
    · cases mid with
      | nil => simp at hlt
      | cons o'' mid =>
        cases hmid
        exact hl.not_violation e' (violation_reverse_iff.2 hviol')
    · rw [List.length_append] at hlt
      omega
  · intro ⟨before, o, ⟨after, hsplit⟩, hviol, hfirst⟩
    refine ⟨before, o, after, hsplit, lawful_iff.2 ?_, violation_reverse_iff.2 hviol⟩
    intro ⟨late, o', early, hbefore, e', hviol'⟩
    have hbefore' : before = early.reverse ++ o' :: late.reverse := by
      rw [← List.reverse_reverse before, hbefore]
      simp
    refine hfirst early.reverse o' ⟨late.reverse ++ o :: after, ?_⟩ ?_ e'
      (violation_reverse_iff.2 hviol')
    · rw [hsplit, hbefore', List.append_assoc, List.cons_append]
    · rw [hbefore', List.length_append, List.length_cons]
      omega

/-- Names can be resolved exactly in well-scoped programs. Then every name that is used as a variable
and every call is resolved, and nothing else, to what it denotes; otherwise the error is that of the
first violation. -/
theorem resolve_implements_lexical_scoping {c : Cursor} (hp : ofTokens c = .ok p) :
    ((∃ R, p.resolve = .ok R) ↔ p.WellScoped) ∧
    (∀ R, p.resolve = .ok R →
      (∀ id, (∃ var, R.idents.get? id = some var) ↔
        ∃ name indices pos, p.nodes.exprs[id]? = some (.ident name indices, pos)) ∧
      (∀ id var, R.idents.get? id = some var ↔
        ∃ before b site name v, p.Meets before ⟨b, .ident site name⟩ ∧ site.id = id ∧ v.id = var ∧
          Denotes before b name v) ∧
      (∀ id, (∃ func, R.calls.get? id = some func) ↔
        ∃ name args pos, p.nodes.exprs[id]? = some (.call name args, pos)) ∧
      (∀ id func, R.calls.get? id = some func ↔
        ∃ before b site name args f, p.Meets before ⟨b, .call site name args⟩ ∧ site.id = id ∧
          f.id = func ∧ DenotesFunc before name f)) ∧
    ∀ e, p.resolve = .error e ↔ p.FirstViolation e := by
  have hwf := ofTokens_wellFormed hp
  refine ⟨?_, ?_, fun e => resolve_eq_error_iff_firstViolation⟩
  · rw [wellScoped_iff]
    exact ⟨fun ⟨R, hR⟩ => (resolve_eq_ok_iff.1 hR).1, fun hl => ⟨_, resolve_eq_ok_iff.2 ⟨hl, rfl⟩⟩⟩
  · intro R hR
    refine ⟨exists_idents_get?_iff hwf hR, fun id var => ?_, exists_calls_get?_iff hwf hR,
      fun id func => ?_⟩
    · rw [idents_get?_iff hwf hR]
      constructor
      · intro ⟨before, ⟨b, e⟩, hmeets, site, name, v, ho, hid, hvar, hv⟩
        cases ho
        exact ⟨before, b, site, name, v, hmeets, hid, hvar, hv⟩
      · intro ⟨before, b, site, name, v, hmeets, hid, hvar, hv⟩
        exact ⟨before, _, hmeets, site, name, v, rfl, hid, hvar, hv⟩
    · rw [calls_get?_iff hwf hR]
      constructor
      · intro ⟨before, ⟨b, e⟩, hmeets, site, name, args, f, ho, hid, hfunc, hf⟩
        cases ho
        exact ⟨before, b, site, name, args, f, hmeets, hid, hfunc, hf⟩
      · intro ⟨before, b, site, name, args, f, hmeets, hid, hfunc, hf⟩
        exact ⟨before, _, hmeets, site, name, args, f, rfl, hid, hfunc, hf⟩

theorem exists_resolve_of_eval (text : String) (h : (match parse text with
      | .ok p => p.resolve.isOk
      | .error _ => false) = true) : ∃ p R, parse text = .ok p ∧ p.resolve = .ok R := by
  cases hp : parse text with
  | error e =>
    rw [hp] at h
    exact nomatch h
  | ok p =>
    rw [hp] at h
    change p.resolve.isOk = true at h
    cases hR : p.resolve with
    | error e =>
      rw [hR] at h
      exact nomatch h
    | ok R => exact ⟨p, R, rfl, hR⟩

/-- A parameter, a variable of its name in an inner block, and a recursive call. -/
def shadowingText : String :=
  "func f(int x) -> int \x7b if x \x7b int x := x - 1; return f(x); \x7d return x; \x7d"

theorem resolve_implements_lexical_scoping_shadowing :
    ∃ p, parse shadowingText = .ok p ∧ p.WellScoped ∧ ∃ R, p.resolve = .ok R := by
  obtain ⟨p, R, hp, hR⟩ := exists_resolve_of_eval shadowingText (by decide +kernel)
  exact ⟨p, hp, (resolve_implements_lexical_scoping hp).1.1 ⟨R, hR⟩, R, hR⟩

end Program
end PrimeLang
