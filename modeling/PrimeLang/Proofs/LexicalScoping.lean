import PrimeLang.Proofs.ResolverRuns

/-! # The resolver implements lexical scoping

What the scopes of the resolver answer is what visibility says (`lookup?_scopesIn_eq_none_iff`,
`denotes_of_lookup?_scopesIn`), so the resolver stops at the first violation of a scoping rule and
nowhere else (`visit_spec`), and what it has resolved until then is what the names denote. -/

namespace PrimeLang

/-! ## What scopes answer -/

section
variable {b : Block} {h : List Occurrence} {name : String}

theorem mem_declaredIn {var : VarId} :
    (name, var) ∈ declaredIn b h ↔
      ∃ v paramOf, ⟨b, .var v paramOf⟩ ∈ h ∧ v.name = name ∧ v.id = var := by
  simp only [declaredIn, List.mem_filterMap]
  constructor
  · rintro ⟨⟨b', e⟩, ho, he⟩
    cases e with
    | var v paramOf =>
      by_cases hb : b' = b
      · subst hb
        exact ⟨v, paramOf, ho, by simpa using he⟩
      · simp [hb] at he
    | _ => cases he
  · rintro ⟨v, paramOf, ho, rfl, rfl⟩
    exact ⟨_, ho, if_pos rfl⟩

theorem mem_declaredFuncs {c : Callee} :
    (name, c) ∈ declaredFuncs h ↔ ∃ f, DenotesFunc h name f ∧ c = ⟨f.id, f.params.length⟩ := by
  simp only [declaredFuncs, List.mem_filterMap]
  constructor
  · rintro ⟨⟨b', e⟩, ho, he⟩
    cases e with
    | func f =>
      simp only [Option.some.injEq, Prod.mk.injEq] at he
      exact ⟨f, ⟨he.1, b', ho⟩, he.2.symm⟩
    | _ => exact nomatch he
  · rintro ⟨f, ⟨rfl, b', ho⟩, rfl⟩
    exact ⟨_, ho, rfl⟩

theorem lookup_declaredIn_eq_none_iff :
    (declaredIn b h).lookup name = none ↔
      ∀ v paramOf, ⟨b, .var v paramOf⟩ ∈ h → v.name ≠ name := by
  rw [List.lookup_eq_none_iff]
  constructor
  · rintro hn v paramOf hv rfl
    simpa using hn _ (mem_declaredIn.2 ⟨v, paramOf, hv, rfl, rfl⟩)
  · rintro hn ⟨k, var⟩ hp
    obtain ⟨v, paramOf, hv, rfl, -⟩ := mem_declaredIn.1 hp
    simpa using (hn v paramOf hv).symm

theorem mem_of_lookup_declaredIn {var : VarId} (hl : (declaredIn b h).lookup name = some var) :
    ∃ v paramOf, ⟨b, .var v paramOf⟩ ∈ h ∧ v.name = name ∧ v.id = var := by
  obtain ⟨l₁, l₂, hsplit, -⟩ := List.lookup_eq_some_iff.1 hl
  exact mem_declaredIn.1 (hsplit ▸ by simp)

theorem lookup_declaredFuncs_eq_none_iff :
    (declaredFuncs h).lookup name = none ↔ ∀ f, ¬ DenotesFunc h name f := by
  rw [List.lookup_eq_none_iff]
  constructor
  · rintro hn f hf
    simpa using hn _ (mem_declaredFuncs.2 ⟨f, hf, rfl⟩)
  · rintro hn ⟨k, c⟩ hp
    obtain ⟨f, hf, -⟩ := mem_declaredFuncs.1 hp
    rw [bne_iff_ne]
    rintro rfl
    exact hn f hf

theorem mem_of_lookup_declaredFuncs {c : Callee} (hl : (declaredFuncs h).lookup name = some c) :
    ∃ f, DenotesFunc h name f ∧ c = ⟨f.id, f.params.length⟩ := by
  obtain ⟨l₁, l₂, hsplit, -⟩ := List.lookup_eq_some_iff.1 hl
  exact mem_declaredFuncs.1 (hsplit ▸ by simp)

/-- Scopes know no variable of a name exactly if none is visible. -/
theorem lookup?_scopesIn_eq_none_iff :
    (scopesIn b h).lookup? name = none ↔ ¬ Visible h b name := by
  simp only [Scopes.lookup?, scopesIn, List.findSome?_map, List.findSome?_eq_none_iff,
    List.mem_tails, Function.comp, lookup_declaredIn_eq_none_iff]
  constructor
  · rintro hn ⟨outer, v, ⟨ho, paramOf, hv⟩, hname⟩
    exact hn outer ho v paramOf hv hname
  · rintro hn outer ho v paramOf hv hname
    exact hn ⟨outer, v, ⟨ho, paramOf, hv⟩, hname⟩

theorem pairwise_tails (b : Block) : b.tails.Pairwise fun x y => y <:+ x := by
  induction b with
  | nil => simp
  | cons i b ih =>
    rw [List.tails_cons, List.pairwise_cons]
    exact ⟨fun x hx => ((List.mem_tails _ _).1 hx).trans (List.suffix_cons i b), ih⟩

/-- What scopes know of a name is the variable in the innermost block. -/
theorem denotes_of_lookup?_scopesIn {var : VarId}
    (hl : (scopesIn b h).lookup? name = some var) : ∃ v, Denotes h b name v ∧ v.id = var := by
  simp only [Scopes.lookup?, scopesIn, List.findSome?_map] at hl
  obtain ⟨inner, outer, rest, htails, hlookup, hinner⟩ := List.findSome?_eq_some_iff.1 hl
  obtain ⟨v, paramOf, hv, hname, hid⟩ := mem_of_lookup_declaredIn hlookup
  have ho : outer <:+ b := (List.mem_tails _ _).1 (htails ▸ by simp)
  refine ⟨v, ⟨hname, outer, ⟨ho, paramOf, hv⟩, ?_⟩, hid⟩
  rintro outer' v' ⟨ho', paramOf', hv'⟩ hname'
  have hmem := (List.mem_tails _ _).2 ho'
  have hsorted := pairwise_tails b
  rw [htails, List.mem_append, List.mem_cons] at hmem
  rw [htails, List.pairwise_append] at hsorted
  rcases hmem with hmem | rfl | hmem
  · exact absurd hname' (lookup_declaredIn_eq_none_iff.1 (hinner outer' hmem) v' paramOf' hv')
  · exact List.suffix_rfl
  · exact (List.pairwise_cons.1 hsorted.2.1).1 outer' hmem

end

/-! ## Violations -/

theorem Violation.congr {before before' : List Occurrence} (hmem : ∀ o, o ∈ before ↔ o ∈ before')
    {o : Occurrence} {e : BindingError} (h : Violation before o e) : Violation before' o e := by
  have hfunc : ∀ name f, DenotesFunc before name f ↔ DenotesFunc before' name f := by
    simp only [DenotesFunc, hmem, implies_true]
  have hvisible : ∀ b name, Visible before b name ↔ Visible before' b name := by
    simp only [Visible, VisibleFrom, hmem, implies_true]
  cases h with
  | duplicateFunction h => exact .duplicateFunction ((hfunc _ _).1 h)
  | duplicateParameter h hname => exact .duplicateParameter ((hmem _).1 h) hname
  | duplicateVariable h hname => exact .duplicateVariable ((hmem _).1 h) hname
  | undefinedVariable h => exact .undefinedVariable (mt (hvisible _ _).2 h)
  | notAFunction h => exact .notAFunction ((hvisible _ _).1 h)
  | undefinedFunction h hf =>
    exact .undefinedFunction (mt (hvisible _ _).2 h) fun f => mt (hfunc _ f).2 (hf f)
  | arity h hf hargs => exact .arity (mt (hvisible _ _).2 h) ((hfunc _ _).1 hf) hargs

/-- A history in which nothing violates a rule. -/
def Lawful : List Occurrence → Prop
  | [] => True
  | o :: h => (∀ e, ¬ Violation h o e) ∧ Lawful h

namespace Lawful
variable {h : List Occurrence}

/-- A block has one variable of a name at most. -/
theorem eq_of_name {b : Block} {v w : Tree.Var} {p q : Option String} (hl : Lawful h)
    (hv : ⟨b, .var v p⟩ ∈ h) (hw : ⟨b, .var w q⟩ ∈ h) (hname : v.name = w.name) : v = w := by
  induction h with
  | nil => exact nomatch hv
  | cons o h ih =>
    have hnew : ∀ {v w : Tree.Var} {p q : Option String}, o = ⟨b, .var v p⟩ →
        ⟨b, .var w q⟩ ∈ h → w.name ≠ v.name := by
      rintro v w p q rfl hmem hname
      cases p with
      | none => exact hl.1 _ (.duplicateVariable hmem hname)
      | some func => exact hl.1 _ (.duplicateParameter hmem hname)
    rcases List.mem_cons.1 hv with hv | hv
    · rcases List.mem_cons.1 hw with hw | hw
      · cases hv.trans hw.symm
        rfl
      · exact absurd hname.symm (hnew hv.symm hw)
    · rcases List.mem_cons.1 hw with hw | hw
      · exact absurd hname (hnew hw.symm hv)
      · exact ih hl.2 hv hw

/-- There is one function of a name at most. -/
theorem eq_of_denotesFunc {name : String} {f g : Tree.Func} (hl : Lawful h)
    (hf : DenotesFunc h name f) (hg : DenotesFunc h name g) : f = g := by
  obtain ⟨rfl, b, hf⟩ := hf
  obtain ⟨hname, b', hg⟩ := hg
  induction h with
  | nil => exact nomatch hf
  | cons o h ih =>
    have hnew : ∀ {f g : Tree.Func} {b b' : Block}, o = ⟨b, .func f⟩ → ⟨b', .func g⟩ ∈ h →
        g.name ≠ f.name := by
      rintro f g b b' rfl hmem hname
      exact hl.1 _ (.duplicateFunction ⟨hname, b', hmem⟩)
    rcases List.mem_cons.1 hf with hf | hf
    · rcases List.mem_cons.1 hg with hg | hg
      · cases hf.trans hg.symm
        rfl
      · exact absurd hname (hnew hf.symm hg)
    · rcases List.mem_cons.1 hg with hg | hg
      · exact absurd hname.symm (hnew hg.symm hf)
      · exact ih hl.2 hf hg

/-- A name denotes one variable at most. -/
theorem eq_of_denotes {b : Block} {name : String} {v w : Tree.Var} (hl : Lawful h)
    (hv : Denotes h b name v) (hw : Denotes h b name w) : v = w := by
  obtain ⟨hvname, outer, hvis, hinner⟩ := hv
  obtain ⟨hwname, outer', hvis', hinner'⟩ := hw
  have heq : outer' = outer :=
    (hinner outer' w hvis' hwname).eq_of_length_le (hinner' outer v hvis hvname).length_le
  subst heq
  obtain ⟨-, p, hv⟩ := hvis
  obtain ⟨-, q, hw⟩ := hvis'
  exact hl.eq_of_name hv hw (hvname.trans hwname.symm)

end Lawful

namespace Resolver
variable {h : List Occurrence} {b : Block}

theorem declareFunc_after {f : Tree.Func} {e : BindingError} :
    (after h b).declareFunc f = .error e ↔ Violation h ⟨b, .func f⟩ e := by
  have hlookup := @lookup_declaredFuncs_eq_none_iff h f.name
  rw [declareFunc, funcs_after]
  cases hl : (declaredFuncs h).lookup f.name with
  | none =>
    constructor
    · intro he
      cases he
    · intro hv
      cases hv with
      | duplicateFunction hg => exact absurd hg (hlookup.1 hl _)
  | some c =>
    obtain ⟨g, hg, -⟩ := mem_of_lookup_declaredFuncs hl
    constructor
    · intro he
      cases he
      exact .duplicateFunction hg
    · intro hv
      cases hv
      rfl

theorem declare?_scopesIn_eq_none_iff {v : Tree.Var} :
    (scopesIn b h).declare? v.name v.id = none ↔
      ∃ w paramOf, ⟨b, .var w paramOf⟩ ∈ h ∧ w.name = v.name := by
  have htails : b.tails = b :: b.tails.tail := by cases b <;> simp
  have hlookup := @lookup_declaredIn_eq_none_iff b h v.name
  simp only [scopesIn, Scopes.declare?]
  rw [htails, List.map_cons]
  cases hl : (declaredIn b h).lookup v.name with
  | none =>
    simp only [hl, Option.isSome_none, Bool.false_eq_true, if_false, reduceCtorEq, false_iff,
      not_exists, not_and]
    exact hlookup.1 hl
  | some var =>
    obtain ⟨w, paramOf, hw, hname, -⟩ := mem_of_lookup_declaredIn hl
    simp only [hl, Option.isSome_some, if_true, true_iff]
    exact ⟨w, paramOf, hw, hname⟩

theorem declare_after {v : Tree.Var} {e error : BindingError} :
    (after h b).declare error v = .error e ↔
      e = error ∧ ∃ w paramOf, ⟨b, .var w paramOf⟩ ∈ h ∧ w.name = v.name := by
  rw [← declare?_scopesIn_eq_none_iff, declare, scopes_after]
  cases (scopesIn b h).declare? v.name v.id <;> simp [eq_comm]

theorem variableOf_after {name : String} {pos : Pos} {e : BindingError} :
    (after h b).variableOf name pos = .error e ↔
      ¬ Visible h b name ∧ e = .undefinedVariable name pos := by
  rw [← lookup?_scopesIn_eq_none_iff, variableOf, scopes_after]
  cases (scopesIn b h).lookup? name <;> simp [eq_comm]

theorem calleeOf_after (hl : Lawful h) {site : Site} {name : String} {args : Nat}
    {e : BindingError} :
    (after h b).calleeOf name args site.pos = .error e ↔
      Violation h ⟨b, .call site name args⟩ e := by
  have hvisible := @lookup?_scopesIn_eq_none_iff b h name
  have hfuncs := @lookup_declaredFuncs_eq_none_iff h name
  rw [calleeOf, scopes_after, funcs_after]
  cases hs : (scopesIn b h).lookup? name with
  | some var =>
    have hyes : Visible h b name := not_not.1 (mt hvisible.2 (by simp [hs]))
    constructor
    · intro he
      cases he
      exact .notAFunction hyes
    · rintro (_ | _ | _ | _ | _ | hno | hno)
      · rfl
      · exact absurd hyes hno
      · exact absurd hyes hno
  | none =>
    have hno := hvisible.1 hs
    cases hl' : (declaredFuncs h).lookup name with
    | none =>
      have hnone := hfuncs.1 hl'
      constructor
      · intro he
        cases he
        exact .undefinedFunction hno hnone
      · rintro (_ | _ | _ | _ | hyes | _ | ⟨_, hf, _⟩)
        · exact absurd hyes hno
        · rfl
        · exact absurd hf (hnone _)
    | some c =>
      obtain ⟨f, hf, rfl⟩ := mem_of_lookup_declaredFuncs hl'
      simp only [Option.isSome_none, Bool.false_eq_true, if_false]
      constructor
      · intro he
        split at he
        · cases he
        · next hargs =>
          cases he
          exact .arity hno hf hargs
      · rintro (_ | _ | _ | _ | hyes | ⟨_, hnone⟩ | ⟨_, hg, hargs⟩)
        · exact absurd hyes hno
        · exact absurd hf (hnone f)
        · cases hl.eq_of_denotesFunc hf hg
          rw [if_neg hargs]

private theorem map_eq_error {ε α β : Type} {x : Except ε α} {g : α → β} {e : ε} :
    x.map g = .error e ↔ x = .error e := by
  cases x <;> simp [Except.map]

/-- The resolver fails where a rule is violated, with the error for that. -/
theorem meet_after_eq_error_iff (hl : Lawful h) {e : Event} {err : BindingError} :
    (after h b).meet e = .error err ↔ Violation h ⟨b, e⟩ err := by
  cases e with
  | func f => exact declareFunc_after
  | var v paramOf =>
    cases paramOf with
    | none =>
      rw [meet, declare_after]
      constructor
      · rintro ⟨rfl, w, p, hw, hname⟩
        exact .duplicateVariable hw hname
      · rintro (_ | _ | ⟨hw, hname⟩)
        exact ⟨rfl, _, _, hw, hname⟩
    | some func =>
      rw [meet, declare_after]
      constructor
      · rintro ⟨rfl, w, p, hw, hname⟩
        exact .duplicateParameter hw hname
      · rintro (_ | ⟨hw, hname⟩)
        exact ⟨rfl, _, _, hw, hname⟩
  | ident site name =>
    rw [meet, map_eq_error, variableOf_after]
    constructor
    · rintro ⟨hno, rfl⟩
      exact .undefinedVariable hno
    · rintro (_ | _ | _ | hno)
      exact ⟨hno, rfl⟩
  | call site name args =>
    rw [meet, map_eq_error, calleeOf_after hl]

end Resolver

/-! ## The first violation -/

theorem Lawful.of_append {os h : List Occurrence} (hl : Lawful (os ++ h)) : Lawful h := by
  induction os with
  | nil => exact hl
  | cons o os ih => exact ih hl.2

/-- A visit either goes through, or ends at the first violation. -/
theorem visit_spec (os : List Occurrence) {h : List Occurrence} (hl : Lawful h) :
    (Lawful (os.reverse ++ h) ∧ visit os h = (.ok (), os.reverse ++ h)) ∨
      ∃ pre o post e, os = pre ++ o :: post ∧ Lawful (pre.reverse ++ h) ∧
        Violation (pre.reverse ++ h) o e ∧ visit os h = (.error e, pre.reverse ++ h) := by
  induction os generalizing h with
  | nil => exact .inl ⟨hl, rfl⟩
  | cons o os ih =>
    rw [visit]
    cases hm : (Resolver.after h o.block).meet o.event with
    | ok r =>
      have hno : ∀ e, ¬ Violation h o e := by
        intro e he
        cases hm.symm.trans ((Resolver.meet_after_eq_error_iff hl).2 he)
      rcases ih (h := o :: h) ⟨hno, hl⟩ with ⟨hok, hv⟩ | ⟨pre, o', post, e, rfl, hpre, hviol, hv⟩
      · exact .inl ⟨by simpa using hok, by simpa using hv⟩
      · refine .inr ⟨o :: pre, o', post, e, rfl, ?_⟩
        simpa using ⟨hpre, hviol, hv⟩
    | error err =>
      exact .inr ⟨[], o, os, err, rfl, hl, (Resolver.meet_after_eq_error_iff hl).1 hm, rfl⟩

/-- One place violates the rules in one way. -/
theorem Violation.unique {h : List Occurrence} {o : Occurrence} {e e' : BindingError}
    (hl : Lawful h) (he : Violation h o e) (he' : Violation h o e') : e = e' := by
  have := (Resolver.meet_after_eq_error_iff hl).2 he
  rw [(Resolver.meet_after_eq_error_iff hl).2 he'] at this
  cases this
  rfl

/-- Before a place that is followed by a lawful history, nothing is violated there. -/
theorem Lawful.not_violation {pre post : List Occurrence} {o : Occurrence}
    (hl : Lawful (pre ++ o :: post).reverse) (e : BindingError) : ¬ Violation pre.reverse o e := by
  rw [List.reverse_append, List.reverse_cons, List.append_assoc] at hl
  exact hl.of_append.1 e

/-- Two places cannot both be the first that violates a rule. -/
theorem firstViolation_unique {pre pre' post post' : List Occurrence} {o o' : Occurrence}
    {e e' : BindingError} (heq : pre ++ o :: post = pre' ++ o' :: post')
    (hl : Lawful pre.reverse) (he : Violation pre.reverse o e) (hl' : Lawful pre'.reverse)
    (he' : Violation pre'.reverse o' e') : e = e' := by
  rcases List.append_eq_append_iff.1 heq with ⟨mid, rfl, hmid⟩ | ⟨mid, rfl, hmid⟩
  · cases mid with
    | nil =>
      cases hmid
      rw [List.append_nil] at he'
      exact he.unique hl he'
    | cons o'' mid =>
      cases hmid
      exact absurd he (hl'.not_violation e)
  · cases mid with
    | nil =>
      cases hmid
      rw [List.append_nil] at he
      exact he.unique hl' he'
    | cons o'' mid =>
      cases hmid
      exact absurd he' (hl.not_violation e')

namespace Program
variable {p : Program}

theorem resolve_eq_ok_iff {R : Resolution} :
    p.resolve = .ok R ↔ Lawful p.visits.reverse ∧ R = Resolver.resolved p.visits.reverse := by
  rw [resolve_eq]
  rcases visit_spec p.visits (h := []) trivial with ⟨hl, hv⟩ | ⟨pre, o, post, e, hsplit, -, hviol, hv⟩
  · rw [List.append_nil] at hl hv
    rw [hv]
    simp [hl, Except.map, eq_comm]
  · rw [List.append_nil] at hviol
    rw [hv, hsplit]
    constructor
    · intro h
      cases h
    · intro h
      exact absurd hviol (h.1.not_violation e)

theorem resolve_eq_error_iff {e : BindingError} :
    p.resolve = .error e ↔ ∃ pre o post, p.visits = pre ++ o :: post ∧ Lawful pre.reverse ∧
      Violation pre.reverse o e := by
  rw [resolve_eq]
  rcases visit_spec p.visits (h := []) trivial with ⟨hl, hv⟩ | ⟨pre, o, post, e', hsplit, hl, hviol, hv⟩
  · rw [List.append_nil] at hl hv
    rw [hv]
    refine ⟨fun h => (nomatch h), ?_⟩
    rintro ⟨pre, o, post, hsplit, -, hviol⟩
    rw [hsplit] at hl
    exact absurd hviol (hl.not_violation e)
  · rw [List.append_nil] at hl hviol
    rw [hv]
    constructor
    · intro h
      cases h
      exact ⟨pre, o, post, hsplit, hl, hviol⟩
    · rintro ⟨pre', o', post', hsplit', hl', hviol'⟩
      rw [firstViolation_unique (hsplit.symm.trans hsplit') hl hviol hl' hviol']
      rfl

end Program

/-! ## What is resolved -/

/-- Something in a history has the property `Q` with respect to what was visited before. -/
def Met (Q : List Occurrence → Occurrence → Prop) (h : List Occurrence) : Prop :=
  ∃ late o early, h = late ++ o :: early ∧ Q early o

theorem met_nil (Q : List Occurrence → Occurrence → Prop) : ¬ Met Q [] := by
  rintro ⟨late, o, early, h, -⟩
  cases late <;> exact nomatch h

theorem met_cons {Q : List Occurrence → Occurrence → Prop} {o : Occurrence}
    {h : List Occurrence} : Met Q (o :: h) ↔ Q h o ∨ Met Q h := by
  constructor
  · rintro ⟨late, o', early, heq, hq⟩
    rcases List.cons_eq_append_iff.1 heq with ⟨rfl, heq⟩ | ⟨late, rfl, rfl⟩
    · cases heq
      exact .inl hq
    · exact .inr ⟨late, o', early, rfl, hq⟩
  · rintro (hq | ⟨late, o', early, rfl, hq⟩)
    · exact ⟨[], o, h, rfl, hq⟩
    · exact ⟨o :: late, o', early, rfl, hq⟩

/-- The use of a variable at the node `id`, where its name denotes `var`. -/
def BindsIdent (id : ExprId) (var : VarId) (before : List Occurrence) (o : Occurrence) : Prop :=
  ∃ site name v, o.event = .ident site name ∧ site.id = id ∧ v.id = var ∧
    Denotes before o.block name v

/-- The call at the node `id` of what its name denotes. -/
def BindsCall (id : ExprId) (func : FuncId) (before : List Occurrence) (o : Occurrence) : Prop :=
  ∃ site name args f, o.event = .call site name args ∧ site.id = id ∧ f.id = func ∧
    DenotesFunc before name f

namespace Resolver
variable {h : List Occurrence} {b : Block} {site : Site} {name : String}

theorem resolved_cons_ident (hl : Lawful (⟨b, .ident site name⟩ :: h)) :
    ∃ v, Denotes h b name v ∧ resolved (⟨b, .ident site name⟩ :: h) =
      { resolved h with idents := (resolved h).idents.insert site.id v.id } := by
  cases hs : (scopesIn b h).lookup? name with
  | none =>
    exact absurd (.undefinedVariable (lookup?_scopesIn_eq_none_iff.1 hs)) (hl.1 _)
  | some var =>
    obtain ⟨v, hv, rfl⟩ := denotes_of_lookup?_scopesIn hs
    have hm : (after h b).meet (.ident site name) = .ok ((after h b).bindIdent site.id v.id) := by
      simp [meet, variableOf, hs, Except.map]
    exact ⟨v, hv, resolved_cons (o := ⟨b, .ident site name⟩) hm⟩

theorem resolved_cons_call {args : Nat} (hl : Lawful (⟨b, .call site name args⟩ :: h)) :
    ∃ f, DenotesFunc h name f ∧ resolved (⟨b, .call site name args⟩ :: h) =
      { resolved h with calls := (resolved h).calls.insert site.id f.id } := by
  cases hc : (after h b).calleeOf name args site.pos with
  | error e => exact absurd ((calleeOf_after hl.2).1 hc) (hl.1 e)
  | ok func =>
    have hm : (after h b).meet (.call site name args) = .ok ((after h b).bindCall site.id func) := by
      simp [meet, hc, Except.map]
    have hf : ∃ f, DenotesFunc h name f ∧ f.id = func := by
      unfold calleeOf at hc
      split at hc
      · exact nomatch hc
      · split at hc
        · exact nomatch hc
        · next c hlookup =>
          obtain ⟨f, hf, rfl⟩ := mem_of_lookup_declaredFuncs hlookup
          split at hc
          · cases hc
            exact ⟨f, hf, rfl⟩
          · exact nomatch hc
    obtain ⟨f, hf, rfl⟩ := hf
    exact ⟨f, hf, resolved_cons (o := ⟨b, .call site name args⟩) hm⟩

theorem resolved_cons_decl {o : Occurrence} (ho : o.event.site? = none) :
    resolved (o :: h) = resolved h := by
  cases hm : (after h o.block).meet o.event with
  | error e =>
    unfold after at hm
    rw [resolved, hm]
  | ok r =>
    rw [resolved_cons hm]
    obtain ⟨b, e⟩ := o
    cases e with
    | func f =>
      simp only [meet, declareFunc] at hm
      split at hm
      · cases hm
      · cases hm
        rfl
    | var v paramOf =>
      obtain ⟨error, hm⟩ : ∃ error, (after h b).declare error v = .ok r := by
        cases paramOf <;> exact ⟨_, hm⟩
      rw [declare] at hm
      split at hm
      · cases hm
        rfl
      · cases hm
    | _ => cases ho

/-- The numbers of the nodes at which a history uses names. -/
def siteIds (h : List Occurrence) : List ExprId :=
  ((usesOf h).filterMap Event.site?).map Site.id

theorem mem_siteIds {o : Occurrence} {h late early : List Occurrence}
    (hh : h = late ++ o :: early) (ho : o.event.site? = some site) : site.id ∈ siteIds h := by
  refine List.mem_map.2 ⟨site, List.mem_filterMap.2 ⟨o.event, ?_, ho⟩, rfl⟩
  exact List.mem_filterMap.2 ⟨o, hh ▸ by simp, by simp [ho]⟩

theorem siteIds_cons {o : Occurrence} (ho : o.event.site? = some site) :
    siteIds (o :: h) = site.id :: siteIds h := by
  simp [siteIds, usesOf, ho]

theorem siteIds_cons_decl {o : Occurrence} (ho : o.event.site? = none) :
    siteIds (o :: h) = siteIds h := by
  simp [siteIds, usesOf, ho]

/-- One more entry, at the node of one more use, keeps a table in step with a history. -/
theorem get?_insert_iff_met {α : Type} {t : Table α} {a : α} {o : Occurrence}
    {Q : ExprId → α → List Occurrence → Occurrence → Prop}
    (hQ : ∀ id x early o, Q id x early o → ∃ site, o.event.site? = some site ∧ site.id = id)
    (hnew : site.id ∉ siteIds h) (ho : ∀ id x, Q id x h o ↔ site.id = id ∧ a = x)
    (ih : ∀ id x, t.get? id = some x ↔ Met (Q id x) h) (id : ExprId) (x : α) :
    (t.insert site.id a).get? id = some x ↔ Met (Q id x) (o :: h) := by
  rw [Table.get?_insert, met_cons, ho]
  by_cases hid : id = site.id
  · have hno : ¬ Met (Q id x) h := by
      rintro ⟨late, o', early, hh, hq⟩
      obtain ⟨site', hsite, hid'⟩ := hQ id x early o' hq
      exact hnew (hid ▸ hid' ▸ mem_siteIds hh hsite)
    simp [hid, hid ▸ hno]
  · simp [hid, ih, Ne.symm hid]

/-- What is resolved after a lawful history is what the names in it denote. -/
theorem resolved_get?_iff (hl : Lawful h) (hn : (siteIds h).Nodup) :
    (∀ id v, (resolved h).idents.get? id = some v ↔ Met (BindsIdent id v) h) ∧
      ∀ id f, (resolved h).calls.get? id = some f ↔ Met (BindsCall id f) h := by
  induction h with
  | nil => exact ⟨fun _ _ => iff_of_false nofun (met_nil _), fun _ _ => iff_of_false nofun (met_nil _)⟩
  | cons o h ih =>
    cases ho : o.event.site? with
    | none =>
      rw [siteIds_cons_decl ho] at hn
      obtain ⟨hidents, hcalls⟩ := ih hl.2 hn
      rw [resolved_cons_decl ho]
      refine ⟨fun id v => ?_, fun id f => ?_⟩
      · rw [met_cons, hidents, iff_or_self]
        rintro ⟨site, name, v, he, -⟩
        rw [he] at ho
        exact nomatch ho
      · rw [met_cons, hcalls, iff_or_self]
        rintro ⟨site, name, args, f, he, -⟩
        rw [he] at ho
        exact nomatch ho
    | some site =>
      rw [siteIds_cons ho, List.nodup_cons] at hn
      obtain ⟨hidents, hcalls⟩ := ih hl.2 hn.2
      obtain ⟨b, e⟩ := o
      cases e with
      | ident site' name =>
        cases ho
        obtain ⟨v, hv, hres⟩ := resolved_cons_ident hl
        rw [hres]
        refine ⟨get?_insert_iff_met ?_ hn.1 ?_ hidents, fun id f => ?_⟩
        · rintro id x early o ⟨site, name, v, he, hid, -⟩
          exact ⟨site, by rw [he]; rfl, hid⟩
        · intro id x
          constructor
          · rintro ⟨_, _, w, he, hid, rfl, hw⟩
            cases he
            exact ⟨hid, by rw [hl.2.eq_of_denotes hv hw]⟩
          · rintro ⟨rfl, rfl⟩
            exact ⟨_, _, v, rfl, rfl, rfl, hv⟩
        · rw [met_cons, hcalls, iff_or_self]
          rintro ⟨site, name, args, f, he, -⟩
          exact nomatch he
      | call site' name args =>
        cases ho
        obtain ⟨f, hf, hres⟩ := resolved_cons_call hl
        rw [hres]
        refine ⟨fun id v => ?_, get?_insert_iff_met ?_ hn.1 ?_ hcalls⟩
        · rw [met_cons, hidents, iff_or_self]
          rintro ⟨site, name, v, he, -⟩
          exact nomatch he
        · rintro id x early o ⟨site, name, args, f, he, hid, -⟩
          exact ⟨site, by rw [he]; rfl, hid⟩
        · intro id x
          constructor
          · rintro ⟨_, _, _, g, he, hid, rfl, hg⟩
            cases he
            exact ⟨hid, by rw [hl.2.eq_of_denotesFunc hf hg]⟩
          · rintro ⟨rfl, rfl⟩
            exact ⟨_, _, _, f, rfl, rfl, rfl, hf⟩
      | _ => exact nomatch ho

end Resolver

end PrimeLang
