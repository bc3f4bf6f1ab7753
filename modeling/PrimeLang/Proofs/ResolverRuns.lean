import PrimeLang.Proofs.Actions
import PrimeLang.Proofs.Visibility

/-! # Runs of the resolver

The state of the resolver is determined by what it has visited and by the block it is in
(`Resolver.after`). A history is a list of occurrences, the latest first, so that one more visit is
one more entry at the head. The resolver follows the order of visits, up to the first error
(`Resolve.exec_funcs`). -/

namespace PrimeLang
open Action

/-! ## What the resolver meets -/

namespace Resolver

/-- What the resolver does when it meets something. -/
def meet (r : Resolver) : Event → Except BindingError Resolver
  | .func f => r.declareFunc f
  | .var v none => r.declare (.duplicateVariable v.name v.pos) v
  | .var v (some func) => r.declare (.duplicateParameter v.name func v.pos) v
  | .ident site name => (r.variableOf name site.pos).map fun v => r.bindIdent site.id v
  | .call site name args => (r.calleeOf name args site.pos).map fun f => r.bindCall site.id f

/-- What the resolver does when it meets a list of things, up to the first error. -/
def meetAll (r : Resolver) : List Event → Except BindingError Unit × Resolver
  | [] => (.ok (), r)
  | e :: es =>
    match r.meet e with
    | .ok r' => r'.meetAll es
    | .error err => (.error err, r)

theorem meetAll_append (r : Resolver) (es es' : List Event) :
    r.meetAll (es ++ es') = andThen (r.meetAll es) fun _ r' => r'.meetAll es' := by
  induction es generalizing r with
  | nil => rfl
  | cons e es ih =>
    rw [List.cons_append, meetAll, meetAll]
    cases r.meet e with
    | ok r' => exact ih r'
    | error err => rfl

end Resolver

namespace Resolve

theorem exec_declareOr (error : BindingError) (v : Tree.Var) (r : Resolver) :
    exec (declareOr error v) r = match r.declare error v with
      | .ok r' => (.ok (), r')
      | .error err => (.error err, r) := by
  simp only [declareOr, exec_bind, exec_get, andThen_ok, exec_lift]
  cases r.declare error v <;> rfl

mutual

theorem exec_expr : ∀ (e : Tree.Expr Site) (r : Resolver), exec (expr e) r = r.meetAll e.uses
  | .assign _ target value, r => by
    rw [expr, Tree.Expr.uses, exec_bind, exec_expr target, Resolver.meetAll_append]
    simp only [exec_expr value]
  | .binary _ _ lhs rhs, r => by
    rw [expr, Tree.Expr.uses, exec_bind, exec_expr lhs, Resolver.meetAll_append]
    simp only [exec_expr rhs]
  | .ident site name indices, r => by
    simp only [expr, Tree.Expr.uses, Resolver.meetAll, Resolver.meet, exec_bind, exec_get,
      andThen_ok, exec_lift]
    cases r.variableOf name site.pos with
    | ok v => exact exec_exprs indices _
    | error err => rfl
  | .literal _ _, r => by
    rw [expr, Tree.Expr.uses]
    rfl
  | .call site name args, r => by
    simp only [expr, Tree.Expr.uses, Resolver.meetAll, Resolver.meet, exec_bind, exec_get,
      andThen_ok, exec_lift]
    cases r.calleeOf name args.length site.pos with
    | ok f => exact exec_exprs args _
    | error err => rfl

theorem exec_exprs : ∀ (es : List (Tree.Expr Site)) (r : Resolver),
    exec (exprs es) r = r.meetAll (Tree.Expr.usesAll es)
  | [], r => by
    rw [exprs, Tree.Expr.usesAll]
    rfl
  | e :: es, r => by
    rw [exprs, Tree.Expr.usesAll, exec_bind, exec_expr e, Resolver.meetAll_append]
    simp only [exec_exprs es]

end

end Resolve

/-! ## Histories -/

/-- The scopes that are open in `b`, innermost first. -/
def scopesIn (b : Block) (h : List Occurrence) : Scopes := ⟨b.tails.map (declaredIn · h)⟩

namespace Resolver

/-- What is resolved after a history. -/
def resolved : List Occurrence → Resolution
  | [] => ⟨∅, ∅⟩
  | o :: h =>
    match (Resolver.mk (declaredFuncs h) (scopesIn o.block h) (resolved h)).meet o.event with
    | .ok r => r.resolution
    | .error _ => resolved h

/-- The state of the resolver in the block `b` after the history `h`. -/
def after (h : List Occurrence) (b : Block) : Resolver :=
  ⟨declaredFuncs h, scopesIn b h, resolved h⟩

@[simp] theorem funcs_after (h : List Occurrence) (b : Block) :
    (after h b).funcs = declaredFuncs h := rfl

@[simp] theorem scopes_after (h : List Occurrence) (b : Block) :
    (after h b).scopes = scopesIn b h := rfl

theorem resolved_cons {o : Occurrence} {h : List Occurrence} {r : Resolver}
    (hr : (after h o.block).meet o.event = .ok r) : resolved (o :: h) = r.resolution := by
  unfold after at hr
  rw [resolved, hr]

/-- One more declaration changes the scope of its own block alone. -/
theorem declaredIn_cons_var {b b' : Block} {v : Tree.Var} {paramOf : Option String}
    {h : List Occurrence} :
    declaredIn b' (⟨b, .var v paramOf⟩ :: h) =
      if b = b' then (v.name, v.id) :: declaredIn b' h else declaredIn b' h := by
  unfold declaredIn
  rw [List.filterMap_cons]
  split <;> simp_all

theorem scopesIn_cons (i : Nat) (b : Block) (h : List Occurrence) :
    scopesIn (i :: b) h = ⟨declaredIn (i :: b) h :: (scopesIn b h).stack⟩ := by
  simp [scopesIn]

/-- A declaration goes into the innermost scope. -/
theorem declare?_scopesIn {b : Block} {v : Tree.Var} {paramOf : Option String}
    {h : List Occurrence} {s : Scopes} (hs : (scopesIn b h).declare? v.name v.id = some s) :
    s = scopesIn b (⟨b, .var v paramOf⟩ :: h) := by
  have houter : ∀ b' ∈ b.tails.tail, declaredIn b' (⟨b, .var v paramOf⟩ :: h) = declaredIn b' h := by
    intro b' hb'
    rw [declaredIn_cons_var, if_neg]
    rintro rfl
    cases b with
    | nil => simp at hb'
    | cons i b =>
      have hle := ((List.mem_tails _ _).1 (by simpa using hb')).length_le
      exact absurd hle (Nat.not_succ_le_self _)
  have htails : b.tails = b :: b.tails.tail := by cases b <;> simp
  simp only [scopesIn, Scopes.declare?] at hs ⊢
  rw [htails, List.map_cons] at hs ⊢
  simp only at hs
  split at hs
  · cases hs
  · cases hs
    rw [declaredIn_cons_var, if_pos rfl, List.map_congr_left houter]

/-- A visit without an error adds an entry to the history. -/
theorem meet_after {h : List Occurrence} {b : Block} {e : Event} {r : Resolver}
    (hr : (after h b).meet e = .ok r) : r = after (⟨b, e⟩ :: h) b := by
  have hres : resolved (⟨b, e⟩ :: h) = r.resolution := resolved_cons hr
  unfold after
  rw [hres]
  cases e with
  | func f =>
    simp only [meet, declareFunc] at hr
    split at hr
    · exact nomatch hr
    · cases hr
      rfl
  | var v paramOf =>
    obtain ⟨error, hr⟩ : ∃ error, (after h b).declare error v = .ok r := by
      cases paramOf <;> exact ⟨_, hr⟩
    rw [declare] at hr
    split at hr
    · next s hs =>
      cases hr
      rw [← declare?_scopesIn hs]
      rfl
    · exact nomatch hr
  | ident site name =>
    simp only [meet] at hr
    cases hv : (after h b).variableOf name site.pos with
    | ok v =>
      rw [hv] at hr
      cases hr
      rfl
    | error err =>
      rw [hv] at hr
      exact nomatch hr
  | call site name args =>
    simp only [meet] at hr
    cases hf : (after h b).calleeOf name args site.pos with
    | ok f =>
      rw [hf] at hr
      cases hr
      rfl
    | error err =>
      rw [hf] at hr
      exact nomatch hr

end Resolver

/-! ## Runs along the order of visits -/

/-- Visits occurrences after a history, up to the first error. -/
def visit : List Occurrence → List Occurrence → Except BindingError Unit × List Occurrence
  | [], h => (.ok (), h)
  | o :: os, h =>
    match (Resolver.after h o.block).meet o.event with
    | .ok _ => visit os (o :: h)
    | .error e => (.error e, h)

theorem visit_append (os os' h : List Occurrence) :
    visit (os ++ os') h = andThen (visit os h) fun _ h' => visit os' h' := by
  induction os generalizing h with
  | nil => rfl
  | cons o os ih =>
    rw [List.cons_append, visit, visit]
    cases (Resolver.after h o.block).meet o.event with
    | ok r => exact ih _
    | error err => rfl

theorem visit_ok {os h h' : List Occurrence} (hv : visit os h = (.ok (), h')) :
    h' = os.reverse ++ h := by
  induction os generalizing h with
  | nil =>
    cases hv
    rfl
  | cons o os ih =>
    rw [visit] at hv
    split at hv
    · rw [ih hv, List.reverse_cons, List.append_assoc, List.singleton_append]
    · exact nomatch hv

namespace Resolve

/-- In the block `b` and after the history `h`, `x` does what a visit of `os` does. -/
def Follows (x : Resolve Unit) (b : Block) (os h : List Occurrence) : Prop :=
  exec x (.after h b) = (visit os h).map id (Resolver.after · b)

theorem Follows.bind {x y : Resolve Unit} {b : Block} {os os' h : List Occurrence}
    (hx : Follows x b os h) (hy : Follows y b os' (os.reverse ++ h)) :
    Follows (x >>= fun _ => y) b (os ++ os') h := by
  unfold Follows at *
  rw [exec_bind, hx, visit_append]
  cases hv : visit os h with
  | mk result h' =>
    cases result with
    | error err => rfl
    | ok =>
      cases visit_ok hv
      exact hy

/-- Nothing is declared in the blocks of `b` with a number from `n` on, nor in blocks they
enclose. -/
def Unopened (b : Block) (n : Nat) (h : List Occurrence) : Prop :=
  ∀ o ∈ h, ∀ i, n ≤ i → ¬ i :: b <:+ o.block

theorem Unopened.declaredIn_eq_nil {b : Block} {n i : Nat} {h : List Occurrence}
    (hh : Unopened b n h) (hi : n ≤ i) : declaredIn (i :: b) h = [] := by
  rw [declaredIn, List.filterMap_eq_nil_iff]
  rintro ⟨b', e⟩ ho
  cases e with
  | var v paramOf =>
    refine if_neg ?_
    rintro rfl
    exact hh _ ho i hi List.suffix_rfl
  | _ => rfl

theorem exec_inScope {α : Type} (x : Resolve α) (r : Resolver) :
    exec (inScope x) r = (exec x { r with scopes := r.scopes.push }).map id
      fun r' => { r' with scopes := r'.scopes.pop } := rfl

/-- A block that is entered for the first time has a scope of its own while it is visited. -/
theorem Follows.inScope {x : Resolve Unit} {b : Block} {i n : Nat} {os h : List Occurrence}
    (hh : Unopened b n h) (hi : n ≤ i) (hx : Follows x (i :: b) os h) :
    Follows (Resolve.inScope x) b os h := by
  have hpush : ({ Resolver.after h b with scopes := (scopesIn b h).push } : Resolver) =
      .after h (i :: b) := by
    rw [Resolver.after, Resolver.after, Resolver.scopesIn_cons, hh.declaredIn_eq_nil hi]
    rfl
  have hpop : ∀ h', ({ Resolver.after h' (i :: b) with
      scopes := (scopesIn (i :: b) h').pop } : Resolver) = .after h' b := by
    intro h'
    rw [Resolver.scopesIn_cons]
    rfl
  unfold Follows at *
  rw [exec_inScope]
  show (exec x { Resolver.after h b with scopes := (scopesIn b h).push }).map id _ = _
  rw [hpush, hx]
  exact Prod.ext rfl (hpop _)

/-! ## Statements and functions -/

theorem follows_expr (e : Tree.Expr Site) (b : Block) (h : List Occurrence) :
    Follows (expr e) b (e.usesIn b) h := by
  unfold Follows
  rw [exec_expr, Tree.Expr.usesIn]
  generalize e.uses = es
  induction es generalizing h with
  | nil => rfl
  | cons e es ih =>
    rw [List.map_cons, Resolver.meetAll, visit]
    cases hm : (Resolver.after h b).meet e with
    | ok r =>
      cases Resolver.meet_after hm
      exact ih _
    | error err => rfl

theorem follows_declareOr {error : BindingError} {v : Tree.Var} {paramOf : Option String}
    {b : Block} {h : List Occurrence}
    (hm : ∀ r : Resolver, r.meet (.var v paramOf) = r.declare error v) :
    Follows (declareOr error v) b [⟨b, .var v paramOf⟩] h := by
  unfold Follows
  rw [exec_declareOr, visit, hm]
  cases hd : (Resolver.after h b).declare error v with
  | ok r =>
    cases Resolver.meet_after ((hm _).trans hd)
    rfl
  | error err => rfl

theorem follows_pure (b : Block) (h : List Occurrence) : Follows (pure ()) b [] h := rfl

theorem block_of_mem_usesIn {e : Tree.Expr Site} {b : Block} {o : Occurrence}
    (ho : o ∈ e.usesIn b) : o.block = b := by
  obtain ⟨_, -, rfl⟩ := List.mem_map.1 ho
  rfl

mutual

/-- What is met in the `i`th statement of a block is in that block or in one of those that the
statement opens. -/
theorem block_of_mem_visits : ∀ (s : Tree.Stmt) {b : Block} {i : Nat} {o : Occurrence},
    o ∈ Stmt.visits b i s → o.block = b ∨ ∃ j < 2 * (i + 1), j :: b <:+ o.block
  | .decl v init, b, i, o, ho => by
    rw [Stmt.visits, List.mem_cons] at ho
    rcases ho with rfl | ho
    · exact .inl rfl
    · exact .inl (block_of_mem_usesIn ho)
  | .ifThen cond body, b, i, o, ho => by
    rw [Stmt.visits, List.mem_append] at ho
    rcases ho with ho | ho
    · exact .inl (block_of_mem_usesIn ho)
    · exact .inr ⟨2 * i, by omega, block_of_mem_visitsOf body ho⟩
  | .ifElse cond body orElse, b, i, o, ho => by
    rw [Stmt.visits, List.mem_append, List.mem_append] at ho
    rcases ho with (ho | ho) | ho
    · exact .inl (block_of_mem_usesIn ho)
    · exact .inr ⟨2 * i, by omega, block_of_mem_visitsOf body ho⟩
    · exact .inr ⟨2 * i + 1, by omega, block_of_mem_visitsOf orElse ho⟩
  | .loop v init cond step body, b, i, o, ho => by
    simp only [Stmt.visits, List.mem_cons, List.mem_append] at ho
    refine .inr ⟨2 * i, by omega, ?_⟩
    rcases ho with rfl | ((ho | ho) | ho) | ho
    · exact List.suffix_rfl
    · rw [block_of_mem_usesIn ho]
    · rw [block_of_mem_usesIn ho]
    · rw [block_of_mem_usesIn ho]
    · exact block_of_mem_visitsOf body ho
  | .ret none, _, _, _, ho => by simp [Stmt.visits] at ho
  | .ret (some e), b, i, o, ho => by
    rw [Stmt.visits] at ho
    exact .inl (block_of_mem_usesIn ho)
  | .eval e, b, i, o, ho => by
    rw [Stmt.visits] at ho
    exact .inl (block_of_mem_usesIn ho)

theorem block_of_mem_visitsOf : ∀ (ss : List Tree.Stmt) {b : Block} {i : Nat} {o : Occurrence},
    o ∈ Stmt.visitsOf b i ss → b <:+ o.block
  | [], _, _, _, ho => by simp [Stmt.visitsOf] at ho
  | s :: ss, b, i, o, ho => by
    rw [Stmt.visitsOf, List.mem_append] at ho
    rcases ho with ho | ho
    · rcases block_of_mem_visits s ho with h | ⟨j, -, h⟩
      · rw [h]
      · exact (List.suffix_cons j b).trans h
    · exact block_of_mem_visitsOf ss ho

end

/-- Blocks of the same block have different numbers. -/
theorem eq_of_suffixes {i j : Nat} {b b' : Block} (hi : i :: b <:+ b') (hj : j :: b <:+ b') :
    i = j := by
  have h := List.suffix_of_suffix_length_le hi hj (by simp)
  simpa using h.eq_of_length (by simp)

theorem not_cons_suffix (i : Nat) (b : Block) : ¬ i :: b <:+ b :=
  fun h => Nat.not_succ_le_self _ h.length_le

namespace Unopened
variable {b : Block} {n i : Nat} {h os : List Occurrence}

theorem append (hos : Unopened b n os) (hh : Unopened b n h) : Unopened b n (os.reverse ++ h) := by
  intro o ho
  rcases List.mem_append.1 ho with ho | ho
  · exact hos o (List.mem_reverse.1 ho)
  · exact hh o ho

theorem mono {m : Nat} (hh : Unopened b n h) (hm : n ≤ m) : Unopened b m h :=
  fun o ho i hi => hh o ho i (hm.trans hi)

theorem usesIn (e : Tree.Expr Site) (b : Block) (n : Nat) : Unopened b n (e.usesIn b) := by
  intro o ho i _
  rw [block_of_mem_usesIn ho]
  exact not_cons_suffix i b

/-- Inside a block that is not open, no block is open. -/
theorem inner (hh : Unopened b n h) (hi : n ≤ i) : Unopened (i :: b) 0 h :=
  fun o ho j _ hs => hh o ho i hi ((List.suffix_cons j _).trans hs)

theorem visits (s : Tree.Stmt) (b : Block) (i : Nat) :
    Unopened b (2 * (i + 1)) (Stmt.visits b i s) := by
  intro o ho j hj hs
  rcases block_of_mem_visits s ho with hb | ⟨k, hk, hks⟩
  · exact not_cons_suffix j b (hb ▸ hs)
  · have := eq_of_suffixes hs hks
    omega

/-- A visited block has no blocks from the next number on. -/
theorem visitsOf_sibling (ss : List Tree.Stmt) (b : Block) (i k : Nat) :
    Unopened b (i + 1) (Stmt.visitsOf (i :: b) k ss) := by
  intro o ho j hj hs
  have := eq_of_suffixes hs (block_of_mem_visitsOf ss ho)
  omega

end Unopened

theorem follows_declare (v : Tree.Var) (b : Block) (h : List Occurrence) :
    Follows (declare v) b [⟨b, .var v none⟩] h := follows_declareOr fun _ => rfl

mutual

theorem follows_stmt : ∀ (s : Tree.Stmt) {b : Block} {i : Nat} {h : List Occurrence},
    Unopened b (2 * i) h → Follows (stmt s) b (Stmt.visits b i s) h
  | .decl v init, b, i, h, _ => by
    rw [stmt, Stmt.visits]
    exact (follows_declare v b h).bind (follows_expr init b _)
  | .ifThen cond body, b, i, h, hh => by
    rw [stmt, Stmt.visits]
    have hcond := (Unopened.usesIn cond b (2 * i)).append hh
    refine (follows_expr cond b h).bind (.inScope hcond (Nat.le_refl _) ?_)
    exact follows_stmts body (hcond.inner (Nat.le_refl _))
  | .ifElse cond body orElse, b, i, h, hh => by
    rw [stmt, Stmt.visits, List.append_assoc]
    have hcond := (Unopened.usesIn cond b (2 * i)).append hh
    have hbody := (Unopened.visitsOf_sibling body b (2 * i) 0).append
      (hcond.mono (Nat.le_succ _))
    refine (follows_expr cond b h).bind (.bind (.inScope hcond (Nat.le_refl _) ?_)
      (.inScope hbody (Nat.le_refl _) ?_))
    · exact follows_stmts body (hcond.inner (Nat.le_refl _))
    · exact follows_stmts orElse (hbody.inner (Nat.le_refl _))
  | .loop v init cond step body, b, i, h, hh => by
    rw [stmt, Stmt.visits, List.append_assoc, List.append_assoc]
    refine .inScope hh (Nat.le_refl _) ((follows_declare v _ h).bind ?_)
    have hvar : Unopened (2 * i :: b) 0 [⟨2 * i :: b, .var v none⟩] := by
      intro o ho j _
      cases List.mem_singleton.1 ho
      exact not_cons_suffix j _
    have h₀ := hvar.append (hh.inner (Nat.le_refl _))
    have h₁ := (Unopened.usesIn init _ 0).append h₀
    have h₂ := (Unopened.usesIn cond _ 0).append h₁
    have h₃ := (Unopened.usesIn step _ 0).append h₂
    exact (follows_expr init _ _).bind ((follows_expr cond _ _).bind
      ((follows_expr step _ _).bind (follows_stmts body h₃)))
  | .ret none, b, i, h, _ => by
    rw [stmt, Stmt.visits]
    exact follows_pure b h
  | .ret (some e), b, i, h, _ => by
    rw [stmt, Stmt.visits]
    exact follows_expr e b h
  | .eval e, b, i, h, _ => by
    rw [stmt, Stmt.visits]
    exact follows_expr e b h

theorem follows_stmts : ∀ (ss : List Tree.Stmt) {b : Block} {i : Nat} {h : List Occurrence},
    Unopened b (2 * i) h → Follows (stmts ss) b (Stmt.visitsOf b i ss) h
  | [], b, i, h, _ => by
    rw [stmts, Stmt.visitsOf]
    exact follows_pure b h
  | s :: ss, b, i, h, hh => by
    rw [stmts, Stmt.visitsOf]
    refine (follows_stmt s hh).bind (follows_stmts ss ?_)
    exact (Unopened.visits s b i).append (hh.mono (by omega))

end

theorem follows_params (func : String) (vs : List Tree.Var) (b : Block) (h : List Occurrence) :
    Follows (params func vs) b (vs.map fun v => ⟨b, .var v (some func)⟩) h := by
  induction vs generalizing h with
  | nil =>
    rw [params]
    exact follows_pure b h
  | cons v vs ih =>
    rw [params]
    exact (follows_declareOr fun _ => rfl).bind (ih _)

theorem follows_func {f : Tree.Func} {k : Nat} {h : List Occurrence} (hh : Unopened [] k h) :
    Follows (func f) [] (f.visits k) h := by
  have hdecl : Follows (do set (← (← get).declareFunc f)) [] [⟨[], .func f⟩] h := by
    unfold Follows
    simp only [exec_bind, exec_get, andThen_ok, exec_lift, visit, Resolver.meet]
    cases hd : (Resolver.after h []).declareFunc f with
    | ok r =>
      cases Resolver.meet_after (e := .func f) hd
      rfl
    | error err => rfl
  have hfunc : Unopened [] k [⟨[], .func f⟩] := by
    intro o ho i _
    cases List.mem_singleton.1 ho
    exact not_cons_suffix i []
  have h₀ := hfunc.append hh
  have hparams : Unopened [k] 0 (f.params.map fun v => ⟨[k], .var v (some f.name)⟩) := by
    intro o ho i _
    obtain ⟨v, -, rfl⟩ := List.mem_map.1 ho
    exact not_cons_suffix i _
  have hbody := (follows_params f.name f.params [k] _).bind
    (follows_stmts (i := 0) f.body (hparams.append (h₀.inner (Nat.le_refl _))))
  have hfollows := hdecl.bind (.inScope h₀ (Nat.le_refl _) hbody)
  simp only [bind_assoc] at hfollows
  exact hfollows

/-- Apart from the function itself, what is met in the `k`th function is in blocks of it. -/
theorem block_of_mem_funcVisits {f : Tree.Func} {k : Nat} {o : Occurrence} (ho : o ∈ f.visits k) :
    o = ⟨[], .func f⟩ ∨ [k] <:+ o.block := by
  rcases List.mem_cons.1 ho with ho | ho
  · exact .inl ho
  · refine .inr ?_
    rcases List.mem_append.1 ho with ho | ho
    · obtain ⟨v, -, rfl⟩ := List.mem_map.1 ho
      exact List.suffix_rfl
    · exact block_of_mem_visitsOf f.body ho

theorem Unopened.funcVisits (f : Tree.Func) (k : Nat) : Unopened [] (k + 1) (f.visits k) := by
  intro o ho i hi hs
  rcases block_of_mem_funcVisits ho with rfl | hk
  · exact not_cons_suffix i [] hs
  · have := eq_of_suffixes hs hk
    omega

/-- The resolver visits functions in order. -/
theorem follows_funcs {fs : List Tree.Func} {k : Nat} {h : List Occurrence}
    (hh : Unopened [] k h) : Follows (funcs fs) [] (Tree.visitsFrom k fs) h := by
  induction fs generalizing k h with
  | nil =>
    rw [funcs, Tree.visitsFrom]
    exact follows_pure [] h
  | cons f fs ih =>
    rw [funcs, Tree.visitsFrom]
    refine (follows_func hh).bind (ih ?_)
    exact (Unopened.funcVisits f k).append (hh.mono (Nat.le_succ _))

end Resolve

/-- A program is resolved along the order of its visits. -/
theorem Program.resolve_eq (p : Program) :
    p.resolve = (visit p.visits []).1.map fun _ => Resolver.resolved (visit p.visits []).2 := by
  have h : Resolve.Follows (Resolve.funcs p.funcs) [] p.visits [] :=
    Resolve.follows_funcs fun _ ho => absurd ho List.not_mem_nil
  have hrun : exec (Resolve.funcs p.funcs) .initial =
      (visit p.visits []).map id (Resolver.after · []) := h
  show ((exec (Resolve.funcs p.funcs) .initial).1.map fun _ =>
    (exec (Resolve.funcs p.funcs) .initial).2.resolution) = _
  rw [hrun]
  rfl

end PrimeLang
