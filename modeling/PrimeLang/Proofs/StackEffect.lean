import PrimeLang.Proofs.AssignmentTargets
import PrimeLang.Proofs.ControlFlow

/-! # Effects on the stack

How many words an instruction adds to the stack can be read off the instruction and, for a call, off
the function that starts at its target. The code of an expression adds its value if that is wanted,
less a word for every call that has to give a value and has none to give. -/

namespace PrimeLang
open Machine

/-! ## Effects of instructions -/

namespace Object
variable (o : Object) (ns : Nodes)

/-- The function whose code starts at the address `d`. -/
def funcAt? (d : Int) : Option Node.Func :=
  ((List.range ns.funcs.size).find? fun k => o.entry k = d).bind (ns.funcs[·]?)

/-- How many words an instruction adds to the stack. A call adds what the function or routine
returns and takes its arguments. -/
def effect (i : Instruction) : Int :=
  match i.op with
  | .load => i.n.toInt
  | .loadLiteral => 1
  | .push => i.d.toInt
  | .store => -i.n.toInt
  | .loadIndirect => i.n.toInt - 1
  | .storeIndirect => -(i.n.toInt + 1)
  | .pop => -i.d.toInt
  | .jumpIf => -1
  | .call =>
    if i.r = .pb then -1
    else (o.funcAt? ns i.d.toInt).elim 0 fun f =>
      (if f.ret.isSome then 1 else 0) - f.params.length
  | .ret => -i.n.toInt
  | _ => 0

/-- How many words an instruction takes off the stack before it adds any. -/
def takes (i : Instruction) : Int :=
  match i.op with
  | .store => i.n.toInt
  | .loadIndirect => 1
  | .storeIndirect => i.n.toInt + 1
  | .pop => i.d.toInt
  | .jumpIf => 1
  | .call => if i.r = .pb then 2 else (o.funcAt? ns i.d.toInt).elim 0 (·.params.length)
  | .ret => i.n.toInt
  | _ => 0

/-- How many words the instructions add one after the other. -/
def rise (is : List Instruction) : Int := is.foldr (fun i h => o.effect ns i + h) 0

/-- From the height `h` on, the instructions take no more words off the stack than there are. -/
def Sound : Int → List Instruction → Prop
  | h, [] => 0 ≤ h
  | h, i :: is => 0 ≤ h ∧ o.takes ns i ≤ h ∧ Sound (h + o.effect ns i) is

variable {o ns} {is is' : List Instruction} {i : Instruction} {h : Int}

@[simp] theorem rise_nil : o.rise ns [] = 0 := rfl

@[simp] theorem rise_cons : o.rise ns (i :: is) = o.effect ns i + o.rise ns is := rfl

@[simp] theorem rise_append : o.rise ns (is ++ is') = o.rise ns is + o.rise ns is' := by
  induction is with
  | nil => simp
  | cons i is ih =>
    rw [List.cons_append, rise_cons, rise_cons, ih]
    omega

namespace Sound

theorem append (hs : o.Sound ns h is) (hs' : o.Sound ns (h + o.rise ns is) is') :
    o.Sound ns h (is ++ is') := by
  induction is generalizing h with
  | nil => rwa [rise_nil, Int.add_zero] at hs'
  | cons i is ih =>
    rw [rise_cons, ← Int.add_assoc] at hs'
    exact ⟨hs.1, hs.2.1, ih hs.2.2 hs'⟩

/-- Wherever the instructions are cut, no word below the start is gone. -/
theorem le_rise_take (hs : o.Sound ns h is) (k : Nat) : 0 ≤ h + o.rise ns (is.take k) := by
  induction is generalizing h k with
  | nil =>
    rw [List.take_nil, rise_nil, Int.add_zero]
    exact hs
  | cons i is ih =>
    cases k with
    | zero =>
      rw [List.take_zero, rise_nil, Int.add_zero]
      exact hs.1
    | succ k =>
      rw [List.take_succ_cons, rise_cons, ← Int.add_assoc]
      exact ih hs.2.2 k

/-- Every instruction finds above the start what it takes off. -/
theorem takes_le (hs : o.Sound ns h is) {k : Nat} (hi : is[k]? = some i) :
    o.takes ns i ≤ h + o.rise ns (is.take k) := by
  induction is generalizing h k with
  | nil => cases hi
  | cons j is ih =>
    cases k with
    | zero =>
      cases hi
      rw [List.take_zero, rise_nil, Int.add_zero]
      exact hs.2.1
    | succ k =>
      rw [List.take_succ_cons, rise_cons, ← Int.add_assoc]
      exact ih hs.2.2 hi

end Sound
end Object

/-! ## Calls without a result -/

/-- The function that an expression calls. -/
def Context.callee? (cx : Context) (site : Site) : Option Node.Func :=
  (cx.resolution.calls.get? site.id).bind (cx.nodes.funcs[·]?)

/-- The expression calls a function that has no result. -/
def Context.CallsVoid (cx : Context) (site : Site) : Prop :=
  ∃ f, cx.callee? site = some f ∧ f.ret = none

instance (cx : Context) (site : Site) : Decidable (cx.CallsVoid site) :=
  decidable_of_iff ((cx.callee? site).any (·.ret.isNone) = true) <| by
    simp [Context.CallsVoid, Option.any_eq_true]

/-- How many words an expression adds to the stack. -/
def Use.words : Use → Nat
  | value => 1
  | effect => 0

namespace Code

mutual

/-- How many calls of functions without a result have to give a value. -/
def voids (cx : Context) (use : Use) : Tree.Expr Site → Nat
  | .assign _ (.ident _ _ indices) value => voids cx .value value + voidsAll cx .value indices
  | .assign _ _ _ => 0
  | .binary _ _ lhs rhs => voids cx .value lhs + voids cx .value rhs
  | .ident _ _ indices => voidsAll cx use indices
  | .literal _ _ => 0
  | .call site _ args =>
    (if use = .value ∧ cx.CallsVoid site then 1 else 0) + voidsAll cx .value args

def voidsAll (cx : Context) (use : Use) : List (Tree.Expr Site) → Nat
  | [] => 0
  | e :: es => voids cx use e + voidsAll cx use es

end

namespace Env

/-- The calls among the events have as many arguments as the functions that they call have
parameters, and the functions can be told by their addresses. -/
def Counts (env : Env) (o : Object) (us : List Event) : Prop :=
  ∀ site name args, .call site name args ∈ us → ∃ f, env.cx.callee? site = some f ∧
    f.params.length = args ∧
    o.funcAt? env.cx.nodes (env.callAt site).instruction.d.toInt = some f

theorem Counts.mono {env : Env} {o : Object} {us us' : List Event} (h : env.Counts o us')
    (hle : us ⊆ us') : env.Counts o us :=
  fun site name args hcall => h site name args (hle hcall)

/-- Code that needs `need` words on the stack adds `net` words, less one for each of `v` calls
without a result; where there are none, it takes no more words off than it needs. -/
structure Accounts (env : Env) (o : Object) (need : Int) (qs : List Request) (net : Int) (v : Nat) :
    Prop where
  rise : o.rise env.cx.nodes (qs.map Request.instruction) = net - v
  sound : v = 0 → ∀ {h : Int}, need ≤ h → o.Sound env.cx.nodes h (qs.map Request.instruction)

namespace Accounts
variable {env : Env} {o : Object} {qs qs' : List Request} {q : Request} {need need' net net' : Int}
variable {v v' : Nat}

theorem nil (hneed : 0 ≤ need) : env.Accounts o need [] 0 0 where
  rise := rfl
  sound _ _ hh := Int.le_trans hneed hh

theorem single (heffect : o.effect env.cx.nodes q.instruction = net)
    (htakes : o.takes env.cx.nodes q.instruction ≤ need) (hneed : 0 ≤ need)
    (hleft : 0 ≤ need + net) : env.Accounts o need [q] net 0 where
  rise := by
    rw [List.map_cons, Object.rise_cons, heffect]
    rfl
  sound _ h hh := ⟨Int.le_trans hneed hh, Int.le_trans htakes hh, by
    rw [heffect]
    show 0 ≤ h + net
    omega⟩

theorem append (hq : env.Accounts o need qs net v) (hq' : env.Accounts o need' qs' net' v')
    (hneed : need' ≤ need + net) : env.Accounts o need (qs ++ qs') (net + net') (v + v') where
  rise := by
    rw [List.map_append, Object.rise_append, hq.rise, hq'.rise]
    omega
  sound hv h hh := by
    obtain ⟨hv, hv'⟩ := Nat.add_eq_zero_iff.1 hv
    rw [List.map_append]
    refine (hq.sound hv hh).append (hq'.sound hv' ?_)
    rw [hq.rise]
    omega

theorem mono (hq : env.Accounts o need qs net v) (hneed : need ≤ need') :
    env.Accounts o need' qs net v where
  rise := hq.rise
  sound hv _ hh := hq.sound hv (Int.le_trans hneed hh)

/-- A missing word may be counted as a call without a result. -/
theorem congr (hq : env.Accounts o need qs net v) (hrise : net' - v' = net - v)
    (hv : v' = 0 → v = 0) : env.Accounts o need qs net' v' where
  rise := hq.rise.trans hrise.symm
  sound h := hq.sound (hv h)

end Accounts
end Env

/-! ## Expressions -/

section
variable (env : Env) (o : Object)

theorem accounts_load (site : Site) : env.Accounts o 0 [env.moveAt .load site] 1 0 := by
  rw [Env.moveAt, Ty.size_eq_one]
  exact .single rfl (Int.le_refl 0) (Int.le_refl 0) (by decide)

theorem accounts_store (a : Address) (ty : Ty) :
    env.Accounts o 1 [env.access .store ty.size a] (-1) 0 := by
  rw [Ty.size_eq_one]
  exact .single rfl (Int.le_refl 1) (by decide) (by decide)

theorem accounts_loadArrayAt (site : Site) : env.Accounts o 0 [env.loadArrayAt site] 1 0 :=
  .single rfl (Int.le_refl 0) (Int.le_refl 0) (by decide)

theorem accounts_combine (use : Use) (op : BinaryOp) :
    env.Accounts o 2 [combine use op] (use.words - 2) 0 := by
  cases use <;> exact .single rfl (Int.le_refl 2) (by decide) (by decide)

theorem accounts_add : env.Accounts o 2 [routine .add] (-1) 0 :=
  .single rfl (Int.le_refl 2) (by decide) (by decide)

/-- A call of a function with its result dropped unless it is used. -/
theorem accounts_callAt (use : Use) {site : Site} {f : Node.Func}
    (hcallee : env.cx.callee? site = some f)
    (hf : o.funcAt? env.cx.nodes (env.callAt site).instruction.d.toInt = some f) :
    env.Accounts o f.params.length (env.callAt site :: discard use (env.resultAt site))
      (use.words - f.params.length) (if use = .value ∧ env.cx.CallsVoid site then 1 else 0) := by
  have hresult : env.resultAt site = f.ret := congrArg (Option.elim · none _) hcallee
  have hvoid : env.cx.CallsVoid site ↔ f.ret = none := by simp [Context.CallsVoid, hcallee]
  have heffect : o.effect env.cx.nodes (env.callAt site).instruction =
      (if f.ret.isSome then 1 else 0) - f.params.length := by
    show (o.funcAt? env.cx.nodes (env.callAt site).instruction.d.toInt).elim 0 _ = _
    rw [hf]
    rfl
  have htakes : o.takes env.cx.nodes (env.callAt site).instruction = f.params.length := by
    show (o.funcAt? env.cx.nodes (env.callAt site).instruction.d.toInt).elim 0 _ = _
    rw [hf]
    rfl
  have hcall : env.Accounts o f.params.length [env.callAt site]
      ((if f.ret.isSome then 1 else 0) - f.params.length) 0 :=
    .single heffect (Int.le_of_eq htakes) (by omega) (by split <;> omega)
  rw [hresult]
  cases hret : f.ret with
  | none =>
    rw [hret] at hcall
    cases use with
    | effect => exact hcall.congr (by simp [Use.words]) (by simp)
    | value => exact hcall.congr (by simp [Use.words, hvoid, hret]) (by simp)
  | some ty =>
    rw [hret] at hcall
    cases use with
    | effect =>
      rw [discard, Ty.size_eq_one]
      have hpop : env.Accounts o 1 [pop 1] (-1) 0 :=
        .single rfl (Int.le_refl 1) (by decide) (by decide)
      exact (hcall.append hpop (by simp)).congr (by simp [Use.words]; omega) (by simp)
    | value => exact hcall.congr (by simp [Use.words, hvoid, hret]) (by simp)

end

mutual

theorem accounts_expr (o : Object) (env : Env) : ∀ (e : Tree.Expr Site) (use : Use),
    e.AssignsNames → env.Counts o e.uses →
    env.Accounts o 0 (expr env use e) use.words (voids env.cx use e)
  | .assign _ (.ident site name []) value, use, hnames, hcounts => by
    have hvalue := accounts_expr o env value .value hnames.2.2
      (hcounts.mono (List.subset_append_right _ _))
    have hstore :=
      hvalue.append (accounts_store env o (env.placeAt site) (env.typeAt site)) (by decide)
    rw [expr, voids, voidsAll]
    cases use with
    | value => exact hstore.append (accounts_load env o site) (by decide)
    | effect => exact hstore.append (.nil (Int.le_refl 0)) (by decide)
  | .assign _ (.ident site name (index :: indices)) value, use, hnames, hcounts => by
    have hvalue : env.Accounts o 0 (expr env .value value) 1 _ :=
      accounts_expr o env value .value hnames.2.2 (hcounts.mono (List.subset_append_right _ _))
    have hindices := accounts_element o env (index :: indices) hnames.2.1
      (hcounts.mono fun u hu => List.mem_append_left _ (List.mem_cons_of_mem _ hu))
    have hstore : env.Accounts o 2 [⟨.storeIndirect, integerSize, .cb, 0⟩] (-2) 0 :=
      .single rfl (Int.le_refl 2) (by decide) (by decide)
    have hcopy : env.Accounts o 0
        (if use = .value then [⟨.load, integerSize, .st, -integerSize⟩] else []) use.words 0 := by
      cases use with
      | value => exact .single rfl (Int.le_refl 0) (Int.le_refl 0) (by decide)
      | effect => exact .nil (Int.le_refl 0)
    have hload := (hvalue.append hcopy (by decide)).append (accounts_loadArrayAt env o site)
      (by omega)
    rw [expr, voids]
    exact ((hload.append hindices (by omega)).append hstore (by omega)).congr (by omega) (by omega)
  | .assign _ (.assign ..) _, _, hnames, _ => nomatch hnames.1
  | .assign _ (.binary ..) _, _, hnames, _ => nomatch hnames.1
  | .assign _ (.literal ..) _, _, hnames, _ => nomatch hnames.1
  | .assign _ (.call ..) _, _, hnames, _ => nomatch hnames.1
  | .binary _ op lhs rhs, use, hnames, hcounts => by
    have hlhs : env.Accounts o 0 (expr env .value lhs) 1 _ :=
      accounts_expr o env lhs .value hnames.1 (hcounts.mono (List.subset_append_left _ _))
    have hrhs : env.Accounts o 0 (expr env .value rhs) 1 _ :=
      accounts_expr o env rhs .value hnames.2 (hcounts.mono (List.subset_append_right _ _))
    have hboth := hlhs.append hrhs (by decide)
    rw [expr, voids]
    exact (hboth.append (accounts_combine env o use op) (by decide)).congr (by omega) id
  | .ident site name indices, .effect, hnames, hcounts => by
    have hindices := accounts_exprs o env indices .effect hnames
      (hcounts.mono (List.subset_cons_self _ _))
    rw [expr, voids]
    exact hindices.congr (by simp [Use.words]) id
  | .ident site name [], .value, hnames, hcounts => by
    rw [expr, voids]
    exact accounts_load env o site
  | .ident site name (index :: indices), .value, hnames, hcounts => by
    have hindices := accounts_element o env (index :: indices) hnames
      (hcounts.mono (List.subset_cons_self _ _))
    have hload : env.Accounts o 1 [⟨.loadIndirect, integerSize, .cb, 0⟩] 0 0 :=
      .single rfl (Int.le_refl 1) (by decide) (by decide)
    have haddress := (accounts_loadArrayAt env o site).append hindices (by decide)
    rw [expr, voids]
    exact (haddress.append hload (by decide)).congr (by rw [Use.words]; omega) (by omega)
  | .literal _ value, use, hnames, hcounts => by
    cases use with
    | value => exact .single rfl (Int.le_refl 0) (Int.le_refl 0) (by decide)
    | effect => exact .nil (Int.le_refl 0)
  | .call site name args, use, hnames, hcounts => by
    obtain ⟨f, hcallee, hlength, hf⟩ := hcounts site name args.length List.mem_cons_self
    have hargs : env.Accounts o 0 (exprs env .value args) args.length _ :=
      (accounts_exprs o env args .value hnames (hcounts.mono (List.subset_cons_self _ _))).congr
        (by rw [Use.words, Int.natCast_one, Int.one_mul]) id
    have hcall := accounts_callAt env o use hcallee hf
    rw [hlength] at hcall
    rw [expr, voids, List.append_assoc]
    exact (hargs.append hcall (by omega)).congr (by omega) (by omega)

theorem accounts_exprs (o : Object) (env : Env) : ∀ (es : List (Tree.Expr Site)) (use : Use),
    Tree.Expr.AssignsNamesAll es → env.Counts o (Tree.Expr.usesAll es) →
    env.Accounts o 0 (exprs env use es) (use.words * es.length) (voidsAll env.cx use es)
  | [], use, _, _ => by
    rw [exprs, voidsAll, List.length_nil]
    exact .nil (Int.le_refl 0)
  | e :: es, use, hnames, hcounts => by
    have he := accounts_expr o env e use hnames.1 (hcounts.mono (List.subset_append_left _ _))
    have hes := accounts_exprs o env es use hnames.2 (hcounts.mono (List.subset_append_right _ _))
    rw [exprs, voidsAll]
    refine (he.append hes (by omega)).congr ?_ id
    rw [List.length_cons, Int.natCast_add, Int.mul_add, Int.add_comm (use.words * es.length : Int)]
    simp

theorem accounts_element (o : Object) (env : Env) : ∀ es : List (Tree.Expr Site),
    Tree.Expr.AssignsNamesAll es → env.Counts o (Tree.Expr.usesAll es) →
    env.Accounts o 1 (element env es) 0 (voidsAll env.cx .value es)
  | [], _, _ => .nil (by decide)
  | e :: es, hnames, hcounts => by
    have he : env.Accounts o 1 (expr env .value e) 1 _ :=
      (accounts_expr o env e .value hnames.1 (hcounts.mono (List.subset_append_left _ _))).mono
        (by decide)
    have hes := accounts_element o env es hnames.2 (hcounts.mono (List.subset_append_right _ _))
    rw [element, voidsAll]
    exact (he.append (accounts_add env o) (by decide)).append hes (by decide)

end

/-! ## Statements -/

mutual

/-- How many calls of functions without a result have to give a value in a statement. -/
def stmtVoids (cx : Context) : Tree.Stmt → Nat
  | .decl _ init => voids cx .value init
  | .ifThen cond body => voids cx .value cond + blockVoids cx body
  | .ifElse cond body orElse =>
    voids cx .value cond + blockVoids cx body + blockVoids cx orElse
  | .loop _ init cond step body =>
    voids cx .value init + voids cx .value cond + blockVoids cx body + voids cx .effect step
  | .ret none => 0
  | .ret (some value) => voids cx .value value
  | .eval e => voids cx .effect e

def blockVoids (cx : Context) : List Tree.Stmt → Nat
  | [] => 0
  | s :: ss => stmtVoids cx s + blockVoids cx ss

end

/-- An expression whose code can be accounted for. -/
structure Env.Accountable (env : Env) (o : Object) (e : Tree.Expr Site) : Prop where
  names : e.AssignsNames
  counts : env.Counts o e.uses

section
variable {env : Env} {o : Object}

theorem Env.Accountable.accounts {e : Tree.Expr Site} (h : env.Accountable o e) (use : Use) :
    env.Accounts o 0 (expr env use e) use.words (voids env.cx use e) :=
  accounts_expr o env e use h.names h.counts

theorem accounts_declare {v : Tree.Var} {init : Tree.Expr Site} (h : env.Accountable o init) :
    env.Accounts o 0 (declare env v init) 0 (voids env.cx .value init) :=
  (h.accounts .value).append (accounts_store env o _ v.ty) (by decide)

theorem accounts_jump (target : Nat) : env.Accounts o 0 [jump target] 0 0 :=
  .single rfl (Int.le_refl 0) (Int.le_refl 0) (Int.le_refl 0)

/-- A condition that guards code without effect. -/
theorem accounts_guarded (start : Nat) {c b : List Request} {v v' : Nat}
    (hc : env.Accounts o 0 c 1 v) (hb : env.Accounts o 0 b 0 v') :
    env.Accounts o 0 (guarded start c b) 0 (v + v') := by
  have hjump : env.Accounts o 1 [jumpIfFalse (start + c.length + 1 + b.length)] (-1) 0 :=
    .single rfl (Int.le_refl 1) (by decide) (by decide)
  have hall := hc.append (hjump.append hb (by decide)) (by decide)
  rw [Nat.zero_add] at hall
  exact hall

end

mutual

theorem accounts_stmt (o : Object) (env : Env) : ∀ (s : Tree.Stmt) (start : Nat),
    (∀ e ∈ s.exprs, env.Accountable o e) →
    env.Accounts o 0 (stmt env start s) 0 (stmtVoids env.cx s)
  | .decl v init, start, h => by
    rw [stmt, stmtVoids]
    exact accounts_declare (h init List.mem_cons_self)
  | .ifThen cond body, start, h => by
    have hcond := (h cond List.mem_cons_self).accounts .value
    rw [stmt, stmtVoids]
    exact accounts_guarded _ hcond
      (accounts_block o env body _ fun e he => h e (List.mem_cons_of_mem _ he))
  | .ifElse cond body orElse, start, h => by
    obtain ⟨hcond, h⟩ := List.forall_mem_cons.1 h
    obtain ⟨hbody, helse⟩ := List.forall_mem_append.1 h
    have hfirst := fun start target =>
      (accounts_block o env body start hbody).append (accounts_jump target) (by decide)
    rw [stmt, stmtVoids]
    exact (accounts_guarded _ (hcond.accounts .value) (hfirst _ _)).append
      (accounts_block o env orElse _ helse) (by decide)
  | .loop v init cond step body, start, h => by
    obtain ⟨hinit, h⟩ := List.forall_mem_cons.1 h
    obtain ⟨hcond, h⟩ := List.forall_mem_cons.1 h
    obtain ⟨hstep, hbody⟩ := List.forall_mem_cons.1 h
    have hguarded := fun start target =>
      ((accounts_block o env body start hbody).append (hstep.accounts .effect) (by decide)).append
        (accounts_jump target) (by decide)
    have hall := fun head start target => (accounts_declare (v := v) hinit).append
      (accounts_guarded head (hcond.accounts .value) (hguarded start target)) (by decide)
    rw [stmt, stmtVoids]
    exact (hall _ _ _).congr (by omega) (by omega)
  | .ret none, start, _ => .single rfl (Int.le_refl 0) (Int.le_refl 0) (Int.le_refl 0)
  | .ret (some value), start, h => by
    have hret : env.Accounts o 1 [ret env integerSize] (-1) 0 :=
      .single rfl (Int.le_refl 1) (by decide) (by decide)
    rw [stmt, stmtVoids]
    exact ((h value List.mem_cons_self).accounts .value).append hret (by decide)
  | .eval e, start, h => by
    rw [stmt, stmtVoids]
    exact (h e List.mem_cons_self).accounts .effect

theorem accounts_block (o : Object) (env : Env) : ∀ (ss : List Tree.Stmt) (start : Nat),
    (∀ e ∈ Stmt.exprsOf ss, env.Accountable o e) →
    env.Accounts o 0 (block env start ss) 0 (blockVoids env.cx ss)
  | [], _, _ => .nil (Int.le_refl 0)
  | s :: ss, start, h => by
    obtain ⟨hs, hss⟩ := List.forall_mem_append.1 h
    rw [block, blockVoids]
    exact (accounts_stmt o env s start hs).append (accounts_block o env ss _ hss) (by decide)

end
end Code
end PrimeLang
