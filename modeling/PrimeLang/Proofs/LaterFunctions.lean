import PrimeLang.Proofs.ControlFlow
import PrimeLang.Proofs.PositionIndependence
import PrimeLang.Proofs.ProgramPrefixes

/-! # Later functions do not reach back

Names are resolved and code is generated from front to back, and what a program goes on to declare
has numbers of its own. So the names in its first functions are resolved as before
(`Program.GoesOn.resolve`), and code generation passes through the state in which it was when it was
done with these functions alone. What comes after that changes nothing but the first jump. -/

namespace PrimeLang
open Machine Action

/-! ## Names -/

/-- What is met later is resolved at other nodes. -/
theorem Resolver.get?_resolved_append {late h : List Occurrence} (hl : Lawful (late ++ h))
    {id : ExprId} (hid : id ∉ siteIds late) :
    (resolved (late ++ h)).idents.get? id = (resolved h).idents.get? id ∧
      (resolved (late ++ h)).calls.get? id = (resolved h).calls.get? id := by
  induction late with
  | nil => exact ⟨rfl, rfl⟩
  | cons o late ih =>
    obtain ⟨b, event⟩ := o
    rw [List.cons_append] at hl ⊢
    cases ho : event.site? with
    | none =>
      rw [siteIds_cons_decl ho] at hid
      rw [resolved_cons_decl ho]
      exact ih hl.2 hid
    | some site =>
      rw [siteIds_cons ho, List.mem_cons, not_or] at hid
      obtain ⟨hidents, hcalls⟩ := ih hl.2 hid.2
      cases event with
      | ident site' name =>
        cases ho
        obtain ⟨v, -, hv⟩ := resolved_cons_ident hl
        rw [hv]
        exact ⟨by rw [Table.get?_insert, if_neg hid.1, hidents], hcalls⟩
      | call site' name args =>
        cases ho
        obtain ⟨f, -, hf⟩ := resolved_cons_call hl
        rw [hf]
        exact ⟨hidents, by rw [Table.get?_insert, if_neg hid.1, hcalls]⟩
      | _ => cases ho

namespace Program.GoesOn
variable {p q : Program} {fs : List Tree.Func}

theorem visits_eq (h : p.GoesOn q fs) :
    q.visits = p.visits ++ Tree.visitsFrom p.funcs.length fs := by
  rw [visits, h.funcs, Tree.visitsFrom_append, Nat.zero_add]
  rfl

/-- Names are used later at nodes of their own. -/
theorem le_of_mem_siteIds (h : p.GoesOn q fs) {k : Nat} {id : ExprId}
    (hid : id ∈ Resolver.siteIds (Tree.visitsFrom k fs).reverse) : p.nodes.exprs.size ≤ id := by
  have hid : id ∈ ((usesOf (Tree.visitsFrom k fs)).filterMap Event.site?).map Site.id := by
    rw [Resolver.siteIds, usesOf, List.filterMap_reverse, List.filterMap_reverse, List.map_reverse,
      List.mem_reverse] at hid
    exact hid
  rw [usesOf_visitsFrom] at hid
  have hlabel := ((Tree.Expr.sites_sublist_flatMap_labels _).map Site.id).subset hid
  have hrange := h.stored.exprIds.mem_iff.1 hlabel
  exact (List.mem_range'_1.1 hrange).1

/-- If a program that goes on is resolved, then so is its first part, and in the same way. -/
theorem resolve (h : p.GoesOn q fs) {R' : Resolution} (hR' : q.resolve = .ok R') :
    ∃ R, p.resolve = .ok R ∧ ∀ id < p.nodes.exprs.size,
      R'.idents.get? id = R.idents.get? id ∧ R'.calls.get? id = R.calls.get? id := by
  obtain ⟨hl, rfl⟩ := resolve_eq_ok_iff.1 hR'
  rw [h.visits_eq, List.reverse_append] at hl ⊢
  refine ⟨_, resolve_eq_ok_iff.2 ⟨hl.of_append, rfl⟩, fun id hid => ?_⟩
  exact Resolver.get?_resolved_append hl fun hmem => Nat.not_le.2 hid (h.le_of_mem_siteIds hmem)

end Program.GoesOn

/-! ## Code -/

/-- The second context knows of the name at an expression what the first one does. -/
structure Context.AgreeAt (cx cx' : Context) (site : Site) : Prop where
  idents : cx'.resolution.idents.get? site.id = cx.resolution.idents.get? site.id
  vars : ∀ id, cx.resolution.idents.get? site.id = some id →
    cx'.nodes.vars[id]? = cx.nodes.vars[id]?
  calls : cx'.resolution.calls.get? site.id = cx.resolution.calls.get? site.id
  funcs : ∀ id, cx.resolution.calls.get? site.id = some id →
    cx'.nodes.funcs[id]? = cx.nodes.funcs[id]?

namespace Context.AgreeAt
variable {cx cx' : Context} {site : Site}

theorem variableOf_eq (h : cx.AgreeAt cx' site) (g : Generator) (name : String) :
    g.variableOf cx' site name = g.variableOf cx site name := by
  rw [Generator.variableOf, Generator.variableOf, h.idents]
  cases hid : cx.resolution.idents.get? site.id with
  | none => rfl
  | some id =>
    simp only [h.vars id hid]

theorem calleeOf_eq (h : cx.AgreeAt cx' site) (g : Generator) (name : String) :
    g.calleeOf cx' site name = g.calleeOf cx site name := by
  rw [Generator.calleeOf, Generator.calleeOf, h.calls]
  cases hid : cx.resolution.calls.get? site.id with
  | none => rfl
  | some id =>
    simp only [h.funcs id hid]

end Context.AgreeAt

namespace Generate
variable {cx cx' : Context}

mutual

/-- The code of an expression depends on what is known of the names in it. -/
theorem expr_congr : ∀ (use : Use) (e : Tree.Expr Site), (∀ site ∈ e.labels, cx.AgreeAt cx' site) →
    expr cx' use e = expr cx use e
  | use, .assign _ (.ident site name []) value, h => by
    simp only [Tree.Expr.labels, List.forall_mem_cons, List.forall_mem_append] at h
    rw [expr, expr]
    simp only [h.2.1.1.variableOf_eq, expr_congr .value value h.2.2]
  | use, .assign _ (.ident site name (index :: indices)) value, h => by
    simp only [Tree.Expr.labels, List.forall_mem_cons, List.forall_mem_append] at h
    rw [expr, expr]
    simp only [h.2.1.1.variableOf_eq, expr_congr .value value h.2.2,
      element_congr (index :: indices) h.2.1.2]
  | use, .assign _ (.assign _ _ _) _, _ => rfl
  | use, .assign _ (.binary _ _ _ _) _, _ => rfl
  | use, .assign _ (.literal _ _) _, _ => rfl
  | use, .assign _ (.call _ _ _) _, _ => rfl
  | use, .binary _ op lhs rhs, h => by
    simp only [Tree.Expr.labels, List.forall_mem_cons, List.forall_mem_append] at h
    rw [expr.eq_def, expr.eq_def]
    simp only [expr_congr .value lhs h.2.1, expr_congr .value rhs h.2.2]
  | use, .ident site name indices, h => by
    simp only [Tree.Expr.labels, List.forall_mem_cons] at h
    rw [expr.eq_def, expr.eq_def]
    cases use with
    | effect => simp only [h.1.variableOf_eq, exprs_congr .effect indices h.2]
    | value =>
      cases indices with
      | nil => simp only [h.1.variableOf_eq]
      | cons index indices =>
        simp only [h.1.variableOf_eq, element_congr (index :: indices) h.2]
  | use, .literal _ value, _ => by
    rw [expr.eq_def, expr.eq_def]
  | use, .call site name args, h => by
    simp only [Tree.Expr.labels, List.forall_mem_cons] at h
    rw [expr.eq_def, expr.eq_def]
    simp only [h.1.calleeOf_eq, exprs_congr .value args h.2]

theorem exprs_congr : ∀ (use : Use) (es : List (Tree.Expr Site)),
    (∀ site ∈ Tree.Expr.labelsAll es, cx.AgreeAt cx' site) → exprs cx' use es = exprs cx use es
  | use, [], _ => rfl
  | use, e :: es, h => by
    rw [Tree.Expr.labelsAll, List.forall_mem_append] at h
    rw [exprs, exprs, expr_congr use e h.1, exprs_congr use es h.2]

theorem element_congr : ∀ es : List (Tree.Expr Site),
    (∀ site ∈ Tree.Expr.labelsAll es, cx.AgreeAt cx' site) → element cx' es = element cx es
  | [], _ => rfl
  | e :: es, h => by
    rw [Tree.Expr.labelsAll, List.forall_mem_append] at h
    rw [element, element, expr_congr .value e h.1, element_congr es h.2]

end

theorem declare_congr (v : Tree.Var) {init : Tree.Expr Site} (slot : Address)
    (h : ∀ site ∈ init.labels, cx.AgreeAt cx' site) :
    declare cx' v init slot = declare cx v init slot := by
  rw [declare, declare, expr_congr .value init h]

mutual

theorem stmt_congr : ∀ (s : Tree.Stmt) (slot : Address),
    (∀ site ∈ s.exprs.flatMap Tree.Expr.labels, cx.AgreeAt cx' site) →
    stmt cx' s slot = stmt cx s slot
  | .decl v init, slot, h => by
    simp only [Stmt.exprs, List.flatMap_cons, List.forall_mem_append] at h
    rw [stmt, stmt, declare_congr v slot h.1]
  | .ifThen cond body, slot, h => by
    simp only [Stmt.exprs, List.flatMap_cons, List.forall_mem_append] at h
    rw [stmt, stmt, expr_congr .value cond h.1]
    simp only [block_congr body _ h.2]
  | .ifElse cond body orElse, slot, h => by
    simp only [Stmt.exprs, List.flatMap_cons, List.flatMap_append, List.forall_mem_append] at h
    rw [stmt, stmt, expr_congr .value cond h.1]
    simp only [block_congr body _ h.2.1, block_congr orElse _ h.2.2]
  | .loop v init cond step body, slot, h => by
    simp only [Stmt.exprs, List.flatMap_cons, List.forall_mem_append] at h
    rw [stmt, stmt, declare_congr v slot h.1]
    simp only [expr_congr .value cond h.2.1, expr_congr .effect step h.2.2.1,
      block_congr body _ h.2.2.2]
  | .ret none, slot, _ => rfl
  | .ret (some value), slot, h => by
    simp only [Stmt.exprs, Option.toList_some, List.flatMap_cons, List.forall_mem_append] at h
    rw [stmt, stmt, expr_congr .value value h.1]
  | .eval e, slot, h => by
    simp only [Stmt.exprs, List.flatMap_cons, List.forall_mem_append] at h
    rw [stmt_eval, stmt_eval, expr_congr .effect e h.1]

theorem block_congr : ∀ (ss : List Tree.Stmt) (slot : Address),
    (∀ site ∈ (Stmt.exprsOf ss).flatMap Tree.Expr.labels, cx.AgreeAt cx' site) →
    block cx' ss slot = block cx ss slot
  | [], slot, _ => rfl
  | s :: ss, slot, h => by
    rw [Stmt.exprsOf, List.flatMap_append, List.forall_mem_append] at h
    rw [block, block, stmt_congr s slot h.1]
    simp only [block_congr ss _ h.2]

end

theorem func_congr {f : Tree.Func} (frame : Address)
    (h : ∀ site ∈ (Stmt.exprsOf f.body).flatMap Tree.Expr.labels, cx.AgreeAt cx' site) :
    func cx' f frame = func cx f frame := by
  simp only [func, block_congr f.body _ h]

/-- The code of functions depends on what is known of the names in them. -/
theorem funcs_congr {fs : List Tree.Func} (frame : Address)
    (h : ∀ site ∈ (fs.flatMap fun f => Stmt.exprsOf f.body).flatMap Tree.Expr.labels,
      cx.AgreeAt cx' site) : funcs cx' fs frame = funcs cx fs frame := by
  induction fs generalizing frame with
  | nil => rfl
  | cons f fs ih =>
    rw [List.flatMap_cons, List.flatMap_append, List.forall_mem_append] at h
    rw [funcs, funcs, func_congr frame h.1]
    simp only [ih _ h.2]

theorem funcs_append (cx : Context) (fs fs' : List Tree.Func) (frame : Address) :
    funcs cx (fs ++ fs') frame = funcs cx fs frame >>= funcs cx fs' := by
  induction fs generalizing frame with
  | nil =>
    rw [List.nil_append, funcs, pure_bind]
  | cons f fs ih =>
    rw [List.cons_append, funcs, funcs, bind_assoc]
    exact congrArg _ (funext ih)

/-- How a program gets its code, once its functions have theirs: a halt is added, and the first
instruction, which was a jump, gets a target. -/
theorem program_end {fs : List Tree.Func} {frame : Address} {g : Generator}
    (h : exec (program cx fs .origin) .initial = (.ok frame, g)) :
    ∃ g₁ g₂, exec (emitAt .jump 0 .cb 0) .initial = (.ok 0, g₁) ∧
      exec (funcs cx fs .origin) g₁ = (.ok .origin, g₂) ∧ g.layout = g₂.layout ∧
      ∀ q qs, g₂.segment.Holds (q :: qs) →
        ∃ d, g.segment.Holds ({ q with d := d } :: (qs ++ [⟨.halt, 0, .cb, 0⟩])) := by
  obtain ⟨entry, halt, g₁, g₂, g₃, hentry, hfuncs, hhalt, hlayout, hpatch⟩ := program_cases h
  rw [exec_emitAt] at hhalt
  cases hhalt
  have hzero : entry = 0 := by
    rw [exec_emitAt] at hentry
    cases hentry
    rfl
  subst hzero
  refine ⟨g₁, g₂, hentry, hfuncs, hlayout, fun q qs hq => ?_⟩
  have hall : Segment.Holds _ ([] ++ _ :: _) := hq.emit ⟨.halt, 0, .cb, 0⟩
  rcases hpatch with ⟨a, -, hsegment⟩ | ⟨-, hsegment⟩
  · rw [hsegment]
    exact ⟨_, hall.patch a.displacement⟩
  · rw [hsegment]
    exact ⟨_, (hall.warn .noEntry).patch _⟩

end Generate

namespace Segment.Holds
variable {s : Segment} {i : Nat}

theorem getElem?_code_of_lt {qs : List Request} (h : s.Holds qs) (hi : i < codeCapacity) :
    s.code[i]? = qs[i]?.map Request.instruction := by
  rw [← Array.getElem?_toList, h.code, List.getElem?_take_of_lt hi, List.getElem?_map]

/-- What stands between the first request and the last ones. -/
theorem getElem?_code_between {q : Request} {qs more : List Request}
    (h : s.Holds (q :: (qs ++ more))) (hi : 1 ≤ i) (hlt : i < min (qs.length + 1) codeCapacity) :
    s.code[i]? = qs[i - 1]?.map Request.instruction := by
  obtain ⟨i, rfl⟩ := Nat.exists_eq_add_of_le' hi
  obtain ⟨hlt, hfull⟩ := lt_min_iff.1 hlt
  rw [h.getElem?_code_of_lt hfull, List.getElem?_cons_succ,
    List.getElem?_append_left (Nat.lt_of_succ_lt_succ hlt), Nat.add_sub_cancel]

end Segment.Holds

/-! ## Programs -/

namespace Program
namespace GoesOn
variable {p q : Program} {fs : List Tree.Func} {R R' : Resolution}

/-- Where both programs resolve names alike, they know the same of what the names stand for. -/
theorem agreeAt (h : p.GoesOn q fs) (hwf : p.WellFormed) (hR : p.resolve = .ok R)
    (hsame : ∀ id < p.nodes.exprs.size,
      R'.idents.get? id = R.idents.get? id ∧ R'.calls.get? id = R.calls.get? id)
    {site : Site} (hsite : site ∈ p.exprs.flatMap Tree.Expr.labels) :
    Context.AgreeAt ⟨p.nodes, R⟩ ⟨q.nodes, R'⟩ site := by
  have hid : site.id < p.nodes.exprs.size :=
    List.mem_range.1 (hwf.exprIds.mem_iff.1 (List.mem_map_of_mem hsite))
  refine ⟨(hsame site.id hid).1, fun var hvar => ?_, (hsame site.id hid).2, fun func hfunc => ?_⟩
  · have hrange := ident_resolved_in_range hwf hR hvar
    rw [hwf.varIds, List.mem_range] at hrange
    have hnode := Array.getElem?_eq_getElem hrange
    exact (h.stored.le.getElem?_vars hnode).trans hnode.symm
  · have hrange := call_resolved_in_range hwf hR hfunc
    rw [hwf.funcIds, List.mem_range] at hrange
    have hnode := Array.getElem?_eq_getElem hrange
    exact (h.stored.le.getElem?_funcs hnode).trans hnode.symm

variable {g g' : Generator} {frame frame' : Address}

/-- The functions that come later have no places yet. -/
theorem get?_funcs_eq_none (h : p.GoesOn q fs) (hwf : p.WellFormed)
    (hrun : exec (Generate.program ⟨p.nodes, R⟩ p.funcs .origin) .initial = (.ok frame, g))
    {id : FuncId} (hid : id ∈ fs.map (·.id)) : g.layout.funcs.get? id = none := by
  by_contra hsome
  have hold := (Generate.funcs_program hrun id).1 (Option.ne_none_iff_exists'.1 hsome)
  rw [hwf.funcIds, List.mem_range] at hold
  rw [h.stored.funcIds, List.mem_range'_1] at hid
  exact Nat.not_le.2 hold hid.1

theorem get?_vars_eq_none (h : p.GoesOn q fs) (hwf : p.WellFormed)
    (hrun : exec (Generate.program ⟨p.nodes, R⟩ p.funcs .origin) .initial = (.ok frame, g))
    {id : VarId} (hid : id ∈ (fs.flatMap (·.vars)).map (·.id)) :
    g.layout.vars.get? id = none := by
  by_contra hsome
  have hold : id ∈ p.vars.map (·.id) :=
    (Generate.vars_program hrun id).1 (Option.ne_none_iff_exists'.1 hsome)
  rw [hwf.varIds, List.mem_range] at hold
  rw [h.stored.varIds, List.mem_range'_1] at hid
  exact Nat.not_le.2 hold hid.1

/-- The places stay the same, and the code of later functions stands behind the code so far. -/
theorem generate (h : p.GoesOn q fs) (hwf : p.WellFormed) (hR : p.resolve = .ok R)
    (hsame : ∀ id < p.nodes.exprs.size,
      R'.idents.get? id = R.idents.get? id ∧ R'.calls.get? id = R.calls.get? id)
    (hrun : exec (Generate.program ⟨p.nodes, R⟩ p.funcs .origin) .initial = (.ok frame, g))
    (hrun' : exec (Generate.program ⟨q.nodes, R'⟩ q.funcs .origin) .initial = (.ok frame', g')) :
    g.layout ≤ g'.layout ∧ ∃ d d' qs more,
      g.segment.Holds (⟨.jump, 0, .cb, d⟩ :: (qs ++ [⟨.halt, 0, .cb, 0⟩])) ∧
      g'.segment.Holds (⟨.jump, 0, .cb, d'⟩ :: (qs ++ (more ++ [⟨.halt, 0, .cb, 0⟩]))) := by
  obtain ⟨g₁, g₂, hjump, hfuncs, hlayout, hend⟩ := Generate.program_end hrun
  obtain ⟨g₁', g₂', hjump', hfuncs', hlayout', hend'⟩ := Generate.program_end hrun'
  cases hjump.symm.trans hjump'
  -- behind the functions of `p` both runs are in the state `g₂`
  rw [h.funcs, Generate.funcs_append,
    Generate.funcs_congr .origin fun _ => h.agreeAt hwf hR hsame] at hfuncs'
  obtain ⟨_, _, hfirst, hlater⟩ := exec_bind_ok.1 hfuncs'
  cases hfuncs.symm.trans hfirst
  have hlevel : Address.origin.level = g₂.level := by
    rw [Generate.exec_emitAt] at hjump
    cases hjump
    exact (Generate.generates_funcs _ default rfl hfuncs).2.level.symm
  obtain ⟨-, hholds, -, -⟩ := Generate.holds_funcs _ (hwf.funcIds ▸ List.nodup_range)
    (hwf.varIds ▸ List.nodup_range) hjump hfuncs
  obtain ⟨hle, hmore, -, -⟩ := Generate.generates_newFuncs _
    (h.stored.funcIds ▸ List.nodup_range') (h.stored.varIds ▸ List.nodup_range')
    (fun id hid => hlayout ▸ h.get?_funcs_eq_none hwf hrun hid)
    (fun id hid => hlayout ▸ h.get?_vars_eq_none hwf hrun hid) hlevel hlater
  obtain ⟨d, hd⟩ := hend _ _ hholds
  obtain ⟨d', hd'⟩ := hend' _ (_ ++ _) (hmore _ hholds)
  rw [List.append_assoc] at hd'
  exact ⟨hlayout ▸ hlayout' ▸ hle, d, d', _, _, hd, hd'⟩

end GoesOn

/-- Later functions do not affect earlier ones. If a text declares a program and goes on, on a new
line, to one that compiles, then it compiles by itself. Up to the halt the code is the same but for
the first jump, as far as the code store reaches, and every function and variable of the program has
the same place. -/
theorem later_functions_change_nothing_before {text rest : String} {p q : Program} {o' : Object}
    (hp : parse text = .ok p) (hq : PrimeLang.compile (text ++ "\n" ++ rest) = .ok (q, o')) :
    ∃ R frame g h, p.resolve = .ok R ∧
      exec (Generate.program ⟨p.nodes, R⟩ p.funcs .origin) .initial = (.ok frame, g) ∧
      PrimeLang.compile text = .ok (p, g.object) ∧ g.segment.next = h + 1 ∧
      (h < codeCapacity → g.object.code[h]? = some (Request.instruction ⟨.halt, 0, .cb, 0⟩)) ∧
      (∀ i, 1 ≤ i → i < min h codeCapacity →
        ∃ instr, g.object.code[i]? = some instr ∧ o'.code[i]? = some instr) ∧
      p.funcs <+: q.funcs ∧
      (∀ id < p.nodes.funcs.size, ∃ a,
        g.object.layout.funcs.get? id = some a ∧ o'.layout.funcs.get? id = some a) ∧
      ∀ id < p.nodes.vars.size, ∃ a,
        g.object.layout.vars.get? id = some a ∧ o'.layout.vars.get? id = some a := by
  obtain ⟨R', hq, hR', ho'⟩ := compile_eq_ok hq
  obtain ⟨fs, hmore⟩ := parse_goes_on hp hq
  have hwf := ofTokens_wellFormed hp
  obtain ⟨R, hR, hsame⟩ := hmore.resolve hR'
  obtain ⟨o, ho⟩ := exists_generate hp hR
  obtain ⟨frame, g, hrun, rfl⟩ := generate_eq_ok.1 ho
  obtain ⟨frame', g', hrun', rfl⟩ := generate_eq_ok.1 ho'
  obtain ⟨hle, d, d', qs, more, hcode, hcode'⟩ := hmore.generate hwf hR hsame hrun hrun'
  refine ⟨R, frame, g, qs.length + 1, hR, hrun, compile_of_generate_ok hp hR ho, ?_, ?_, ?_,
    ⟨fs, hmore.funcs.symm⟩, ?_, ?_⟩
  · rw [hcode.next, List.length_cons, List.length_append, List.length_singleton]
  · intro hfull
    exact (hcode.getElem?_code_of_lt hfull).trans (by simp)
  · intro i hi hlt
    have hq := List.getElem?_eq_getElem (l := qs) (i := i - 1) (by omega)
    refine ⟨_, (hcode.getElem?_code_between hi hlt).trans (congrArg _ hq), ?_⟩
    exact (hcode'.getElem?_code_between hi hlt).trans (congrArg _ hq)
  · intro id hid
    obtain ⟨a, ha⟩ := exists_place_of_func hwf ho (hwf.funcIds ▸ List.mem_range.2 hid)
    exact ⟨a, ha, hle.funcs id a ha⟩
  · intro id hid
    obtain ⟨a, ha⟩ := exists_place_of_var hwf ho (hwf.varIds ▸ List.mem_range.2 hid)
    exact ⟨a, ha, hle.vars id a ha⟩

/-- A function behind which a comment runs up to the end of the text. -/
def successorText : String := "func f(int n) -> int \x7b return n + 1; \x7d // the successor"

def callingText : String :=
  "func g(int n) -> int \x7b return f(f(n)); \x7d func main() \x7b int n := g(1); \x7d"

/-- Without an entry function the first jump leads to the halt, and only that is different. -/
theorem later_functions_change_nothing_before_main :
    ∃ p q o o', PrimeLang.compile successorText = .ok (p, o) ∧
      PrimeLang.compile (successorText ++ "\n" ++ callingText) = .ok (q, o') ∧
      o.code[0]? ≠ o'.code[0]? ∧
      (∀ i, 1 ≤ i → i < 5 → ∃ instr, o.code[i]? = some instr ∧ o'.code[i]? = some instr) ∧
      ∃ a, o.layout.funcs.get? 0 = some a ∧ o'.layout.funcs.get? 0 = some a := by
  obtain ⟨p, o, hcompile, heval⟩ := exists_compile_of_eval successorText
    (fun (p, o) => decide (p.nodes.funcs.size = 1 ∧ o.code[0]?.map (·.d) = some 5 ∧
      ∀ i < 5, o.code[i]?.map (·.op) ≠ some .halt)) (by decide +kernel)
  obtain ⟨q, o', hq, heval'⟩ := exists_compile_of_eval (successorText ++ "\n" ++ callingText)
    (fun (_, o') => decide (o'.code[0]?.map (·.d) = some 9)) (by decide +kernel)
  obtain ⟨hsize, hjump, hop⟩ := of_decide_eq_true heval
  have hjump' := of_decide_eq_true heval'
  obtain ⟨-, hp, -, -⟩ := compile_eq_ok hcompile
  obtain ⟨-, -, g, h, -, -, hcompile', -, hhalt, hcode, -, hfuncs, -⟩ :=
    later_functions_change_nothing_before hp hq
  cases hcompile.symm.trans hcompile'
  have hh : 5 ≤ h := by
    by_contra hlt
    have hlt := Nat.not_le.1 hlt
    refine hop h hlt ?_
    rw [hhalt (Nat.lt_trans hlt (by decide))]
    rfl
  refine ⟨p, q, _, o', hcompile, hq, ?_, ?_, hfuncs 0 (by omega)⟩
  · intro heq
    rw [heq, hjump'] at hjump
    cases hjump
  · intro i hi hlt
    exact hcode i hi (lt_min (Nat.lt_of_lt_of_le hlt hh) (Nat.lt_trans hlt (by decide)))

end Program
end PrimeLang
