import PrimeLang.Proofs.GeneratorTasks

/-! # Stack accounting

In the object code of a program every call can be accounted for: its target tells which function it
calls, and it has pushed as many arguments as that function has parameters. So the words that each
expression and statement adds to the stack are known exactly. -/

namespace PrimeLang
open Machine Action

/-! ## Functions by address -/

namespace Object.Regions
variable {o : Object} {cx : Context} {fs : List Tree.Func}
variable (h : o.Regions cx fs)
    (hcalls : ∀ k f, fs[k]? = some f → ∀ e ∈ Stmt.exprsOf f.body, cx.resolution.CallsBack k e.uses)
include h hcalls

theorem entry_lt {j k : Nat} (hjk : j < k) (hk : k ≤ fs.length) : o.entry j < o.entry k := by
  have hj := List.getElem?_eq_getElem (Nat.lt_of_lt_of_le hjk hk)
  exact Nat.lt_of_lt_of_le (h.confined hj (hcalls j _ hj)).1 (h.entry_le hjk hk)

/-- A function is found by the address where its code starts. -/
theorem funcAt?_entry {ns : Nodes} (hsize : ns.funcs.size = fs.length) {k : Nat}
    (hk : k < fs.length) : o.funcAt? ns (o.entry k) = ns.funcs[k]? := by
  have hfind : (List.range ns.funcs.size).find? (fun j => (o.entry j : Int) = o.entry k) =
      some k := by
    rw [List.find?_range_eq_some]
    refine ⟨by simp, List.mem_range.2 (hsize ▸ hk), fun j hj => ?_⟩
    have hlt := h.entry_lt hcalls hj (Nat.le_of_lt hk)
    simp only [Bool.not_eq_true', decide_eq_false_iff_not]
    omega
  rw [Object.funcAt?, hfind, Option.bind_some]

end Object.Regions

/-! ## Calls -/

/-- Only the function itself is declared as a function by a visit of it. -/
theorem eq_of_func_mem_visits {f g : Tree.Func} {k : Nat} {b : Block}
    (h : ⟨b, .func g⟩ ∈ f.visits k) : g = f := by
  rcases List.mem_cons.1 h with h | h
  · cases h
    rfl
  · rcases List.mem_append.1 h with h | h
    · obtain ⟨v, -, hv⟩ := List.mem_map.1 h
      cases hv
    · have hnone := List.filterMap_eq_nil_iff.1 (funcName?_stmtVisitsOf f.body [k] 0) _ h
      cases hnone

namespace Program
variable {p : Program} {R : Resolution} {o : Object}

/-- A call has as many arguments as the function that it is resolved to has parameters. -/
theorem callee_of_call (hwf : p.WellFormed) (hR : p.resolve = .ok R) {f : Tree.Func}
    (hf : f ∈ p.funcs) {e : Tree.Expr Site} (he : e ∈ Stmt.exprsOf f.body) {site : Site}
    {name : String} {args : Nat} (huse : .call site name args ∈ e.uses) :
    ∃ k node, R.calls.get? site.id = some k ∧ p.nodes.funcs[k]? = some node ∧
      node.params.length = args := by
  obtain ⟨k, hk⟩ := List.getElem?_of_mem hf
  obtain ⟨b, hvisit⟩ := exists_visit_of_use k he huse
  have hmem : ⟨b, .call site name args⟩ ∈ p.visits :=
    mem_visitsFrom.2 ⟨k, f, hk, by rwa [Nat.zero_add]⟩
  obtain ⟨before, after, hsplit⟩ := List.append_of_mem hmem
  have hmeets : p.Meets before ⟨b, .call site name args⟩ := ⟨after, hsplit⟩
  have hscoped := wellScoped_iff.2 (resolve_eq_ok_iff.1 hR).1
  obtain ⟨-, g, hg, hargs⟩ := hscoped.calls hmeets
  have hcall : R.calls.get? site.id = some g.id :=
    (calls_get?_iff hwf hR _ _).2 ⟨_, _, hmeets, site, name, args, g, rfl, rfl, rfl, hg⟩
  -- the function that is called is one of the program
  obtain ⟨-, b', hdecl⟩ := hg
  have hvisited : ⟨b', .func g⟩ ∈ p.visits := by
    rw [hsplit]
    exact List.mem_append_left _ hdecl
  obtain ⟨j, f', hf', hmem'⟩ := mem_visitsFrom.1 hvisited
  cases eq_of_func_mem_visits hmem'
  have hj := hwf.id_eq hf'
  subst hj
  have hlt := (List.getElem?_eq_some_iff.1 hf').1
  rw [hwf.length_funcs] at hlt
  have hnode := Array.getElem?_eq_getElem hlt
  obtain ⟨g', hg', -, hunfolds⟩ := hwf.exists_func_of_node hnode
  cases hf'.symm.trans hg'
  refine ⟨g.id, _, hcall, hnode, ?_⟩
  rw [← hunfolds.params, List.length_map, hargs]

/-- The code of every expression of a program can be accounted for. -/
theorem accountable {text : String} (hp : parse text = .ok p) (hR : p.resolve = .ok R)
    (ho : p.generate R = .ok o) (hfull : ∀ c, .storeFull c ∉ o.warnings) {f : Tree.Func}
    (hf : f ∈ p.funcs) {e : Tree.Expr Site} (he : e ∈ Stmt.exprsOf f.body) :
    (Code.bodyEnv ⟨p.nodes, R⟩ o.layout 0 f).Accountable o e where
  names := assignsNames hp (List.mem_flatMap.2 ⟨f, hf, he⟩)
  counts := by
    have hwf := ofTokens_wellFormed hp
    have hregions := hwf.regions ho hfull
    have hcalls : ∀ k f, p.funcs[k]? = some f → ∀ e ∈ Stmt.exprsOf f.body, R.CallsBack k e.uses :=
      fun k f hf e he => callsBack hwf hR hf he
    intro site name args huse
    obtain ⟨k, node, hcall, hnode, hargs⟩ := callee_of_call hwf hR hf he huse
    have hk : k < p.funcs.length := by
      rw [hwf.length_funcs]
      exact (Array.getElem?_eq_some_iff.1 hnode).1
    have hplace := hregions.place (List.getElem?_eq_getElem hk)
    have hcallee : (⟨p.nodes, R⟩ : Context).callee? site = some node := by
      rw [Context.callee?, hcall]
      exact hnode
    have hd : ((Code.bodyEnv ⟨p.nodes, R⟩ o.layout 0 f).callAt site).instruction.d.toInt =
        o.entry k := by
      refine Request.toInt_d_of_small ?_ (hregions.entry_le_capacity (Nat.le_of_lt hk))
      show (((R.calls.get? site.id).bind o.layout.funcs.get?).getD default).displacement = _
      rw [hcall, Option.bind_some, hplace]
      rfl
    have hentry := hregions.funcAt?_entry hcalls hwf.length_funcs.symm hk
    rw [← hd, hnode] at hentry
    exact ⟨node, hcallee, hargs, hentry⟩

end Program

/-! ## Expressions and statements -/

/-- The instructions from an address up to another. -/
def Object.between (o : Object) (a b : Nat) : List Instruction := (o.code.extract a b).toList

theorem Object.Holds.between {o : Object} {a : Nat} {qs : List Request} (h : o.Holds a qs) :
    o.between a (a + qs.length) = qs.map Request.instruction := by
  apply List.ext_getElem?
  intro k
  rw [Object.between, Array.getElem?_toList, Array.getElem?_extract, List.getElem?_map]
  cases hq : qs[k]? with
  | none =>
    have hle := List.getElem?_eq_none_iff.1 hq
    exact if_neg (by omega)
  | some q =>
    have hcode := h k q hq
    have hlt := (Array.getElem?_eq_some_iff.1 hcode).1
    have hk := (List.getElem?_eq_some_iff.1 hq).1
    rw [if_pos (by omega)]
    exact hcode

namespace Program
variable {p : Program} {R : Resolution}

/-- Whenever the names of a program can be resolved, there is code for it, and unless the code store
is full the stack can be accounted for in each expression and statement of the program. The code of
an expression adds its value if that is wanted, less a word for each call in it that has to give a
value and is of a function without a result; where there are none, no cut of the code has taken off
a word from below its start. Along every control path through a statement without such calls the end
is as high as the start, and a return finds just its own words above the start. -/
theorem stack_accounting_exact {text : String} (hp : parse text = .ok p)
    (hR : p.resolve = .ok R) : ∃ o, p.generate R = .ok o ∧ ((∀ c, .storeFull c ∉ o.warnings) →
      (p.tasks R).map Task.item = p.funcs.flatMap (fun f => Code.blockItems f.body) ∧
      (∀ use e g, .expr use e g ∈ p.tasks R → ∃ g' is,
        exec (Generate.expr ⟨p.nodes, R⟩ use e) g = (.ok (), g') ∧
        o.between g.segment.next g'.segment.next = is ∧
        o.rise p.nodes is = use.words - (Task.expr use e g).voidCalls ⟨p.nodes, R⟩ ∧
        ((Task.expr use e g).voidCalls ⟨p.nodes, R⟩ = 0 → ∀ k, 0 ≤ o.rise p.nodes (is.take k) ∧
          ∀ i, is[k]? = some i → o.takes p.nodes i ≤ o.rise p.nodes (is.take k))) ∧
      (∀ s slot g, .stmt s slot g ∈ p.tasks R → ∃ slot' g',
        exec (Generate.stmt ⟨p.nodes, R⟩ s slot) g = (.ok slot', g') ∧
        ((Task.stmt s slot g).voidCalls ⟨p.nodes, R⟩ = 0 → ∀ a h,
          Relation.ReflTransGen (o.Climbs p.nodes g.segment.next g'.segment.next)
            (g.segment.next, 0) (a, h) →
          g.segment.next ≤ a ∧ a ≤ g'.segment.next ∧ 0 ≤ h ∧ (a = g'.segment.next → h = 0) ∧
          ∀ i, a < g'.segment.next → o.code[a]? = some i →
            o.takes p.nodes i ≤ h ∧ (i.op = .ret → h = i.n.toInt)))) := by
  have hwf := ofTokens_wellFormed hp
  obtain ⟨o, ho⟩ := exists_generate hp hR
  refine ⟨o, ho, fun hfull => ?_⟩
  obtain ⟨v, hcovers⟩ := hwf.covers_tasks ho hfull
    fun f hf e he => accountable hp hR ho hfull hf he
  refine ⟨hcovers.items_eq, fun use e g htask => ?_, fun s slot g htask => ?_⟩
  · obtain ⟨⟨g', hrun⟩, hholds, haccount⟩ := hcovers.done _ htask
    have hcount := (Generate.covers_expr _ o e hrun hholds haccount.names haccount.counts).count
    have hg' := Generate.generates_expr ⟨p.nodes, R⟩ o.layout e hrun
    have haccounts := haccount.accounts use
    have hv : (Task.expr use e g).voidCalls ⟨p.nodes, R⟩ = Code.voids ⟨p.nodes, R⟩ use e := hcount
    rw [hv]
    refine ⟨g', _, hrun, hg'.next ▸ hholds.between, haccounts.rise, fun hv k => ?_⟩
    have hsound := haccounts.sound hv (Int.le_refl 0)
    have hnonneg := hsound.le_rise_take k
    rw [Int.zero_add] at hnonneg
    refine ⟨hnonneg, fun i hi => ?_⟩
    have htakes := hsound.takes_le hi
    rwa [Int.zero_add] at htakes
  · obtain ⟨⟨slot', g', hrun⟩, hholds, haccount⟩ := hcovers.done _ htask
    have hcount := (Generate.covers_stmt _ o s hrun hholds haccount).count
    obtain ⟨-, hg'⟩ := Generate.generates_stmt ⟨p.nodes, R⟩ o.layout s hrun
    refine ⟨slot', g', hrun, fun hv a h hpath => ?_⟩
    exact Code.stmt_heights haccount (hcount.symm.trans hv) hholds hg'.next.symm
      (hwf.code_eq ho hfull).2 hpath

/-- A function without a result is called for a value. -/
def voidText : String := "func v() \x7b \x7d func main() \x7b int a := v(); \x7d"

theorem stack_accounting_exact_void :
    ∃ p R o, parse voidText = .ok p ∧ p.resolve = .ok R ∧ p.generate R = .ok o ∧
      (∀ c, .storeFull c ∉ o.warnings) ∧ ∃ e g g', .expr .value e g ∈ p.tasks R ∧
        exec (Generate.expr ⟨p.nodes, R⟩ .value e) g = (.ok (), g') ∧
        o.rise p.nodes (o.between g.segment.next g'.segment.next) = 0 := by
  obtain ⟨p, o, hcompile, heval⟩ := exists_compile_of_eval voidText
    (fun (p, o) => decide (o.Complete ∧ ∀ R ∈ p.resolve.toOption, ∃ t ∈ p.tasks R,
      t.isVoidCall ⟨p.nodes, R⟩ ∧ t.voidCalls ⟨p.nodes, R⟩ = 1)) (by decide +kernel)
  obtain ⟨hcomplete, htasks⟩ := of_decide_eq_true heval
  have hfull := hcomplete.storeFull_not_mem
  obtain ⟨R, hp, hR, ho⟩ := compile_eq_ok hcompile
  obtain ⟨o', ho', haccounts⟩ := stack_accounting_exact hp hR
  cases ho.symm.trans ho'
  obtain ⟨t, ht, hvoid, hcount⟩ := htasks R (by rw [hR]; rfl)
  cases t with
  | stmt s slot g => cases hvoid
  | expr use e g =>
    obtain ⟨g', _, hrun, rfl, hrise, -⟩ := (haccounts hfull).2.1 use e g ht
    have huse : use = .value := Task.value_of_isVoidCall hvoid
    subst huse
    rw [hcount] at hrise
    exact ⟨p, R, o, hp, hR, ho, hfull, e, g, g', ht, hrun, hrise⟩

end Program
end PrimeLang
