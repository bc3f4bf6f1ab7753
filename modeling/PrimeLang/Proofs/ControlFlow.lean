import PrimeLang.Proofs.CodeOrigins
import PrimeLang.Proofs.FunctionRegions

/-! # Control flow stays inside functions

Functions are entered by calls and left by returns. In between, jumps stay in the region of the
function, because a return stands behind everything that a branch or a loop can skip. -/

namespace PrimeLang
open Machine

/-! ## Displacements of addresses in the code store -/

theorem Request.toInt_d_of_small {q : Request} {n : Nat} (hd : q.d = n) (hn : n ≤ codeCapacity) :
    q.instruction.d.toInt = n := by
  have hcapacity : codeCapacity = 1024 := rfl
  rw [Request.instruction, hd, toInt_clampDisplacement, Segment.clampDisplacement, Segment.clamp,
    minDisplacement, maxDisplacement]
  omega

theorem Request.toInt_d_of_addressOf {q : Request} {n : Nat} (hd : q.d = Segment.addressOf n)
    (hn : n ≤ codeCapacity) : q.instruction.d.toInt = n :=
  toInt_d_of_small (hd.trans (Segment.addressOf_of_le_capacity hn)) hn

theorem BinaryOp.displacement_routine_le (op : BinaryOp) :
    op.routine.displacement ≤ codeCapacity := by
  cases op <;> decide

/-! ## Calls lead backwards -/

theorem Tree.visitsFrom_append (fs fs' : List Tree.Func) (k : Nat) :
    Tree.visitsFrom k (fs ++ fs') =
      Tree.visitsFrom k fs ++ Tree.visitsFrom (k + fs.length) fs' := by
  induction fs generalizing k with
  | nil => rfl
  | cons f fs ih =>
    rw [List.cons_append, Tree.visitsFrom, Tree.visitsFrom, ih, List.append_assoc, List.length_cons,
      Nat.add_right_comm, Nat.add_assoc]

/-- The calls among the events of the `k`th function are of that function or of one before it. -/
def Resolution.CallsBack (R : Resolution) (k : Nat) (us : List Event) : Prop :=
  ∀ site name args, .call site name args ∈ us → ∃ j ≤ k, R.calls.get? site.id = some j

/-- A call in a function is resolved to that function or to one before it. -/
theorem Program.callsBack {p : Program} {R : Resolution} (hwf : p.WellFormed)
    (hR : p.resolve = .ok R) {k : Nat} {f : Tree.Func} (hf : p.funcs[k]? = some f)
    {e : Tree.Expr Site} (he : e ∈ Stmt.exprsOf f.body) : R.CallsBack k e.uses := by
  intro site name args huse
  obtain ⟨hk, hget⟩ := List.getElem?_eq_some_iff.1 hf
  obtain ⟨b, hvisit⟩ := exists_visit_of_use k he huse
  obtain ⟨pre, post, hsplit⟩ := List.append_of_mem hvisit
  have htake : p.funcs.take (k + 1) = p.funcs.take k ++ [f] := by
    rw [List.take_succ_eq_append_getElem hk, hget]
  have hupto : Tree.visitsFrom 0 (p.funcs.take (k + 1)) =
      (Tree.visitsFrom 0 (p.funcs.take k) ++ pre) ++ ⟨b, .call site name args⟩ :: post := by
    rw [htake, Tree.visitsFrom_append, List.length_take_of_le (Nat.le_of_lt hk), Nat.zero_add,
      Tree.visitsFrom, Tree.visitsFrom, List.append_nil, hsplit, List.append_assoc]
  have hmeets : p.Meets (Tree.visitsFrom 0 (p.funcs.take k) ++ pre) ⟨b, .call site name args⟩ := by
    refine ⟨post ++ Tree.visitsFrom (p.funcs.take (k + 1)).length (p.funcs.drop (k + 1)), ?_⟩
    rw [← List.cons_append, ← List.append_assoc, ← hupto]
    conv => lhs; rw [Program.visits, ← List.take_append_drop (k + 1) p.funcs]
    rw [Tree.visitsFrom_append, Nat.zero_add]
  have hscoped := Program.wellScoped_iff.2 (Program.resolve_eq_ok_iff.1 hR).1
  obtain ⟨-, g, hg, -⟩ := hscoped.calls hmeets
  refine ⟨g.id, ?_, (Program.calls_get?_iff hwf hR _ _).2
    ⟨_, _, hmeets, site, name, args, g, rfl, rfl, rfl, hg⟩⟩
  -- what the call denotes is declared up to the `k`th function, and functions are numbered in order
  obtain ⟨-, b', hdecl⟩ := hg
  have hmem : g.id ∈ declaredFuncIds (Tree.visitsFrom 0 (p.funcs.take (k + 1))) := by
    rw [hupto, declaredFuncIds_append]
    exact List.mem_append_left _ (mem_declaredFuncIds hdecl)
  rw [Program.declaredFuncIds_visitsFrom, List.map_take, hwf.funcIds, List.take_range,
    List.mem_range] at hmem
  omega

/-! ## Where instructions lead -/

/-- What the instructions of the `k`th function do to control flow, if it has `params` parameters.
Jumps stay in its region, calls are of functions up to itself or of routines for binary operators,
and returns discard its parameters. -/
def Object.Confined (o : Object) (k : FuncId) (params : Nat) (i : Instruction) : Prop :=
  match i.op with
  | .jump | .jumpIf => i.r = .cb ∧ o.entry k ≤ i.d.toInt ∧ i.d.toInt < o.entry (k + 1)
  | .call => (i.r = .cb ∧ ∃ j ≤ k, i.d.toInt = o.entry j) ∨
      (i.r = .pb ∧ ∃ op : BinaryOp, i.d.toInt = op.routine.displacement)
  | .ret => i.d.toInt = min (params : Int) maxDisplacement
  | .jumpIndirect | .callIndirect | .halt => False
  | _ => True

namespace Object.Regions
variable {o : Object} {cx : Context} {fs : List Tree.Func} {k : Nat} {f : Tree.Func} {q : Request}

theorem entry_le_capacity (h : o.Regions cx fs) (hk : k ≤ fs.length) :
    o.entry k ≤ codeCapacity := by
  have hle := h.entry_le hk (Nat.le_refl _)
  have hsize := h.size
  have hsmall := h.small
  omega

/-- Nothing in an expression leads away but calls. -/
theorem confined_of_ofExpr (h : o.Regions cx fs) (hf : fs[k]? = some f) {us : List Event}
    (hcalls : cx.resolution.CallsBack k us)
    (hq : Code.OfExpr (Code.bodyEnv cx o.layout 0 f) us q) :
    o.Confined k f.params.length q.instruction := by
  cases hq with
  | access size hop huse => rcases hop with rfl | rfl <;> trivial
  | indirect hop => rcases hop with rfl | rfl <;> trivial
  | routine op => exact .inr ⟨rfl, op, Request.toInt_d_of_small rfl op.displacement_routine_le⟩
  | @call site name args huse =>
    obtain ⟨j, hj, hcall⟩ := hcalls site name args huse
    have hk := (List.getElem?_eq_some_iff.1 hf).1
    have hplace := h.place (List.getElem?_eq_getElem (Nat.lt_of_le_of_lt hj hk))
    refine .inl ⟨rfl, j, hj, Request.toInt_d_of_small ?_ (h.entry_le_capacity (by omega))⟩
    show (((cx.resolution.calls.get? site.id).bind o.layout.funcs.get?).getD
      default).displacement = _
    rw [hcall, Option.bind_some, hplace]
    rfl
  | copy | literal | pop => trivial

theorem confined_ret (o : Object) (cx : Context) (k : Nat) (f : Tree.Func) (n : Int) :
    o.Confined k f.params.length (Code.ret (Code.bodyEnv cx o.layout 0 f) n).instruction := by
  show (Int32.ofInt (Segment.clampDisplacement (Tree.words f.params))).toInt = _
  rw [Request.toInt_clampDisplacement, Tree.words_eq_length, Segment.clampDisplacement,
    Segment.clamp, minDisplacement, maxDisplacement]
  omega

theorem bounds_of_target (h : o.Regions cx fs) (hf : fs[k]? = some f) {target : Nat}
    (hlo : o.entry k ≤ target) (hhi : target < o.entry (k + 1))
    (hd : q.d = Segment.addressOf target) :
    o.entry k ≤ q.instruction.d.toInt ∧ q.instruction.d.toInt < o.entry (k + 1) := by
  have hcapacity : o.entry (k + 1) ≤ codeCapacity :=
    h.entry_le_capacity (List.getElem?_eq_some_iff.1 hf).1
  rw [Request.toInt_d_of_addressOf hd (by omega)]
  exact ⟨Int.ofNat_le.2 hlo, Int.ofNat_lt.2 hhi⟩

theorem confined_of_ofBlock (h : o.Regions cx fs) (hf : fs[k]? = some f) {hi : Nat}
    (hhi : hi < o.entry (k + 1)) {vs : List Tree.Var}
    (hcalls : ∀ e ∈ Stmt.exprsOf f.body, cx.resolution.CallsBack k e.uses)
    (hq : Code.OfBlock (Code.bodyEnv cx o.layout 0 f) (Stmt.exprsOf f.body) vs (o.entry k) hi q) :
    o.Confined k f.params.length q.instruction := by
  cases hq with
  | expr he hq => exact h.confined_of_ofExpr hf (hcalls _ he) hq
  | declare hv => trivial
  | jumpIfFalse hlo hle => exact ⟨rfl, h.bounds_of_target hf hlo (Nat.lt_of_le_of_lt hle hhi) rfl⟩
  | jump hlo hle => exact ⟨rfl, h.bounds_of_target hf hlo (Nat.lt_of_le_of_lt hle hhi) rfl⟩
  | ret n => exact confined_ret o cx k f n

/-- The last instruction in the region of a function is a return, and none leads out of it. -/
theorem confined (h : o.Regions cx fs) (hf : fs[k]? = some f)
    (hcalls : ∀ e ∈ Stmt.exprsOf f.body, cx.resolution.CallsBack k e.uses) :
    o.entry k < o.entry (k + 1) ∧
      (∃ i, o.code[o.entry (k + 1) - 1]? = some i ∧ i.op = .ret) ∧
      ∀ a i, o.entry k ≤ a → a < o.entry (k + 1) → o.code[a]? = some i →
        o.Confined k f.params.length i := by
  obtain ⟨c, n, hbody, hall⟩ := Code.bodyCode_spec (Code.bodyEnv cx o.layout 0 f) (o.entry k) f
  have hfunc : Code.func cx o.layout 0 (o.entry k) f = Code.space f.body ++
      (c ++ [Code.ret (Code.bodyEnv cx o.layout 0 f) n]) := by
    rw [Code.func, Code.funcBody_eq, hbody]
  have hnext := h.next hf
  rw [hfunc, List.length_append, List.length_append, List.length_singleton] at hnext
  refine ⟨by omega, ⟨(Code.ret (Code.bodyEnv cx o.layout 0 f) n).instruction, ?_, rfl⟩,
    fun a i hlo hhi hi => ?_⟩
  · have hlast : (Code.func cx o.layout 0 (o.entry k) f)[(Code.space f.body).length + c.length]? =
        some (Code.ret (Code.bodyEnv cx o.layout 0 f) n) := by
      rw [hfunc, ← List.append_assoc, ← List.length_append, List.getElem?_concat_length]
    rw [← h.code hf hlast]
    congr 1
    omega
  · obtain ⟨q, hq, rfl⟩ := h.exists_request hf hlo hhi hi
    rcases Code.getElem?_func hq with ⟨-, -, rfl⟩ | hmem
    · trivial
    · rw [hbody, List.mem_append, List.mem_singleton] at hmem
      rcases hmem with hmem | rfl
      · exact h.confined_of_ofBlock hf (by omega) hcalls (hall q hmem)
      · exact confined_ret o cx k f n

/-- The halt is the only one. -/
theorem op_eq_halt_iff (h : o.Regions cx fs)
    (hcalls : ∀ k f, fs[k]? = some f → ∀ e ∈ Stmt.exprsOf f.body,
      cx.resolution.CallsBack k e.uses)
    {i₀ : Instruction} (hfirst : o.code[0]? = some i₀) (hjump : i₀.op = .jump)
    {a : Nat} {i : Instruction} (hi : o.code[a]? = some i) :
    i.op = .halt ↔ a = o.entry fs.length := by
  constructor
  · intro hop
    apply Nat.le_antisymm
    · have hlt := (Array.getElem?_eq_some_iff.1 hi).1
      rw [h.size] at hlt
      exact Nat.le_of_lt_succ hlt
    · apply Nat.le_of_not_lt
      intro hlt
      rcases Nat.eq_zero_or_pos a with rfl | hpos
      · cases hi.symm.trans hfirst
        cases hop.symm.trans hjump
      · obtain ⟨k, f, hf, hlo, hhi⟩ := h.exists_region (Nat.le_refl _) hpos hlt
        have hconfined := (h.confined hf (hcalls k f hf)).2.2 a i hlo hhi hi
        rw [Object.Confined, hop] at hconfined
        exact hconfined
  · rintro rfl
    cases hi.symm.trans h.halt
    rfl

end Object.Regions

/-! ## The entry function -/

/-- The instruction jumps to `target`. -/
structure Machine.Instruction.JumpsTo (i : Instruction) (target : Nat) : Prop where
  op : i.op = .jump
  r : i.r = .cb
  d : i.d.toInt = target

namespace Nodes
variable {ns : Nodes}

theorem entry?_eq_none_iff : ns.entry? = none ↔ ∀ node ∈ ns.funcs, node.name ≠ "main" := by
  unfold entry?
  simp [entryName]

theorem name_of_entry? {main : FuncId} (h : ns.entry? = some main) :
    ∃ node, ns.funcs[main]? = some node ∧ node.name = "main" := by
  obtain ⟨hmain, hname, -⟩ := Array.findIdx?_eq_some_iff_getElem.1 h
  exact ⟨_, Array.getElem?_eq_getElem hmain, eq_of_beq hname⟩

end Nodes

namespace Program
variable {p : Program} {R : Resolution} {o : Object}

/-- No two functions have the same name. -/
theorem eq_of_name_eq (hR : p.resolve = .ok R) {j k : Nat} {f g : Tree.Func}
    (hf : p.funcs[j]? = some f) (hg : p.funcs[k]? = some g) (hname : f.name = g.name) : j = k := by
  have hscoped := wellScoped_iff.2 (resolve_eq_ok_iff.1 hR).1
  have hj : j < (p.funcs.map (·.name)).length := by
    rw [List.length_map]
    exact (List.getElem?_eq_some_iff.1 hf).1
  apply (List.getElem?_inj hj hscoped.funcs).1
  rw [List.getElem?_map, List.getElem?_map, hf, hg, Option.map_some, Option.map_some, hname]

theorem WellFormed.entry?_eq_some (hwf : p.WellFormed) (hR : p.resolve = .ok R) {main : FuncId}
    {node : Node.Func} (hnode : p.nodes.funcs[main]? = some node) (hname : node.name = "main") :
    p.nodes.entry? = some main := by
  cases hentry : p.nodes.entry? with
  | none => exact absurd hname (Nodes.entry?_eq_none_iff.1 hentry _ (Array.mem_of_getElem? hnode))
  | some main' =>
    obtain ⟨node', hnode', hname'⟩ := Nodes.name_of_entry? hentry
    obtain ⟨f, hf, -, hunfolds⟩ := hwf.exists_func_of_node hnode
    obtain ⟨f', hf', -, hunfolds'⟩ := hwf.exists_func_of_node hnode'
    rw [eq_of_name_eq hR hf hf' (by rw [hunfolds.name, hunfolds'.name, hname, hname'])]

/-- There is a warning of a missing entry function exactly if it is missing. -/
theorem WellFormed.noEntry_mem_iff (hwf : p.WellFormed) (ho : p.generate R = .ok o) :
    .noEntry ∈ o.warnings ↔ p.nodes.entry? = none := by
  obtain ⟨frame, g, hrun, rfl⟩ := generate_eq_ok.1 ho
  apply (Generate.warned_program hrun).2.trans
  show p.nodes.entry?.bind g.object.layout.funcs.get? = none ↔ _
  cases hentry : p.nodes.entry? with
  | none => simp
  | some main =>
    have hmem : main ∈ p.funcs.map (·.id) := by
      rw [hwf.funcIds]
      exact List.mem_range.2 (Nodes.lt_of_entry? hentry)
    obtain ⟨a, ha⟩ := (Generate.funcs_program hrun main).2 hmem
    simp [Generator.object, ha]

/-- The first instruction jumps to the entry function or, where there is none, to the halt. -/
theorem WellFormed.exists_first (hwf : p.WellFormed) (ho : p.generate R = .ok o)
    (hfull : ∀ c, .storeFull c ∉ o.warnings) :
    ∃ i target, o.code[0]? = some i ∧ i.JumpsTo target ∧
      (∀ main, p.nodes.entry? = some main → target = o.entry main) ∧
      (p.nodes.entry? = none → target = o.entry p.nodes.funcs.size) := by
  have hregions := hwf.regions ho hfull
  obtain ⟨target, hprogram, hmain, hnone⟩ := hwf.program_eq ho hfull
  have htarget : (∀ main, p.nodes.entry? = some main → target = o.entry main) ∧
      (p.nodes.entry? = none → target = o.entry p.nodes.funcs.size) := by
    constructor
    · intro main hentry
      rw [Object.entry, hmain main hentry]
      rfl
    · intro hentry
      rw [← hwf.length_funcs, hwf.entry_eq ho hfull (Nat.le_refl _), Code.startOf_length,
        hnone hentry]
  have hsmall : target ≤ codeCapacity := by
    cases hentry : p.nodes.entry? with
    | none =>
      rw [htarget.2 hentry, ← hwf.length_funcs]
      exact hregions.entry_le_capacity (Nat.le_refl _)
    | some main =>
      rw [htarget.1 main hentry]
      apply hregions.entry_le_capacity
      rw [hwf.length_funcs]
      exact Nat.le_of_lt (Nodes.lt_of_entry? hentry)
  refine ⟨(Code.jump target).instruction, target, ?_, ⟨rfl, rfl, ?_⟩, htarget⟩
  · rw [← Array.getElem?_toList, (hwf.code_eq ho hfull).1, hprogram]
    rfl
  · exact Request.toInt_d_of_addressOf rfl hsmall

/-- The entries of the functions cut the code between the first instruction and the halt into one
region for each function. The last instruction of a region is a return, and no instruction leads out
of it other than by a call of a function that is declared no later, by a call of a routine or by a
return. The first instruction jumps to the entry function or, where there is none, to the halt, and
just then there is a warning. -/
theorem control_flow_stays_in_functions {text : String}
    (hcompile : PrimeLang.compile text = .ok (p, o)) (hfull : ∀ c, .storeFull c ∉ o.warnings) :
    o.entry 0 = 1 ∧ o.entry p.nodes.funcs.size + 1 = o.code.size ∧
    (∀ k node, p.nodes.funcs[k]? = some node →
      o.layout.funcs.get? k = some ⟨0, o.entry k⟩ ∧ o.entry k < o.entry (k + 1) ∧
      (∃ i, o.code[o.entry (k + 1) - 1]? = some i ∧ i.op = .ret) ∧
      ∀ a i, o.entry k ≤ a → a < o.entry (k + 1) → o.code[a]? = some i →
        o.Confined k node.params.length i) ∧
    (∀ a i, o.code[a]? = some i → (i.op = .halt ↔ a = o.entry p.nodes.funcs.size)) ∧
    (∃ i target, o.code[0]? = some i ∧ i.JumpsTo target ∧
      (∀ main node, p.nodes.funcs[main]? = some node → node.name = "main" →
        target = o.entry main) ∧
      ((∀ node ∈ p.nodes.funcs, node.name ≠ "main") → target = o.entry p.nodes.funcs.size)) ∧
    (.noEntry ∈ o.warnings ↔ ∀ node ∈ p.nodes.funcs, node.name ≠ "main") := by
  obtain ⟨R, hp, hR, ho⟩ := compile_eq_ok hcompile
  have hwf := ofTokens_wellFormed hp
  have hregions := hwf.regions ho hfull
  have hcalls : ∀ k f, p.funcs[k]? = some f → ∀ e ∈ Stmt.exprsOf f.body, R.CallsBack k e.uses :=
    fun k f hf e he => callsBack hwf hR hf he
  obtain ⟨i₀, target, hfirst, hjump, hmain, hnone⟩ := hwf.exists_first ho hfull
  have hlength := hwf.length_funcs
  refine ⟨hregions.first, ?_, fun k node hnode => ?_, fun a i hi => ?_,
    ⟨i₀, target, hfirst, hjump, fun main node hnode hname => ?_, fun hnames => ?_⟩, ?_⟩
  · rw [hregions.size, hlength]
  · obtain ⟨f, hf, -, hunfolds⟩ := hwf.exists_func_of_node hnode
    rw [← hunfolds.params, List.length_map]
    exact ⟨hregions.place hf, hregions.confined hf (hcalls k f hf)⟩
  · rw [← hlength]
    exact hregions.op_eq_halt_iff hcalls hfirst hjump.op hi
  · exact hmain main (hwf.entry?_eq_some hR hnode hname)
  · exact hnone (Nodes.entry?_eq_none_iff.2 hnames)
  · rw [hwf.noEntry_mem_iff ho, Nodes.entry?_eq_none_iff]

/-- A function that ends in returns on both sides of a branch and one that ends in a loop, and no entry
function. -/
def endingsText : String :=
  "func f(int n) -> int \x7b if n \x7b return 0; \x7d else \x7b return f(n - 1); \x7d \x7d " ++
    "func g(int n) \x7b for int i := n; i; i -= f(i) \x7b if i \x7b g(i); \x7d \x7d \x7d"

theorem control_flow_stays_in_functions_endings :
    ∃ p o, PrimeLang.compile endingsText = .ok (p, o) ∧ (∀ c, .storeFull c ∉ o.warnings) ∧
      p.nodes.funcs.size = 2 ∧ 1 < o.entry 1 ∧ o.entry 1 < o.entry 2 ∧
      o.entry 2 + 1 = o.code.size := by
  obtain ⟨p, o, hcompile, heval⟩ := exists_compile_of_eval endingsText
    (fun (p, o) => decide (o.Complete ∧ p.nodes.funcs.size = 2)) (by decide +kernel)
  obtain ⟨hcomplete, hsize⟩ := of_decide_eq_true heval
  have hfull := hcomplete.storeFull_not_mem
  obtain ⟨hfirst, hlast, hfuncs, -⟩ := control_flow_stays_in_functions hcompile hfull
  rw [hsize] at hlast
  have h₀ := (hfuncs 0 _ (Array.getElem?_eq_getElem (by omega))).2.1
  have h₁ := (hfuncs 1 _ (Array.getElem?_eq_getElem (by omega))).2.1
  rw [hfirst] at h₀
  exact ⟨p, o, hcompile, hfull, hsize, h₀, h₁, hlast⟩

end Program
end PrimeLang
