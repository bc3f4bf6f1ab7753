import PrimeLang.Proofs.ControlFlow

/-! # Where programs stop

A control path of a program goes from instruction to instruction and remembers where unfinished
calls go on. The entry function is not called but jumped to, so its own return leads nowhere: that
is where paths stop, and none of them comes to the halt. -/

namespace PrimeLang
open Machine

namespace Machine

/-- A point of a control path: an address, and where unfinished calls go on, innermost first. -/
structure Point where
  address : Nat
  returns : List Nat

/-- Control goes on with the next instruction. -/
def Instruction.FallsThrough (i : Instruction) : Prop :=
  i.op ≠ .jump ∧ i.op ≠ .ret ∧ i.op ≠ .halt ∧ ¬ (i.op = .call ∧ i.r = .cb)

/-- One step of a control path. A conditional jump may or may not be taken. -/
inductive Flows (code : Array Instruction) : Point → Point → Prop
  | jump {a target : Nat} {rs : List Nat} {i : Instruction} : code[a]? = some i →
    i.op = .jump ∨ i.op = .jumpIf → i.d.toInt = target → Flows code ⟨a, rs⟩ ⟨target, rs⟩
  | call {a target : Nat} {rs : List Nat} {i : Instruction} : code[a]? = some i → i.op = .call →
    i.r = .cb → i.d.toInt = target → Flows code ⟨a, rs⟩ ⟨target, (a + 1) :: rs⟩
  | ret {a r : Nat} {rs : List Nat} {i : Instruction} : code[a]? = some i → i.op = .ret →
    Flows code ⟨a, r :: rs⟩ ⟨r, rs⟩
  | next {a : Nat} {rs : List Nat} {i : Instruction} : code[a]? = some i → i.FallsThrough →
    Flows code ⟨a, rs⟩ ⟨a + 1, rs⟩

/-- A control path of any length. -/
def Path (code : Array Instruction) : Point → Point → Prop := Relation.ReflTransGen (Flows code)

/-- Every path of the program stays in the code, never comes to a return without a call, and goes on
unless it is at the halt. -/
def StopsAtHalt (code : Array Instruction) : Prop :=
  ∀ x, Path code ⟨0, []⟩ x → ∃ i, code[x.address]? = some i ∧ ¬ (i.op = .ret ∧ x.returns = []) ∧
    ((∃ y, Flows code x y) ∨ i.op = .halt)

/-- A return without a call leads nowhere. -/
theorem not_flows_of_ret {code : Array Instruction} {a : Nat} {i : Instruction}
    (hi : code[a]? = some i) (hop : i.op = .ret) (y : Point) : ¬ Flows code ⟨a, []⟩ y := by
  intro h
  cases h with
  | jump hi' hop' _ =>
    cases hi.symm.trans hi'
    rw [hop] at hop'
    rcases hop' with hop' | hop' <;> cases hop'
  | call hi' hop' _ _ =>
    cases hi.symm.trans hi'
    cases hop.symm.trans hop'
  | next hi' hnext =>
    cases hi.symm.trans hi'
    exact hnext.2.1 hop

end Machine

/-- The address is in the code of the `k`th function. -/
def Object.InFunc (o : Object) (k : FuncId) (a : Nat) : Prop := o.entry k ≤ a ∧ a < o.entry (k + 1)

/-- A point in one of `n` functions, where every unfinished call goes on in one of them and the
outermost one in the function numbered `main`. -/
inductive Object.Nested (o : Object) (n : Nat) (main : FuncId) : Point → Prop
  | entry {a : Nat} : o.InFunc main a → Nested o n main ⟨a, []⟩
  | call {a r : Nat} {rs : List Nat} {k : FuncId} : k < n → o.InFunc k a →
    Nested o n main ⟨r, rs⟩ → Nested o n main ⟨a, r :: rs⟩

namespace Object.Nested
variable {o : Object} {n : Nat} {main : FuncId} {a : Nat} {rs : List Nat}

/-- A point lies in a function, and within it control can move freely. -/
theorem exists_func (h : o.Nested n main ⟨a, rs⟩) (hmain : main < n) :
    ∃ k < n, o.InFunc k a ∧ (rs = [] → k = main) ∧
      ∀ a', o.InFunc k a' → o.Nested n main ⟨a', rs⟩ := by
  cases h with
  | entry ha => exact ⟨main, hmain, ha, fun _ => rfl, fun _ => .entry⟩
  | call hk ha hrest =>
    refine ⟨_, hk, ha, fun hnil => ?_, fun a' ha' => .call hk ha' hrest⟩
    cases hnil

end Object.Nested

namespace Object.Regions
variable {o : Object} {cx : Context} {fs : List Tree.Func} {k : FuncId} {a : Nat} {i : Instruction}

theorem exists_instruction (h : o.Regions cx fs) (hk : k < fs.length) (ha : o.InFunc k a) :
    ∃ i, o.code[a]? = some i := by
  have hle : o.entry (k + 1) ≤ o.entry fs.length := h.entry_le hk (Nat.le_refl _)
  have hsize := h.size
  have hlt : a < o.code.size := by
    have hhi := ha.2
    omega
  exact ⟨_, Array.getElem?_eq_getElem hlt⟩

section
variable (h : o.Regions cx fs)
    (hcalls : ∀ k f, fs[k]? = some f → ∀ e ∈ Stmt.exprsOf f.body, cx.resolution.CallsBack k e.uses)
include h hcalls

theorem confined_inFunc (hk : k < fs.length) (ha : o.InFunc k a) (hi : o.code[a]? = some i) :
    ∃ params, o.Confined k params i := by
  have hf := List.getElem?_eq_getElem hk
  exact ⟨_, (h.confined hf (hcalls k _ hf)).2.2 a i ha.1 ha.2 hi⟩

/-- A function does not end without a return. -/
theorem inFunc_next (hk : k < fs.length) (ha : o.InFunc k a) (hi : o.code[a]? = some i)
    (hop : i.op ≠ .ret) : o.InFunc k (a + 1) := by
  have hf := List.getElem?_eq_getElem hk
  obtain ⟨hlt, ⟨i', hlast, hret⟩, -⟩ := h.confined hf (hcalls k _ hf)
  obtain ⟨hlo, hhi⟩ := ha
  refine ⟨by omega, Nat.lt_of_le_of_ne hhi fun heq => ?_⟩
  rw [← heq, Nat.add_sub_cancel] at hlast
  cases hi.symm.trans hlast
  exact hop hret

theorem inFunc_entry (hk : k < fs.length) : o.InFunc k (o.entry k) := by
  have hf := List.getElem?_eq_getElem hk
  exact ⟨Nat.le_refl _, (h.confined hf (hcalls k _ hf)).1⟩

variable {main : FuncId} (hmain : main < fs.length)
include hmain

/-- Steps lead from functions into functions. -/
theorem nested_of_flows {x y : Point} (hx : o.Nested fs.length main x) (hflow : Flows o.code x y) :
    o.Nested fs.length main y := by
  cases hflow with
  | @jump a target rs i hi hop htarget =>
    obtain ⟨k, hk, ha, -, hmove⟩ := hx.exists_func hmain
    obtain ⟨params, hconfined⟩ := h.confined_inFunc hcalls hk ha hi
    apply hmove
    rcases hop with hop | hop
    all_goals
      rw [Object.Confined, hop] at hconfined
      obtain ⟨-, hlo, hhi⟩ := hconfined
      rw [htarget] at hlo hhi
      exact ⟨Int.ofNat_le.1 hlo, Int.ofNat_lt.1 hhi⟩
  | @call a target rs i hi hop hr htarget =>
    obtain ⟨k, hk, ha, -, hmove⟩ := hx.exists_func hmain
    obtain ⟨params, hconfined⟩ := h.confined_inFunc hcalls hk ha hi
    rw [Object.Confined, hop] at hconfined
    rcases hconfined with ⟨-, j, hj, hd⟩ | ⟨hpb, -⟩
    · have hentry : target = o.entry j := Int.ofNat_inj.1 (htarget.symm.trans hd)
      subst hentry
      have hjn := Nat.lt_of_le_of_lt hj hk
      refine .call hjn (h.inFunc_entry hcalls hjn) (hmove _ (h.inFunc_next hcalls hk ha hi ?_))
      rw [hop]
      decide
    · cases hr.symm.trans hpb
  | ret hi hop =>
    cases hx with
    | call _ _ hrest => exact hrest
  | @next a rs i hi hnext =>
    obtain ⟨k, hk, ha, -, hmove⟩ := hx.exists_func hmain
    exact hmove _ (h.inFunc_next hcalls hk ha hi hnext.2.1)

/-- Control goes on from every point in a function, except from a return without a call. -/
theorem exists_flows {rs : List Nat} (hx : o.Nested fs.length main ⟨a, rs⟩) :
    ∃ i, o.code[a]? = some i ∧ i.op ≠ .halt ∧
      (i.op = .ret → rs = [] → o.InFunc main a) ∧
      (¬ (i.op = .ret ∧ rs = []) → ∃ y, Flows o.code ⟨a, rs⟩ y) := by
  obtain ⟨k, hk, ha, hnil, -⟩ := hx.exists_func hmain
  obtain ⟨i, hi⟩ := h.exists_instruction hk ha
  obtain ⟨params, hconfined⟩ := h.confined_inFunc hcalls hk ha hi
  refine ⟨i, hi, fun hop => ?_, fun _ hrs => hnil hrs ▸ ha, fun hnot => ?_⟩
  · rw [Object.Confined, hop] at hconfined
    exact hconfined
  · have htarget : ∀ {lo : Nat}, (lo : Int) ≤ i.d.toInt → i.d.toInt = i.d.toInt.toNat := by
      intro lo hlo
      omega
    cases hop : i.op with
    | jump =>
      rw [Object.Confined, hop] at hconfined
      exact ⟨_, .jump hi (.inl hop) (htarget hconfined.2.1)⟩
    | jumpIf =>
      rw [Object.Confined, hop] at hconfined
      exact ⟨_, .jump hi (.inr hop) (htarget hconfined.2.1)⟩
    | call =>
      rw [Object.Confined, hop] at hconfined
      rcases hconfined with ⟨hr, j, -, hd⟩ | ⟨hr, -⟩
      · exact ⟨_, .call hi hop hr hd⟩
      · refine ⟨_, .next hi ?_⟩
        rw [Instruction.FallsThrough, hop, hr]
        simp
    | ret =>
      cases rs with
      | nil => exact absurd ⟨hop, rfl⟩ hnot
      | cons r rs => exact ⟨_, .ret hi hop⟩
    | jumpIndirect | callIndirect | halt =>
      rw [Object.Confined, hop] at hconfined
      exact hconfined.elim
    | _ =>
      refine ⟨_, .next hi ?_⟩
      rw [Instruction.FallsThrough, hop]
      simp

/-- Past the first jump, a path stays in the functions. -/
theorem nested_of_path {first : Instruction} (hfirst : o.code[0]? = some first)
    (hjump : first.JumpsTo (o.entry main)) {x : Point} (hpath : Path o.code ⟨0, []⟩ x) :
    x = ⟨0, []⟩ ∨ o.Nested fs.length main x := by
  induction hpath with
  | refl => exact .inl rfl
  | tail _ hflow ih =>
    apply Or.inr
    rcases ih with rfl | hnested
    · cases hflow with
      | jump hi _ htarget =>
        cases hfirst.symm.trans hi
        rw [hjump.d, Int.ofNat_inj] at htarget
        rw [← htarget]
        exact .entry (h.inFunc_entry hcalls hmain)
      | call hi hop _ _ =>
        cases hfirst.symm.trans hi
        cases hjump.op.symm.trans hop
      | next hi hnext =>
        cases hfirst.symm.trans hi
        exact absurd hjump.op hnext.1
    · exact h.nested_of_flows hcalls hmain hnested hflow

/-- A path goes on except from a return without a call, and that is one of the entry function. -/
theorem exists_flows_of_path {first : Instruction} (hfirst : o.code[0]? = some first)
    (hjump : first.JumpsTo (o.entry main)) {x : Point} (hpath : Path o.code ⟨0, []⟩ x) :
    ∃ i, o.code[x.address]? = some i ∧ i.op ≠ .halt ∧
      (i.op = .ret → x.returns = [] → o.InFunc main x.address) ∧
      ((∃ y, Flows o.code x y) ↔ ¬ (i.op = .ret ∧ x.returns = [])) := by
  rcases h.nested_of_path hcalls hmain hfirst hjump hpath with rfl | hnested
  · have hne : ∀ {op}, op ≠ .jump → first.op ≠ op := fun hop heq => hop (heq ▸ hjump.op)
    exact ⟨first, hfirst, hne (by decide), fun hop => absurd hop (hne (by decide)),
      fun _ hret => hne (by decide) hret.1, fun _ => ⟨_, .jump hfirst (.inl hjump.op) hjump.d⟩⟩
  · obtain ⟨i, hi, hhalt, hin, hgoes⟩ := h.exists_flows hcalls hmain hnested
    refine ⟨i, hi, hhalt, hin, fun ⟨y, hy⟩ hret => ?_, hgoes⟩
    obtain ⟨a, rs⟩ := x
    obtain ⟨hop, rfl⟩ := hret
    exact not_flows_of_ret hi hop y hy

end
end Object.Regions

namespace Program
variable {p : Program} {o : Object}

/-- A path of a program without warnings stops just where the entry function returns, and no path
comes to the halt. So a program stops at the halt only if its entry function never returns. -/
theorem paths_stop_where_entry_returns {text : String}
    (hcompile : PrimeLang.compile text = .ok (p, o)) (hwarnings : o.warnings = #[]) :
    ∃ main node, p.nodes.funcs[main]? = some node ∧ node.name = "main" ∧
      (∀ x, Path o.code ⟨0, []⟩ x → ∃ i, o.code[x.address]? = some i ∧ i.op ≠ .halt ∧
        (i.op = .ret → x.returns = [] → o.InFunc main x.address) ∧
        ((∃ y, Flows o.code x y) ↔ ¬ (i.op = .ret ∧ x.returns = []))) ∧
      (StopsAtHalt o.code ↔ ∀ a i, Path o.code ⟨0, []⟩ ⟨a, []⟩ → o.InFunc main a →
        o.code[a]? = some i → i.op ≠ .ret) := by
  obtain ⟨R, hp, hR, ho⟩ := compile_eq_ok hcompile
  have hwf := ofTokens_wellFormed hp
  have hfull : ∀ c, .storeFull c ∉ o.warnings := by simp [hwarnings]
  have hregions := hwf.regions ho hfull
  have hcalls : ∀ k f, p.funcs[k]? = some f → ∀ e ∈ Stmt.exprsOf f.body, R.CallsBack k e.uses :=
    fun k f hf e he => callsBack hwf hR hf he
  have hentry : p.nodes.entry? ≠ none := by
    intro hnone
    have hmem := (hwf.noEntry_mem_iff ho).2 hnone
    simp [hwarnings] at hmem
  obtain ⟨main, hmain⟩ := Option.ne_none_iff_exists'.1 hentry
  obtain ⟨node, hnode, hname⟩ := Nodes.name_of_entry? hmain
  have hlt : main < p.funcs.length := hwf.length_funcs ▸ Nodes.lt_of_entry? hmain
  obtain ⟨first, target, hfirst, hjump, htarget, -⟩ := hwf.exists_first ho hfull
  rw [htarget main hmain] at hjump
  have hpoints := fun x => hregions.exists_flows_of_path hcalls hlt hfirst hjump (x := x)
  refine ⟨main, node, hnode, hname, hpoints, fun hstops a i hpath _ hi hop => ?_,
    fun hnever x hpath => ?_⟩
  · obtain ⟨i', hi', hnot, -⟩ := hstops _ hpath
    cases hi.symm.trans hi'
    exact hnot ⟨hop, rfl⟩
  · obtain ⟨i, hi, -, hin, hgoes⟩ := hpoints x hpath
    have hnot : ¬ (i.op = .ret ∧ x.returns = []) := by
      obtain ⟨a, rs⟩ := x
      intro ⟨hop, hrs⟩
      cases hrs
      exact hnever a i hpath (hin hop rfl) hi hop
    exact ⟨i, hi, hnot, .inl (hgoes.2 hnot)⟩

/-- An entry function that calls another one in a loop. -/
def callerText : String :=
  "func f(int n) -> int \x7b if n \x7b return f(n - 1); \x7d return 0; \x7d " ++
    "func main() \x7b for int i := 3; i; i -= 1 \x7b f(i); \x7d \x7d"

theorem paths_stop_where_entry_returns_caller :
    ∃ p o, PrimeLang.compile callerText = .ok (p, o) ∧ o.warnings = #[] ∧
      ∀ x, Path o.code ⟨0, []⟩ x → ∃ i, o.code[x.address]? = some i ∧ i.op ≠ .halt := by
  obtain ⟨p, o, hcompile, heval⟩ := exists_compile_of_eval callerText
    (fun (_, o) => decide (o.warnings = #[])) (by decide +kernel)
  have hwarnings := of_decide_eq_true heval
  obtain ⟨main, node, -, -, hpoints, -⟩ := paths_stop_where_entry_returns hcompile hwarnings
  refine ⟨p, o, hcompile, hwarnings, fun x hpath => ?_⟩
  obtain ⟨i, hi, hhalt, -⟩ := hpoints x hpath
  exact ⟨i, hi, hhalt⟩

/-- The empty program: from its first jump a path comes to the return of the entry function, with no
call to return from. -/
theorem not_stopsAtHalt_of_empty_entry :
    ∃ p o, PrimeLang.compile "func main() \x7b \x7d" = .ok (p, o) ∧ o.warnings = #[] ∧
      ¬ StopsAtHalt o.code := by
  obtain ⟨p, o, hcompile, heval⟩ := exists_compile_of_eval "func main() \x7b \x7d"
    (fun (_, o) => decide (o.warnings = #[] ∧
      o.code = #[⟨.jump, .cb, 0, 1⟩, ⟨.ret, .cb, 0, 0⟩, ⟨.halt, .cb, 0, 0⟩])) (by decide +kernel)
  obtain ⟨hwarnings, hcode⟩ := of_decide_eq_true heval
  refine ⟨p, o, hcompile, hwarnings, fun hstops => ?_⟩
  rw [hcode] at hstops
  have hpath : Path #[⟨.jump, .cb, 0, 1⟩, ⟨.ret, .cb, 0, 0⟩, ⟨.halt, .cb, 0, 0⟩] ⟨0, []⟩ ⟨1, []⟩ :=
    .single (.jump rfl (.inl rfl) rfl)
  obtain ⟨i, hi, hnot, -⟩ := hstops _ hpath
  cases hi
  exact hnot ⟨rfl, rfl⟩

end Program
end PrimeLang
