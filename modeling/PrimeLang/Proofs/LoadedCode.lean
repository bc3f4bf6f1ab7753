import PrimeLang.Proofs.CodeExists
import PrimeLang.Proofs.Execution

/-! # Code that is ready to run

What a run relies on once a program is compiled: the code of every function is at its entry, every
variable is in its slot, and a function names no variables but its own. -/

namespace PrimeLang
open Machine

/-! ## Functions name their own variables -/

theorem mem_visitsFrom {fs : List Tree.Func} {k : Nat} {o : Occurrence} :
    o ∈ Tree.visitsFrom k fs ↔ ∃ (i : Nat) (f : Tree.Func), fs[i]? = some f ∧ o ∈ f.visits (k + i) := by
  induction fs generalizing k with
  | nil => simp [Tree.visitsFrom]
  | cons f fs ih =>
    rw [Tree.visitsFrom, List.mem_append, ih]
    constructor
    · rintro (h | ⟨i, g, hg, h⟩)
      · exact ⟨0, f, rfl, h⟩
      · exact ⟨i + 1, g, hg, by rwa [Nat.add_right_comm] at h⟩
    · rintro ⟨i, g, hg, h⟩
      cases i with
      | zero =>
        cases hg
        exact .inl h
      | succ i => exact .inr ⟨i, g, hg, by rwa [Nat.add_right_comm]⟩

/-- A visit of a function meets what its expressions use. -/
theorem exists_visit_of_use {f : Tree.Func} (k : Nat) {e : Tree.Expr Site}
    (he : e ∈ Stmt.exprsOf f.body) {u : Event} (hu : u ∈ e.uses) : ∃ b, ⟨b, u⟩ ∈ f.visits k := by
  have hmet : u ∈ usesOf (f.visits k) := by
    rw [usesOf_funcVisits]
    exact List.mem_flatMap.2 ⟨e, he, hu⟩
  obtain ⟨⟨b, event⟩, ho, hevent⟩ := List.mem_filterMap.1 hmet
  obtain ⟨-, -, rfl⟩ := Option.map_eq_some_iff.1 hevent
  exact ⟨b, ho⟩

namespace Program
variable {p : Program} {R : Resolution}

/-- A name in a function is resolved to a parameter or a local of that function. -/
theorem ident_resolved_locally (hwf : p.WellFormed) (hR : p.resolve = .ok R) {f : Tree.Func}
    (hf : f ∈ p.funcs) {e : Tree.Expr Site} (he : e ∈ Stmt.exprsOf f.body) {site : Site}
    {name : String} (huse : .ident site name ∈ e.uses) :
    ∃ v ∈ f.vars, R.idents.get? site.id = some v.id := by
  obtain ⟨k, hk⟩ := List.getElem?_of_mem hf
  -- the use is met in a block of the function
  obtain ⟨b, ho⟩ := exists_visit_of_use k he huse
  have hb : [k] <:+ b := (Resolve.block_of_mem_funcVisits ho).resolve_left nofun
  have hvisit : ⟨b, .ident site name⟩ ∈ p.visits :=
    mem_visitsFrom.2 ⟨k, f, hk, by rwa [Nat.zero_add]⟩
  -- so it denotes a variable of a block around it
  obtain ⟨before, after, hsplit⟩ := List.append_of_mem hvisit
  have hmeets : p.Meets before ⟨b, .ident site name⟩ := ⟨after, hsplit⟩
  have hscoped := wellScoped_iff.2 (resolve_eq_ok_iff.1 hR).1
  obtain ⟨v, hv⟩ := exists_denotes_of_visible (hscoped.idents hmeets)
  have hbinds : R.idents.get? site.id = some v.id :=
    (idents_get?_iff hwf hR _ _).2 ⟨before, _, hmeets, site, name, v, rfl, rfl, rfl, hv⟩
  obtain ⟨-, outer, ⟨houter, paramOf, hdecl⟩, -⟩ := hv
  have hvisited : ⟨outer, .var v paramOf⟩ ∈ p.visits := by
    rw [hsplit]
    exact List.mem_append_left _ hdecl
  -- and blocks around it are of the same function
  obtain ⟨j, g, hg, hmem⟩ := mem_visitsFrom.1 hvisited
  rw [Nat.zero_add] at hmem
  have hj : [j] <:+ outer := (Resolve.block_of_mem_funcVisits hmem).resolve_left nofun
  have hjk : j = k := by
    have h := List.suffix_of_suffix_length_le (hj.trans houter) hb (Nat.le_refl 1)
    simpa using h.eq_of_length rfl
  subst hjk
  cases hk.symm.trans hg
  have hid : v.id ∈ f.vars.map (·.id) := by
    rw [← Generate.declaredVarIds_funcVisits f j]
    exact mem_declaredVarIds hmem
  obtain ⟨v', hv', hid⟩ := List.mem_map.1 hid
  exact ⟨v', hv', hid ▸ hbinds⟩

end Program

/-! ## Code at an address -/

/-- From the address `a` on the code is what `qs` ask for, with all operands. -/
def CodeAt (code : Array Instruction) (a : Nat) (qs : List Request) : Prop :=
  ∀ (i : Nat) (q : Request), qs[i]? = some q → code[a + i]? = some q.instruction ∧ q.Fits

namespace CodeAt
variable {code : Array Instruction} {a : Nat} {qs qs' : List Request} {q : Request}

theorem left (h : CodeAt code a (qs ++ qs')) : CodeAt code a qs := by
  intro i q hq
  have hi : i < qs.length := (List.getElem?_eq_some_iff.1 hq).1
  exact h i q ((List.getElem?_append_left hi).trans hq)

theorem right (h : CodeAt code a (qs ++ qs')) : CodeAt code (a + qs.length) qs' := by
  intro i q hq
  rw [Nat.add_assoc]
  refine h (qs.length + i) q ?_
  rwa [List.getElem?_append_right (Nat.le_add_right _ _), Nat.add_sub_cancel_left]

theorem head (h : CodeAt code a (q :: qs)) : CodeAt code a [q] := by
  have h' : CodeAt code a ([q] ++ qs) := h
  exact h'.left

theorem tail (h : CodeAt code a (q :: qs)) : CodeAt code (a + 1) qs := by
  have h' : CodeAt code a ([q] ++ qs) := h
  exact h'.right

/-- The code ends no sooner than what is in it. -/
theorem end_le (h : CodeAt code a qs) (hpos : 0 < qs.length) : a + qs.length ≤ code.size := by
  have hlast := List.getElem?_eq_getElem (Nat.sub_lt hpos Nat.one_pos)
  have hlt := (Array.getElem?_eq_some_iff.1 (h _ _ hlast).1).1
  omega

/-- The instruction at `a` is carried out with the operands that were asked for. -/
theorem step?_eq (h : CodeAt code a [q]) (m : Interpretation) {s : State} (hs : s.cp = a) :
    step? m code s = execute m q.op q.n q.r q.d s := by
  obtain ⟨hcode, hfits⟩ := h 0 q rfl
  rw [Nat.add_zero, ← hs] at hcode
  rw [step?, hcode]
  show execute m q.op q.instruction.n.toInt q.r q.instruction.d.toInt s = _
  rw [Request.toInt_n_instruction hfits, Request.toInt_d_instruction hfits]

end CodeAt

theorem Segment.Holds.codeAt {s : Segment} {qs : List Request} (h : s.Holds qs)
    (hcut : ¬ s.WarnsOfCut) (hfull : .storeFull codeCapacity ∉ s.warnings) :
    CodeAt s.code 0 qs := by
  intro i q hq
  rw [Nat.zero_add]
  exact h.getElem?_code hcut hfull hq

/-- The code of each function is where its entry says. -/
theorem exists_entry_of_mem {code : Array Instruction} {cx : Context} {L : Layout} {level start : Nat}
    {fs : List Tree.Func} (h : CodeAt code start (Code.funcs cx L level start fs)) {f : Tree.Func}
    (hf : f ∈ fs) : ∃ entry : Nat, entry ≤ start + (Code.funcs cx L level start fs).length ∧
      (f.id, ⟨level, Segment.addressOf entry⟩) ∈ Code.entries cx L level start fs ∧
      CodeAt code entry (Code.func cx L level entry f) := by
  induction fs generalizing start with
  | nil => exact nomatch hf
  | cons g fs ih =>
    rcases List.mem_cons.1 hf with rfl | hf
    · exact ⟨start, Nat.le_add_right .., List.mem_cons_self, h.left⟩
    · obtain ⟨entry, hle, hentry, hcode⟩ := ih h.right hf
      rw [Nat.add_assoc, ← List.length_append] at hle
      exact ⟨entry, hle, List.mem_cons_of_mem _ hentry, hcode⟩

@[simp] theorem Ty.size_eq_one (ty : Ty) : ty.size = 1 := by
  cases ty <;> rfl

@[simp] theorem Tree.words_eq_length (vs : List Tree.Var) : Tree.words vs = vs.length := by
  induction vs with
  | nil => rfl
  | cons v vs ih => rw [words_cons, ih, Ty.size_eq_one, List.length_cons, Nat.add_comm]

/-- Variables of one word each are numbered through. -/
theorem mem_placements {vs : List Tree.Var} {slot : Address} {i : Nat} {v : Tree.Var}
    (h : vs[i]? = some v) : (v.id, slot.offset i) ∈ placements vs slot := by
  induction vs generalizing slot i with
  | nil => exact nomatch h
  | cons w vs ih =>
    cases i with
    | zero =>
      cases h
      rw [placements, Int.natCast_zero, Address.offset_zero]
      exact List.mem_cons_self
    | succ i =>
      have hslot : (slot.offset w.ty.size).offset i = slot.offset ((i + 1 : Nat) : Int) := by
        rw [Address.offset_offset, Ty.size_eq_one, ← Int.natCast_add, Nat.add_comm]
      rw [← hslot]
      exact List.mem_cons_of_mem _ (ih h)

/-! ## Compiled programs -/

/-- All instructions are in the code as they were asked for: none was cut or dropped. -/
def Object.Complete (o : Object) : Prop := ∀ w ∈ o.warnings, w.losesCode = false

instance (o : Object) : Decidable o.Complete :=
  inferInstanceAs (Decidable (∀ w ∈ o.warnings, w.losesCode = false))

/-- What a run of the functions `fs` relies on. -/
structure Loaded (code : Array Instruction) (L : Layout) (cx : Context) (fs : List Tree.Func) :
    Prop where
  small : code.size ≤ codeCapacity
  entry : ∀ f ∈ fs, ∃ start : Nat, L.funcs.get? f.id = some ⟨0, start⟩ ∧
    CodeAt code start (Code.func cx L 0 start f)
  main : ∀ f ∈ fs, cx.nodes.entry? = some f.id → ∀ start : Nat,
    L.funcs.get? f.id = some ⟨0, start⟩ → CodeAt code 0 [⟨.jump, 0, .cb, start⟩]
  result : ∀ f ∈ fs, ∃ node, cx.nodes.funcs[f.id]? = some node ∧ node.ret = f.ret
  slot : ∀ f ∈ fs, ∀ (i : Nat) (v : Tree.Var), f.vars[i]? = some v →
    L.vars.get? v.id = some ⟨1, i⟩
  ident : ∀ f ∈ fs, ∀ e ∈ Stmt.exprsOf f.body, ∀ site name, .ident site name ∈ e.uses →
    ∃ v ∈ f.vars, cx.resolution.idents.get? site.id = some v.id

/-- Within the code store the address of an instruction is its number. -/
theorem Segment.addressOf_of_le_capacity {k : Nat} (h : k ≤ codeCapacity) : addressOf k = k :=
  addressOf_of_lt (Nat.lt_of_le_of_lt h (by decide))

/-- The variables of a function have its slots in order. -/
theorem Program.WellFormed.slot {p : Program} {R : Resolution} {o : Object} (hwf : p.WellFormed)
    (ho : p.generate R = .ok o) {f : Tree.Func} (hf : f ∈ p.funcs) {i : Nat} {v : Tree.Var}
    (hv : f.vars[i]? = some v) : o.layout.vars.get? v.id = some ⟨1, i⟩ := by
  have hplace := (hwf.object_spec ho).2.2 _ (List.mem_flatMap.2 ⟨f, hf, mem_placements hv⟩)
  simpa [Address.offset] using hplace

theorem Program.WellFormed.loaded {p : Program} {R : Resolution} {o : Object} (hwf : p.WellFormed)
    (hR : p.resolve = .ok R) (ho : p.generate R = .ok o) (hc : o.Complete) :
    Loaded o.code o.layout ⟨p.nodes, R⟩ p.funcs := by
  obtain ⟨⟨s, hcode, hwarnings, hholds⟩, hentries, -⟩ := hwf.object_spec ho
  rw [Object.Complete, ← hwarnings] at hc
  have hfull : .storeFull codeCapacity ∉ s.warnings := by
    intro hfull
    cases hc _ hfull
  have hprogram : CodeAt o.code 0 (Code.program ⟨p.nodes, R⟩ o.layout p.funcs) := by
    rw [← hcode]
    refine hholds.codeAt ?_ hfull
    intro ⟨field, v, c, hw⟩
    cases hc _ hw
  have hlen : (Code.program ⟨p.nodes, R⟩ o.layout p.funcs).length ≤ codeCapacity :=
    Nat.le_of_not_lt fun hlt => hfull (hholds.full hlt)
  have hsmall : o.code.size ≤ codeCapacity := by
    rw [← hcode, hholds.size_code]
    exact Nat.min_le_left ..
  refine ⟨hsmall, fun f hf => ?_, fun f _ hmain start hstart => ?_, fun f hf => ?_,
    fun f hf i v hv => ?_, fun f hf e he site name huse =>
      ident_resolved_locally hwf hR hf he huse⟩
  · obtain ⟨entry, hle, hentry, hat⟩ := exists_entry_of_mem (hprogram.tail.left) hf
    rw [Nat.zero_add] at hle
    rw [Code.program, List.length_cons, List.length_append, List.length_singleton] at hlen
    rw [Segment.addressOf_of_le_capacity (by omega)] at hentry
    exact ⟨entry, hentries _ hentry, hat⟩
  · have hjump := hprogram.head
    simp only [hmain, Option.bind_some, hstart] at hjump
    exact hjump
  · obtain ⟨node, hnode, -, -, -, hret, -⟩ := Nodes.exists_of_func? (hwf.func? f hf)
    exact ⟨node, hnode, hret.symm⟩
  · exact hwf.slot ho hf hv

end PrimeLang
