import Mathlib.Data.List.Nodup
import PrimeLang.Machine.Assembly
import PrimeLang.Proofs.CodeOrigins
import PrimeLang.Proofs.FunctionRegions

/-! # What assembly language shows

The text of an instruction shows the operation and those operands that the operation uses, and
nothing is shown in two ways that could be confused: numbers, names of registers and names of
routines start with different characters, and what separates operands is in none of them. Code
generation fills in the operands that are not shown always in the same way. -/

namespace PrimeLang
namespace Machine

/-! ## Names and numbers -/

/-- Where a character stands for the first time, a text can be taken apart. -/
theorem append_cons_inj {c : Char} {x x' y y' : List Char} (hx : c ∉ x) (hx' : c ∉ x') :
    x ++ c :: y = x' ++ c :: y' ↔ x = x' ∧ y = y' := by
  refine ⟨fun h => ?_, fun ⟨hx, hy⟩ => hx ▸ hy ▸ rfl⟩
  induction x generalizing x' with
  | nil =>
    cases x' with
    | nil => exact ⟨rfl, (List.cons.inj h).2⟩
    | cons b x' => exact absurd ((List.cons.inj h).1 ▸ List.mem_cons_self) hx'
  | cons a x ih =>
    cases x' with
    | nil => exact absurd ((List.cons.inj h).1 ▸ List.mem_cons_self) hx
    | cons b x' =>
      obtain ⟨hab, h⟩ := List.cons.inj h
      obtain ⟨hxx, hyy⟩ := ih (fun hc => hx (List.mem_cons_of_mem _ hc))
        (fun hc => hx' (List.mem_cons_of_mem _ hc)) h
      exact ⟨by rw [hab, hxx], hyy⟩

theorem isDigit_of_mem_repr {n : Nat} {c : Char} (h : c ∈ n.repr.toList) : c.isDigit := by
  rw [Nat.toList_repr] at h
  exact Nat.isDigit_of_mem_toDigits (by decide) (by decide) h

/-- The digits of a number read as that number. -/
theorem eq_of_repr_eq {m n : Nat} (h : m.repr = n.repr) : m = n := by
  have hread := congrArg (Nat.ofDigitChars 10 ·.toList 0) h
  simpa only [Nat.toList_repr, Nat.ofDigitChars_ten_toDigits] using hread

theorem toList_repr_negSucc (n : Nat) :
    (Int.negSucc n).repr.toList = '-' :: (n + 1).repr.toList := by
  rw [Int.repr, String.toList_append]
  rfl

/-- A number is written with digits and a sign. -/
theorem mem_toList_repr {v : Int} {c : Char} (h : c ∈ v.repr.toList) : c.isDigit ∨ c = '-' := by
  cases v with
  | ofNat n => exact .inl (isDigit_of_mem_repr h)
  | negSucc n =>
    rw [toList_repr_negSucc] at h
    exact (List.mem_cons.1 h).symm.imp_left isDigit_of_mem_repr

theorem repr_ofNat_ne_repr_negSucc (m n : Nat) :
    (Int.ofNat m).repr.toList ≠ (Int.negSucc n).repr.toList := by
  intro h
  have hsign : '-' ∈ m.repr.toList := by
    rw [show m.repr.toList = _ from h, toList_repr_negSucc]
    exact List.mem_cons_self
  exact absurd (isDigit_of_mem_repr hsign) (by decide)

theorem toList_repr_inj {v w : Int} : v.repr.toList = w.repr.toList ↔ v = w := by
  refine ⟨fun h => ?_, fun h => h ▸ rfl⟩
  cases v with
  | ofNat m =>
    cases w with
    | ofNat n => rw [eq_of_repr_eq (String.toList_inj.1 h)]
    | negSucc n => exact absurd h (repr_ofNat_ne_repr_negSucc m n)
  | negSucc m =>
    cases w with
    | ofNat n => exact absurd h.symm (repr_ofNat_ne_repr_negSucc n m)
    | negSucc n =>
      rw [toList_repr_negSucc, toList_repr_negSucc] at h
      rw [Nat.succ.inj (eq_of_repr_eq (String.toList_inj.1 (List.cons.inj h).2))]

theorem Opcode.name_injective {op op' : Opcode} (h : op.name = op'.name) : op = op' := by
  have hmem (op : Opcode) : op ∈ all := by cases op <;> decide
  exact List.inj_on_of_nodup_map (by decide +kernel : (all.map name).Nodup) (hmem op) (hmem op') h

theorem Opcode.blank_not_mem_name (op : Opcode) : ' ' ∉ op.name.toList := by
  cases op <;> decide

theorem Register.name_injective {r r' : Register} (h : r.name = r'.name) : r = r' := by
  have hmem (r : Register) : r ∈ all := by cases r <;> decide
  exact List.inj_on_of_nodup_map (by decide +kernel : (all.map name).Nodup) (hmem r) (hmem r') h

theorem Register.paren_not_mem_name (r : Register) : ')' ∉ r.name.toList := by
  cases r <;> decide

/-- The name of a register is no number. -/
theorem Register.name_ne_repr (r : Register) (v : Int) : r.name ≠ v.repr := by
  intro h
  have hletter : ∃ c ∈ r.name.toList, ¬ (c.isDigit ∨ c = '-') := by
    cases r <;> exact ⟨_, List.mem_cons_self, by decide⟩
  obtain ⟨c, hc, hletter⟩ := hletter
  exact hletter (mem_toList_repr (h ▸ hc))

theorem Register.ofNumber?_eq_some {k : Nat} {r : Register} :
    ofNumber? k = some r ↔ k = r.number := by
  refine ⟨fun h => ?_, fun h => h ▸ ofNumber?_number r⟩
  have hnumber := List.find?_some (h :)
  exact (beq_iff_eq.1 (hnumber :)).symm

theorem Routine.mem_all (r : Routine) : r ∈ all := by cases r <;> decide

theorem Routine.name_injective {r r' : Routine} (h : r.name = r'.name) : r = r' :=
  List.inj_on_of_nodup_map (by decide +kernel : (all.map name).Nodup) (mem_all r) (mem_all r') h

theorem Routine.paren_not_mem_name (r : Routine) : '(' ∉ r.name.toList := by
  cases r <;> decide

theorem Routine.ofDisplacement?_eq_some {k : Nat} {r : Routine} :
    ofDisplacement? k = some r ↔ k = r.displacement := by
  refine ⟨fun h => ?_, fun h => h ▸ ofDisplacement?_displacement r⟩
  cases k with
  | zero => cases h
  | succ k =>
    obtain ⟨hk, rfl⟩ := List.getElem?_eq_some_iff.1 h
    rw [displacement, List.Nodup.idxOf_getElem (by decide)]

namespace Instruction
variable {i j : Instruction}

theorem registerOf?_eq_some {w : Int32} {r : Register} :
    registerOf? w = some r ↔ w.toInt = r.number := by
  unfold registerOf?
  split
  · rw [Register.ofNumber?_eq_some]
    omega
  · simp only [reduceCtorEq, false_iff]
    omega

theorem routineOf?_eq_some {w : Int32} {routine : Routine} :
    routineOf? w = some routine ↔ w.toInt = routine.displacement := by
  unfold routineOf?
  split
  · rw [Routine.ofDisplacement?_eq_some]
    omega
  · simp only [reduceCtorEq, false_iff]
    omega

/-! ## Operands -/

/-- Calls a routine that the machine provides. -/
def CallsRoutine (i : Instruction) : Prop :=
  i.r = .pb ∧ ∃ routine : Routine, i.d.toInt = routine.displacement

/-- The operands that the operation of `i` shows are the same. -/
def SameOperands (i j : Instruction) : Prop :=
  match i.op with
  | .load | .store | .jumpIf => i.n = j.n ∧ i.d = j.d ∧ i.r = j.r
  | .loadAddress | .jump => i.d = j.d ∧ i.r = j.r
  | .loadIndirect | .storeIndirect => i.n = j.n
  | .loadLiteral | .push => i.d = j.d
  | .ret | .pop => i.n = j.n ∧ i.d = j.d
  | .callIndirect | .jumpIndirect | .halt => True
  | .call => i.d = j.d ∧ i.r = j.r ∧ (¬ (i.CallsRoutine ∧ j.CallsRoutine) → i.n = j.n)

theorem repr_toInt_inj {v w : Int32} : v.toInt.repr = w.toInt.repr ↔ v = w :=
  String.toList_inj.symm.trans (toList_repr_inj.trans Int32.toInt_inj)

theorem toList_placeText (i : Instruction) :
    i.placeText.toList = i.d.toInt.repr.toList ++ '[' :: (i.r.name.toList ++ [']']) := by
  simp [placeText, ToString.toString]

theorem toList_lengthText (i : Instruction) :
    i.lengthText.toList = '(' :: (i.n.toInt.repr.toList ++ [')']) := by
  simp [lengthText, ToString.toString]

theorem placeText_inj : i.placeText = j.placeText ↔ i.d = j.d ∧ i.r = j.r := by
  have hbracket (i : Instruction) : '[' ∉ i.d.toInt.repr.toList := by
    intro h
    exact absurd (mem_toList_repr h) (by decide)
  rw [← String.toList_inj, toList_placeText, toList_placeText,
    append_cons_inj (hbracket i) (hbracket j), List.append_cancel_right_eq, String.toList_inj,
    String.toList_inj, repr_toInt_inj]
  exact and_congr_right' ⟨Register.name_injective, congrArg _⟩

/-- An operand in parentheses can be told from what is behind it. -/
theorem parenthesized_inj {x x' : List Char} {y y' : String} (hx : ')' ∉ x) (hx' : ')' ∉ x') :
    '(' :: (x ++ ')' :: ' ' :: y.toList) = '(' :: (x' ++ ')' :: ' ' :: y'.toList) ↔
      x = x' ∧ y = y' := by
  rw [List.cons_inj_right, append_cons_inj hx hx', List.cons_inj_right, String.toList_inj]

theorem paren_not_mem_repr (v : Int) : ')' ∉ v.repr.toList := by
  intro h
  exact absurd (mem_toList_repr h) (by decide)

theorem lengthText_inj : i.lengthText = j.lengthText ↔ i.n = j.n := by
  rw [← String.toList_inj, toList_lengthText, toList_lengthText, List.cons_inj_right,
    List.append_cancel_right_eq, String.toList_inj, repr_toInt_inj]

theorem toList_length_append (i : Instruction) (y : String) :
    (i.lengthText ++ " " ++ y).toList =
      '(' :: (i.n.toInt.repr.toList ++ ')' :: ' ' :: y.toList) := by
  simp [toList_lengthText]

theorem length_append_inj {y y' : String} :
    i.lengthText ++ " " ++ y = j.lengthText ++ " " ++ y' ↔ i.n = j.n ∧ y = y' := by
  rw [← String.toList_inj, toList_length_append, toList_length_append,
    parenthesized_inj (paren_not_mem_repr _) (paren_not_mem_repr _), String.toList_inj,
    repr_toInt_inj]

/-! ## Calls -/

/-- How a call that is not of a routine shows its length: by the name of the register with that
number, unless the register of the instruction is the one for routines. -/
def linkText (i : Instruction) : String :=
  if i.r = .pb then i.n.toInt.repr
  else ((registerOf? i.n).map Register.name).getD i.n.toInt.repr

theorem paren_not_mem_linkText (i : Instruction) : ')' ∉ i.linkText.toList := by
  unfold linkText
  split
  · exact paren_not_mem_repr _
  · cases registerOf? i.n with
    | none => exact paren_not_mem_repr _
    | some link => exact link.paren_not_mem_name

theorem linkText_inj (hr : i.r = j.r) : i.linkText = j.linkText ↔ i.n = j.n := by
  refine ⟨fun h => ?_, fun h => by rw [linkText, linkText, hr, h]⟩
  unfold linkText at h
  rw [hr] at h
  split at h
  · exact repr_toInt_inj.1 h
  · cases hi : registerOf? i.n with
    | none =>
      cases hj : registerOf? j.n with
      | none =>
        rw [hi, hj] at h
        exact repr_toInt_inj.1 h
      | some link =>
        rw [hi, hj] at h
        exact absurd h.symm (link.name_ne_repr _)
    | some link =>
      cases hj : registerOf? j.n with
      | none =>
        rw [hi, hj] at h
        exact absurd h (link.name_ne_repr _)
      | some link' =>
        rw [hi, hj] at h
        obtain rfl := Register.name_injective h
        exact Int32.toInt_inj.1
          ((registerOf?_eq_some.1 hi).trans (registerOf?_eq_some.1 hj).symm)

theorem operands_of_callsRoutine {routine : Routine} (hop : i.op = .call) (hr : i.r = .pb)
    (hd : i.d.toInt = routine.displacement) : i.operands = routine.name := by
  simp only [operands, hop, hr, routineOf?_eq_some.2 hd, if_true]

theorem toList_operands_call (hop : i.op = .call) (h : ¬ i.CallsRoutine) :
    i.operands.toList = '(' :: (i.linkText.toList ++ ')' :: ' ' :: i.placeText.toList) := by
  by_cases hr : i.r = .pb
  · have hroutine : routineOf? i.d = none :=
      Option.eq_none_iff_forall_ne_some.2 fun routine hd =>
        h ⟨hr, routine, routineOf?_eq_some.1 hd⟩
    simp only [operands, hop, hr, hroutine, if_true, linkText]
    exact toList_length_append i i.placeText
  · cases hn : registerOf? i.n with
    | none =>
      simp only [operands, hop, hr, hn, if_false, linkText]
      exact toList_length_append i i.placeText
    | some link => simp [operands, hop, hr, hn, linkText, ToString.toString]

theorem CallsRoutine.congr (hd : i.d = j.d) (hr : i.r = j.r) : i.CallsRoutine ↔ j.CallsRoutine := by
  rw [CallsRoutine, CallsRoutine, hd, hr]

/-- A call of a routine is not shown as any other call. -/
theorem operands_call_ne (hi : i.op = .call) (hj : j.op = .call) (hcall : i.CallsRoutine)
    (hother : ¬ j.CallsRoutine) : i.operands ≠ j.operands := by
  intro h
  obtain ⟨hr, routine, hd⟩ := hcall
  apply routine.paren_not_mem_name
  rw [← operands_of_callsRoutine hi hr hd, h, toList_operands_call hj hother]
  exact List.mem_cons_self

theorem operands_call_inj (hi : i.op = .call) (hj : j.op = .call) :
    i.operands = j.operands ↔
      i.d = j.d ∧ i.r = j.r ∧ (¬ (i.CallsRoutine ∧ j.CallsRoutine) → i.n = j.n) := by
  by_cases hcall : i.CallsRoutine
  · by_cases hcall' : j.CallsRoutine
    · rw [and_iff_left fun hnot => absurd ⟨hcall, hcall'⟩ hnot]
      obtain ⟨hr, routine, hd⟩ := hcall
      obtain ⟨hr', routine', hd'⟩ := hcall'
      rw [operands_of_callsRoutine hi hr hd, operands_of_callsRoutine hj hr' hd', hr, hr',
        and_iff_left rfl, ← Int32.toInt_inj, hd, hd']
      refine ⟨fun h => by rw [Routine.name_injective h], fun h => ?_⟩
      have hsame := congrArg Routine.ofDisplacement? (Int.ofNat.inj h)
      rw [Routine.ofDisplacement?_displacement, Routine.ofDisplacement?_displacement] at hsame
      rw [Option.some.inj hsame]
    · refine iff_of_false (operands_call_ne hi hj hcall hcall') ?_
      rintro ⟨hd, hr, -⟩
      exact hcall' ((CallsRoutine.congr hd hr).1 hcall)
  · by_cases hcall' : j.CallsRoutine
    · refine iff_of_false (operands_call_ne hj hi hcall' hcall).symm ?_
      rintro ⟨hd, hr, -⟩
      exact hcall ((CallsRoutine.congr hd hr).2 hcall')
    · rw [← String.toList_inj, toList_operands_call hi hcall, toList_operands_call hj hcall',
        parenthesized_inj i.paren_not_mem_linkText j.paren_not_mem_linkText, String.toList_inj,
        placeText_inj]
      constructor
      · rintro ⟨hn, hd, hr⟩
        exact ⟨hd, hr, fun _ => (linkText_inj hr).1 hn⟩
      · rintro ⟨hd, hr, hn⟩
        exact ⟨(linkText_inj hr).2 (hn fun h => hcall h.1), hd, hr⟩

/-! ## Texts -/

theorem operands_inj (h : i.op = j.op) : i.operands = j.operands ↔ i.SameOperands j := by
  obtain ⟨op, r, n, d⟩ := i
  obtain ⟨_, r', n', d'⟩ := j
  obtain rfl : op = _ := h
  cases op with
  | load | store | jumpIf => exact length_append_inj.trans (and_congr_right' placeText_inj)
  | loadAddress | jump => exact placeText_inj
  | loadIndirect | storeIndirect => exact lengthText_inj
  | loadLiteral | push => exact repr_toInt_inj
  | ret | pop => exact length_append_inj.trans (and_congr_right' repr_toInt_inj)
  | callIndirect | jumpIndirect | halt => exact iff_of_true rfl trivial
  | call => exact operands_call_inj rfl rfl

/-- The text with a blank behind it. -/
theorem toList_text_append (i : Instruction) : (i.text ++ " ").toList =
    i.op.name.toList ++ ' ' :: if i.operands = "" then [] else i.operands.toList ++ [' '] := by
  unfold text
  split <;> simp [ToString.toString]

/-- The name of the operation ends at the first blank. -/
theorem text_eq_iff : i.text = j.text ↔ i.op = j.op ∧ i.operands = j.operands := by
  refine ⟨fun h => ?_, fun ⟨hop, hoperands⟩ => by rw [text, text, hop, hoperands]⟩
  have hlist := congrArg (fun s => (s ++ " ").toList) h
  simp only [toList_text_append] at hlist
  obtain ⟨hname, hrest⟩ :=
    (append_cons_inj i.op.blank_not_mem_name j.op.blank_not_mem_name).1 hlist
  refine ⟨Opcode.name_injective (String.toList_inj.1 hname), ?_⟩
  split at hrest
  · next hi =>
    split at hrest
    · next hj => rw [hi, hj]
    · exact absurd hrest.symm (List.append_ne_nil_of_right_ne_nil _ (List.cons_ne_nil _ _))
  · split at hrest
    · exact absurd hrest (List.append_ne_nil_of_right_ne_nil _ (List.cons_ne_nil _ _))
    · exact String.toList_inj.1 (List.append_cancel_right hrest)

/-! ## Operands that are not shown -/

/-- The operands that the text does not show have the values that code generation gives them. -/
def Plain (i : Instruction) : Prop :=
  match i.op with
  | .load | .store | .jumpIf => True
  | .loadAddress | .jump => i.n = 0
  | .loadIndirect | .storeIndirect => i.d = 0 ∧ i.r = .cb
  | .loadLiteral | .push => i.n = 0 ∧ i.r = .cb
  | .ret | .pop => i.r = .cb
  | .callIndirect | .jumpIndirect | .halt => i.n = 0 ∧ i.d = 0 ∧ i.r = .cb
  | .call => i.CallsRoutine → i.n = 0

/-- Such instructions are known by what is shown of them. -/
theorem Plain.eq_of_sameOperands (hi : i.Plain) (hj : j.Plain) (hop : i.op = j.op)
    (h : i.SameOperands j) : i = j := by
  obtain ⟨op, r, n, d⟩ := i
  obtain ⟨_, r', n', d'⟩ := j
  obtain rfl : op = _ := hop
  cases op with
  | call =>
    obtain ⟨hd, hr, hn⟩ := h
    obtain rfl : d = d' := hd
    obtain rfl : r = r' := hr
    obtain rfl : n = n' := by
      by_cases hcall : (⟨.call, r, n, d⟩ : Instruction).CallsRoutine
      · exact (hi hcall).trans (hj hcall).symm
      · exact hn fun h => hcall h.1
    rfl
  | _ => simp_all [Plain, SameOperands]

theorem eq_of_map_text {is js : List Instruction} (his : ∀ i ∈ is, i.Plain)
    (hjs : ∀ j ∈ js, j.Plain) (h : is.map text = js.map text) : is = js := by
  induction is generalizing js with
  | nil => exact (List.map_eq_nil_iff.1 h.symm).symm
  | cons i is ih =>
    obtain ⟨j, js, rfl, hj, htail⟩ := List.map_eq_cons_iff.1 h.symm
    obtain ⟨hi, his⟩ := List.forall_mem_cons.1 his
    obtain ⟨hjp, hjs⟩ := List.forall_mem_cons.1 hjs
    obtain ⟨hop, hoperands⟩ := text_eq_iff.1 hj.symm
    rw [hi.eq_of_sameOperands hjp hop ((operands_inj hop).1 hoperands), ih his hjs htail.symm]

end Instruction
end Machine

/-! ## Generated code -/

open Machine

namespace Code
variable {env : Env} {q : Request}

theorem plain_of_ofExpr {us : List Event} (h : OfExpr env us q) : q.instruction.Plain := by
  cases h with
  | access size hop _ => rcases hop with rfl | rfl <;> exact trivial
  | copy => exact trivial
  | indirect hop => rcases hop with rfl | rfl <;> exact ⟨rfl, rfl⟩
  | literal value => exact ⟨rfl, rfl⟩
  | routine op => exact fun _ => rfl
  | call _ =>
    rintro ⟨hr, -⟩
    cases hr
  | pop size => exact rfl

theorem plain_of_ofBlock {es : List (Tree.Expr Site)} {vs : List Tree.Var} {lo hi : Nat}
    (h : OfBlock env es vs lo hi q) : q.instruction.Plain := by
  cases h with
  | expr _ hq => exact plain_of_ofExpr hq
  | declare _ => exact trivial
  | jumpIfFalse _ _ => exact trivial
  | jump _ _ => exact rfl
  | ret n => exact rfl

variable {cx : Context} {L : Layout} {level start : Nat}

theorem plain_func {f : Tree.Func} (h : q ∈ func cx L level start f) : q.instruction.Plain := by
  obtain ⟨k, hk⟩ := List.mem_iff_getElem?.1 h
  rcases getElem?_func hk with ⟨-, -, rfl⟩ | hbody
  · exact ⟨rfl, rfl⟩
  · obtain ⟨c, n, hcode, hall⟩ := bodyCode_spec (bodyEnv cx L level f) start f
    rw [hcode, List.mem_append, List.mem_singleton] at hbody
    rcases hbody with hq | rfl
    · exact plain_of_ofBlock (hall q hq)
    · exact rfl

theorem plain_funcs {fs : List Tree.Func} (h : q ∈ funcs cx L level start fs) :
    q.instruction.Plain := by
  induction fs generalizing start with
  | nil => cases h
  | cons f fs ih =>
    rcases List.mem_append.1 h with h | h
    · exact plain_func h
    · exact ih h

theorem plain_program {fs : List Tree.Func} (h : q ∈ program cx L fs) : q.instruction.Plain := by
  rw [program, List.mem_cons, List.mem_append, List.mem_singleton] at h
  rcases h with rfl | h | rfl
  · exact rfl
  · exact plain_funcs h
  · exact ⟨rfl, rfl, rfl⟩

end Code

theorem Program.WellFormed.plain_code {p : Program} {R : Resolution} {o : Object}
    (hwf : p.WellFormed) (ho : p.generate R = .ok o) : ∀ i ∈ o.code.toList, i.Plain := by
  obtain ⟨⟨s, hcode, -, hholds⟩, -, -⟩ := hwf.object_spec ho
  intro i hi
  rw [← hcode, hholds.code] at hi
  obtain ⟨q, hq, rfl⟩ := List.mem_map.1 (List.mem_of_mem_take hi)
  exact Code.plain_program hq

/-- The texts of two instructions are the same if and only if the operation is, and those operands
that the operation shows; a call of a routine does not show its length. So programs whose code reads
the same, instruction by instruction, have the same code. -/
theorem assembly_shows_code :
    (∀ i j : Instruction, i.text = j.text ↔ i.op = j.op ∧ i.SameOperands j) ∧
      ∀ {text text' : String} {p p' : Program} {o o' : Object},
        compile text = .ok (p, o) → compile text' = .ok (p', o') →
        o.code.toList.map Instruction.text = o'.code.toList.map Instruction.text →
        o.code = o'.code := by
  refine ⟨fun i j => ?_, fun {text text' p p' o o'} h h' htexts => ?_⟩
  · rw [Instruction.text_eq_iff]
    exact and_congr_right fun hop => Instruction.operands_inj hop
  · obtain ⟨R, hp, -, ho⟩ := compile_eq_ok h
    obtain ⟨R', hp', -, ho'⟩ := compile_eq_ok h'
    have hplain := (Program.ofTokens_wellFormed hp).plain_code ho
    have hplain' := (Program.ofTokens_wellFormed hp').plain_code ho'
    exact Array.toList_inj.1 (Instruction.eq_of_map_text hplain hplain' htexts)

theorem assembly_shows_code_renamed :
    (⟨.call, .pb, 0, 8⟩ : Instruction).text = (⟨.call, .pb, 5, 8⟩ : Instruction).text ∧
      ∃ p p' o o', compile "func f() \x7b \x7d" = .ok (p, o) ∧
        compile "func g() \x7b \x7d" = .ok (p', o') ∧ o.code = o'.code := by
  constructor
  · have hadd (n : Int32) : (⟨.call, .pb, n, 8⟩ : Instruction).CallsRoutine :=
      ⟨rfl, .add, (by decide : (8 : Int32).toInt = Routine.add.displacement)⟩
    exact (assembly_shows_code.1 _ _).2 ⟨rfl, rfl, rfl, fun h => absurd ⟨hadd 0, hadd 5⟩ h⟩
  · have hcompile (text : String) := Program.exists_compile_of_eval text fun (_, o) =>
      decide (o.code.toList.map Instruction.text = ["JUMP 2[CB]", "RETURN (0) 0", "HALT"])
    obtain ⟨p, o, h, htexts⟩ := hcompile "func f() \x7b \x7d" (by decide +kernel)
    obtain ⟨p', o', h', htexts'⟩ := hcompile "func g() \x7b \x7d" (by decide +kernel)
    exact ⟨p, p', o, o', h, h', assembly_shows_code.2 h h'
      ((of_decide_eq_true htexts).trans (of_decide_eq_true htexts').symm)⟩

end PrimeLang
