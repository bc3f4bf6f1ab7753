import Mathlib.Data.List.Induction
import PrimeLang.Proofs.SegmentContents

/-! # A segment and an assembler without limits

An assembler without limits keeps every request as it was made, and the last displacement that it was
given. Whatever a segment is asked to do, its code is that of the assembler without limits, cut to
the field widths and to the size of the code store, and its warnings say in order what was cut. -/

namespace PrimeLang
open Machine

/-- What an instruction asks for. -/
def Machine.Instruction.request (i : Instruction) : Request := ⟨i.op, i.n.toInt, i.r, i.d.toInt⟩

namespace Request

/-- The request with operands that fit their fields. -/
def cut (q : Request) : Request :=
  { q with n := max 0 (min 255 q.n), d := max (-32768) (min 32767 q.d) }

theorem request_instruction (q : Request) : q.instruction.request = q.cut := by
  rw [Instruction.request, instruction, toInt_clampLength, toInt_clampDisplacement]
  rfl

theorem Fits.cut_eq {q : Request} (h : q.Fits) : q.cut = q := by
  have hn : max 0 (min 255 q.n) = q.n := h.1
  have hd : max (-32768) (min 32767 q.d) = q.d := h.2
  rw [cut, hn, hd]

/-- The request with another displacement. -/
def lead (d : Int) (q : Request) : Request := { q with d := d }

end Request

namespace Segment

/-! ## Edits -/

/-- What a segment is asked to do. -/
inductive Edit where
  | emit (q : Request)
  | patch (addr d : Int)
  | warn (w : Warning)
deriving DecidableEq, Repr

namespace Edit

def apply (s : Segment) : Edit → Segment
  | emit q => (s.emit q.op q.n q.r q.d).2
  | patch addr d => s.patch addr d
  | warn w => s.warn w

def request? : Edit → Option Request
  | emit q => some q
  | _ => none

/-- The displacement that the edit gives to the instruction at `addr`. -/
def displacement? (addr : Nat) : Edit → Option Int
  | emit _ => none
  | patch a d => if a = addr then some d else none
  | warn _ => none

end Edit

/-- The segment after edits of an empty one. -/
def after (es : List Edit) : Segment := es.foldl Edit.apply empty

theorem after_append_singleton (es : List Edit) (e : Edit) :
    after (es ++ [e]) = e.apply (after es) := List.foldl_append

/-- The requests among edits. -/
def requests (es : List Edit) : List Request := es.filterMap Edit.request?

/-! ## Without limits -/

/-- The displacement that edits give last to the instruction at `addr`, if they do. -/
def lastDisplacement? (addr : Nat) (es : List Edit) : Option Int :=
  (es.filterMap (Edit.displacement? addr)).getLast?

theorem lastDisplacement?_append_singleton (addr : Nat) (es : List Edit) (e : Edit) :
    lastDisplacement? addr (es ++ [e]) =
      (e.displacement? addr).or (lastDisplacement? addr es) := by
  rw [lastDisplacement?, List.filterMap_append, List.getLast?_append]
  cases he : e.displacement? addr <;> simp [he, lastDisplacement?]

/-- The requests in order, the first one at the address `k`. Each has the displacement that it is
given last by a patch of its address after it was made. -/
def idealFrom (k : Nat) : List Edit → List Request
  | [] => []
  | .emit q :: es => q.lead ((lastDisplacement? k es).getD q.d) :: idealFrom (k + 1) es
  | .patch .. :: es => idealFrom k es
  | .warn _ :: es => idealFrom k es

/-- What an assembler without limits ends with. -/
def ideal (es : List Edit) : List Request := idealFrom 0 es

theorem length_idealFrom (k : Nat) (es : List Edit) :
    (idealFrom k es).length = (requests es).length := by
  induction es generalizing k with
  | nil => rfl
  | cons e es ih =>
    cases e with
    | emit q => exact congrArg (· + 1) (ih (k + 1))
    | patch addr d => exact ih k
    | warn w => exact ih k

theorem idealFrom_append_emit (k : Nat) (es : List Edit) (q : Request) :
    idealFrom k (es ++ [.emit q]) = idealFrom k es ++ [q] := by
  induction es generalizing k with
  | nil => rfl
  | cons e es ih =>
    cases e with
    | emit q' =>
      have hlast := lastDisplacement?_append_singleton k es (.emit q)
      rw [Edit.displacement?, Option.none_or] at hlast
      rw [List.cons_append, idealFrom, idealFrom, ih, hlast, List.cons_append]
    | patch addr d => exact ih k
    | warn w => exact ih k

theorem idealFrom_append_warn (k : Nat) (es : List Edit) (w : Warning) :
    idealFrom k (es ++ [.warn w]) = idealFrom k es := by
  induction es generalizing k with
  | nil => rfl
  | cons e es ih =>
    cases e with
    | emit q =>
      have hlast := lastDisplacement?_append_singleton k es (.warn w)
      rw [Edit.displacement?, Option.none_or] at hlast
      rw [List.cons_append, idealFrom, idealFrom, ih, hlast]
    | patch addr d => exact ih k
    | warn w' => exact ih k

/-- The requests after a patch: only the one at its address changes, if there is one. -/
def patched (k : Nat) (addr d : Int) (qs : List Request) : List Request :=
  if k ≤ addr then qs.modify (addr - k).toNat (Request.lead d) else qs

theorem patched_eq_self {k : Nat} {addr : Int} {qs : List Request}
    (h : addr < k ∨ (k + qs.length : Nat) ≤ addr) (d : Int) : patched k addr d qs = qs := by
  unfold patched
  split
  · exact List.modify_eq_self (by omega)
  · rfl

theorem patched_cons (k : Nat) (addr d : Int) (q : Request) (qs : List Request) :
    patched k addr d (q :: qs) =
      (if addr = k then q.lead d else q) :: patched (k + 1) addr d qs := by
  unfold patched
  by_cases heq : addr = k
  · subst heq
    rw [if_pos (Int.le_refl _), if_pos rfl, if_neg (by omega), Int.sub_self]
    rfl
  · rw [if_neg heq]
    by_cases hle : k ≤ addr
    · have hnat : (addr - k).toNat = (addr - (k + 1 : Nat)).toNat + 1 := by omega
      rw [if_pos hle, if_pos (by omega), hnat, List.modify_succ_cons]
    · rw [if_neg hle, if_neg (by omega)]

theorem idealFrom_append_patch (k : Nat) (es : List Edit) (addr d : Int) :
    idealFrom k (es ++ [.patch addr d]) = patched k addr d (idealFrom k es) := by
  induction es generalizing k with
  | nil =>
    unfold patched
    split
    · exact (List.modify_nil ..).symm
    · rfl
  | cons e es ih =>
    cases e with
    | emit q =>
      have hlast := lastDisplacement?_append_singleton k es (.patch addr d)
      rw [Edit.displacement?] at hlast
      rw [List.cons_append, idealFrom, idealFrom, ih, patched_cons, hlast]
      split <;> rfl
    | patch addr' d' => exact ih k
    | warn w => exact ih k

/-! ## The code of a segment -/

/-- A patch of an address without an instruction gives no more than a warning. -/
theorem patch_eq_warnCut {s : Segment} {addr : Int} (h : addr < 0 ∨ s.code.size ≤ addr) (d : Int) :
    s.patch addr d = s.warnCut 'd' d (clampDisplacement d) := by
  unfold patch
  split
  · have hsame (f : Instruction → Instruction) : s.code.modify addr.toNat f = s.code := by
      apply Array.ext'
      rw [Array.toList_modify]
      exact List.modify_eq_self (by rw [Array.length_toList]; omega)
    simp only [code_warnCut, hsame]
    rw [← code_warnCut]
  · rfl

namespace Holds
variable {s : Segment} {qs : List Request}

theorem warnCut (h : s.Holds qs) (field : Char) (v c : Int) : (s.warnCut field v c).Holds qs := by
  unfold Segment.warnCut
  split
  · exact h
  · exact h.warn _

/-- A patch of any address, be there a request or not. -/
theorem patched (h : s.Holds qs) (addr d : Int) : (s.patch addr d).Holds (patched 0 addr d qs) := by
  by_cases hin : 0 ≤ addr ∧ addr < qs.length
  · obtain ⟨a, rfl⟩ := Int.eq_ofNat_of_zero_le hin.1
    have hlt : a < qs.length := Int.ofNat_lt.1 hin.2
    have hlen : (qs.take a).length = a := List.length_take_of_le (Nat.le_of_lt hlt)
    have hsplit : qs = qs.take a ++ qs[a] :: qs.drop (a + 1) := by simp
    have hmodify : Segment.patched 0 a d qs = qs.take a ++ qs[a].lead d :: qs.drop (a + 1) := by
      have h0 : ((0 : Nat) : Int) ≤ a := Int.natCast_nonneg a
      rw [Segment.patched, if_pos h0]
      exact List.modify_eq_take_cons_drop hlt
    rw [hsplit] at h
    have hpatch := h.patch d
    rw [hlen] at hpatch
    rw [hmodify]
    exact hpatch
  · have hsize := h.size_code
    rw [patched_eq_self (by omega), patch_eq_warnCut (by omega)]
    exact h.warnCut _ _ _

end Holds

/-- The run lemma: a segment holds what an assembler without limits ends with. -/
theorem holds_after (es : List Edit) : (after es).Holds (ideal es) := by
  induction es using List.reverseRecOn with
  | nil => exact .empty
  | append_singleton es e ih =>
    rw [after_append_singleton]
    cases e with
    | emit q =>
      rw [ideal, idealFrom_append_emit]
      exact ih.emit q
    | patch addr d =>
      rw [ideal, idealFrom_append_patch]
      exact ih.patched addr d
    | warn w =>
      rw [ideal, idealFrom_append_warn]
      exact ih.warn w

/-! ## The warnings of a segment -/

/-- The warnings of edits in order, the first request being at the address `k`: what is cut from
operands, and that the store is full at the first request behind its end. -/
def warningsFrom (k : Nat) : List Edit → List Warning
  | [] => []
  | .emit q :: es => cutWarnings q ++
      (if k = codeCapacity then [.storeFull codeCapacity] else []) ++ warningsFrom (k + 1) es
  | .patch _ d :: es => cutWarning 'd' d (clampDisplacement d) ++ warningsFrom k es
  | .warn w :: es => w :: warningsFrom k es

theorem warningsFrom_append (k : Nat) (es es' : List Edit) :
    warningsFrom k (es ++ es') =
      warningsFrom k es ++ warningsFrom (k + (requests es).length) es' := by
  induction es generalizing k with
  | nil => rfl
  | cons e es ih =>
    cases e with
    | emit q =>
      have hlen : (requests (.emit q :: es)).length = (requests es).length + 1 := rfl
      rw [List.cons_append, warningsFrom, ih, warningsFrom, hlen, List.append_assoc _ _ (warningsFrom ..),
        Nat.add_right_comm, Nat.add_assoc]
    | patch addr d =>
      rw [List.cons_append, warningsFrom, ih, warningsFrom, List.append_assoc]
      rfl
    | warn w =>
      rw [List.cons_append, warningsFrom, ih, warningsFrom]
      rfl

/-- One edit adds its own warnings. -/
theorem warnings_apply {s : Segment} {qs : List Request} (h : s.Holds qs) (e : Edit) :
    (e.apply s).warnings.toList = s.warnings.toList ++ warningsFrom qs.length [e] := by
  cases e with
  | emit q =>
    have hnext := h.next
    have hsize := h.size_code
    have hfirst : (codeCapacity ≤ s.next ∧ s.dropped = 0) = (qs.length = codeCapacity) := by
      unfold Segment.next at hnext ⊢
      exact propext (by omega)
    rw [Edit.apply, warnings_emit, warningsFrom, warningsFrom, List.append_nil]
    simp only [hfirst]
  | patch addr d =>
    rw [Edit.apply, warnings_patch, warningsFrom, warningsFrom, List.append_nil]
  | warn w => exact Array.toList_push

theorem warnings_after (es : List Edit) : (after es).warnings.toList = warningsFrom 0 es := by
  induction es using List.reverseRecOn with
  | nil => rfl
  | append_singleton es e ih =>
    have hlen : (ideal es).length = (requests es).length := length_idealFrom 0 es
    rw [after_append_singleton, warnings_apply (holds_after es), ih, warningsFrom_append, hlen,
      Nat.zero_add]

/-! ## Refinement -/

theorem Holds.map_request_code {s : Segment} {qs : List Request} (h : s.Holds qs) :
    s.code.toList.map Instruction.request = (qs.map Request.cut).take codeCapacity := by
  rw [h.code, List.map_take, List.map_map]
  exact congrArg _ (List.map_congr_left fun q _ => q.request_instruction)

/-- Without a warning of lost code all requests fit, and so does their number. -/
theorem Holds.eq_of_lossless {s : Segment} {qs : List Request} (h : s.Holds qs)
    (hlossless : ∀ w ∈ s.warnings, w.losesCode = false) :
    (qs.map Request.cut).take codeCapacity = qs := by
  have hfits : ∀ q ∈ qs, q.cut = q := by
    intro q hq
    apply Request.Fits.cut_eq
    refine h.cut.resolve_right ?_ q hq
    intro ⟨field, v, c, hw⟩
    cases hlossless _ hw
  have hlen : qs.length ≤ codeCapacity := by
    apply Nat.le_of_not_lt
    intro hlt
    cases hlossless _ (h.full hlt)
  rw [List.take_of_length_le (by rwa [List.length_map]), List.map_congr_left hfits, List.map_id']

/-- A segment refines an assembler without limits and tells what it loses. As long as numbers of
requests are addresses, each request gets the number of requests before it as its address. The code
is that of the assembler without limits with operands cut to their fields, up to the end of the code
store. The warnings are in order those of each operand that was cut, and one for the first request
behind the end of the store. So without such warnings nothing is lost. -/
theorem after_refines_ideal (es : List Edit) :
    ((requests es).length < addressLimit →
      (∀ before q rest, es = before ++ .emit q :: rest →
        ((after before).emit q.op q.n q.r q.d).1 = (requests before).length) ∧
      (after es).address = (requests es).length) ∧
    (after es).code.size = min (requests es).length codeCapacity ∧
    (after es).code.toList.map Instruction.request =
      ((ideal es).map Request.cut).take codeCapacity ∧
    (after es).warnings.toList = warningsFrom 0 es ∧
    ((∀ w ∈ (after es).warnings, w.losesCode = false) →
      (after es).code.toList.map Instruction.request = ideal es) := by
  have hholds := holds_after es
  have hnext (es : List Edit) : (after es).next = (requests es).length :=
    (holds_after es).next.trans (length_idealFrom 0 es)
  have haddr {es : List Edit} (hfew : (requests es).length < addressLimit) :
      (after es).address = (requests es).length := by
    rw [address, hnext, addressOf_of_lt hfew]
  refine ⟨fun hfew => ⟨?_, haddr hfew⟩, ?_, hholds.map_request_code, warnings_after es,
    fun hlossless => ?_⟩
  · rintro before q rest rfl
    rw [requests, List.filterMap_append, List.length_append] at hfew
    rw [fst_emit, haddr (Nat.lt_of_le_of_lt (Nat.le_add_right ..) hfew)]
  · rw [hholds.size_code, ideal, length_idealFrom, Nat.min_comm]
  · rw [hholds.map_request_code, hholds.eq_of_lossless hlossless]

/-- A jump that is patched before and after it is there, and a last time behind the end. -/
def jumpingEdits : List Edit :=
  [.patch 0 9, .emit ⟨.jump, 0, .cb, 0⟩, .patch 0 7, .emit ⟨.halt, 0, .cb, 0⟩, .warn .noEntry,
    .patch 0 1, .patch 2 5, .patch (-1) 5]

theorem after_refines_ideal_jumping :
    jumpingEdits = [.patch 0 9, .emit ⟨.jump, 0, .cb, 0⟩, .patch 0 7] ++
      .emit ⟨.halt, 0, .cb, 0⟩ :: [.warn .noEntry, .patch 0 1, .patch 2 5, .patch (-1) 5] ∧
    ((after [.patch 0 9, .emit ⟨.jump, 0, .cb, 0⟩, .patch 0 7]).emit .halt 0 .cb 0).1 = 1 ∧
    (∀ w ∈ (after jumpingEdits).warnings, w.losesCode = false) ∧
    (after jumpingEdits).code.toList.map Instruction.request =
      [⟨.jump, 0, .cb, 1⟩, ⟨.halt, 0, .cb, 0⟩] := by
  have hlossless : ∀ w ∈ (after jumpingEdits).warnings, w.losesCode = false := by decide
  obtain ⟨haddr, -, -, -, hcode⟩ := after_refines_ideal jumpingEdits
  exact ⟨rfl, (haddr (by decide)).1 _ ⟨.halt, 0, .cb, 0⟩ _ rfl, hlossless, hcode hlossless⟩

end Segment
end PrimeLang
