import PrimeLang.Object.Segment

/-! # What a segment holds

A segment is described by the instructions that were asked for, in order and with the displacements
that they were given last. From that list follow the code, which is cut to the machine's limits, and
which warnings must have been given. -/

namespace PrimeLang
open Machine

/-- An instruction as it is asked for, whatever its fields hold. -/
structure Request where
  op : Opcode
  n : Int
  r : Register
  d : Int
deriving DecidableEq, Repr, Inhabited

namespace Request
open Segment

/-- The instruction that takes its place in the code store. -/
def instruction (q : Request) : Instruction :=
  ⟨q.op, q.r, .ofInt (clampLength q.n), .ofInt (clampDisplacement q.d)⟩

/-- Both operands fit their fields. -/
def Fits (q : Request) : Prop := clampLength q.n = q.n ∧ clampDisplacement q.d = q.d

/-- A length that was cut is a word. -/
theorem toInt_clampLength (n : Int) : (Int32.ofInt (clampLength n)).toInt = clampLength n := by
  have hrange : 0 ≤ clampLength n ∧ clampLength n ≤ 255 := by
    simp only [clampLength, clamp, maxLength]
    omega
  exact Int32.toInt_ofInt_of_le (by omega) (by omega)

/-- A displacement that was cut is a word. -/
theorem toInt_clampDisplacement (d : Int) :
    (Int32.ofInt (clampDisplacement d)).toInt = clampDisplacement d := by
  have hrange : -32768 ≤ clampDisplacement d ∧ clampDisplacement d ≤ 32767 := by
    simp only [clampDisplacement, clamp, minDisplacement, maxDisplacement]
    omega
  exact Int32.toInt_ofInt_of_le (by omega) (by omega)

theorem toInt_n_instruction {q : Request} (h : q.Fits) : q.instruction.n.toInt = q.n :=
  (toInt_clampLength q.n).trans h.1

theorem toInt_d_instruction {q : Request} (h : q.Fits) : q.instruction.d.toInt = q.d :=
  (toInt_clampDisplacement q.d).trans h.2

end Request

/-- The warning says that the code is not all that was asked for. -/
def Warning.losesCode : Warning → Bool
  | operandCut .. => true
  | storeFull _ => true
  | outOfReach _ => false
  | noEntry => false

namespace Segment

/-- A warning says that some operand was cut. -/
def WarnsOfCut (s : Segment) : Prop := ∃ field v c, Warning.operandCut field v c ∈ s.warnings

/-- The segment after the requests `qs`. -/
structure Holds (s : Segment) (qs : List Request) : Prop where
  next : s.next = qs.length
  code : s.code.toList = (qs.map Request.instruction).take codeCapacity
  cut : (∀ q ∈ qs, q.Fits) ∨ s.WarnsOfCut
  full : codeCapacity < qs.length → .storeFull codeCapacity ∈ s.warnings

variable {s : Segment}

theorem WarnsOfCut.mono {s' : Segment} (h : s.WarnsOfCut)
    (hle : ∀ w ∈ s.warnings, w ∈ s'.warnings) : s'.WarnsOfCut := by
  obtain ⟨field, v, c, hw⟩ := h
  exact ⟨field, v, c, hle _ hw⟩

theorem mem_warn {w w' : Warning} (h : w' ∈ s.warnings) : w' ∈ (s.warn w).warnings :=
  Array.mem_push_of_mem _ h

theorem mem_warnCut {w : Warning} (field : Char) (v c : Int) (h : w ∈ s.warnings) :
    w ∈ (s.warnCut field v c).warnings := by
  unfold warnCut
  split
  · exact h
  · exact mem_warn h

/-- An operand is kept, or a warning says that it was cut. -/
theorem warnsOfCut_warnCut (field : Char) (v c : Int) (s : Segment) :
    c = v ∨ (s.warnCut field v c).WarnsOfCut := by
  by_cases h : c = v
  · exact .inl h
  · refine .inr ⟨field, v, c, ?_⟩
    rw [warnCut, if_neg h]
    exact Array.mem_push_self

/-- The segment once the operands of a request were looked at. -/
def warnCuts (n d : Int) (s : Segment) : Segment :=
  (s.warnCut 'n' n (clampLength n)).warnCut 'd' d (clampDisplacement d)

theorem mem_warnCuts {w : Warning} (n d : Int) (h : w ∈ s.warnings) :
    w ∈ (s.warnCuts n d).warnings := mem_warnCut _ _ _ (mem_warnCut _ _ _ h)

theorem fits_or_warnsOfCut (q : Request) (s : Segment) :
    q.Fits ∨ (s.warnCuts q.n q.d).WarnsOfCut := by
  rcases warnsOfCut_warnCut 'n' q.n (clampLength q.n) s with hn | hn
  · rcases warnsOfCut_warnCut 'd' q.d (clampDisplacement q.d)
      (s.warnCut 'n' q.n (clampLength q.n)) with hd | hd
    · exact .inl ⟨hn, hd⟩
    · exact .inr hd
  · exact .inr (hn.mono fun _ => mem_warnCut _ _ _)

theorem emit_snd_of_lt {q : Request} (h : s.next < codeCapacity) :
    (s.emit q.op q.n q.r q.d).2 =
      { s.warnCuts q.n q.d with code := s.code.push q.instruction } := by
  rw [emit, add, if_pos h]
  simp [warnCuts, Request.instruction]

theorem emit_snd_of_le {q : Request} (h : codeCapacity ≤ s.next) :
    (s.emit q.op q.n q.r q.d).2 =
      { (if s.dropped = 0 then (s.warnCuts q.n q.d).warn (.storeFull codeCapacity)
          else s.warnCuts q.n q.d) with dropped := s.dropped + 1 } := by
  rw [emit, add, if_neg (by omega)]
  by_cases hs : s.dropped = 0 <;> simp [warnCuts, hs]

theorem mem_emit {w : Warning} (q : Request) (h : w ∈ (s.warnCuts q.n q.d).warnings) :
    w ∈ (s.emit q.op q.n q.r q.d).2.warnings := by
  by_cases hlt : s.next < codeCapacity
  · rw [emit_snd_of_lt hlt]
    exact h
  · rw [emit_snd_of_le (by omega)]
    split
    · exact mem_warn h
    · exact h

/-- What is said of an operand, if it was cut. -/
def cutWarning (field : Char) (v c : Int) : List Warning :=
  if c = v then [] else [.operandCut field v c]

theorem warnings_warnCut (field : Char) (v c : Int) (s : Segment) :
    (s.warnCut field v c).warnings.toList = s.warnings.toList ++ cutWarning field v c := by
  unfold warnCut cutWarning
  split
  · rw [List.append_nil]
  · exact Array.toList_push

/-- What is said of the operands of a request, the length first. -/
def cutWarnings (q : Request) : List Warning :=
  cutWarning 'n' q.n (clampLength q.n) ++ cutWarning 'd' q.d (clampDisplacement q.d)

theorem warnings_warnCuts (q : Request) (s : Segment) :
    (s.warnCuts q.n q.d).warnings.toList = s.warnings.toList ++ cutWarnings q := by
  rw [warnCuts, warnings_warnCut, warnings_warnCut, List.append_assoc, cutWarnings]

/-- The warnings of a request: its operands first, then the store if it is full for the first
time. -/
theorem warnings_emit (q : Request) (s : Segment) :
    (s.emit q.op q.n q.r q.d).2.warnings.toList = s.warnings.toList ++ (cutWarnings q ++
      if codeCapacity ≤ s.next ∧ s.dropped = 0 then [.storeFull codeCapacity] else []) := by
  rw [← List.append_assoc, ← warnings_warnCuts]
  by_cases hlt : s.next < codeCapacity
  · rw [emit_snd_of_lt hlt, if_neg (by omega), List.append_nil]
  · rw [emit_snd_of_le (by omega)]
    by_cases hdropped : s.dropped = 0
    · rw [if_pos hdropped, if_pos (by omega)]
      exact Array.toList_push
    · rw [if_neg hdropped, if_neg (by omega), List.append_nil]

theorem warnings_patch (addr d : Int) (s : Segment) :
    (s.patch addr d).warnings.toList =
      s.warnings.toList ++ cutWarning 'd' d (clampDisplacement d) := by
  rw [← warnings_warnCut, Segment.patch]
  split <;> rfl

theorem losesCode_of_mem_cutWarning {field : Char} {v c : Int} {w : Warning}
    (h : w ∈ cutWarning field v c) : w.losesCode := by
  unfold cutWarning at h
  split at h
  · cases h
  · rw [List.mem_singleton.1 h]
    rfl

/-- A request adds only warnings of code that was lost. -/
theorem warned_emit (q : Request) {w : Warning}
    (h : w ∈ (s.emit q.op q.n q.r q.d).2.warnings) : w ∈ s.warnings ∨ w.losesCode := by
  rw [← Array.mem_toList_iff, warnings_emit, List.mem_append, List.mem_append, cutWarnings,
    List.mem_append] at h
  rcases h with h | (h | h) | h
  · exact .inl (Array.mem_toList_iff.1 h)
  · exact .inr (losesCode_of_mem_cutWarning h)
  · exact .inr (losesCode_of_mem_cutWarning h)
  · split at h
    · rw [List.mem_singleton.1 h]
      exact .inr rfl
    · cases h

/-- A new displacement adds only a warning of code that was lost. -/
theorem warned_patch {addr d : Int} {w : Warning} (h : w ∈ (s.patch addr d).warnings) :
    w ∈ s.warnings ∨ w.losesCode := by
  rw [← Array.mem_toList_iff, warnings_patch, List.mem_append] at h
  exact h.imp Array.mem_toList_iff.1 losesCode_of_mem_cutWarning

theorem modify_length_append (f : Instruction → Instruction) (i : Instruction)
    (pre post : List Instruction) :
    (pre ++ i :: post).modify pre.length f = pre ++ f i :: post := by
  induction pre with
  | nil => rfl
  | cons j pre ih => simp [ih]

theorem mem_patch {w : Warning} (addr : Nat) (d : Int) (h : w ∈ s.warnings) :
    w ∈ (s.patch addr d).warnings := by
  rw [Segment.patch, if_pos (by omega)]
  exact mem_warnCut _ _ _ h

theorem fits_or_warnsOfCut_patch (addr : Nat) (d : Int) (s : Segment) :
    clampDisplacement d = d ∨ (s.patch addr d).WarnsOfCut := by
  rw [Segment.patch, if_pos (by omega)]
  exact warnsOfCut_warnCut 'd' d (clampDisplacement d) s

namespace Holds
variable {qs : List Request}

theorem empty : Segment.empty.Holds [] where
  next := rfl
  code := rfl
  cut := .inl (by simp)
  full := by simp

theorem warn (h : s.Holds qs) (w : Warning) : (s.warn w).Holds qs where
  next := h.next
  code := h.code
  cut := h.cut.imp_right fun hc => hc.mono fun _ => mem_warn
  full hlt := mem_warn (h.full hlt)

theorem size_code (h : s.Holds qs) : s.code.size = min codeCapacity qs.length := by
  rw [← Array.length_toList, h.code]
  simp

theorem emit (h : s.Holds qs) (q : Request) : (s.emit q.op q.n q.r q.d).2.Holds (qs ++ [q]) where
  next := by simp [h.next]
  code := by
    have hnext := h.next
    by_cases hlt : s.next < codeCapacity
    · rw [emit_snd_of_lt hlt, Array.toList_push, h.code, List.take_of_length_le (by simp; omega),
        List.take_of_length_le (by simp; omega)]
      simp
    · have hcode : (s.emit q.op q.n q.r q.d).2.code = s.code := by
        rw [emit_snd_of_le (by omega)]
        split <;> simp [warnCuts]
      rw [hcode, h.code, List.map_append, List.take_append_of_le_length (by simp; omega)]
  cut := by
    rcases h.cut with hfit | hcut
    · rcases fits_or_warnsOfCut q s with hq | hq
      · refine .inl fun q' hq' => ?_
        rcases List.mem_append.1 hq' with hq' | hq'
        · exact hfit q' hq'
        · exact List.mem_singleton.1 hq' ▸ hq
      · exact .inr (hq.mono fun _ => mem_emit q)
    · exact .inr (hcut.mono fun _ hw => mem_emit q (mem_warnCuts _ _ hw))
  full := by
    intro hlen
    have hnext := h.next
    have hsize := h.size_code
    rw [List.length_append, List.length_singleton] at hlen
    by_cases hfull : codeCapacity < qs.length
    · exact mem_emit q (mem_warnCuts _ _ (h.full hfull))
    · have hdropped : s.dropped = 0 := by
        unfold Segment.next at hnext
        omega
      rw [emit_snd_of_le (by omega), if_pos hdropped]
      exact Array.mem_push_self

/-- A new displacement replaces the one that was asked for before. -/
theorem patch {pre post : List Request} {q : Request} (h : s.Holds (pre ++ q :: post)) (d : Int) :
    (s.patch pre.length d).Holds (pre ++ { q with d := d } :: post) where
  next := by simp [h.next]
  code := by
    have hmodify := modify_length_append (fun i => { i with d := .ofInt (clampDisplacement d) })
      q.instruction (pre.map Request.instruction) (post.map Request.instruction)
    rw [List.length_map] at hmodify
    rw [Segment.patch, if_pos (by omega)]
    simp only [code_warnCut, Int.toNat_natCast, Array.toList_modify, h.code, ← List.take_modify,
      List.map_append, List.map_cons, hmodify]
    rfl
  cut := by
    rcases h.cut with hfit | hcut
    · rcases fits_or_warnsOfCut_patch pre.length d s with hd | hd
      · refine .inl fun q' hq' => ?_
        rcases List.mem_append.1 hq' with hq' | hq'
        · exact hfit q' (List.mem_append_left _ hq')
        · rcases List.mem_cons.1 hq' with rfl | hq'
          · exact ⟨(hfit q (by simp)).1, hd⟩
          · exact hfit q' (List.mem_append_right _ (List.mem_cons_of_mem _ hq'))
      · exact .inr hd
    · exact .inr (hcut.mono fun _ => mem_patch _ _)
  full := by
    intro hlen
    exact mem_patch _ _ (h.full (by simpa using hlen))

/-- Without warnings the code is what was asked for. -/
theorem getElem?_code (h : s.Holds qs) (hcut : ¬ s.WarnsOfCut)
    (hfull : .storeFull codeCapacity ∉ s.warnings) {i : Nat} {q : Request} (hq : qs[i]? = some q) :
    s.code[i]? = some q.instruction ∧ q.Fits := by
  have hlen : qs.length ≤ codeCapacity := Nat.le_of_not_lt fun hlt => hfull (h.full hlt)
  have hi : i < qs.length := (List.getElem?_eq_some_iff.1 hq).1
  refine ⟨?_, h.cut.resolve_right hcut q (List.mem_of_getElem? hq)⟩
  rw [← Array.getElem?_toList, h.code, List.getElem?_take_of_lt (by omega), List.getElem?_map, hq]
  rfl

end Holds
end Segment
end PrimeLang
