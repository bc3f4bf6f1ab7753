import PrimeLang.Object.Generator
import PrimeLang.Proofs.Execution

/-! # Frames on the stack

While a function runs, the stack holds its arguments, the link data, its locals and the operands of
unfinished expressions above what its caller had there. Arguments and locals are numbered through as
slots, and instructions reach them by their displacement from the link data. -/

namespace PrimeLang.Machine

/-! ## The topmost words -/

theorem pop?_append (n : Nat) (rest ws : List Int) (h : ws.length = n) :
    pop? n (rest ++ ws) = some (rest, ws) := by
  subst h
  simp [pop?]

@[simp] theorem pop?_zero (stack : List Int) : pop? 0 stack = some (stack, []) := by
  have h := pop?_append 0 stack [] rfl
  rwa [List.append_nil] at h

@[simp] theorem pop?_one (rest : List Int) (w : Int) : pop? 1 (rest ++ [w]) = some (rest, [w]) :=
  pop?_append 1 rest [w] rfl

@[simp] theorem pop?_two (rest : List Int) (v w : Int) :
    pop? 2 (rest ++ [v, w]) = some (rest, [v, w]) :=
  pop?_append 2 rest [v, w] rfl

theorem State.load?_one {s : State} {a : Nat} {w : Int} (h : s.stack[a]? = some w) :
    s.load? a 1 = some [w] := by
  obtain ⟨hlt, hw⟩ := List.getElem?_eq_some_iff.1 h
  rw [State.load?, if_pos (by omega), List.drop_eq_getElem_cons hlt, hw]
  rfl

theorem State.store?_one {s : State} {a : Nat} (w : Int) (h : a < s.stack.length) :
    s.store? a [w] = some { s with stack := s.stack.set a w } := by
  rw [State.store?, if_pos (by simpa using Nat.succ_le_of_lt h), List.set_eq_take_append_cons_drop, if_pos h]
  simp

theorem return?_eq {s : State} {n d link : Int} {rest result : List Int} {lb cp bottom : Nat}
    (hpop : pop? n s.stack = some (rest, result))
    (hlink : s.load? s.lb 3 = some [link, (lb : Int), (cp : Int)])
    (hbottom : (s.lb : Int) - d = bottom) :
    return? n d s = some { s with cp, lb, stack := s.stack.take bottom ++ result } := by
  simp [return?, hpop, hlink, hbottom]

/-! ## Activations -/

/-- What does not change while a call is carried out: the stack below its arguments, how many these
are, and the link data. -/
structure Activation where
  below : List Int
  params : Nat
  link : Int
  callerBase : Nat
  resume : Nat

namespace Activation
variable (act : Activation)

def base : Nat := act.below.length + act.params

/-- The stack with the given slots and operands. -/
def stack (slots operands : List Int) : List Int :=
  act.below ++ (slots.take act.params ++ ([act.link, (act.callerBase : Int), (act.resume : Int)] ++
    (slots.drop act.params ++ operands)))

/-- The state before the instruction at `cp`. -/
def state (cp : Nat) (slots operands : List Int) (heap : Int → Option Int) : State :=
  ⟨cp, act.base, act.stack slots operands, heap⟩

/-- Where a slot is on the stack. -/
def place (i : Nat) : Nat := act.below.length + if i < act.params then i else i + 3

variable {act} {slots operands : List Int}

theorem stack_append (slots operands ws : List Int) :
    act.stack slots (operands ++ ws) = act.stack slots operands ++ ws := by
  simp [stack]

theorem getElem?_stack (hparams : act.params ≤ slots.length) {i : Nat} (hi : i < slots.length) :
    (act.stack slots operands)[act.place i]? = slots[i]? := by
  have hargs : (slots.take act.params).length = act.params := List.length_take_of_le hparams
  rw [stack, place, List.getElem?_append_right (by omega), Nat.add_sub_cancel_left]
  split
  · next hlt => rw [List.getElem?_append_left (by omega), List.getElem?_take_of_lt hlt]
  · next hge =>
    have hlocal : i + 3 - act.params - 3 = i - act.params := by omega
    rw [List.getElem?_append_right (by omega), hargs, List.getElem?_append_right (by simp; omega)]
    show (slots.drop act.params ++ operands)[i + 3 - act.params - 3]? = _
    rw [hlocal, List.getElem?_append_left (by simp; omega), List.getElem?_drop,
      Nat.add_sub_cancel' (by omega)]

theorem set_stack (hparams : act.params ≤ slots.length) {i : Nat} (hi : i < slots.length) (w : Int) :
    (act.stack slots operands).set (act.place i) w = act.stack (slots.set i w) operands := by
  have hargs : (slots.take act.params).length = act.params := List.length_take_of_le hparams
  rw [stack, place, List.set_append_right _ _ (by omega), Nat.add_sub_cancel_left, stack]
  split
  · next hlt =>
    rw [List.set_append_left _ _ (by omega), List.take_set, List.drop_set_of_lt hlt]
  · next hge =>
    have hlocal : i + 3 - act.params - 3 = i - act.params := by omega
    rw [List.set_append_right _ _ (by omega), hargs, List.set_append_right _ _ (by simp; omega)]
    show _ ++ (_ ++ (_ ++ (slots.drop act.params ++ operands).set (i + 3 - act.params - 3) w)) = _
    rw [hlocal, List.set_append_left _ _ (by simp; omega), List.drop_set, if_neg hge,
      List.take_set_of_le (by omega)]

theorem length_stack (hparams : act.params ≤ slots.length) :
    (act.stack slots operands).length = act.below.length + slots.length + 3 + operands.length := by
  simp [stack]
  omega

theorem place_lt (hparams : act.params ≤ slots.length) {i : Nat} (hi : i < slots.length) :
    act.place i < (act.stack slots operands).length := by
  rw [length_stack hparams, place]
  split <;> omega

/-- Operands directly above the link data are as good as locals. -/
theorem stack_locals {args : List Int} (hargs : args.length = act.params) (ws : List Int) :
    act.stack args ws = act.stack (args ++ ws) [] := by
  simp [stack, ← hargs]

/-! ## Instructions in a frame -/

variable {m : Interpretation} {cp : Nat} {heap : Int → Option Int}

theorem next_append (slots operands ws : List Int) {slots' operands' : List Int} :
    (act.state cp slots' operands' heap).next (act.stack slots operands ++ ws) =
      act.state (cp + 1) slots (operands ++ ws) heap := by
  rw [← stack_append]
  rfl

theorem place?_slot (i : Nat) :
    (act.state cp slots operands heap).place? .lb
      (Generate.frameDisplacement act.params ⟨1, i⟩) = some (act.place i) := by
  have hplace : (act.base : Int) + Generate.frameDisplacement act.params ⟨1, i⟩ = act.place i := by
    show ((act.below.length + act.params : Nat) : Int) +
      (if (i : Int) < act.params then (i : Int) - act.params else 3 + i - act.params) =
        (act.below.length + if i < act.params then i else i + 3 : Nat)
    by_cases hi : i < act.params
    · rw [if_pos hi, if_pos (by omega)]
      omega
    · rw [if_neg hi, if_neg (by omega)]
      omega
  show address? ((act.base : Int) + Generate.frameDisplacement act.params ⟨1, i⟩) = _
  rw [hplace, address?_natCast]

theorem execute_load_slot (hparams : act.params ≤ slots.length) {i : Nat} {w : Int}
    (hw : slots[i]? = some w) :
    execute m .load 1 .lb (Generate.frameDisplacement act.params ⟨1, i⟩)
      (act.state cp slots operands heap) =
        some (act.state (cp + 1) slots (operands ++ [w]) heap) := by
  have hi : i < slots.length := (List.getElem?_eq_some_iff.1 hw).1
  have hload : (act.state cp slots operands heap).load? (act.place i) 1 = some [w] :=
    State.load?_one ((getElem?_stack hparams hi).trans hw)
  have hone : address? 1 = some 1 := rfl
  unfold execute
  simp only [place?_slot, hone, hload, Option.bind_eq_bind, Option.bind_some,
    Option.pure_def]
  exact congrArg some (next_append slots operands [w])

theorem execute_store_slot (hparams : act.params ≤ slots.length) {i : Nat}
    (hi : i < slots.length) (w : Int) :
    execute m .store 1 .lb (Generate.frameDisplacement act.params ⟨1, i⟩)
      (act.state cp slots (operands ++ [w]) heap) =
        some (act.state (cp + 1) (slots.set i w) operands heap) := by
  have hpop : pop? 1 (act.state cp slots (operands ++ [w]) heap).stack =
      some (act.stack slots operands, [w]) := by
    rw [state, stack_append, pop?_one]
  have hstore : ((act.state cp slots (operands ++ [w]) heap).next
      (act.stack slots operands)).store? (act.place i) [w] =
        some (act.state (cp + 1) (slots.set i w) operands heap) := by
    rw [State.store?_one w (place_lt hparams hi)]
    show some (State.mk _ _ ((act.stack slots operands).set (act.place i) w) _) = _
    rw [set_stack hparams hi, state]
    rfl
  unfold execute
  simp only [place?_slot, hpop, Option.bind_eq_bind, Option.bind_some]
  exact hstore

theorem execute_loadLiteral (n : Int) (r : Register) (d : Int) :
    execute m .loadLiteral n r d (act.state cp slots operands heap) =
      some (act.state (cp + 1) slots (operands ++ [d]) heap) :=
  congrArg some (next_append slots operands [d])

/-- The topmost word is pushed once more. -/
theorem execute_load_top (w : Int) :
    execute m .load 1 .st (-1) (act.state cp slots (operands ++ [w]) heap) =
      some (act.state (cp + 1) slots (operands ++ [w] ++ [w]) heap) := by
  have hstack : act.stack slots (operands ++ [w]) = act.stack slots operands ++ [w] :=
    stack_append slots operands [w]
  have htop : (act.state cp slots (operands ++ [w]) heap).load?
      (act.stack slots operands).length 1 = some [w] := by
    refine State.load?_one ?_
    show (act.stack slots (operands ++ [w]))[(act.stack slots operands).length]? = some w
    rw [hstack]
    simp
  have hplace : (act.state cp slots (operands ++ [w]) heap).place? .st (-1) =
      some (act.stack slots operands).length := by
    show address? ((act.stack slots (operands ++ [w])).length + (-1 : Int)) = _
    rw [hstack, List.length_append, List.length_singleton, ← address?_natCast]
    congr 1
    omega
  have hone : address? 1 = some 1 := rfl
  unfold execute
  simp only [hplace, hone, htop, Option.bind_eq_bind, Option.bind_some, Option.pure_def]
  exact congrArg some (next_append slots (operands ++ [w]) [w])

theorem execute_routine (n : Int) (routine : Routine) (x y : Int) :
    execute m .call n .pb routine.displacement (act.state cp slots (operands ++ [x] ++ [y]) heap) =
      some (act.state (cp + 1) slots (operands ++ [m.routine routine x y]) heap) := by
  have hpop : pop? 2 (act.state cp slots (operands ++ [x] ++ [y]) heap).stack =
      some (act.stack slots operands, [x, y]) := by
    rw [state, List.append_assoc, stack_append]
    exact pop?_two _ x y
  unfold execute
  simp only [call?, address?_natCast, Routine.ofDisplacement?_displacement, hpop,
    Option.bind_eq_bind, Option.bind_some, Option.pure_def]
  exact congrArg some (next_append slots operands _)

theorem execute_pop (r : Register) (ws : List Int) :
    execute m .pop 0 r ws.length (act.state cp slots (operands ++ ws) heap) =
      some (act.state (cp + 1) slots operands heap) := by
  have hpop : pop? ws.length (act.state cp slots (operands ++ ws) heap).stack =
      some (act.stack slots operands, ws) := by
    rw [state, stack_append, pop?_append _ _ _ rfl]
  unfold execute
  simp only [pop?_zero, hpop, Option.bind_eq_bind, Option.bind_some, Option.pure_def,
    List.append_nil]
  rfl

theorem execute_jump (n : Int) (target : Nat) :
    execute m .jump n .cb target (act.state cp slots operands heap) =
      some (act.state target slots operands heap) := by
  have hplace : (act.state cp slots operands heap).place? .cb target = some target := by
    show address? (0 + (target : Int)) = _
    rw [Int.zero_add, address?_natCast]
  unfold execute
  simp only [hplace, Option.bind_eq_bind, Option.bind_some, Option.pure_def]
  rfl

theorem execute_jumpIf (n : Int) (target : Nat) (w : Int) :
    execute m .jumpIf n .cb target (act.state cp slots (operands ++ [w]) heap) =
      some (act.state (if w = n then target else cp + 1) slots operands heap) := by
  have hpop : pop? 1 (act.state cp slots (operands ++ [w]) heap).stack =
      some (act.stack slots operands, [w]) := by
    rw [state, stack_append, pop?_one]
  have hplace : (act.state cp slots (operands ++ [w]) heap).place? .cb target = some target := by
    show address? (0 + (target : Int)) = _
    rw [Int.zero_add, address?_natCast]
  unfold execute
  simp only [hpop, hplace, Option.bind_eq_bind, Option.bind_some, Option.pure_def]
  split <;> rfl

theorem execute_loadIndirect (r : Register) (d : Int) {a w : Int} (hw : heap a = some w) :
    execute m .loadIndirect 1 r d (act.state cp slots (operands ++ [a]) heap) =
      some (act.state (cp + 1) slots (operands ++ [w]) heap) := by
  have hpop : pop? 1 (act.state cp slots (operands ++ [a]) heap).stack =
      some (act.stack slots operands, [a]) := by
    rw [state, stack_append, pop?_one]
  have hone : address? 1 = some 1 := rfl
  have hfetch : ∀ s : State, s.heap = heap → s.fetchAll? 1 a = some [w] := by
    intro s hs
    simp [State.fetchAll?, State.fetch?, hs, hw]
  unfold execute
  simp only [hpop, hone, Option.bind_eq_bind, Option.bind_some, Option.pure_def]
  rw [hfetch _ rfl]
  exact congrArg some (next_append slots operands [w])

theorem execute_storeIndirect (r : Register) (d : Int) {a : Int} (ha : (heap a).isSome) (w : Int) :
    execute m .storeIndirect 1 r d (act.state cp slots (operands ++ [w] ++ [a]) heap) =
      some (act.state (cp + 1) slots operands fun b => if b = a then some w else heap b) := by
  have hpop : pop? 1 (act.state cp slots (operands ++ [w] ++ [a]) heap).stack =
      some (act.stack slots operands ++ [w], [a]) := by
    rw [state, stack_append, stack_append, pop?_one]
  have hput : ∀ s : State, s.heap = heap →
      s.putAll? a [w] = some { s with heap := fun b => if b = a then some w else heap b } := by
    intro s hs
    simp [State.putAll?, State.put?, hs, ha]
  unfold execute
  simp only [hpop, pop?_one, Option.bind_eq_bind, Option.bind_some]
  exact hput _ rfl

/-- Space for locals is taken above the link data. -/
theorem exists_execute_push (n : Int) (r : Register) (k : Nat) {args : List Int}
    (hargs : args.length = act.params) : ∃ locals : List Int, locals.length = k ∧
      execute m .push n r k (act.state cp args [] heap) =
        some (act.state (cp + 1) (args ++ locals) [] heap) := by
  refine ⟨(List.range k).map (m.blank (act.stack args [])), by simp, ?_⟩
  unfold execute
  simp only [address?_natCast, Option.bind_eq_bind, Option.bind_some, Option.pure_def]
  refine congrArg some ((next_append args [] _).trans ?_)
  rw [state, List.nil_append, stack_locals hargs]
  rfl

theorem execute_ret (hparams : act.params ≤ slots.length) (r : Register) (result : List Int) :
    execute m .ret result.length r act.params (act.state cp slots (operands ++ result) heap) =
      some ⟨act.resume, act.callerBase, act.below ++ result, heap⟩ := by
  have hpop : pop? result.length (act.state cp slots (operands ++ result) heap).stack =
      some (act.stack slots operands, result) := by
    rw [state, stack_append, pop?_append _ _ _ rfl]
  have hlink : (act.state cp slots (operands ++ result) heap).load? act.base 3 =
      some [act.link, act.callerBase, act.resume] := by
    have hargs : (slots.take act.params).length = act.params := List.length_take_of_le hparams
    have hlen : (act.stack slots (operands ++ result)).length = _ := length_stack hparams
    have hfits : act.base + 3 ≤ (act.stack slots (operands ++ result)).length := by
      rw [hlen, base]
      omega
    refine (if_pos hfits).trans ?_
    show some (((act.stack slots (operands ++ result)).drop act.base).take 3) = _
    rw [stack, ← List.append_assoc, List.drop_left' (by rw [List.length_append, hargs, base])]
    rfl
  have hbottom : (act.base : Int) - act.params = act.below.length := by
    rw [base]
    omega
  have hbelow : (act.stack slots (operands ++ result)).take act.below.length = act.below :=
    List.take_left
  unfold execute
  rw [return?_eq hpop hlink hbottom]
  show some (State.mk _ _ ((act.stack slots (operands ++ result)).take act.below.length ++ _) _) = _
  rw [hbelow]
  rfl

end Activation

/-- A call starts with the arguments as its slots. -/
theorem execute_call (m : Interpretation) {cp lb entry : Nat} {below args : List Int}
    {heap : Int → Option Int} :
    execute m .call (Register.number .sb) .cb entry ⟨cp, lb, below ++ args, heap⟩ =
      some (Activation.state ⟨below, args.length, 0, lb, cp + 1⟩ entry args [] heap) := by
  unfold execute
  simp [call?, State.register?, Register.ofNumber?_number, Activation.state,
    Activation.stack, Activation.base]

end PrimeLang.Machine
