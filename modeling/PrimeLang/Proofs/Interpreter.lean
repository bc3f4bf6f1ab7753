import PrimeLang.Proofs.Evaluation

/-! # Running the semantics

An interpreter that is bounded in the depth of derivations. Whatever it finds is derivable. -/

namespace PrimeLang.Semantics
variable (S : Semantics)

/-- Only results with a value. -/
def demand (x : Option (Option Int × Store)) : Option (Int × Store) := do
  let (r, σ) ← x
  return (← r, σ)

theorem demand_eq_some {x : Option (Option Int × Store)} {w : Int} {σ : Store} :
    demand x = some (w, σ) ↔ x = some (some w, σ) := by
  rcases x with _ | ⟨_ | v, τ⟩ <;> simp [demand]

/-- What a call yields if the body ends as given. -/
def yield? : Option Ty → Outcome → Option (Option Int)
  | some _, .returned (some w) => some (some w)
  | none, .normal => some none
  | none, .returned none => some none
  | _, _ => none

theorem yields_of_yield? {ret : Option Ty} {out : Outcome} {r : Option Int}
    (h : yield? ret out = some r) : out.Yields ret r := by
  unfold yield? at h
  split at h <;> cases h
  · exact .value _ _
  · exact .finish
  · exact .leave

mutual

/-- Evaluates an expression. -/
def eval? : Nat → Store → Tree.Expr Site → Option (Option Int × Store)
  | 0, _, _ => none
  | _ + 1, σ, .literal _ n => some (some n.toInt, σ)
  | _ + 1, σ, .ident site _ [] => do
    let w ← σ.vars (← S.resolution.idents.get? site.id)
    return (some w, σ)
  | n + 1, σ, .ident site _ (index :: indices) => do
    let a ← σ.vars (← S.resolution.idents.get? site.id)
    let (a', σ') ← index? n σ a (index :: indices)
    return (some (← σ'.heap a'), σ')
  | n + 1, σ, .binary _ op lhs rhs => do
    let (x, σ₁) ← demand (eval? n σ lhs)
    let (y, σ₂) ← demand (eval? n σ₁ rhs)
    return (some (S.operate op x y), σ₂)
  | n + 1, σ, .assign _ (.ident site _ []) value => do
    let (w, σ') ← demand (eval? n σ value)
    let v ← S.resolution.idents.get? site.id
    return (some w, σ'.setVar v w)
  | n + 1, σ, .assign _ (.ident site _ (index :: indices)) value => do
    let (w, σ₁) ← demand (eval? n σ value)
    let a ← σ₁.vars (← S.resolution.idents.get? site.id)
    let (a', σ₂) ← index? n σ₁ a (index :: indices)
    if (σ₂.heap a').isSome then some (some w, σ₂.setHeap a' w) else none
  | _ + 1, _, .assign _ _ _ => none
  | n + 1, σ, .call site _ args => do
    let (ws, σ') ← evals? n σ args
    let id ← S.resolution.calls.get? site.id
    let f ← S.funcs.find? (·.id = id)
    let (r, heap') ← call? n f ws σ'.heap
    return (r, { σ' with heap := heap' })

/-- Evaluates expressions in order. -/
def evals? : Nat → Store → List (Tree.Expr Site) → Option (List Int × Store)
  | 0, _, _ => none
  | _ + 1, σ, [] => some ([], σ)
  | n + 1, σ, e :: es => do
    let (w, σ₁) ← demand (eval? n σ e)
    let (ws, σ₂) ← evals? n σ₁ es
    return (w :: ws, σ₂)

/-- Follows indices from an address. -/
def index? : Nat → Store → Int → List (Tree.Expr Site) → Option (Int × Store)
  | 0, _, _, _ => none
  | _ + 1, σ, a, [] => some (a, σ)
  | n + 1, σ, a, e :: es => do
    let (i, σ₁) ← demand (eval? n σ e)
    index? n σ₁ (S.operate .add a i) es

/-- Executes a statement. -/
def exec? : Nat → Store → Tree.Stmt → Option (Outcome × Store)
  | 0, _, _ => none
  | n + 1, σ, .decl v init => do
    let (w, σ') ← demand (eval? n σ init)
    return (.normal, σ'.setVar v.id w)
  | n + 1, σ, .ifThen cond body => do
    let (w, σ₁) ← demand (eval? n σ cond)
    if w = 0 then some (.normal, σ₁) else execBlock? n σ₁ body
  | n + 1, σ, .ifElse cond body orElse => do
    let (w, σ₁) ← demand (eval? n σ cond)
    if w = 0 then execBlock? n σ₁ orElse else execBlock? n σ₁ body
  | n + 1, σ, .loop v init cond step body => do
    let (w, σ₁) ← demand (eval? n σ init)
    loop? n (σ₁.setVar v.id w) cond step body
  | _ + 1, σ, .ret none => some (.returned none, σ)
  | n + 1, σ, .ret (some e) => do
    let (w, σ') ← demand (eval? n σ e)
    return (.returned (some w), σ')
  | n + 1, σ, .eval e => do
    let (_, σ') ← eval? n σ e
    return (.normal, σ')

/-- Executes statements in order. -/
def execBlock? : Nat → Store → List Tree.Stmt → Option (Outcome × Store)
  | 0, _, _ => none
  | _ + 1, σ, [] => some (.normal, σ)
  | n + 1, σ, s :: ss =>
    match exec? n σ s with
    | some (.normal, σ₁) => execBlock? n σ₁ ss
    | left => left

/-- Repeats a loop. -/
def loop? : Nat → Store → Tree.Expr Site → Tree.Expr Site → List Tree.Stmt →
    Option (Outcome × Store)
  | 0, _, _, _, _ => none
  | n + 1, σ, cond, step, body => do
    let (w, σ₁) ← demand (eval? n σ cond)
    if w = 0 then some (.normal, σ₁) else
      match execBlock? n σ₁ body with
      | some (.normal, σ₂) => do
        let (_, σ₃) ← eval? n σ₂ step
        loop? n σ₃ cond step body
      | left => left

/-- Calls a function. -/
def call? : Nat → Tree.Func → List Int → (Int → Option Int) →
    Option (Option Int × (Int → Option Int))
  | 0, _, _, _ => none
  | n + 1, f, args, heap => do
    if args.length = f.params.length then
      let (out, σ') ← execBlock? n (.ofArgs f.params args heap) f.body
      return (← yield? f.ret out, σ'.heap)
    else none

end

variable {S}

/-- What was bound in a chain of results was found. -/
theorem exists_of_bind {α β : Type} {x : Option α} {k : α → Option β} {b : β}
    (h : x >>= k = some b) : ∃ a, x = some a ∧ k a = some b := Option.bind_eq_some_iff.1 h

/-- What was demanded in a chain of results was found, with a value. -/
theorem exists_of_demand_bind {β : Type} {x : Option (Option Int × Store)}
    {k : Int × Store → Option β} {b : β} (h : demand x >>= k = some b) :
    ∃ w σ, x = some (some w, σ) ∧ k (w, σ) = some b := by
  obtain ⟨⟨w, σ⟩, hx, hk⟩ := exists_of_bind h
  exact ⟨w, σ, demand_eq_some.1 hx, hk⟩

mutual

theorem eval_of_eval? : ∀ (n : Nat) {σ σ' : Store} (e : Tree.Expr Site) {r : Option Int},
    S.eval? n σ e = some (r, σ') → S.Eval σ e r σ'
  | n + 1, σ, σ', .literal site k, r, h => by
    cases h
    exact .literal
  | n + 1, σ, σ', .ident site name [], r, h => by
    obtain ⟨v, hid, h⟩ := exists_of_bind h
    obtain ⟨w, hw, h⟩ := exists_of_bind h
    cases h
    exact .var hid hw
  | n + 1, σ, σ', .ident site name (index :: indices), r, h => by
    obtain ⟨v, hid, h⟩ := exists_of_bind h
    obtain ⟨a, ha, h⟩ := exists_of_bind h
    obtain ⟨⟨a', τ⟩, hindex, h⟩ := exists_of_bind h
    obtain ⟨w, hw, h⟩ := exists_of_bind h
    cases h
    exact .element hid ha (index_of_index? n _ hindex) hw
  | n + 1, σ, σ', .binary site op lhs rhs, r, h => by
    obtain ⟨x, σ₁, hx, h⟩ := exists_of_demand_bind h
    obtain ⟨y, σ₂, hy, h⟩ := exists_of_demand_bind h
    cases h
    exact .binary (eval_of_eval? n lhs hx) (eval_of_eval? n rhs hy)
  | n + 1, σ, σ', .assign label (.ident site name []) value, r, h => by
    obtain ⟨w, σ₁, hw, h⟩ := exists_of_demand_bind h
    obtain ⟨v, hid, h⟩ := exists_of_bind h
    cases h
    exact .assign (eval_of_eval? n value hw) hid
  | n + 1, σ, σ', .assign label (.ident site name (index :: indices)) value, r, h => by
    obtain ⟨w, σ₁, hw, h⟩ := exists_of_demand_bind h
    obtain ⟨v, hid, h⟩ := exists_of_bind h
    obtain ⟨a, ha, h⟩ := exists_of_bind h
    obtain ⟨⟨a', σ₂⟩, hindex, h⟩ := exists_of_bind h
    obtain ⟨ha', h⟩ := Option.ite_none_right_eq_some.1 h
    cases h
    exact .assignElement (eval_of_eval? n value hw) hid ha (index_of_index? n _ hindex) ha'
  | n + 1, σ, σ', .call site name args, r, h => by
    obtain ⟨⟨ws, σ₁⟩, hargs, h⟩ := exists_of_bind h
    obtain ⟨id, hid, h⟩ := exists_of_bind h
    obtain ⟨f, hf, h⟩ := exists_of_bind h
    obtain ⟨⟨r', heap'⟩, hcall, h⟩ := exists_of_bind h
    cases h
    have hfid : f.id = id := by simpa using List.find?_some hf
    exact .call (evals_of_evals? n args hargs) (hfid ▸ hid) (List.mem_of_find?_eq_some hf)
      (call_of_call? n hcall)

theorem evals_of_evals? : ∀ (n : Nat) {σ σ' : Store} (es : List (Tree.Expr Site)) {ws : List Int},
    S.evals? n σ es = some (ws, σ') → S.Evals σ es ws σ'
  | n + 1, σ, σ', [], ws, h => by
    cases h
    exact .nil
  | n + 1, σ, σ', e :: es, ws, h => by
    obtain ⟨w, σ₁, hw, h⟩ := exists_of_demand_bind h
    obtain ⟨⟨ws', σ₂⟩, hws, h⟩ := exists_of_bind h
    cases h
    exact .cons (eval_of_eval? n e hw) (evals_of_evals? n es hws)

theorem index_of_index? : ∀ (n : Nat) {σ σ' : Store} {a a' : Int} (es : List (Tree.Expr Site)),
    S.index? n σ a es = some (a', σ') → S.Index σ a es a' σ'
  | n + 1, σ, σ', a, a', [], h => by
    cases h
    exact .nil
  | n + 1, σ, σ', a, a', e :: es, h => by
    obtain ⟨i, σ₁, hi, h⟩ := exists_of_demand_bind h
    exact .cons (eval_of_eval? n e hi) (index_of_index? n es h)

theorem exec_of_exec? : ∀ (n : Nat) {σ σ' : Store} (s : Tree.Stmt) {out : Outcome},
    S.exec? n σ s = some (out, σ') → S.Exec σ s out σ'
  | n + 1, σ, σ', .decl v init, out, h => by
    obtain ⟨w, σ₁, hw, h⟩ := exists_of_demand_bind h
    cases h
    exact .decl (eval_of_eval? n init hw)
  | n + 1, σ, σ', .ifThen cond body, out, h => by
    obtain ⟨w, σ₁, hw, h⟩ := exists_of_demand_bind h
    dsimp only at h
    by_cases hzero : w = 0
    · rw [if_pos hzero] at h
      cases h
      exact .ifFalse (eval_of_eval? n cond (hzero ▸ hw))
    · rw [if_neg hzero] at h
      exact .ifTrue (eval_of_eval? n cond hw) hzero (execBlock_of_execBlock? n body h)
  | n + 1, σ, σ', .ifElse cond body orElse, out, h => by
    obtain ⟨w, σ₁, hw, h⟩ := exists_of_demand_bind h
    dsimp only at h
    by_cases hzero : w = 0
    · rw [if_pos hzero] at h
      exact .elseFalse (eval_of_eval? n cond (hzero ▸ hw)) (execBlock_of_execBlock? n orElse h)
    · rw [if_neg hzero] at h
      exact .thenTrue (eval_of_eval? n cond hw) hzero (execBlock_of_execBlock? n body h)
  | n + 1, σ, σ', .loop v init cond step body, out, h => by
    obtain ⟨w, σ₁, hw, h⟩ := exists_of_demand_bind h
    exact .loop (eval_of_eval? n init hw) (loop_of_loop? n h)
  | n + 1, σ, σ', .ret none, out, h => by
    cases h
    exact .leave
  | n + 1, σ, σ', .ret (some e), out, h => by
    obtain ⟨w, σ₁, hw, h⟩ := exists_of_demand_bind h
    cases h
    exact .ret (eval_of_eval? n e hw)
  | n + 1, σ, σ', .eval e, out, h => by
    obtain ⟨⟨r, σ₁⟩, hr, h⟩ := exists_of_bind h
    cases h
    exact .eval (eval_of_eval? n e hr)

theorem execBlock_of_execBlock? : ∀ (n : Nat) {σ σ' : Store} (ss : List Tree.Stmt) {out : Outcome},
    S.execBlock? n σ ss = some (out, σ') → S.ExecBlock σ ss out σ'
  | n + 1, σ, σ', [], out, h => by
    cases h
    exact .nil
  | n + 1, σ, σ', s :: ss, out, h => by
    rw [execBlock?] at h
    split at h
    · next σ₁ hs => exact .cons (exec_of_exec? n s hs) (execBlock_of_execBlock? n ss h)
    · next hnormal =>
      cases out with
      | normal => exact absurd h (hnormal σ')
      | returned r => exact .leave (exec_of_exec? n s h)

theorem loop_of_loop? : ∀ (n : Nat) {σ σ' : Store} {cond step : Tree.Expr Site}
    {body : List Tree.Stmt} {out : Outcome},
    S.loop? n σ cond step body = some (out, σ') → S.Loop σ cond step body out σ'
  | n + 1, σ, σ', cond, step, body, out, h => by
    obtain ⟨w, σ₁, hw, h⟩ := exists_of_demand_bind h
    dsimp only at h
    by_cases hzero : w = 0
    · rw [if_pos hzero] at h
      cases h
      exact .done (eval_of_eval? n cond (hzero ▸ hw))
    · rw [if_neg hzero] at h
      split at h
      · next σ₂ hbody =>
        obtain ⟨⟨r, σ₃⟩, hstep, h⟩ := exists_of_bind h
        exact .next (eval_of_eval? n cond hw) hzero (execBlock_of_execBlock? n body hbody)
          (eval_of_eval? n step hstep) (loop_of_loop? n h)
      · next hnormal =>
        cases out with
        | normal => exact absurd h (hnormal σ')
        | returned r =>
          exact .leave (eval_of_eval? n cond hw) hzero (execBlock_of_execBlock? n body h)

theorem call_of_call? : ∀ (n : Nat) {f : Tree.Func} {args : List Int} {heap heap' : Int → Option Int}
    {r : Option Int}, S.call? n f args heap = some (r, heap') → S.Call f args heap r heap'
  | n + 1, f, args, heap, heap', r, h => by
    obtain ⟨hargs, h⟩ := Option.ite_none_right_eq_some.1 h
    obtain ⟨⟨out, σ'⟩, hbody, h⟩ := exists_of_bind h
    obtain ⟨r', hyield, h⟩ := exists_of_bind h
    cases h
    exact .mk hargs (execBlock_of_execBlock? n f.body hbody) (yields_of_yield? hyield)

end

end PrimeLang.Semantics
