/-! # Runs of actions

Names are resolved and code is generated by actions on a state whose effect stays when they fail.
These lemmas say what such an action does to a given state. -/

namespace PrimeLang.Action
variable {ε σ α β : Type} {s s' : σ}

/-- What an action does to a state. -/
abbrev exec (x : ExceptT ε (StateM σ) α) (s : σ) : Except ε α × σ := x.run.run s

/-- Goes on with `f` unless there was an error. -/
def andThen (r : Except ε α × σ) (f : α → σ → Except ε β × σ) : Except ε β × σ :=
  match r with
  | (.ok a, s) => f a s
  | (.error e, s) => (.error e, s)

@[simp] theorem andThen_ok (a : α) (s : σ) (f : α → σ → Except ε β × σ) :
    andThen (.ok a, s) f = f a s := rfl

@[simp] theorem andThen_error (e : ε) (s : σ) (f : α → σ → Except ε β × σ) :
    andThen (.error e, s) f = (.error e, s) := rfl

theorem andThen_eq_ok {r : Except ε α × σ} {f : α → σ → Except ε β × σ} {b : β} :
    andThen r f = (.ok b, s') ↔ ∃ a s₁, r = (.ok a, s₁) ∧ f a s₁ = (.ok b, s') := by
  rcases r with ⟨_ | a, s₁⟩
  · simp
  · constructor
    · intro h
      exact ⟨a, s₁, rfl, h⟩
    · rintro ⟨_, _, h, hf⟩
      cases h
      exact hf

theorem exec_bind (x : ExceptT ε (StateM σ) α) (f : α → ExceptT ε (StateM σ) β) (s : σ) :
    exec (x >>= f) s = andThen (exec x s) fun a s' => exec (f a) s' := by
  have hx : exec (x >>= f) s = match exec x s with | (a, s') => ExceptT.bindCont f a s' := rfl
  rw [hx]
  rcases exec x s with ⟨_ | _, _⟩ <;> rfl

theorem exec_bind_ok {x : ExceptT ε (StateM σ) α} {f : α → ExceptT ε (StateM σ) β} {b : β} :
    exec (x >>= f) s = (.ok b, s') ↔
      ∃ a s₁, exec x s = (.ok a, s₁) ∧ exec (f a) s₁ = (.ok b, s') := by
  rw [exec_bind, andThen_eq_ok]

@[simp] theorem exec_get (s : σ) : exec (get : ExceptT ε (StateM σ) σ) s = (.ok s, s) := rfl

@[simp] theorem exec_modify (f : σ → σ) (s : σ) :
    exec (modify f : ExceptT ε (StateM σ) PUnit) s = (.ok ⟨⟩, f s) := rfl

@[simp] theorem exec_modifyGet (f : σ → α × σ) (s : σ) :
    exec (modifyGet f : ExceptT ε (StateM σ) α) s = (.ok (f s).1, (f s).2) := rfl

@[simp] theorem exec_lift (x : Except ε α) (s : σ) :
    exec (liftM x : ExceptT ε (StateM σ) α) s = (x, s) := rfl

theorem exec_get_bind (f : σ → ExceptT ε (StateM σ) β) (s : σ) :
    exec (get >>= f) s = exec (f s) s := rfl

theorem exec_lift_bind_ok {x : Except ε α} {f : α → ExceptT ε (StateM σ) β} {b : β} :
    exec ((liftM x : ExceptT ε (StateM σ) α) >>= f) s = (.ok b, s') ↔
      ∃ a, x = .ok a ∧ exec (f a) s = (.ok b, s') := by
  rw [exec_bind, exec_lift]
  cases x <;> simp

theorem exec_if_bind_ok {p : Prop} [Decidable p] {x : ExceptT ε (StateM σ) PUnit}
    {f : PUnit → ExceptT ε (StateM σ) β} {b : β} :
    exec (if p then x >>= f else f ⟨⟩) s = (.ok b, s') ↔
      ∃ u s₁, exec (if p then x else pure ⟨⟩) s = (.ok u, s₁) ∧ exec (f u) s₁ = (.ok b, s') := by
  rw [← exec_bind_ok]
  by_cases hp : p
  · rw [if_pos hp, if_pos hp]
  · rw [if_neg hp, if_neg hp, pure_bind]

theorem exec_if_get_bind {p : Prop} [Decidable p] {f : σ → ExceptT ε (StateM σ) β}
    {y : ExceptT ε (StateM σ) β} :
    exec (if p then get >>= f else y) s = exec (if p then f s else y) s := by
  split <;> rfl

/-- The action gives a result. -/
def Succeeds (x : ExceptT ε (StateM σ) α) (s : σ) : Prop := ∃ a s', exec x s = (.ok a, s')

theorem succeeds_pure (a : α) (s : σ) : Succeeds (pure a : ExceptT ε (StateM σ) α) s :=
  ⟨a, s, rfl⟩

theorem succeeds_modify (f : σ → σ) (s : σ) :
    Succeeds (modify f : ExceptT ε (StateM σ) PUnit) s := ⟨⟨⟩, f s, rfl⟩

theorem Succeeds.bind {x : ExceptT ε (StateM σ) α} {f : α → ExceptT ε (StateM σ) β}
    (h : Succeeds x s) (hf : ∀ a s', exec x s = (.ok a, s') → Succeeds (f a) s') :
    Succeeds (x >>= f) s := by
  obtain ⟨a, s₁, hx⟩ := h
  obtain ⟨b, s', hb⟩ := hf a s₁ hx
  exact ⟨b, s', exec_bind_ok.2 ⟨a, s₁, hx, hb⟩⟩

theorem succeeds_if {p : Prop} [Decidable p] {x : ExceptT ε (StateM σ) PUnit}
    (h : p → Succeeds x s) : Succeeds (if p then x else pure ⟨⟩) s := by
  split
  · next hp => exact h hp
  · exact succeeds_pure _ s

theorem Succeeds.if_bind {p : Prop} [Decidable p] {x : ExceptT ε (StateM σ) PUnit}
    {f : PUnit → ExceptT ε (StateM σ) β} (h : Succeeds (if p then x else pure ⟨⟩) s)
    (hf : ∀ u s', exec (if p then x else pure ⟨⟩) s = (.ok u, s') → Succeeds (f u) s') :
    Succeeds (if p then x >>= f else f ⟨⟩) s := by
  obtain ⟨u, s₁, hx⟩ := h
  obtain ⟨b, s', hb⟩ := hf u s₁ hx
  exact ⟨b, s', exec_if_bind_ok.2 ⟨u, s₁, hx, hb⟩⟩

end PrimeLang.Action
