import PrimeLang.Object.Generate

/-! # Places of variables and functions

Variables take consecutive places in the order of their declarations. A layout that is built up from
entries with different numbers holds all of them. -/

namespace PrimeLang

namespace Table
variable {α : Type} {t t' : Table α}

/-- What `t` holds, `t'` holds too. -/
instance : LE (Table α) := ⟨fun t t' => ∀ k a, t.get? k = some a → t'.get? k = some a⟩

theorem le_refl (t : Table α) : t ≤ t := fun _ _ h => h

/-- `t` holds all of `es`. -/
def Has (t : Table α) (es : List (Nat × α)) : Prop := ∀ e ∈ es, t.get? e.1 = some e.2

theorem has_append {es es' : List (Nat × α)} : t.Has (es ++ es') ↔ t.Has es ∧ t.Has es' :=
  List.forall_mem_append

/-- Puts entries into a table one after the other. -/
def insertAll (t : Table α) (es : List (Nat × α)) : Table α :=
  es.foldl (fun t e => t.insert e.1 e.2) t

@[simp] theorem insertAll_nil (t : Table α) : t.insertAll [] = t := rfl

theorem insertAll_append (t : Table α) (es es' : List (Nat × α)) :
    t.insertAll (es ++ es') = (t.insertAll es).insertAll es' := List.foldl_append

theorem insert_le {k : Nat} {a : α} (h : t ≤ t') (hk : t'.get? k = some a) :
    t.insert k a ≤ t' := by
  intro j b hj
  rw [get?_insert] at hj
  by_cases hjk : j = k
  · rw [if_pos hjk, Option.some.injEq] at hj
    rw [hjk, hk, hj]
  · rw [if_neg hjk] at hj
    exact h j b hj

theorem insertAll_le {es : List (Nat × α)} (h : t ≤ t') (hes : t'.Has es) :
    t.insertAll es ≤ t' := by
  induction es generalizing t with
  | nil => exact h
  | cons e es ih =>
    exact ih (insert_le h (hes e List.mem_cons_self))
      fun e' he' => hes e' (List.mem_cons_of_mem _ he')

theorem get?_insertAll_of_not_mem {es : List (Nat × α)} {k : Nat} (h : k ∉ es.map Prod.fst) :
    (t.insertAll es).get? k = t.get? k := by
  induction es generalizing t with
  | nil => rfl
  | cons e es ih =>
    rw [List.map_cons, List.mem_cons, not_or] at h
    have hinsert := get?_insert t e.1 k e.2
    rw [if_neg h.1] at hinsert
    exact (ih h.2).trans hinsert

/-- Entries with new numbers leave what there was. -/
theorem le_insertAll {es : List (Nat × α)} (h : ∀ k ∈ es.map Prod.fst, t.get? k = none) :
    t ≤ t.insertAll es := by
  intro k a ha
  rw [get?_insertAll_of_not_mem, ha]
  intro hk
  rw [h k hk] at ha
  cases ha

/-- Entries with different numbers are all kept. -/
theorem has_insertAll {es : List (Nat × α)} (h : (es.map Prod.fst).Nodup) :
    (t.insertAll es).Has es := by
  induction es generalizing t with
  | nil => exact fun e he => nomatch he
  | cons e es ih =>
    obtain ⟨hnew, hes⟩ := List.nodup_cons.1 h
    intro e' he'
    rcases List.mem_cons.1 he' with rfl | he'
    · have hinsert := get?_insert t e'.1 e'.1 e'.2
      rw [if_pos rfl] at hinsert
      exact (get?_insertAll_of_not_mem hnew).trans hinsert
    · exact ih hes e' he'

/-- A number is in a table once it was put in. -/
theorem exists_get?_insertAll {es : List (Nat × α)} {k : Nat} :
    (∃ a, (t.insertAll es).get? k = some a) ↔ (∃ a, t.get? k = some a) ∨ k ∈ es.map Prod.fst := by
  induction es generalizing t with
  | nil => simp
  | cons e es ih =>
    have hinsert := get?_insert t e.1 k e.2
    have hcons : t.insertAll (e :: es) = (t.insert e.1 e.2).insertAll es := rfl
    rw [hcons, ih, List.map_cons, List.mem_cons, hinsert]
    by_cases hk : k = e.1
    · simp [hk]
    · simp [hk]

end Table

/-- The layout knows at most what `L` knows, and the same. -/
structure Layout.Le (l L : Layout) : Prop where
  funcs : l.funcs ≤ L.funcs
  vars : l.vars ≤ L.vars

instance : LE Layout := ⟨Layout.Le⟩

/-- Words that variables take together. -/
def Tree.words (vs : List Tree.Var) : Nat := Var.storage (vs.map (·.toVar))

@[simp] theorem Tree.words_nil : Tree.words [] = 0 := rfl

theorem Tree.words_cons (v : Tree.Var) (vs : List Tree.Var) :
    Tree.words (v :: vs) = v.ty.size + Tree.words vs := rfl

theorem Tree.words_append (vs ws : List Tree.Var) :
    Tree.words (vs ++ ws) = Tree.words vs + Tree.words ws := by
  induction vs with
  | nil => rw [List.nil_append, words_nil, Nat.zero_add]
  | cons v vs ih => rw [List.cons_append, words_cons, words_cons, ih, Nat.add_assoc]

@[simp] theorem Address.offset_zero (a : Address) : a.offset 0 = a := by
  simp [offset]

theorem Address.offset_offset (a : Address) (k l : Int) :
    (a.offset k).offset l = a.offset (k + l) := by
  simp [offset, Int.add_assoc]

/-- Places for variables from `slot` on, each after the one before it. -/
def placements : List Tree.Var → Address → List (VarId × Address)
  | [], _ => []
  | v :: vs, slot => (v.id, slot) :: placements vs (slot.offset v.ty.size)

theorem placements_append (vs ws : List Tree.Var) (slot : Address) :
    placements (vs ++ ws) slot =
      placements vs slot ++ placements ws (slot.offset (Tree.words vs)) := by
  induction vs generalizing slot with
  | nil => simp [placements]
  | cons v vs ih =>
    rw [List.cons_append, placements, ih, placements, Address.offset_offset, Tree.words_cons,
      List.cons_append]
    rfl

@[simp] theorem map_fst_placements (vs : List Tree.Var) (slot : Address) :
    (placements vs slot).map Prod.fst = vs.map (·.id) := by
  induction vs generalizing slot with
  | nil => rfl
  | cons v vs ih => rw [placements, List.map_cons, ih, List.map_cons]

end PrimeLang
