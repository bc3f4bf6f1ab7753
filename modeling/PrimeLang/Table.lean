/-! # Tables

Finite maps on numbers, kept as a list with falling numbers: numbers are mostly handed out in rising
order, so an entry is mostly added near the head. Two tables that answer alike are equal. -/

namespace PrimeLang

/-- A finite map from numbers to `α`. -/
structure Table (α : Type) where
  entries : List (Nat × α)
  sorted : entries.Pairwise fun a b => b.1 < a.1

namespace Table
variable {α : Type}

/-- The entries with `a` at `k`. -/
def insertEntry (k : Nat) (a : α) : List (Nat × α) → List (Nat × α)
  | [] => [(k, a)]
  | (j, b) :: rest =>
    if j < k then (k, a) :: (j, b) :: rest
    else if k = j then (k, a) :: rest
    else (j, b) :: insertEntry k a rest

theorem mem_of_mem_insertEntry {k : Nat} {a : α} {e : Nat × α} {es : List (Nat × α)}
    (h : e ∈ insertEntry k a es) : e = (k, a) ∨ e ∈ es := by
  induction es with
  | nil => simpa [insertEntry] using h
  | cons hd rest ih =>
    rw [insertEntry] at h
    split at h
    · simpa using h
    · split at h
      · rcases List.mem_cons.1 h with h | h
        · exact .inl h
        · exact .inr (List.mem_cons_of_mem _ h)
      · rcases List.mem_cons.1 h with h | h
        · exact .inr (h ▸ List.mem_cons_self)
        · exact (ih h).imp_right (List.mem_cons_of_mem _)

theorem pairwise_insertEntry (k : Nat) (a : α) {es : List (Nat × α)}
    (h : es.Pairwise fun a b => b.1 < a.1) :
    (insertEntry k a es).Pairwise fun a b => b.1 < a.1 := by
  induction es with
  | nil => simp [insertEntry]
  | cons hd rest ih =>
    obtain ⟨hhd, hrest⟩ := List.pairwise_cons.1 h
    rw [insertEntry]
    split
    · next hlt =>
      refine List.pairwise_cons.2 ⟨fun e he => ?_, h⟩
      rcases List.mem_cons.1 he with rfl | he
      · exact hlt
      · exact Nat.lt_trans (hhd e he) hlt
    · split
      · next heq => exact List.pairwise_cons.2 ⟨fun e he => heq ▸ hhd e he, hrest⟩
      · refine List.pairwise_cons.2 ⟨fun e he => ?_, ih hrest⟩
        rcases mem_of_mem_insertEntry he with rfl | he
        · show k < hd.1
          omega
        · exact hhd e he

theorem lookup_entry (j i : Nat) (b : α) (es : List (Nat × α)) :
    ((i, b) :: es).lookup j = if j = i then some b else es.lookup j := by
  by_cases h : j = i
  · simp [h]
  · simp [List.lookup_cons, h, beq_false_of_ne h]

theorem lookup_insertEntry (k j : Nat) (a : α) (es : List (Nat × α)) :
    (insertEntry k a es).lookup j = if j = k then some a else es.lookup j := by
  induction es with
  | nil => exact lookup_entry j k a []
  | cons hd rest ih =>
    obtain ⟨i, b⟩ := hd
    rw [insertEntry]
    split
    · exact lookup_entry j k a _
    · split
      · next hk =>
        subst hk
        rw [lookup_entry, lookup_entry]
        split <;> rfl
      · next hk =>
        rw [lookup_entry, lookup_entry, ih]
        by_cases h : j = k
        · rw [if_pos h, if_pos h, if_neg (h ▸ hk)]
        · rw [if_neg h, if_neg h]

/-- The table without entries. -/
def empty : Table α := ⟨[], .nil⟩

instance : EmptyCollection (Table α) := ⟨empty⟩

instance : Inhabited (Table α) := ⟨empty⟩

/-- What the table holds at `k`. -/
def get? (t : Table α) (k : Nat) : Option α := t.entries.lookup k

/-- Puts `a` at `k`, in the place of what was there. -/
def insert (t : Table α) (k : Nat) (a : α) : Table α :=
  ⟨insertEntry k a t.entries, pairwise_insertEntry k a t.sorted⟩

/-- Removes what the table holds at `k`. -/
def erase (t : Table α) (k : Nat) : Table α :=
  ⟨t.entries.filter (·.1 ≠ k), t.sorted.filter _⟩

/-- The table of the given entries, of which later ones replace earlier ones. -/
def ofList (es : List (Nat × α)) : Table α := es.foldl (fun t e => t.insert e.1 e.2) empty

/-- The entries with rising numbers. -/
def toList (t : Table α) : List (Nat × α) := t.entries.reverse

@[simp] theorem get?_empty (k : Nat) : (empty : Table α).get? k = none := rfl

theorem get?_insert (t : Table α) (k j : Nat) (a : α) :
    (t.insert k a).get? j = if j = k then some a else t.get? j :=
  lookup_insertEntry k j a t.entries

end Table
end PrimeLang
