import PrimeLang.Nodes.Basic

/-! # Scopes -/

namespace PrimeLang

/-- The variables declared in one scope, by name. -/
abbrev Scope := List (String × VarId)

/-- The scopes that are open, innermost first. -/
structure Scopes where
  stack : List Scope
deriving DecidableEq, Repr, Inhabited

namespace Scopes

/-- One scope without variables. -/
def global : Scopes := ⟨[[]]⟩

/-- Opens a scope. -/
def push (s : Scopes) : Scopes := ⟨[] :: s.stack⟩

/-- Closes the innermost scope, if one is open. -/
def pop (s : Scopes) : Scopes := ⟨s.stack.tail⟩

/-- Declares a variable in the innermost scope, unless that scope has one of the name. -/
def declare? (s : Scopes) (name : String) (var : VarId) : Option Scopes :=
  match s.stack with
  | [] => none
  | scope :: outer =>
    if (scope.lookup name).isSome then none else some ⟨((name, var) :: scope) :: outer⟩

/-- The variable of that name in the innermost scope that has one. -/
def lookup? (s : Scopes) (name : String) : Option VarId := s.stack.findSome? (·.lookup name)

@[simp] theorem pop_push (s : Scopes) : s.push.pop = s := rfl

@[simp] theorem lookup?_push (s : Scopes) (name : String) :
    s.push.lookup? name = s.lookup? name := rfl

/-- A declared variable is found by its name, and other names are found as before. -/
theorem lookup?_declare? {s t : Scopes} {name : String} {var : VarId}
    (h : s.declare? name var = some t) (other : String) :
    t.lookup? other = if other = name then some var else s.lookup? other := by
  obtain ⟨stack⟩ := s
  cases stack with
  | nil => simp [declare?] at h
  | cons scope outer =>
    simp only [declare?] at h
    split at h
    · simp at h
    · cases h
      by_cases hn : other = name
      · simp [lookup?, hn]
      · simp only [lookup?, List.findSome?_cons, List.lookup_cons, beq_false_of_ne hn, if_neg hn]

end Scopes
end PrimeLang
