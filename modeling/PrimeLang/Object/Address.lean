/-! # Addresses -/

namespace PrimeLang

/-- A place in the frame of a static level, or of code: for a function the displacement is the code
address of its first instruction, for a variable its slot among parameters and locals. -/
structure Address where
  level : Nat
  displacement : Int
deriving DecidableEq, Repr, Inhabited

namespace Address

/-- The first place of the outermost level. -/
def origin : Address := ⟨0, 0⟩

/-- `k` words further at the same level. -/
def offset (a : Address) (k : Int) : Address := ⟨a.level, a.displacement + k⟩

/-- The first place of a frame one level deeper. -/
def nested (a : Address) : Address := ⟨a.level + 1, 0⟩

def text (a : Address) : String := s!"level={a.level} displacement={a.displacement}"

end Address
end PrimeLang
