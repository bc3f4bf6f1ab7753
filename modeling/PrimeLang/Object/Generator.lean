import PrimeLang.Binding.Resolution
import PrimeLang.Object.Basic
import PrimeLang.Object.Segment

/-! # The state of code generation

Frames hold parameters below the link data and locals above it, both addressed from the frame's
display register. -/

namespace PrimeLang
open Machine

/-- A name that the resolution or the layout knows nothing of. -/
structure Unresolved where
  name : String
deriving DecidableEq, Repr, Inhabited

def Unresolved.message (e : Unresolved) : String := s!"Unresolved name: {e.name}"

/-- What code generation has produced and where it stands. -/
structure Generator where
  segment : Segment
  layout : Layout
  /-- The static level of the code that is being generated. -/
  level : Nat
  /-- Words of parameters in the current frame. -/
  params : Int
deriving Inhabited

namespace Generator

def initial : Generator := ⟨.empty, ⟨∅, ∅⟩, 0, 0⟩

/-- What has been produced. -/
def object (g : Generator) : Object := ⟨g.segment.code, g.layout, g.segment.warnings⟩

/-- Gives the variable numbered `id` its place. -/
def placeVar (id : VarId) (a : Address) (g : Generator) : Generator :=
  { g with layout.vars := g.layout.vars.insert id a }

/-- Gives the function numbered `id` its place. -/
def placeFunc (id : FuncId) (a : Address) (g : Generator) : Generator :=
  { g with layout.funcs := g.layout.funcs.insert id a }

end Generator

/-- Actions that generate code; their effect stays when they fail. -/
abbrev Generate := ExceptT Unresolved (StateM Generator)

namespace Generate

/-- The address of the next instruction. -/
def here : Generate Int := do return (← get).segment.address

/-- Adds an instruction and returns its number, by which it is patched. -/
def emitAt (op : Opcode) (n : Int) (r : Register) (d : Int) : Generate Nat :=
  modifyGet fun g => (g.segment.next, { g with segment := (g.segment.emit op n r d).2 })

/-- Adds an instruction that is not patched. -/
def emit (op : Opcode) (n : Int) (r : Register) (d : Int) : Generate Unit := do
  let _ ← emitAt op n r d

/-- Gives the instruction at `addr` another displacement. -/
def patch (addr d : Int) : Generate Unit :=
  modify fun g => { g with segment := g.segment.patch addr d }

def warn (w : Warning) : Generate Unit :=
  modify fun g => { g with segment := g.segment.warn w }

/-- The register for the frames of a static level. The outermost level has its own one. Where the
level is out of reach, the last register stands in and a warning is given. -/
def registerFor (level : Nat) : Generate Register := do
  if level = 0 then return .sb
  let up := (← get).level - level
  match Register.display? up with
  | some r => return r
  | none =>
    warn (.outOfReach up)
    return .l6

/-- The displacement of a place from its display register in a frame with `params` words of
parameters. -/
def frameDisplacement (params : Int) (a : Address) : Int :=
  if a.level = 0 then a.displacement
  else if a.displacement < params then a.displacement - params
  else linkSize + a.displacement - params

/-- Adds an instruction that moves `size` words from or to a place in a frame. -/
def access (op : Opcode) (size : Int) (a : Address) : Generate Unit := do
  let r ← registerFor a.level
  emit op size r (frameDisplacement (← get).params a)

def load (size : Int) (a : Address) : Generate Unit := access .load size a

def store (size : Int) (a : Address) : Generate Unit := access .store size a

/-- Calls a primitive routine. -/
def callRoutine (r : Routine) : Generate Unit := emit .call 0 .pb r.displacement

end Generate
end PrimeLang
