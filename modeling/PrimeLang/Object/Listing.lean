import PrimeLang.Machine.Assembly
import PrimeLang.Object.Basic
import PrimeLang.Program.Basic
import PrimeLang.Text.Yaml

/-! # Listings of object code

A listing tells where functions and variables lie and what the code is. Functions and variables
without a place are left out. -/

namespace PrimeLang
open Machine

/-- A function in a listing. -/
structure Listing.Function where
  name : String
  signature : String
  address : Address
deriving DecidableEq, Repr

/-- A variable in a listing. -/
structure Listing.Variable where
  function : String
  name : String
  ty : Ty
  address : Address
deriving DecidableEq, Repr

/-- An instruction in a listing, also as text. -/
structure Listing.Line where
  address : Nat
  text : String
  inst : Instruction
deriving DecidableEq, Repr

/-- Functions and variables with their places, and the code. -/
structure Listing where
  funcs : List Listing.Function
  vars : List Listing.Variable
  code : List Listing.Line
deriving DecidableEq, Repr

namespace Listing

def ofObject (p : Program) (o : Object) : Listing where
  funcs := p.funcs.filterMap fun f =>
    (o.layout.funcs.get? f.id).map fun a => ⟨f.name, f.signature, a⟩
  vars := p.funcs.flatMap fun f => f.vars.filterMap fun v =>
    (o.layout.vars.get? v.id).map fun a => ⟨f.name, v.name, v.ty, a⟩
  code := o.code.toList.mapIdx fun address i => ⟨address, i.text, i⟩

def yamlAddress (a : Address) : Yaml :=
  .map [("level", .int a.level), ("displacement", .int a.displacement)]

def yamlInstruction (i : Instruction) : Yaml :=
  .map [("op", .text i.op.name), ("r", .text i.r.name), ("n", .int i.n.toInt),
    ("d", .int i.d.toInt)]

def Function.yaml (f : Function) : Yaml :=
  .map [("name", .text f.name), ("signature", .text f.signature),
    ("address", yamlAddress f.address)]

def Variable.yaml (v : Variable) : Yaml :=
  .map [("function", .text v.function), ("name", .text v.name), ("ty", .text v.ty.name),
    ("address", yamlAddress v.address)]

def Line.yaml (l : Line) : Yaml :=
  .map [("address", .int l.address), ("text", .text l.text), ("inst", yamlInstruction l.inst)]

def yaml (l : Listing) : Yaml :=
  .map [("functions", .seq (l.funcs.map Function.yaml)),
    ("variables", .seq (l.vars.map Variable.yaml)),
    ("code", .seq (l.code.map Line.yaml))]

end Listing
end PrimeLang
