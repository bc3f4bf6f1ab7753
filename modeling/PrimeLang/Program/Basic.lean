import PrimeLang.Source.Parse
import PrimeLang.Source.Store
import PrimeLang.Token.Scan

/-! # Programs

A program is known by its nodes and by the trees of its functions, which are read off the nodes. -/

namespace PrimeLang

/-- The nodes of a program and its functions in order. -/
structure Program where
  nodes : Nodes
  funcs : List Tree.Func
deriving Repr, Inhabited

namespace Program

/-- Stores functions in order. -/
def ofSource (fs : List Source.Func) : Program :=
  let (funcs, nodes) := (fs.mapM Source.storeFunc).run .empty
  ⟨nodes, funcs⟩

/-- The program that node tables hold, unless they are malformed. -/
def ofNodes? (ns : Nodes) : Option Program := ns.funcs?.map fun funcs => ⟨ns, funcs⟩

/-- The program that the tokens after `c` declare. -/
def ofTokens (c : Cursor) : Except SyntaxError Program := (Source.parse c).map ofSource

/-- The program that a text declares. -/
def parse (text : String) : Except SyntaxError Program := ofTokens (.ofTokens (Token.tokens text))

end Program
end PrimeLang
