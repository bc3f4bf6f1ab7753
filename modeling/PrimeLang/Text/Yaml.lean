/-! # YAML in block style

Mappings and sequences are written one entry a line. An entry that is itself a mapping is indented
by two blanks, a sequence under a key is not. -/

namespace PrimeLang

/-- A document of scalars, sequences and mappings. -/
inductive Yaml where
  | text (s : String)
  | int (i : Int)
  | seq (items : List Yaml)
  | map (fields : List (String × Yaml))
deriving Repr, Inhabited

namespace Yaml

/-- Plain words that would not be read back as text. -/
def reserved : List String :=
  ["null", "Null", "NULL", "true", "True", "TRUE", "false", "False", "FALSE"]

/-- A text as a scalar. It has to be an identifier, or a text that starts with a parenthesis or a
capital letter and holds neither `: ` nor ` #`. -/
def scalar (s : String) : String := if reserved.contains s then "'" ++ s ++ "'" else s

def indent (lines : List String) : List String := lines.map ("  " ++ ·)

/-- An item of a sequence: a dash before its first line, the others under that line. -/
def item : List String → List String
  | [] => []
  | line :: lines => ("- " ++ line) :: indent lines

mutual

/-- The lines of a document. -/
def lines : Yaml → List String
  | text s => [scalar s]
  | int i => [toString i]
  | seq [] => ["[]"]
  | seq (y :: ys) => items (y :: ys)
  | map [] => ["\x7b\x7d"]
  | map (f :: fs) => fields (f :: fs)

/-- The lines of the items of a sequence. -/
def items : List Yaml → List String
  | [] => []
  | y :: ys => item (lines y) ++ items ys

/-- The lines of the fields of a mapping. -/
def fields : List (String × Yaml) → List String
  | [] => []
  | (key, y) :: rest => field key y (lines y) ++ fields rest

/-- The lines of one field, given those of its value. -/
def field (key : String) (y : Yaml) (value : List String) : List String :=
  match y with
  | seq (_ :: _) => (key ++ ":") :: value
  | map (_ :: _) => (key ++ ":") :: indent value
  | _ => value.map fun line => s!"{key}: {line}"

end

/-- The document as text. -/
def render (y : Yaml) : String := String.join (y.lines.map (· ++ "\n"))

end Yaml
end PrimeLang
