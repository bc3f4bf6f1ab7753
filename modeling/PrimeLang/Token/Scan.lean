import PrimeLang.Text.Blank
import PrimeLang.Text.Decimal
import PrimeLang.Token.Basic

/-! # From text to tokens

Blank characters separate tokens. At any other character a token starts, whose kind and length
`lexeme` decides by looking at the characters that follow. `tokens` is the whole stream, which ends
in the one token of kind `eof`; a `Scanner` hands the same tokens out one at a time. -/

namespace PrimeLang

/-- A character that an identifier or keyword starts with. -/
def isWordStart (c : Char) : Bool := ('a' ≤ c && c ≤ 'z') || ('A' ≤ c && c ≤ 'Z') || c == '_'

/-- A character that an identifier or keyword goes on with. -/
def isWordPart (c : Char) : Bool := isWordStart c || isDigit c

namespace Token

/-- The kind of a word. -/
def Kind.ofWord (word : String) : Kind := ((Keyword.ofSpelling? word).map .keyword).getD .ident

/-- The kind of the token that starts with `c`, and how many of the characters `cs` after `c` belong
to it. Two characters are tried before one. -/
def lexeme (c : Char) (cs : List Char) : Kind × Nat :=
  if c = '/' ∧ cs.head? = some '/' then (.comment, (cs.takeWhile (· != '\n')).length)
  else if let some s := cs.head?.bind fun d => Symbol.ofChars? [c, d] then (.symbol s, 1)
  else if let some s := Symbol.ofChars? [c] then (.symbol s, 0)
  else if isDigit c then (.number, (cs.takeWhile isDigit).length)
  else if isWordStart c then
    let part := cs.takeWhile isWordPart
    (.ofWord (.ofList (c :: part)), part.length)
  else (.invalid, 0)

/-- The first token of `cs`, which start at `pos`, and what follows it. -/
def first (pos : Pos) : List Char → Token × Pos × List Char
  | [] => (⟨.eof, "", pos⟩, pos, [])
  | c :: cs =>
    if isBlank c then first (pos.advance c) cs
    else
      let (kind, n) := lexeme c cs
      let spelled := c :: cs.take n
      (⟨kind, .ofList spelled, pos⟩, pos.advanceBy spelled, cs.drop n)

/-- A token that is not the end of the text takes at least one character. -/
theorem length_lt_of_first {pos pos' : Pos} {cs rest : List Char} {t : Token}
    (h : first pos cs = (t, pos', rest)) (ht : t.kind ≠ .eof) : rest.length < cs.length := by
  induction cs generalizing pos with
  | nil =>
    obtain ⟨rfl, -⟩ := Prod.mk.inj h
    exact absurd rfl ht
  | cons c cs ih =>
    rw [first] at h
    split at h
    · exact Nat.lt_succ_of_lt (ih h)
    · obtain ⟨-, h⟩ := Prod.mk.inj h
      obtain ⟨-, rfl⟩ := Prod.mk.inj h
      simp only [List.length_drop, List.length_cons]
      omega

/-- All tokens of `cs`, which start at `pos`; the last one is the end of the text. -/
def tokensFrom (pos : Pos) (cs : List Char) : List Token :=
  match h : first pos cs with
  | (t, pos', rest) =>
    if ht : t.kind = .eof then [t]
    else
      have := length_lt_of_first h ht
      t :: tokensFrom pos' rest
termination_by cs.length

/-- All tokens of a text. -/
def tokens (text : String) : List Token := tokensFrom .start text.toList

end Token

/-- A text that is handed out token by token. -/
structure Scanner where
  rest : List Char
  pos : Pos
  /-- The end of the text has been handed out by `next?`. -/
  ended : Bool
deriving DecidableEq, Repr

namespace Scanner

def ofText (text : String) : Scanner := ⟨text.toList, .start, false⟩

/-- The next token. At the end of the text it is the end of the text, however often one asks. -/
def token (s : Scanner) : Token × Scanner :=
  let (t, pos, rest) := Token.first s.pos s.rest
  (t, { s with pos, rest })

/-- The next token, until the end of the text has been handed out once. -/
def next? (s : Scanner) : Option Token × Scanner :=
  if s.ended then (none, s)
  else
    let (t, s) := s.token
    (some t, { s with ended := t.kind = .eof })

end Scanner
end PrimeLang
