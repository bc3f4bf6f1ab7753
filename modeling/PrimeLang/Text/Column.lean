/-! # Columns of text -/

namespace PrimeLang

/-- `n` times the character `c`. -/
def fill (n : Nat) (c : Char) : String := String.ofList (List.replicate n c)

/-- `s` at the left of a column of at least `width` characters. -/
def padRight (width : Nat) (s : String) : String := s ++ fill (width - s.length) ' '

/-- `s` at the right of a column of at least `width` characters, filled up with `c`. -/
def padLeft (width : Nat) (c : Char) (s : String) : String := fill (width - s.length) c ++ s

/-- The hexadecimal digits of `n` in capitals, at least four. -/
def hex4 (n : Nat) : String :=
  padLeft 4 '0' (String.ofList ((Nat.toDigits 16 n).map Char.toUpper))

end PrimeLang
