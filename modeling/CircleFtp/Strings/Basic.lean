import Mathlib.Data.List.Basic

/-! The string operations of the language on lists of characters. -/
namespace Strings

abbrev Str := List Char

/-- Blanks of the language: the characters of `\s`, which are also those that `trim` removes. -/
def isSpace (c : Char) : Bool :=
  c ∈ ['\t', '\n', '\x0b', '\x0c', '\r', ' ', '\u00a0', '\u1680', '\u2028', '\u2029', '\u202f',
    '\u205f', '\u3000', '\ufeff'] || ('\u2000' ≤ c && c ≤ '\u200a')

def trim (s : Str) : Str := (s.dropWhile isSpace).reverse.dropWhile isSpace |>.reverse

/-- The number that a run of decimal digits denotes. -/
def digitsValue (s : Str) : Nat := s.foldl (fun n c => 10 * n + (c.toNat - '0'.toNat)) 0

def padStart (n : Nat) (c : Char) (s : Str) : Str := List.replicate (n - s.length) c ++ s

/-- The text between the occurrences of a character. -/
def split (c : Char) (s : Str) : List Str := s.splitOn c

/-- The index of the last occurrence, or `-1`. -/
def lastIndexOf (s : Str) (c : Char) : Int :=
  match s.reverse.idxOf? c with
  | some i => s.length - 1 - i
  | none => -1

end Strings
