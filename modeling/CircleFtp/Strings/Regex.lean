import CircleFtp.Strings.Basic

/-! Backtracking regular expressions with one capture: a match is the first in the order of
preference, at the leftmost position that has one. -/
namespace Strings

def isWord (c : Char) : Bool := c.isAlphanum || c = '_'

inductive Regex where
  | set (p : Char → Bool)
  | boundary
  | atEnd
  | seq (a b : Regex)
  | alt (a b : Regex)
  | rep (min max : Nat) (a : Regex)
  | star (a : Regex)
  | group (a : Regex)

/-- A position in the text, with the character before it and what the group has captured. -/
structure Cursor where
  before : Option Char
  rest : Str
  captured : Option Str := none

/-- Between `min` and `max` rounds, more rounds first. -/
def repeats (f : Cursor → List Cursor) : Nat → Nat → Cursor → List Cursor
  | min, 0, c => if min = 0 then [c] else []
  | min, max + 1, c =>
    (f c).flatMap (repeats f (min - 1) max) ++ if min = 0 then [c] else []

namespace Regex

/-- The ends of all matches that begin at a position, in the order of preference. -/
def run : Regex → Cursor → List Cursor
  | .set p, c =>
    match c.rest with
    | x :: xs => if p x then [{ c with before := some x, rest := xs }] else []
    | [] => []
  | .boundary, c => if c.before.any isWord ≠ c.rest.head?.any isWord then [c] else []
  | .atEnd, c => if c.rest = [] then [c] else []
  | .seq a b, c => (a.run c).flatMap b.run
  | .alt a b, c => a.run c ++ b.run c
  | .rep min max a, c => repeats a.run min max c
  | .star a, c => repeats a.run 0 c.rest.length c
  | .group a, c => (a.run c).map fun d =>
      { d with captured := some (c.rest.take (c.rest.length - d.rest.length)) }

/-- The leftmost match from a position on. -/
def search (r : Regex) : Option Char → Str → Option Cursor
  | before, [] => (r.run ⟨before, [], none⟩).head?
  | before, c :: s => (r.run ⟨before, c :: s, none⟩).head?.or (r.search (some c) s)

/-- What the group captures in the leftmost match. -/
def exec (r : Regex) (s : Str) : Option Str := (r.search none s).bind (·.captured)

def test (r : Regex) (s : Str) : Bool := (r.search none s).isSome

def seqs : List Regex → Regex
  | [] => .rep 0 0 (.set fun _ => false)
  | r :: rs => .seq r (seqs rs)

def char (c : Char) : Regex := .set (· = c)

/-- A letter in either case. -/
def letter (c : Char) : Regex := .set fun x => x = c || x = c.toUpper

/-- A word in either case. -/
def word (s : String) : Regex := seqs (s.toList.map letter)

def digit : Regex := .set Char.isDigit

def space : Regex := .set isSpace

def opt (r : Regex) : Regex := .rep 0 1 r

end Regex

end Strings
