import CircleFtp.Strings.Regex
import Mathlib.Data.List.DropRight

/-! Filename and title parsing: `circleftp/text.ts`. -/
namespace CircleFtp.Titles
open Strings Regex

/-- What the code takes from the platform: the path of a URL, which may not parse, percent
decoding, which may be malformed, and the integer that a string denotes as a number, if any. -/
structure Platform where
  urlPathname : Str → Option Str
  decodeURIComponent : Str → Option Str
  toInteger : Str → Option Int

/-- `ILLEGAL_PATH_CHARS`: characters illegal on Windows/SMB, plus control codes. -/
def illegal (c : Char) : Bool := c ∈ ['<', '>', ':', '"', '/', '\\', '|', '?', '*'] || c < ' '

/-- Every run of characters with the property becomes one blank; `inside` says that the run has
begun. -/
def squash (p : Char → Bool) : Bool → Str → Str
  | _, [] => []
  | inside, c :: s =>
    if p c then (if inside then squash p true s else ' ' :: squash p true s)
    else c :: squash p false s

/-- The characters that `sanitize` trims on both sides. -/
def edge (c : Char) : Bool := isSpace c || c = '.'

def orElse (s fallback : Str) : Str := if s = [] then fallback else s

def clean (name : Str) : Str :=
  (squash isSpace false (name.map fun c => if illegal c then ' ' else c)).dropWhile edge
    |>.rdropWhile edge

def sanitize (name : Str) (fallback : Str := "untitled".toList) : Str := orElse (clean name) fallback

/-- First 19xx/20xx year anywhere in the value. -/
def firstYear : Str → Option Str
  | a :: b :: c :: d :: s =>
    if ([a, b] = ['1', '9'] ∨ [a, b] = ['2', '0']) ∧ c.isDigit ∧ d.isDigit then some [a, b, c, d]
    else firstYear (b :: c :: d :: s)
  | _ => none

def parseSeasonNumber (seasonName : Str) : Option Nat :=
  let explicit := seqs [.boundary, letter 's', opt (word "eason"), .star space, .star (char '0'),
    .group (.rep 1 3 digit), .boundary]
  let bare := seqs [.boundary, .group (.rep 1 3 digit), .boundary]
  ((explicit.exec seasonName).or (bare.exec seasonName)).map digitsValue

def parseEpisodeNumber (title : Str) (fallback : Nat) : Nat :=
  let number := [Regex.star (char '0'), .group (.rep 1 4 digit), .boundary]
  let separators (s : String) := Regex.star (.set fun c => c ∈ s.toList || isSpace c)
  let patterns := [
    seqs ([.boundary, word "episode", separators ":#-"] ++ number),
    seqs ([.boundary, word "ep", separators ":.#-"] ++ number),
    seqs ([.boundary, letter 's', .rep 1 3 digit, .star space, letter 'e'] ++ number),
    seqs ([.boundary, letter 'e'] ++ number)]
  ((patterns.findSome? fun pattern => pattern.exec title).map digitsValue).getD fallback

/-- Last path segment of a URL, percent-decoded and sanitised. -/
def filenameFromUrl (js : Platform) (url : Str) (fallback : Str := "file".toList) : Str :=
  let pathname := (js.urlPathname url).getD url
  let last := ((split '/' pathname).getLast?).getD []
  let decoded := (js.decodeURIComponent last).getD last
  sanitize decoded (sanitize fallback)

/-- The lower case of a character, as far as it has ASCII letters in it. -/
def lower (c : Char) : Str :=
  if c.isUpper then [c.toLower] else if c = '\u212a' then ['k'] else
  if c = '\u0130' then ['i', '\u0307'] else [c]

/-- Lowercase, punctuation-stripped form used for fuzzy comparisons. -/
def normalizeText (value : Str) : Str :=
  trim (squash (fun c => !(c.isLower || c.isDigit)) false (value.flatMap lower))

/-- Does a season match anything the user selected, by name or by number? -/
def seasonMatches (js : Platform) (seasonName : Str) (seasonNumber : Option Nat)
    (wanted : List Str) : Bool :=
  let normalizedName := normalizeText seasonName
  wanted.isEmpty || wanted.any fun entry =>
    let raw := trim entry
    raw ≠ [] && (
      (js.toInteger raw).any (fun n : Int => seasonNumber.any fun m => n = m) ||
      (normalizeText raw ≠ [] && normalizeText raw = normalizedName) ||
      (parseSeasonNumber raw).any fun n => seasonNumber = some n)

end CircleFtp.Titles
