import CircleFtp.Strings.Regex

/-! Texts of the web: components of a URL and the header of a range. -/
namespace Strings
open Regex

def hexDigit (n : UInt8) : Char := "0123456789ABCDEF".toList.getD n.toNat '0'

/-- The bytes of a character, percent-encoded unless it is left as it is. -/
def encodeURIComponent (s : Str) : Str := s.flatMap fun c =>
  if c.isAlphanum || "-_.!~*'()".toList.contains c then [c]
  else (String.utf8EncodeChar c).flatMap fun b => ['%', hexDigit (b / 16), hexDigit (b % 16)]

/-- The digits of the total at the end of a `Content-Range`, as in `bytes 0-0/12345`. -/
def contentRangeTotal (contentRange : Str) : Option Str :=
  (seqs [char '/', group (seqs [digit, star digit]), star space, atEnd]).exec contentRange

end Strings
