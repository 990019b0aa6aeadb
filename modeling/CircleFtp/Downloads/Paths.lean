import CircleFtp.ApiError
import CircleFtp.Strings.PosixPath
import CircleFtp.Titles.Text

/-! Destination paths: `downloads/paths.ts`. -/
namespace CircleFtp.Downloads
open Strings Titles

/-- Where the media lie: `MEDIA_ROOT`, and the directory it is resolved against. -/
structure MediaRoot where
  cwd : Str
  path : Str

def MediaRoot.root (m : MediaRoot) : Str := resolve m.cwd [m.path]

/-- The suffix of a file still being written, renamed away on completion. -/
def PART_SUFFIX : Str := ".part".toList

/-- The segments of a path that name something, each made safe. -/
def safeSegments (relPath : Str) : List Str :=
  (((split '/' relPath).map trim).filter fun segment =>
    segment ≠ [] ∧ segment ≠ ['.'] ∧ segment ≠ ['.', '.']).map (sanitize · "file".toList)

/-- Resolve `<MEDIA_ROOT>/<folder>/<relPath>`, rejecting anything that escapes. -/
def resolveDestination (m : MediaRoot) (folder relPath : Str) : Except ApiError Str :=
  let safeFolder := sanitize folder "untitled".toList
  let segments := safeSegments relPath
  if segments = [] then throw (.badRequest "That title has no usable file name")
  else
    let resolved := resolve m.cwd (m.root :: safeFolder :: segments)
    if resolved ≠ m.root ∧ ¬ (m.root ++ ['/']).isPrefixOf resolved then
      throw (.badRequest "Refusing to write outside the media directory")
    else pure resolved

def partPathFor (destination : Str) : Str := destination ++ PART_SUFFIX

end CircleFtp.Downloads
