import CircleFtp.Concurrent.Triple
import CircleFtp.Concurrent.Threads
import CircleFtp.Files.Disk
import CircleFtp.Strings.Http
import CircleFtp.Strings.PosixPath
import CircleFtp.Titles.Text

/-! The poster proxy cache, `circleftp/imageCache.ts`: any number of `getPoster` calls for one
file name, call by call, in a process that may be restarted. -/
namespace CircleFtp.Posters
open Concurrent Files Strings Titles

def CACHE_TTL_MS : Int := 7 * 24 * 60 * 60 * 1000

def MAX_IMAGE_BYTES : Nat := 8 * 1024 * 1024

def ALLOWED_CONTENT_TYPES : List Str :=
  ["image/jpeg".toList, "image/png".toList, "image/webp".toList, "image/gif".toList,
    "image/avif".toList]

structure CachedImage where
  body : List UInt8
  contentType : Str
deriving DecidableEq

/-- Where the cache and the upstream images are; `sha256` gives hexadecimal digits. -/
structure Env where
  cacheDir : Str
  imageBase : Str
  sha256 : Str → Str

def Env.cachePath (env : Env) (filename : Str) : Str :=
  let hash := env.sha256 filename
  join (join (join env.cacheDir "posters".toList) (hash.take 2)) hash

def typePath (file : Str) : Str := file ++ ".type".toList

def tempPath (file : Str) (pid : Nat) : Str := file ++ '.' :: (Nat.toDigits 10 pid ++ ".tmp".toList)

def Env.imageUrl (env : Env) (filename : Str) : Str :=
  let base := if env.imageBase.getLast? = some '/' then env.imageBase.dropLast else env.imageBase
  base ++ '/' :: encodeURIComponent filename

structure Response where
  statusCode : Nat
  contentType : Option Str
  chunks : List (List UInt8)
deriving DecidableEq

/-- The chunks in one, unless there are more bytes than an image may have. -/
def collect : List UInt8 → List (List UInt8) → Option (List UInt8)
  | body, [] => some body
  | body, chunk :: chunks =>
    if MAX_IMAGE_BYTES < (body ++ chunk).length then none else collect (body ++ chunk) chunks

/-- What `fetchUpstream` makes of a response. -/
def Response.image (r : Response) : Option CachedImage :=
  if r.statusCode ≠ 200 then none
  else
    let contentType := (trim ((split ';' (r.contentType.getD [])).headD [])).flatMap lower
    if !ALLOWED_CONTENT_TYPES.contains contentType then none
    else (collect [] r.chunks).map (⟨·, contentType⟩)

inductive Op where
  | stat (path : Str)
  | readFile (path : Str)
  | request (url : Str)
  | mkdir (path : Str)
  | openFile (path : Str)
  | write (handle position : Nat) (b : UInt8)
  | close (handle : Nat)
  | rename (source target : Str)
deriving DecidableEq

/-- `stat` tells the age in milliseconds. -/
abbrev Val : Op → Type
  | .stat _ => Int
  | .readFile _ => List UInt8
  | .request _ => Response
  | .openFile _ => Nat
  | .mkdir _ | .write _ _ _ | .close _ | .rename _ _ => Unit

abbrev Reply (o : Op) : Type := Except Unit (Val o)
abbrev Flow (α : Type) : Type := Thrower Op Val Unit α

structure State where
  disk : Disk Str UInt8
  pid : Nat

/-- What the surroundings decide: whether the call fails, the age, the response. -/
structure Choice where
  fails : Bool := false
  age : Int := 0
  response : Response := ⟨404, none, []⟩

def answer (s : State) (c : Choice) : (o : Op) → Reply o × State
  | .stat path => (if (s.disk.links path).isSome then .ok c.age else .error (), s)
  | .readFile path => ((s.disk.content path).elim (.error ()) .ok, s)
  | .request _ => (.ok c.response, s)
  | .mkdir _ | .close _ => (.ok (), s)
  | .openFile path =>
    (.ok (s.disk.openFile path false).1, { s with disk := (s.disk.openFile path false).2 })
  | .write handle position b => (.ok (), { s with disk := s.disk.write handle (some position) b })
  | .rename source target =>
    if (s.disk.links source).isSome then
      (.ok (), { s with disk := s.disk.rename source target })
    else (.error (), s)

def call (s : State) (o : Op) (c : Choice) : Reply o × State :=
  if c.fails then (.error (), s) else answer s c o

abbrev run (o : Op) : Flow (Val o) := Program.invoke o

/-- The content types are plain ASCII. -/
def encode (text : Str) : List UInt8 := text.map fun c => UInt8.ofNat c.toNat

def decode (bytes : List UInt8) : Str := bytes.map fun b => Char.ofNat b.toNat

/-- Byte after byte, which is how the chunks of several writers can mix at most. -/
def writeAll (handle : Nat) : Nat → List UInt8 → Flow Unit
  | _, [] => pure ()
  | position, b :: bytes => do
    run (.write handle position b)
    writeAll handle (position + 1) bytes

/-- `fs.writeFile`: truncate, write, close in any case. -/
def writeFile (path : Str) (bytes : List UInt8) : Flow Unit := do
  let handle ← run (.openFile path)
  tryCatch (writeAll handle 0 bytes) fun e => do
    run (.close handle)
    throw e
  run (.close handle)

def readCache (file : Str) : Flow (Option CachedImage) :=
  tryCatch (do
    let age ← run (.stat file)
    if age > CACHE_TTL_MS then pure none
    else
      let body ← run (.readFile file)
      let contentType ← tryCatch (do
        let bytes ← run (.readFile (typePath file))
        pure (decode bytes)) fun _ => pure "image/jpeg".toList
      let contentType := trim contentType
      pure (some ⟨body, if contentType = [] then "image/jpeg".toList else contentType⟩))
    fun _ => pure none

/-- Write-then-rename. -/
def writeCache (pid : Nat) (file : Str) (image : CachedImage) : Flow Unit := do
  run (.mkdir (dirname file))
  writeFile (tempPath file pid) image.body
  run (.rename (tempPath file pid) file)
  writeFile (typePath file) (encode image.contentType)

def fetchUpstream (env : Env) (filename : Str) : Flow (Option CachedImage) :=
  tryCatch (do
    let response ← run (.request (env.imageUrl filename))
    pure response.image) fun _ => pure none

def getPoster (env : Env) (pid : Nat) (filename : Str) : Flow (Option CachedImage) := do
  let file := env.cachePath filename
  match ← readCache file with
  | some cached => pure (some cached)
  | none =>
    match ← fetchUpstream env filename with
    | none => pure none
    | some fetched =>
      tryCatch (writeCache pid file fetched) fun _ => pure ()
      pure (some fetched)

/-- A restart ends the process at any point and begins one with another number or the same. -/
inductive Arrival where
  | request
  | restart (pid : Nat)

abbrev Served : Type := Except Unit (Option CachedImage)
abbrev PosterThread := Thread Unit Op Reply Served
abbrev PosterPool := Pool State Unit Op Reply Arrival Served
abbrev PosterWorld := World State Unit Op Reply Arrival Served
abbrev PosterEvent := Event State Unit Op Reply Arrival Served
abbrev PosterLabel := Label Choice Arrival

def system (env : Env) (filename : Str) : System State Unit Op Reply Choice Arrival Served where
  exec s _ o c := some ((call s o c).1, (call s o c).2, [])
  finish s _ _ := (s, [])
  external s
    | .request => some (s, false, [⟨(), (getPoster env s.pid filename).run⟩])
    | .restart pid => some ({ s with pid := pid }, true, [])

/-- The images that the upstream has answered with, as far as they were accepted. -/
def answered (trace : List PosterEvent) : List CachedImage := trace.filterMap fun
  | .did _ _ (.request _) (.ok response) _ _ => response.image
  | _ => none

/-- The images that have been returned. -/
def returned (trace : List PosterEvent) : List CachedImage := trace.filterMap fun
  | .ended _ _ (.ok image) _ _ => image
  | _ => none

/-- Every image that was returned is one that the upstream answered with, body and type. -/
def Whole (trace : List PosterEvent) : Prop := ∀ image ∈ returned trace, image ∈ answered trace

instance (trace : List PosterEvent) : Decidable (Whole trace) :=
  inferInstanceAs (Decidable (∀ image ∈ returned trace, image ∈ answered trace))

end CircleFtp.Posters
