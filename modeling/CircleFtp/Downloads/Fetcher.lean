import CircleFtp.Downloads.Store
import CircleFtp.Strings.Http

/-! Single-file downloader with resume: `downloads/fetcher.ts`. -/
namespace CircleFtp.Downloads
open Concurrent Strings

abbrev Flow := ExceptT Err (Program Op Reply)

def op (o : Op) : Flow (Val o) := Program.invoke o

structure FetchOptions where
  url : Str
  destination : Str
  expectedSize : Option Nat := none
  controller : Nat
  onProgress : Nat → Option Nat → Flow Unit := fun _ _ => pure ()

structure FetchResult where
  bytes : Nat
  skipped : Bool
deriving DecidableEq

/-- The total of a `Content-Range`; the code has it as a number of the language, which is exact up to
`2 ^ 53`. -/
def rangeTotal (contentRange : Str) : Option Nat := (contentRangeTotal contentRange).map digitsValue

def totalFromHeaders (response : Response) (resumeFrom : Nat) : Option Nat :=
  (rangeTotal response.contentRange).or (response.contentLength.map (resumeFrom + ·))

/-- The body goes byte by byte past the counter into the file; any write may be the last. -/
def pipeline (options : FetchOptions) (file : Nat) (append : Bool) (total : Option Nat)
    (ending : Option String) : Bytes → Nat → Flow Nat
  | [], written =>
    match ending with
    | some message => throw (.error message)
    | none => pure written
  | byte :: body, written => do
    options.onProgress (written + 1) total
    op (.write file (if append then none else some written) byte)
    pipeline options file append total ending body (written + 1)

/-- What a `200` or a `206` brings, from the offset it goes on from. -/
def receive (options : FetchOptions) (response : Response) (resumeFrom : Nat) :
    Flow FetchResult := do
  let partPath := partPathFor options.destination
  let totalBytes := totalFromHeaders response resumeFrom
  let written ← tryCatch
    (do
      let file ← op (.openFile partPath (decide (0 < resumeFrom)))
      pipeline options file (decide (0 < resumeFrom)) totalBytes response.ending response.body
        resumeFrom)
    fun error => do
      if ← op (.aborted options.controller) then throw .cancelled else throw error
  options.onProgress written totalBytes
  if totalBytes.any (written < ·) then
    throw (.error s!"Transfer ended early at {written} of {totalBytes.getD 0} bytes")
  op (.rename partPath options.destination)
  pure ⟨written, false⟩

/-- Ask for what is missing and deal with the answer. -/
def transfer (options : FetchOptions) : Flow FetchResult := do
  let partPath := partPathFor options.destination
  let resumeFrom ← op (.fileSize partPath)
  let response ← op (.request options.url (if 0 < resumeFrom then some resumeFrom else none)
    options.controller)
  if response.status = 416 then
    -- the partial is already the whole file
    op .dump
    op (.rename partPath options.destination)
    pure ⟨resumeFrom, false⟩
  else if response.status = 200 ∧ 0 < resumeFrom then
    -- the host ignored the range and sends from the start
    op (.remove partPath)
    receive options response 0
  else if response.status ≠ 200 ∧ response.status ≠ 206 then
    op .dump
    throw (.error s!"HTTP {response.status} from the file host")
  else receive options response resumeFrom

/-- Download one file, resuming if a partial exists. -/
def fetchFile (options : FetchOptions) : Flow FetchResult := do
  op (.makeParent options.destination)
  let finalSize ← op (.fileSize options.destination)
  if 0 < finalSize then
    if options.expectedSize.all (· = finalSize) then pure ⟨finalSize, true⟩
    else
      op (.remove options.destination)
      transfer options
  else transfer options

end CircleFtp.Downloads
