import CircleFtp.Concurrent.Crew
import CircleFtp.Strings.Http
import CircleFtp.Titles.Plan

/-! The sizes of the files of a title, as their hosts tell them:
`circleftp/probe.ts`. -/
namespace CircleFtp.Titles
open Strings Concurrent

/-- A header may be sent more than once. -/
inductive Header where
  | absent
  | one (s : Str)
  | many (values : List Str)

structure HostAnswer where
  statusCode : Nat
  acceptRanges : Header := .absent
  contentLength : Header := .absent
  contentRange : Header := .absent

/-- A `HEAD`, or a `GET` of the first byte. -/
inductive HostRequest where
  | head (url : Str) (timeoutMs : Nat)
  | firstByte (url : Str) (timeoutMs : Nat)

/-- There is no answer where the request or the reading of its body fails. -/
abbrev HostReply : HostRequest → Type := fun _ => Option HostAnswer

structure ProbeResult (N : Type) where
  size : Option N
  status : Option Nat
  supportsRange : Bool

/-- `String(header ?? '')` -/
def Header.text : Header → Str
  | .absent => []
  | .one s => s
  | .many values => [','].intercalate values

section
/-! The numbers of the language, with what a text denotes and which are sizes: finite and not
negative. -/
variable {N : Type} (number : Str → N) (isSize : N → Bool)

def parseLength (value : Header) : Option N :=
  let raw := match value with
    | .absent => none
    | .one s => some s
    | .many values => values.head?
  (present raw).bind fun raw => (some (number raw)).filter isSize

def rangeTotal (answer : HostAnswer) : Option N :=
  (present (contentRangeTotal answer.contentRange.text)).map number

def acceptsRanges (answer : HostAnswer) : Bool :=
  answer.acceptRanges.text.flatMap lower = "bytes".toList

def readRange (response : HostAnswer) : ProbeResult N :=
  match rangeTotal number response with
  | some total => ⟨some total, some response.statusCode, true⟩
  | none => ⟨none, some response.statusCode, false⟩

/-- No result where the request fails. -/
def probeViaRange (url : Str) (timeoutMs : Nat) : Program HostRequest HostReply (Option (ProbeResult N)) := do
  let response ← Program.perform (.firstByte url timeoutMs)
  return response.map (readRange number)

/-- No result where the host refuses a `HEAD` and the ranged request has to tell. -/
def readHead (head : HostAnswer) : Option (ProbeResult N) :=
  match if head.statusCode = 200 then parseLength number isSize head.contentLength else none with
  | some size => some ⟨some size, some 200, acceptsRanges head⟩
  | none =>
    if head.statusCode = 403 ∨ head.statusCode = 405 ∨ head.statusCode = 501 then none
    else some ⟨none, some head.statusCode, acceptsRanges head⟩

/-- What the `catch` does: the ranged request, for the second time if it was that which failed. -/
def probeFailed (url : Str) (timeoutMs : Nat) : Program HostRequest HostReply (ProbeResult N) := do
  return (← probeViaRange number url timeoutMs).getD ⟨none, none, false⟩

def probeRefused (url : Str) (timeoutMs : Nat) : Program HostRequest HostReply (ProbeResult N) := do
  match ← probeViaRange number url timeoutMs with
  | some result => return result
  | none => probeFailed number url timeoutMs

def probeAnswered (url : Str) (timeoutMs : Nat) (head : HostAnswer) :
    Program HostRequest HostReply (ProbeResult N) :=
  match readHead number isSize head with
  | some result => return result
  | none => probeRefused number url timeoutMs

def probeSize (url : Str) (timeoutMs : Nat) : Program HostRequest HostReply (ProbeResult N) := do
  match ← Program.perform (.head url timeoutMs) with
  | none => probeFailed number url timeoutMs
  | some head => probeAnswered number isSize url timeoutMs head

def probeConcurrency : Nat := 8

def perRequestTimeoutMs : Nat := 15000

abbrev Probes (N : Type) := Str → Option (ProbeResult N)

def probing : Crew PlannedFile (Probes N) HostRequest HostReply (ProbeResult N) where
  skip results file := (results file.url).isSome
  work file remaining := probeSize number isSize file.url (min perRequestTimeoutMs remaining)
  record results file result := Function.update results file.url (some result)

abbrev ProbePool (N : Type) := Crew.CrewPool PlannedFile (Probes N) HostRequest HostReply (ProbeResult N)

/-- `probeSizes`, with its workers started. -/
def probeSizes (files : List PlannedFile) : ProbePool N :=
  Crew.start (min probeConcurrency files.length) files fun _ => none

def HostRequest.url : HostRequest → Str
  | .head url _ | .firstByte url _ => url

def HostRequest.timeoutMs : HostRequest → Nat
  | .head _ timeoutMs | .firstByte _ timeoutMs => timeoutMs

/-- The reply gives this size of the file at the address. -/
def TellsSize (url : Str) (size : N) : (o : HostRequest) → HostReply o → Prop
  | .head u _, some a => u = url ∧ a.statusCode = 200 ∧ parseLength number isSize a.contentLength = some size
  | .firstByte u _, some a => u = url ∧ rangeTotal number a = some size
  | _, none => False

/-- The reply shows that its host serves parts of the file at the address. -/
def TellsRange (url : Str) : (o : HostRequest) → HostReply o → Prop
  | .head u _, some a => u = url ∧ acceptsRanges a = true
  | .firstByte u _, some a => u = url ∧ (rangeTotal number a).isSome = true
  | _, none => False

/-- Whatever the result says has been told by some reply. -/
def Told (url : Str) (given : (o : HostRequest) → HostReply o → Prop) (result : ProbeResult N) : Prop :=
  (∀ size, result.size = some size → ∃ o r, given o r ∧ TellsSize number isSize url size o r) ∧
  (result.supportsRange = true → ∃ o r, given o r ∧ TellsRange number url o r)

variable {number : Str → N} {isSize : N → Bool} {given : (o : HostRequest) → HostReply o → Prop}
  {url : Str} {timeoutMs : Nat} {result : ProbeResult N}

theorem told_nothing {status : Option Nat} : Told number isSize url given ⟨none, status, false⟩ :=
  ⟨fun _ h => by (cases h), fun h => by (cases h)⟩

theorem readRange_told {answer : HostAnswer} (h : given (.firstByte url timeoutMs) (some answer)) :
    Told number isSize url given (readRange number answer) := by
  rw [readRange]
  cases ht : rangeTotal number answer with
  | none => exact told_nothing
  | some total =>
    refine ⟨fun size e => ⟨_, some answer, h, rfl, ?_⟩, fun _ => ⟨_, some answer, h, rfl, ?_⟩⟩
    · cases e
      exact ht
    · rw [ht]
      rfl

theorem readHead_told {answer : HostAnswer} (h : given (.head url timeoutMs) (some answer))
    (hr : readHead number isSize answer = some result) : Told number isSize url given result := by
  have range (ha : acceptsRanges answer = true) : ∃ o r, given o r ∧ TellsRange number url o r :=
    ⟨_, some answer, h, rfl, ha⟩
  rw [readHead] at hr
  split at hr
  · rename_i size hs
    cases hr
    refine ⟨fun size' e => ?_, range⟩
    cases e
    by_cases h200 : answer.statusCode = 200
    · exact ⟨_, some answer, h, rfl, h200, (if_pos h200).symm.trans hs⟩
    · rw [if_neg h200] at hs
      cases hs
  · split at hr
    · cases hr
    · cases hr
      exact ⟨fun size e => by (cases e), range⟩

theorem probeFailed_told (h : (probeFailed number url timeoutMs).Comes given result) :
    Told number isSize url given result := by
  obtain ⟨r, hr, rfl⟩ := h
  cases r with
  | none => exact told_nothing
  | some answer => exact readRange_told hr

theorem probeRefused_told (h : (probeRefused number url timeoutMs).Comes given result) :
    Told number isSize url given result := by
  obtain ⟨r, hr, h⟩ := h
  cases r with
  | none => exact probeFailed_told h
  | some answer =>
    obtain rfl : readRange number answer = result := h
    exact readRange_told hr

theorem probeAnswered_told {head : HostAnswer} (hr : given (.head url timeoutMs) (some head))
    (h : (probeAnswered number isSize url timeoutMs head).Comes given result) :
    Told number isSize url given result := by
  rw [probeAnswered] at h
  cases hh : readHead number isSize head with
  | some found =>
    rw [hh] at h
    obtain rfl : found = result := h
    exact readHead_told hr hh
  | none =>
    rw [hh] at h
    exact probeRefused_told h

theorem probeSize_told (h : (probeSize number isSize url timeoutMs).Comes given result) :
    Told number isSize url given result := by
  obtain ⟨r, hr, h⟩ := h
  cases r with
  | none => exact probeFailed_told h
  | some head => exact probeAnswered_told hr h

/-- A probe asks for the file at its address only, with the time it is given. -/
theorem probeSize_uses (number : Str → N) (isSize : N → Bool) (url : Str) (timeoutMs : Nat) :
    (probeSize number isSize url timeoutMs).Uses fun o => o.url = url ∧ o.timeoutMs = timeoutMs := by
  have failed : (probeFailed number url timeoutMs).Uses fun o => o.url = url ∧ o.timeoutMs = timeoutMs :=
    ⟨⟨rfl, rfl⟩, fun _ => trivial⟩
  have refused : (probeRefused number url timeoutMs).Uses fun o => o.url = url ∧ o.timeoutMs = timeoutMs := by
    refine ⟨⟨rfl, rfl⟩, fun r => ?_⟩
    cases r with
    | none => exact failed
    | some answer => trivial
  refine ⟨⟨rfl, rfl⟩, fun r => ?_⟩
  cases r with
  | none => exact failed
  | some head =>
    have answered : (probeAnswered number isSize url timeoutMs head).Uses
        fun o => o.url = url ∧ o.timeoutMs = timeoutMs := by
      rw [probeAnswered]
      cases readHead number isSize head with
      | some found => trivial
      | none => exact refused
    exact answered

/-- The probes know of a file what the last of its jobs came to. -/
theorem mem_records {done : List (PlannedFile × ProbeResult N)}
    (h : done.foldr (fun done s => (probing number isSize).record s done.1 done.2) (fun _ => none) url =
      some result) : ∃ file, (file, result) ∈ done ∧ file.url = url := by
  induction done with
  | nil => cases h
  | cons x done ih =>
    by_cases e : url = x.1.url
    · subst e
      rw [List.foldr_cons] at h
      obtain rfl : x.2 = result := by simpa [probing] using h
      exact ⟨x.1, List.mem_cons_self, rfl⟩
    · have hrest : done.foldr (fun done s => (probing number isSize).record s done.1 done.2) (fun _ => none)
          url = some result := by
        rw [List.foldr_cons] at h
        simpa [probing, Function.update_of_ne e] using h
      obtain ⟨file, hf, hu⟩ := ih hrest
      exact ⟨file, List.mem_cons_of_mem x hf, hu⟩

theorem probing_marks (number : Str → N) (isSize : N → Bool) : (probing number isSize).Marks where
  marks s x a := by simp [probing]
  keeps s x y a h := by
    by_cases e : x.url = y.url
    · simp [probing, e]
    · simpa [probing, Function.update_of_ne e] using h

variable {files : List PlannedFile} {deadline : Nat} {p : ProbePool N}

/-- At most eight workers ask the hosts of the files for them, each for a while at most, and what
becomes known has been told by a reply. They all come to an end. The files that they have taken are
then the first of the list, up to where the time was over, and those whose address has an entry. -/
theorem sizes_as_told (number : Str → N) (isSize : N → Bool)
    (hr : ((probing number isSize).system deadline).Runs (fun _ _ => True) (probeSizes files) p) :
    p.count (fun _ => true) ≤ probeConcurrency ∧
    (∀ t k o r s s', Event.did t k (.work o) r s s' ∈ p.trace →
      (∃ file ∈ files, o.url = file.url) ∧ o.timeoutMs ≤ perRequestTimeoutMs) ∧
    (∀ url result, p.state.records url = some result → (∃ file ∈ files, file.url = url) ∧
      Told number isSize url (fun o r => ∃ t, Crew.Replied p.trace t o r) result) ∧
    ((probing number isSize).system deadline).Ends (fun _ _ => True) p ∧
    (((probing number isSize).system deadline).Still (fun _ _ => True) p → (∀ t, p.threads t = none) ∧
      files = Crew.taken p ++ p.state.queue ∧ (p.state.queue = [] ∨ p.trace.any Crew.isLate = true) ∧
      ∀ url, (p.state.records url).isSome = true ↔ ∃ file ∈ Crew.taken p, file.url = url) := by
  have kept := Crew.Kept.run hr
  refine ⟨(Crew.count_run hr).trans (Nat.min_le_left _ _), fun t k o r s s' h => ?_, fun url result h => ?_,
    kept.ends, fun still => ?_⟩
  · have asked : Crew.Asked (fun file o => o.url = file.url ∧ o.timeoutMs ≤ perRequestTimeoutMs) files p :=
      .run (fun file left => (probeSize_uses number isSize file.url _).mono
        fun o ho => ⟨ho.1, ho.2.trans_le (Nat.min_le_left _ _)⟩) hr
    obtain ⟨file, hf, hu, ht⟩ := asked t k o r s s' h
    exact ⟨⟨file, hf, hu⟩, ht⟩
  · rw [kept.records] at h
    obtain ⟨file, hf, rfl⟩ := mem_records h
    obtain ⟨t, left, s, s', he⟩ := Crew.mem_finished hf
    have comes := Crew.Sourced.run hr t file left result s s' he
    refine ⟨⟨file, kept.taken_mem (kept.finished_taken hf), rfl⟩, probeSize_told (comes.mono ?_)⟩
    exact fun o r h => ⟨t, h⟩
  · have gone := Crew.still_empty (fun _ => none) still
    refine ⟨gone, kept.order, Crew.queue_rest (Crew.crewed (by decide) files) hr gone, fun url => ?_⟩
    constructor
    · intro h
      obtain ⟨result, hu⟩ := Option.isSome_iff_exists.mp h
      rw [kept.records] at hu
      obtain ⟨file, hf, e⟩ := mem_records hu
      exact ⟨file, kept.finished_taken hf, e⟩
    · rintro ⟨file, hf, rfl⟩
      exact (probing_marks number isSize).rest hr gone hf

end

def onlyFile : PlannedFile := ⟨"f".toList, "f".toList, "f".toList, none, none⟩

/-- A host that answers the `HEAD`. -/
theorem sizes_as_told_one : ∃ p : ProbePool Nat,
    ((probing digitsValue fun _ => true).system 1000).Runs (fun _ _ => True) (probeSizes [onlyFile]) p ∧
      (p.state.records onlyFile.url).any (·.size = some 5) ∧
      ∃ o r, (∃ t, Crew.Replied p.trace t o r) ∧ TellsSize digitsValue (fun _ => true) onlyFile.url 5 o r := by
  have hrun : (((probing digitsValue fun _ => true).system 1000).replay (fun _ _ => true)
      (probeSizes [onlyFile]) [.exec 0 ⟨0, fun _ => none⟩, .finish 0,
        .exec 1 ⟨0, fun _ => some { statusCode := 200, contentLength := .one ['5'] }⟩, .finish 1]).any
      (fun p => (p.state.records onlyFile.url).any (·.size = some 5)) = true := by decide
  obtain ⟨p, hp, hsize⟩ := Option.any_eq_true _ _ |>.mp hrun
  have hr := ((probing digitsValue fun _ => true).system 1000).replay_runs (C := fun _ _ => True)
    (fun _ _ _ => trivial) hp
  obtain ⟨result, hres, h5⟩ := Option.any_eq_true _ _ |>.mp hsize
  exact ⟨p, hr, hsize, ((sizes_as_told digitsValue (fun _ => true) hr).2.2.1 _ result hres).2.1 5
    (of_decide_eq_true h5)⟩

end CircleFtp.Titles
