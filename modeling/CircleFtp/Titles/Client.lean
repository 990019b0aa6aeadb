import CircleFtp.ApiError
import CircleFtp.Strings.Basic

/-! Requests to the upstream API: `circleftp/client.ts`, with the errors of `circleftp/types.ts`
and the part of `routes/library.ts` that reports them. -/
namespace CircleFtp.Titles
open Strings

inductive Json where
  | null
  | bool (b : Bool)
  | num (n : Float)
  | str (s : Str)
  | arr (elements : List Json)
  | obj (fields : List (Str × Json))

def Json.truthy : Json → Bool
  | .null => false
  | .bool b => b
  | .num n => n != 0
  | .str s => s ≠ []
  | .arr _ | .obj _ => true

def Json.typeofObject : Json → Bool
  | .null | .arr _ | .obj _ => true
  | _ => false

/-- A property that no value has but an object with that field. -/
def Json.field (data : Json) (name : String) : Option Json :=
  match data with
  | .obj fields => (fields.find? (·.1 = name.toList)).map Prod.snd
  | _ => none

structure CircleFtpError where
  message : String
  status : Option Nat := none
deriving DecidableEq

inductive Raised where
  | circleFtp (e : CircleFtpError)
  | typeError (message : String)

/-- Reading or dumping a body may fail, with or without a message. -/
inductive Body where
  | text (s : Str)
  | broken (error : Option String)

inductive Upstream where
  | rejected (error : Option String)
  | answered (statusCode : Nat) (body : Body)

structure Endpoint where
  path : Str
  params : List (String × Str) := []

/-- What a call comes to, and after how many requests. -/
structure Exchange (α : Type) where
  result : Except Raised α
  requests : Nat

def retryableStatus : List Nat := [429, 500, 502, 503, 504]

def maxAttempts : Nat := 3

/-- How one pass through the loop ends. -/
inductive Pass where
  | returned (data : Json)
  | thrown (e : CircleFtpError)
  | caught (error : Option String)
  | again

def notFoundUpstream : CircleFtpError := ⟨"Not found on Circle FTP", some 404⟩

def readText (parse : Str → Option Json) (s : Str) : Pass :=
  if (trim s).length = 0 then .thrown notFoundUpstream
  else
    match parse s with
    | some data => .returned data
    | none => .thrown ⟨"Circle FTP returned a response we could not read", none⟩

def attemptRequest (parse : Str → Option Json) (attempt : Nat) : Upstream → Pass
  | .rejected error | .answered _ (.broken error) => .caught error
  | .answered statusCode (.text s) =>
    if statusCode = 404 then .thrown notFoundUpstream
    else if statusCode ≥ 400 then
      if statusCode ∈ retryableStatus ∧ attempt < maxAttempts then .again
      else .thrown ⟨s!"Circle FTP returned HTTP {statusCode}", some statusCode⟩
    else readText parse s

def getJsonFrom (parse : Str → Option Json) (upstream : Nat → Upstream) (attempt : Nat)
    (lastError : Option String) : Nat → Exchange Json
  | 0 => ⟨.error (.circleFtp
      ⟨"Circle FTP is unreachable (" ++ lastError.getD "unknown error" ++ ")", none⟩), attempt - 1⟩
  | left + 1 =>
    match attemptRequest parse attempt (upstream attempt) with
    | .returned data => ⟨.ok data, attempt⟩
    | .thrown e => ⟨.error (.circleFtp e), attempt⟩
    | .caught error => getJsonFrom parse upstream (attempt + 1) error left
    | .again => getJsonFrom parse upstream (attempt + 1) lastError left

def getJson (parse : Str → Option Json) (upstream : Nat → Upstream) : Exchange Json :=
  getJsonFrom parse upstream 1 none maxAttempts

def searchEndpoint (query : Str) : Endpoint :=
  ⟨"/posts".toList, [("searchTerm", query), ("order", "desc".toList)]⟩

def postEndpoint (postId : Nat) : Endpoint := ⟨"/posts/".toList ++ Nat.toDigits 10 postId, []⟩

def postsOf : Json → Except Raised (List Json)
  | .arr elements => .ok elements
  | .null => .error (.typeError "Cannot read properties of null (reading 'posts')")
  | data =>
    match data.field "posts" with
    | some (.arr posts) => .ok posts
    | _ => .ok []

def postOf (postId : Nat) (data : Json) : Except Raised Json :=
  if !data.truthy || !data.typeofObject || (data.field "id").isNone then
    .error (.circleFtp ⟨s!"Post {postId} was not found on Circle FTP", some 404⟩)
  else .ok data

/-- Raw, unranked search results. -/
def rawSearch (parse : Str → Option Json) (upstream : Endpoint → Nat → Upstream) (query : Str) :
    Exchange (List Json) :=
  let fetched := getJson parse (upstream (searchEndpoint query))
  ⟨fetched.result >>= postsOf, fetched.requests⟩

/-- Full detail for one post. -/
def fetchPost (parse : Str → Option Json) (upstream : Endpoint → Nat → Upstream) (postId : Nat) :
    Exchange Json :=
  let fetched := getJson parse (upstream (postEndpoint postId))
  ⟨fetched.result >>= postOf postId, fetched.requests⟩

def rethrowUpstream : Raised → ApiError ⊕ Raised
  | .circleFtp e =>
    .inl (if e.status = some 404 then .notFound "That title is no longer on Circle FTP"
      else .upstream e.message)
  | e => .inr e

/-- A failure of the network, also while the body is read, or a status worth a second attempt. -/
def Upstream.transient : Upstream → Bool
  | .rejected _ | .answered _ (.broken _) => true
  | .answered statusCode (.text _) => retryableStatus.contains statusCode

/-- A readable answer. -/
def Answers (parse : Str → Option Json) (u : Upstream) (data : Json) : Prop :=
  ∃ statusCode s, u = .answered statusCode (.text s) ∧ statusCode < 400 ∧ trim s ≠ [] ∧
    parse s = some data

/-- At most three requests, each but the last with a transient failure, and then a normal result or
a `CircleFtpError`. -/
structure Surfaces {α : Type} (upstream : Nat → Upstream) (normal : α → Prop) (x : Exchange α) : Prop where
  few : x.requests ≤ 3
  retried : ∀ i, 1 ≤ i → i < x.requests → (upstream i).transient = true
  ends : (∃ a, x.result = .ok a ∧ normal a) ∨ ∃ e, x.result = .error (.circleFtp e)

/-- From an attempt on, the first answer that is not a transient failure is readable and in time. -/
def Reads (parse : Str → Option Json) (upstream : Nat → Upstream) (attempt : Nat) (data : Json) : Prop :=
  ∃ i, attempt ≤ i ∧ i ≤ maxAttempts ∧ (∀ j, attempt ≤ j → j < i → (upstream j).transient = true) ∧
    Answers parse (upstream i) data

/-- What the loop does from an attempt on. -/
structure Called (parse : Str → Option Json) (upstream : Nat → Upstream) (attempt : Nat)
    (x : Exchange Json) : Prop where
  few : x.requests ≤ maxAttempts
  retried : ∀ i, attempt ≤ i → i < x.requests → (upstream i).transient = true
  ends : (∃ data, x.result = .ok data ∧ Reads parse upstream attempt data) ∨
    ∃ e, x.result = .error (.circleFtp e) ∧ ∀ data, ¬ Reads parse upstream attempt data

section
variable {parse : Str → Option Json} {upstream : Nat → Upstream} {attempt left : Nat}
  {lastError : Option String} {data : Json} {u : Upstream}

theorem not_retryable {statusCode : Nat} (h : statusCode < 429) (s : Str) :
    (Upstream.answered statusCode (.text s)).transient = false := by
  simp only [Upstream.transient, retryableStatus, List.contains_eq_mem, List.mem_cons,
    List.not_mem_nil, or_false, decide_eq_false_iff_not]
  omega

theorem Answers.not_transient (h : Answers parse u data) : u.transient = false := by
  obtain ⟨statusCode, s, rfl, hlt, -⟩ := h
  exact not_retryable (by omega) s

theorem readText_answers {statusCode : Nat} {s : Str} (hlt : statusCode < 400) :
    readText parse s = .returned data ↔ Answers parse (.answered statusCode (.text s)) data := by
  simp only [readText, List.length_eq_zero_iff]
  constructor
  · intro h
    split at h
    · cases h
    · split at h
      · obtain rfl := Pass.returned.inj h
        exact ⟨statusCode, s, rfl, hlt, ‹_›, ‹_›⟩
      · cases h
  · rintro ⟨_, _, hu, -, hs, hd⟩
    cases hu
    rw [if_neg hs, hd]

theorem readText_cases (parse : Str → Option Json) (s : Str) :
    (∃ data, readText parse s = .returned data) ∨ ∃ e, readText parse s = .thrown e := by
  rw [readText]
  split
  · exact .inr ⟨_, rfl⟩
  · split
    · exact .inl ⟨_, rfl⟩
    · exact .inr ⟨_, rfl⟩

/-- The ways in which a pass ends. -/
inductive PassEnds (parse : Str → Option Json) (attempt : Nat) (u : Upstream) : Pass → Prop
  | returned (data : Json) : Answers parse u data → PassEnds parse attempt u (.returned data)
  | thrown (e : CircleFtpError) : (∀ data, ¬ Answers parse u data) →
    (attempt < maxAttempts → u.transient = false) → PassEnds parse attempt u (.thrown e)
  | caught (error : Option String) : u.transient = true → PassEnds parse attempt u (.caught error)
  | again : u.transient = true → PassEnds parse attempt u .again

theorem attempt_ends (parse : Str → Option Json) (attempt : Nat) (u : Upstream) :
    PassEnds parse attempt u (attemptRequest parse attempt u) := by
  cases u with
  | rejected error => exact .caught error rfl
  | answered statusCode body =>
    cases body with
    | broken error => exact .caught error rfl
    | text s =>
      have refused (h : 400 ≤ statusCode) (data : Json) :
          ¬ Answers parse (.answered statusCode (.text s)) data := by
        rintro ⟨_, _, hu, hlt, -⟩
        cases hu
        omega
      rw [attemptRequest]
      split
      · next h => exact .thrown _ (refused (by omega)) fun _ => not_retryable (by omega) s
      · split
        · next h =>
          split
          · next hr => exact .again (List.contains_iff_mem.mpr hr.1)
          · next hr => exact .thrown _ (refused h) fun hl =>
              Bool.eq_false_iff.mpr fun ht => hr ⟨List.contains_iff_mem.mp ht, hl⟩
        · next h =>
          have hlt : statusCode < 400 := by omega
          rcases readText_cases parse s with ⟨data, hd⟩ | ⟨e, he⟩
          · rw [hd]
            exact .returned data ((readText_answers hlt).mp hd)
          · rw [he]
            refine .thrown e (fun data ha => ?_) fun _ => not_retryable (by omega) s
            rw [(readText_answers hlt).mpr ha] at he
            cases he

theorem reads_later (h : (upstream attempt).transient = true) :
    Reads parse upstream attempt data ↔ Reads parse upstream (attempt + 1) data := by
  constructor
  · rintro ⟨i, hi, hle, hbefore, ha⟩
    rcases Nat.eq_or_lt_of_le hi with rfl | hi
    · rw [ha.not_transient] at h
      cases h
    · exact ⟨i, hi, hle, fun j hj => hbefore j (by omega), ha⟩
  · rintro ⟨i, hi, hle, hbefore, ha⟩
    refine ⟨i, by omega, hle, fun j hj hji => ?_, ha⟩
    rcases Nat.eq_or_lt_of_le hj with rfl | hj
    · exact h
    · exact hbefore j hj hji

theorem Called.later {x : Exchange Json} (h : (upstream attempt).transient = true)
    (hx : Called parse upstream (attempt + 1) x) : Called parse upstream attempt x := by
  refine ⟨hx.few, fun i hi hlt => ?_, ?_⟩
  · rcases Nat.eq_or_lt_of_le hi with rfl | hi
    · exact h
    · exact hx.retried i hi hlt
  · simpa only [reads_later h] using hx.ends

/-- The loop, by induction on the attempts left. -/
theorem getJsonFrom_called (hn : attempt + left = maxAttempts + 1) :
    Called parse upstream attempt (getJsonFrom parse upstream attempt lastError left) := by
  induction left generalizing attempt lastError with
  | zero =>
    refine ⟨?_, fun i hi hlt => ?_, .inr ⟨_, rfl, ?_⟩⟩
    · simp only [getJsonFrom]
      omega
    · simp only [getJsonFrom] at hlt
      omega
    · rintro data ⟨i, hi, hle, -⟩
      omega
  | succ left ih =>
    have next (lastError : Option String) : Called parse upstream (attempt + 1)
        (getJsonFrom parse upstream (attempt + 1) lastError left) := ih (by omega)
    have hends := attempt_ends parse attempt (upstream attempt)
    rw [getJsonFrom]
    generalize attemptRequest parse attempt (upstream attempt) = pass at hends
    cases hends with
    | returned data ha =>
      exact ⟨by simp only; omega, fun i hi hlt => absurd hlt (Nat.not_lt.mpr hi),
        .inl ⟨data, rfl, attempt, Nat.le_refl _, by omega,
          fun j hj hlt => absurd hlt (Nat.not_lt.mpr hj), ha⟩⟩
    | thrown e hno hnt =>
      refine ⟨by simp only; omega, fun i hi hlt => absurd hlt (Nat.not_lt.mpr hi), .inr ⟨e, rfl, ?_⟩⟩
      rintro data ⟨i, hi, hle, hbefore, ha⟩
      rcases Nat.eq_or_lt_of_le hi with rfl | hi
      · exact hno data ha
      · rw [hbefore attempt (Nat.le_refl _) hi] at hnt
        cases hnt (by omega)
    | caught error ht => exact (next error).later ht
    | again ht => exact (next lastError).later ht

theorem reads_unique {data' : Json} (h : Reads parse upstream attempt data)
    (h' : Reads parse upstream attempt data') : data = data' := by
  obtain ⟨i, hi, -, hbefore, ha⟩ := h
  obtain ⟨j, hj, -, hbefore', ha'⟩ := h'
  have same : i = j := by
    rcases Nat.lt_trichotomy i j with hlt | rfl | hlt
    · cases (hbefore' i hi hlt).symm.trans ha.not_transient
    · rfl
    · cases (hbefore j hj hlt).symm.trans ha'.not_transient
  subst same
  obtain ⟨statusCode, s, hu, -, -, hp⟩ := ha
  obtain ⟨statusCode', s', hu', -, -, hp'⟩ := ha'
  rw [hu] at hu'
  cases hu'
  exact Option.some.inj (hp.symm.trans hp')

theorem postsOf_ok (h : data ≠ .null) : ∃ posts, postsOf data = .ok posts := by
  cases data with
  | null => exact absurd rfl h
  | arr elements => exact ⟨elements, rfl⟩
  | bool b | num n | str s => exact ⟨[], rfl⟩
  | obj fields =>
    simp only [postsOf]
    split
    · exact ⟨_, rfl⟩
    · exact ⟨_, rfl⟩

/-- An object with a field `id`. -/
def Identified (data : Json) : Prop := ∃ fields id, data = .obj fields ∧ data.field "id" = some id

theorem postOf_cases (postId : Nat) (data : Json) :
    (postOf postId data = .ok data ∧ Identified data) ∨ ∃ e, postOf postId data = .error (.circleFtp e) := by
  rw [postOf]
  split
  · exact .inr ⟨_, rfl⟩
  · next h =>
    simp only [Bool.or_eq_true, not_or, Option.isNone_iff_eq_none] at h
    obtain ⟨id, hid⟩ := Option.ne_none_iff_exists'.mp h.2
    cases data with
    | obj fields => exact .inl ⟨rfl, fields, id, rfl, hid⟩
    | null | bool b | num n | str s | arr elements => cases hid

end

theorem getJson_called (parse : Str → Option Json) (upstream : Nat → Upstream) :
    Called parse upstream 1 (getJson parse upstream) := getJsonFrom_called rfl

theorem fetchPost_surfaces (parse : Str → Option Json) (upstream : Endpoint → Nat → Upstream)
    (postId : Nat) :
    Surfaces (upstream (postEndpoint postId)) Identified (fetchPost parse upstream postId) := by
  have called := getJson_called parse (upstream (postEndpoint postId))
  refine ⟨called.few, called.retried, ?_⟩
  rcases called.ends with ⟨data, hd, -⟩ | ⟨e, he, -⟩
  · rw [fetchPost, hd]
    rcases postOf_cases postId data with ⟨hok, hid⟩ | ⟨e, he⟩
    · exact .inl ⟨data, hok, hid⟩
    · exact .inr ⟨e, he⟩
  · rw [fetchPost, he]
    exact .inr ⟨e, rfl⟩

/-- Of `null` the search takes a property. -/
theorem rawSearch_surfaces (parse : Str → Option Json) (upstream : Endpoint → Nat → Upstream)
    (query : Str) :
    Surfaces (upstream (searchEndpoint query)) (fun _ => True) (rawSearch parse upstream query) ↔
    ¬ Reads parse (upstream (searchEndpoint query)) 1 .null := by
  have called := getJson_called parse (upstream (searchEndpoint query))
  rcases called.ends with ⟨data, hd, hr⟩ | ⟨e, he, hn⟩
  · have result : (rawSearch parse upstream query).result = postsOf data := by
      rw [rawSearch, hd]
      rfl
    constructor
    · intro h hnull
      obtain rfl := reads_unique hr hnull
      rcases h.ends with ⟨posts, hok, -⟩ | ⟨e, he⟩
      · cases hok.symm.trans result
      · cases he.symm.trans result
    · intro hnull
      have some_data : data ≠ .null := fun h => hnull (h ▸ hr)
      obtain ⟨posts, hp⟩ := postsOf_ok some_data
      exact ⟨called.few, called.retried, .inl ⟨posts, result.trans hp, trivial⟩⟩
  · refine iff_of_true ⟨called.few, called.retried, .inr ⟨e, ?_⟩⟩ (hn .null)
    rw [rawSearch, he]
    rfl

/-- Trouble with the upstream surfaces as a `CircleFtpError`, unless the answer to a search is `null`. -/
theorem trouble_surfaces (parse : Str → Option Json) (upstream : Endpoint → Nat → Upstream)
    (query : Str) (postId : Nat) :
    (Surfaces (upstream (searchEndpoint query)) (fun _ => True) (rawSearch parse upstream query) ∧
      Surfaces (upstream (postEndpoint postId)) Identified (fetchPost parse upstream postId)) ↔
    ¬ Reads parse (upstream (searchEndpoint query)) 1 .null := by
  rw [and_iff_left (fetchPost_surfaces parse upstream postId)]
  exact rawSearch_surfaces parse upstream query

def parseNull (s : Str) : Option Json := if s = "null".toList then some .null else none

theorem null_search_escapes :
    (rawSearch parseNull (fun _ _ => .answered 200 (.text "null".toList)) "dune".toList).result =
      .error (.typeError "Cannot read properties of null (reading 'posts')") ∧
    ¬ Surfaces (fun _ => .answered 200 (.text "null".toList)) (fun _ => True)
      (rawSearch parseNull (fun _ _ => .answered 200 (.text "null".toList)) "dune".toList) := by
  have escapes : (rawSearch parseNull (fun _ _ => .answered 200 (.text "null".toList))
      "dune".toList).result = .error (.typeError "Cannot read properties of null (reading 'posts')") := rfl
  refine ⟨escapes, fun h => ?_⟩
  rcases h.ends with ⟨posts, hok, -⟩ | ⟨e, he⟩
  · cases hok.symm.trans escapes
  · cases he.symm.trans escapes

/-- What surfaces so is reported as not found or as a bad gateway. -/
theorem rethrowUpstream_reports {α : Type} {upstream : Nat → Upstream} {normal : α → Prop}
    {x : Exchange α} (h : Surfaces upstream normal x) {e : Raised} (he : x.result = .error e) :
    ∃ a, rethrowUpstream e = .inl a ∧ (a.status = 404 ∨ a.status = 502) := by
  rcases h.ends with ⟨a, ha, -⟩ | ⟨e', he'⟩
  · cases ha.symm.trans he
  · cases he.symm.trans he'
    refine ⟨_, rfl, ?_⟩
    split
    · exact .inl rfl
    · exact .inr rfl

end CircleFtp.Titles
