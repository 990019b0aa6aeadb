import CircleFtp.Concurrent.Crew
import CircleFtp.Titles.Search

/-! The season counts of search results: `enrichSeries` of `circleftp/search.ts`. -/
namespace CircleFtp.Titles
open Strings Concurrent

/-- What the card of a series shows of its seasons. -/
structure SeasonCounts where
  seasonCount : Nat
  episodeCount : Nat
  seasonNames : List Str
deriving DecidableEq

structure CountedResult extends SearchResult where
  counts : Option SeasonCounts := none
deriving DecidableEq

def seasonCounts (post : RawPost) : SeasonCounts :=
  let seasons := match post.content with
    | .list items => items
    | _ => []
  { seasonCount := seasons.length
    episodeCount := seasons.foldl (fun total season =>
      total + ((season.bind (·.episodes)).map List.length).getD 0) 0
    seasonNames := ((seasons.map fun season => (season.bind (·.seasonName)).getD []).filter (· ≠ [])).take 12 }

inductive DetailRequest where
  | fetchPost (postId : Str)

/-- No post where the call throws. -/
abbrev DetailReply : DetailRequest → Type := fun _ => Option RawPost

/-- A result that the counts are wanted of, by its place in the list. -/
structure Target where
  place : Nat
  postId : Str
deriving DecidableEq

/-- A number that is neither zero nor none. -/
def truthyNumber (printed : Str) : Bool := printed ≠ "0".toList && printed ≠ "NaN".toList

def targets (results : List SearchResult) : List Target :=
  results.zipIdx.filterMap fun x =>
    if x.1.kind = some .series && truthyNumber x.1.postId then some ⟨x.2, x.1.postId⟩ else none

def enrichConcurrency : Nat := 6

/-- Leave the counts undefined where the request fails. -/
def enriching : Crew Target (List CountedResult) DetailRequest DetailReply (Option SeasonCounts) where
  skip _ _ := false
  work target _ := do return (← Program.perform (.fetchPost target.postId)).map seasonCounts
  record results target counts := match counts with
    | none => results
    | some counts => results.modify target.place fun r => { r with counts := some counts }

abbrev EnrichPool :=
  Crew.CrewPool Target (List CountedResult) DetailRequest DetailReply (Option SeasonCounts)

/-- `enrichSeries`, with its workers started. -/
def enrichSeries (results : List SearchResult) : EnrichPool :=
  Crew.start (min enrichConcurrency (targets results).length) (targets results)
    (results.map fun r => { toSearchResult := r })

def recordAll (results : List CountedResult) (done : List (Target × Option SeasonCounts)) : List CountedResult :=
  done.foldr (fun done s => enriching.record s done.1 done.2) results

variable {results : List CountedResult} {done : List (Target × Option SeasonCounts)} {i : Nat}

theorem recordAll_some (results : List CountedResult) (x : Target) (c : SeasonCounts)
    (done : List (Target × Option SeasonCounts)) : (recordAll results ((x, some c) :: done))[i]? =
      (recordAll results done)[i]?.map fun r => if x.place = i then { r with counts := some c } else r := by
  rw [recordAll, List.foldr_cons]
  refine (List.getElem?_modify ..).trans ?_
  split <;> simp_all [recordAll]

/-- The results keep their places and all that the search found out. -/
theorem recordAll_kept (results : List CountedResult) (done : List (Target × Option SeasonCounts)) :
    (recordAll results done)[i]?.map (·.toSearchResult) = results[i]?.map (·.toSearchResult) := by
  induction done with
  | nil => rfl
  | cons x done ih =>
    obtain ⟨target, c⟩ := x
    cases c with
    | none => exact ih
    | some c =>
      rw [recordAll_some, Option.map_map, ← ih]
      congr 1
      funext r
      dsimp only [Function.comp]
      split <;> rfl

/-- The counts of a result are what some request for it came to. -/
theorem recordAll_counts {r : CountedResult} {c : SeasonCounts} (h : (recordAll results done)[i]? = some r)
    (hc : r.counts = some c) :
    (∃ target, (target, some c) ∈ done ∧ target.place = i) ∨
      ∃ r', results[i]? = some r' ∧ r'.counts = some c := by
  induction done generalizing r with
  | nil => exact .inr ⟨r, h, hc⟩
  | cons x done ih =>
    have later (r' : CountedResult) (h' : (recordAll results done)[i]? = some r') (hc' : r'.counts = some c) :
        (∃ target, (target, some c) ∈ x :: done ∧ target.place = i) ∨
          ∃ r', results[i]? = some r' ∧ r'.counts = some c := by
      rcases ih h' hc' with ⟨target, hm, hp⟩ | h
      · exact .inl ⟨target, List.mem_cons_of_mem x hm, hp⟩
      · exact .inr h
    obtain ⟨target, d⟩ := x
    cases d with
    | none => exact later r h hc
    | some d =>
      rw [recordAll_some] at h
      obtain ⟨r', h', rfl⟩ := Option.map_eq_some_iff.mp h
      split at hc
      · rename_i hp
        cases hc
        exact .inl ⟨target, List.mem_cons_self, hp⟩
      · exact later r' h' hc

/-- A request that succeeded leaves its result with counts. -/
theorem recordAll_counted {target : Target} {c : SeasonCounts} (hm : (target, some c) ∈ done)
    (hi : target.place < results.length) :
    ∃ r, (recordAll results done)[target.place]? = some r ∧ r.counts.isSome = true := by
  induction done with
  | nil => cases hm
  | cons x done ih =>
    obtain ⟨other, d⟩ := x
    cases d with
    | none => exact ih ((List.mem_cons.mp hm).resolve_left fun e => by (cases e))
    | some d =>
      rw [recordAll_some]
      have hr : ((recordAll results done)[target.place]?.map (·.toSearchResult)).isSome = true := by
        rw [recordAll_kept, List.getElem?_eq_getElem hi]
        rfl
      obtain ⟨r, hr⟩ := Option.isSome_iff_exists.mp ((Option.isSome_map ..).symm.trans hr)
      by_cases e : other.place = target.place
      · exact ⟨{ r with counts := some d }, by rw [hr, Option.map_some, if_pos e], rfl⟩
      · obtain ⟨r', hr', hc⟩ := ih ((List.mem_cons.mp hm).resolve_left fun h => e (by cases h; rfl))
        exact ⟨r', by rw [hr', Option.map_some, if_neg e], hc⟩

theorem mem_targets {found : List SearchResult} {target : Target} (h : target ∈ targets found) :
    ∃ r, found[target.place]? = some r ∧ r.kind = some .series ∧ r.postId = target.postId := by
  obtain ⟨⟨r, place⟩, hx, ht⟩ := List.mem_filterMap.mp h
  split at ht
  · rename_i hk
    cases ht
    refine ⟨r, ?_, ?_, rfl⟩
    · simpa using List.mem_zipIdx_iff_getElem?.mp hx
    · simpa using (Bool.and_eq_true_iff.mp hk).1
  · cases ht

theorem enriching_comes {given : (o : DetailRequest) → DetailReply o → Prop} {target : Target} {left : Nat}
    {c : Option SeasonCounts} (h : (enriching.work target left).Comes given c) :
    ∃ r, given (.fetchPost target.postId) r ∧ r.map seasonCounts = c := h

theorem enriching_asks (target : Target) (left : Nat) :
    (enriching.work target left).Uses (· = .fetchPost target.postId) := ⟨rfl, fun _ => trivial⟩

variable {found : List SearchResult} {deadline : Nat} {p : EnrichPool}

/-- At most six workers fill in the counts. The results stay what and where the search put them, and a
result with counts is a series whose post has been fetched and has these seasons. At the end the series
that they have taken are the first of the list, up to where the time was over: each has counts, or its
request failed, and no other result has counts. -/
theorem enriched_in_place (hr : (enriching.system deadline).Runs (fun _ _ => True) (enrichSeries found) p) :
    p.count (fun _ => true) ≤ enrichConcurrency ∧
    p.state.records.map (·.toSearchResult) = found ∧
    (∀ t k o r s s', Event.did t k (.work o) r s s' ∈ p.trace →
      ∃ target ∈ targets found, o = .fetchPost target.postId) ∧
    (∀ r ∈ p.state.records, ∀ c, r.counts = some c → r.kind = some .series ∧
      ∃ t post, Crew.Replied p.trace t (.fetchPost r.postId) (some post) ∧ seasonCounts post = c) ∧
    (enriching.system deadline).Ends (fun _ _ => True) p ∧
    ((enriching.system deadline).Still (fun _ _ => True) p → (∀ t, p.threads t = none) ∧
      targets found = Crew.taken p ++ p.state.queue ∧
      (p.state.queue = [] ∨ p.trace.any Crew.isLate = true) ∧
      (∀ target ∈ Crew.taken p, (∃ r, p.state.records[target.place]? = some r ∧ r.counts.isSome = true) ∨
        ∃ t left s s', Event.ended t (.job target left) (.inr none) s s' ∈ p.trace ∧
          Crew.Replied p.trace t (.fetchPost target.postId) none) ∧
      ∀ i r, p.state.records[i]? = some r → r.counts.isSome = true →
        ∃ target ∈ Crew.taken p, target.place = i) := by
  have kept := Crew.Kept.run hr
  have hrec : p.state.records = recordAll (found.map fun r => { toSearchResult := r })
      (p.trace.filterMap Crew.finished) := kept.records
  have shown (i : Nat) : p.state.records[i]?.map (·.toSearchResult) = found[i]? := by
    rw [hrec, recordAll_kept, List.getElem?_map, Option.map_map]
    exact Option.map_id'
  have source {target : Target} {c : Option SeasonCounts} (hm : (target, c) ∈ p.trace.filterMap Crew.finished) :
      ∃ t left s s', Event.ended t (.job target left) (.inr c) s s' ∈ p.trace ∧
        ∃ r, Crew.Replied p.trace t (.fetchPost target.postId) r ∧ r.map seasonCounts = c := by
    obtain ⟨t, left, s, s', he⟩ := Crew.mem_finished hm
    exact ⟨t, left, s, s', he, enriching_comes (Crew.Sourced.run hr t target left c s s' he)⟩
  have counted {i : Nat} {r : CountedResult} {c : SeasonCounts} (hi : p.state.records[i]? = some r)
      (hc : r.counts = some c) : ∃ target, (target, some c) ∈ p.trace.filterMap Crew.finished ∧
        target.place = i := by
    rw [hrec] at hi
    refine (recordAll_counts hi hc).resolve_right ?_
    rintro ⟨r', h', hc'⟩
    rw [List.getElem?_map] at h'
    obtain ⟨r'', -, rfl⟩ := Option.map_eq_some_iff.mp h'
    cases hc'
  refine ⟨(Crew.count_run hr).trans (Nat.min_le_left _ _), ?_, fun t k o r s s' h => ?_, fun r hm c hc => ?_,
    kept.ends, fun still => ?_⟩
  · refine List.ext_getElem? fun i => ?_
    rw [List.getElem?_map]
    exact shown i
  · have asked : Crew.Asked (fun target o => o = .fetchPost target.postId) (targets found) p :=
      .run enriching_asks hr
    exact asked t k o r s s' h
  · obtain ⟨i, hi⟩ := List.mem_iff_getElem?.mp hm
    obtain ⟨target, hd, rfl⟩ := counted hi hc
    obtain ⟨found', hf, hk, hid⟩ := mem_targets (kept.taken_mem (kept.finished_taken hd))
    have hr' : r.toSearchResult = found' := by
      have := shown target.place
      rw [hi, hf] at this
      exact Option.some.inj this
    obtain ⟨t, -, -, -, -, reply, hreply, hcounts⟩ := source hd
    obtain ⟨post, rfl, hpost⟩ := Option.map_eq_some_iff.mp hcounts
    rw [hr', hid]
    exact ⟨hk, t, post, hreply, hpost⟩
  · have gone := Crew.still_empty (fun _ => none) still
    refine ⟨gone, kept.order, Crew.queue_rest (Crew.crewed (by decide) _) hr gone, fun target hm => ?_,
      fun i r hi hc => ?_⟩
    · rcases kept.taken_rest gone hm with h | ⟨c, h⟩
      · exact absurd (Crew.skips_run (fun _ _ _ _ h => h) hr target h) Bool.false_ne_true
      · cases c with
        | none =>
          obtain ⟨t, left, s, s', he, reply, hreply, hnone⟩ := source h
          obtain rfl := Option.map_eq_none_iff.mp hnone
          exact .inr ⟨t, left, s, s', he, hreply⟩
        | some c =>
          obtain ⟨r, hf, -⟩ := mem_targets (kept.taken_mem hm)
          rw [hrec]
          refine .inl (recordAll_counted h ?_)
          rw [List.length_map]
          exact (List.getElem?_eq_some_iff.mp hf).1
    · obtain ⟨c, hc⟩ := Option.isSome_iff_exists.mp hc
      obtain ⟨target, hd, e⟩ := counted hi hc
      exact ⟨target, kept.finished_taken hd, e⟩

def onlySeries : SearchResult where
  postId := ['7']
  name := []
  title := []
  year := none
  quality := []
  kind := some .series
  type := []
  category := []
  watchTime := none
  posterUrl := none
  strength := .exactly

/-- A series whose post can be fetched. -/
theorem enriched_in_place_one : ∃ p : EnrichPool,
    (enriching.system 1000).Runs (fun _ _ => True) (enrichSeries [onlySeries]) p ∧
      ∃ r ∈ p.state.records, r.kind = some .series ∧ ∃ t post,
        Crew.Replied p.trace t (.fetchPost r.postId) (some post) ∧ seasonCounts post = ⟨1, 2, []⟩ := by
  have hrun : ((enriching.system 1000).replay (fun _ _ => true) (enrichSeries [onlySeries])
      [.exec 0 ⟨0, fun _ => none⟩, .finish 0,
        .exec 1 ⟨0, fun _ => some { content := .list [some { episodes := some [none, none] }] }⟩, .finish 1]).any
      (fun p => p.state.records.any (·.counts = some ⟨1, 2, []⟩)) = true := by decide
  obtain ⟨p, hp, hcounts⟩ := Option.any_eq_true _ _ |>.mp hrun
  have hr := (enriching.system 1000).replay_runs (C := fun _ _ => True) (fun _ _ _ => trivial) hp
  obtain ⟨r, hm, hc⟩ := List.any_eq_true.mp hcounts
  exact ⟨p, hr, r, hm, (enriched_in_place hr).2.2.2.1 r hm _ (of_decide_eq_true hc)⟩

end CircleFtp.Titles
