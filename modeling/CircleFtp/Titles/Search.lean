import CircleFtp.Ranking
import CircleFtp.Strings.Http
import CircleFtp.Titles.Plan

/-! Search ranking and result normalisation: `circleftp/search.ts`. -/
namespace CircleFtp.Titles
open Strings Ranking

inductive TitleKind where
  | movie | series | file
deriving DecidableEq

inductive MatchStrength where
  | exactly | prefixed | contains | title | weak
deriving DecidableEq

structure RawCategory where
  name : Option Str := none
  type : Option Str := none

/-- A post with what a search result shows of it. -/
structure FoundPost extends RawPost where
  yearIsNumber : Bool := false
  quality : Option Str := none
  watchTime : Option Str := none
  image : Option Str := none
  imageSm : Option Str := none
  categories : Option (List (Option RawCategory)) := none

structure SearchResult where
  postId : Str
  name : Str
  title : Str
  year : Option Str
  quality : Str
  kind : Option TitleKind
  type : Str
  category : Str
  watchTime : Option Str
  posterUrl : Option Str
  strength : MatchStrength
deriving DecidableEq

def typeToKind : List (String × TitleKind) :=
  [("series", .series), ("singleVideo", .movie), ("multiVideo", .movie), ("singleFile", .file),
    ("multiFile", .file)]

/-- What every object of the language has, and a table of kinds too. -/
def inherited : List String :=
  ["constructor", "__defineGetter__", "__defineSetter__", "hasOwnProperty", "__lookupGetter__",
    "__lookupSetter__", "isPrototypeOf", "propertyIsEnumerable", "toString", "valueOf", "__proto__",
    "toLocaleString"]

def matchByScore : List MatchStrength := [.exactly, .prefixed, .contains, .title, .weak]

def weakScore : Nat := 4

/-- No kind where the look-up finds an inherited property. -/
def kindOf (post : FoundPost) : Option TitleKind :=
  let type := post.type.getD "undefined".toList
  match typeToKind.find? (·.1.toList = type) with
  | some entry => some entry.2
  | none => if inherited.any (·.toList = type) then none else some .file

/-- The genre to show: a main category that is not the one for featured posts, or else the first. -/
def mainCategory (post : FoundPost) : Str :=
  let categories := post.categories.getD []
  let main := categories.filterMap fun category => category.bind fun c =>
    if c.type = some "main".toList then
      (present c.name).filter fun name => name.flatMap lower ≠ "featured post".toList
    else none
  let any := categories.filterMap fun category => category.bind fun c => present c.name
  main.headD (any.headD [])

/-- Does the second text occur in the first? -/
def includes : Str → Str → Bool
  | [], t => t.isEmpty
  | c :: s, t => t.isPrefixOf (c :: s) || includes s t

def scoreOf (post : FoundPost) (normalizedQuery : Str) : Nat :=
  let name := normalizeText (post.name.getD [])
  let title := normalizeText (post.title.getD [])
  if name = normalizedQuery then 0
  else if normalizedQuery.isPrefixOf name then 1
  else if includes name normalizedQuery then 2
  else if includes title normalizedQuery then 3
  else weakScore

/-- A path of our own API, so that the browser never asks the upstream. -/
def posterPath (post : FoundPost) : Option Str :=
  (present (post.image.or post.imageSm)).map fun filename =>
    "/api/library/image/".toList ++ encodeURIComponent filename

def toSearchResult (post : FoundPost) (strength : MatchStrength) : SearchResult where
  postId := post.id.getD "NaN".toList
  name := (post.name.or post.title).getD "Untitled".toList
  title := (post.title.or post.name).getD "Untitled".toList
  year := (post.year.filter fun year => year ≠ if post.yearIsNumber then ['0'] else []).or
    (firstYear (post.title.getD []))
  quality := post.quality.getD []
  kind := kindOf post
  type := post.type.getD []
  category := mainCategory post
  watchTime := present post.watchTime
  posterUrl := posterPath post
  strength := strength

structure SearchOptions where
  kind : Option TitleKind := none
  limit : Int := 24

structure Scored where
  post : FoundPost
  order : Nat
  score : Nat

/-- The comparison of the sort. -/
def Scored.notAfter (a b : Scored) : Bool :=
  a.score < b.score || (a.score = b.score && a.order ≤ b.order)

def passes (kind : Option TitleKind) (post : FoundPost) : Bool :=
  kind = none || kindOf post = kind

/-- What becomes of the posts that the upstream lists. -/
def rankPosts (posts : List (Option FoundPost)) (normalizedQuery : Str) (options : SearchOptions) :
    List SearchResult :=
  let scored := (((posts.filterMap fun post => post.filter (·.id.isSome)).filter
    (passes options.kind)).zipIdx.map fun x => Scored.mk x.1 x.2 (scoreOf x.1 normalizedQuery)).mergeSort
    Scored.notAfter
  let strong := scored.filter (·.score < weakScore)
  let chosen := if 0 < strong.length then strong else scored.take 5
  (chosen.take (max 1 options.limit).toNat).map fun entry =>
    toSearchResult entry.post ((matchByScore[entry.score]?).getD .weak)

/-- `rawSearch` may throw. -/
def searchTitles {ε : Type} (rawSearch : Str → Except ε (List (Option FoundPost))) (query : Str)
    (options : SearchOptions) : Except ε (List SearchResult) :=
  let trimmed := trim query
  if trimmed.length = 0 then .ok []
  else do
    let posts ← rawSearch trimmed
    pure (rankPosts posts (normalizeText trimmed) options)

def eligible (posts : List (Option FoundPost)) (kind : Option TitleKind) : List (Nat × FoundPost) :=
  posts.zipIdx.filterMap fun x =>
    (x.1.filter fun post => post.id.isSome && passes kind post).map (x.2, ·)

/-- Band by band and without the weak ones, or else the first five. -/
def candidates (posts : List (Option FoundPost)) (normalizedQuery : Str) (kind : Option TitleKind) :
    List (Nat × FoundPost) :=
  let strong := buckets (scoreOf ·.2 normalizedQuery) weakScore (eligible posts kind)
  if strong = [] then (eligible posts kind).take 5 else strong

def ranking (posts : List (Option FoundPost)) (normalizedQuery : Str) (options : SearchOptions) :
    List (Nat × FoundPost) :=
  (candidates posts normalizedQuery options.kind).take (max 1 options.limit).toNat

def labelled (normalizedQuery : Str) (x : Nat × FoundPost) : SearchResult :=
  toSearchResult x.2 ((matchByScore[scoreOf x.2 normalizedQuery]?).getD .weak)

/-- By band, and by position within a band. -/
def Before (q : Str) (x y : Nat × FoundPost) : Prop :=
  scoreOf x.2 q < scoreOf y.2 q ∨ (scoreOf x.2 q = scoreOf y.2 q ∧ x.1 < y.1)

/-- What a search may show of the eligible posts. -/
structure Ranked (posts : List (Option FoundPost)) (q : Str) (options : SearchOptions)
    (list : List (Nat × FoundPost)) : Prop where
  few : list.length ≤ (max 1 options.limit).toNat
  once : (list.map Prod.fst).Nodup
  listed : ∀ x ∈ list, posts[x.1]? = some (some x.2) ∧ x.2.id.isSome ∧ passes options.kind x.2
  ordered : list.Pairwise (Before q)
  labels : ∀ x ∈ list, matchByScore[scoreOf x.2 q]? = some (labelled q x).strength
  weak : ∀ x ∈ list, scoreOf x.2 q = weakScore → ∀ y ∈ list, scoreOf y.2 q = weakScore
  omitted : ∀ x ∈ eligible posts options.kind, x ∉ list → ∀ y ∈ list, Before q y x

section
variable {posts : List (Option FoundPost)} {q : Str} {options : SearchOptions} {kind : Option TitleKind}
  {x y : Nat × FoundPost}

theorem includes_iff (s t : Str) : includes s t = true ↔ t <:+: s := by
  induction s with
  | nil => simp [includes]
  | cons c s ih => simp [includes, ih, List.infix_cons_iff]

theorem scoreOf_le (post : FoundPost) (q : Str) : scoreOf post q ≤ weakScore := by
  simp only [scoreOf, weakScore]
  split_ifs <;> omega

/-- The eligible posts without their positions. -/
theorem eligible_posts (posts : List (Option FoundPost)) (kind : Option TitleKind) :
    (posts.filterMap fun post => post.filter (·.id.isSome)).filter (passes kind) =
    (eligible posts kind).map Prod.snd := by
  have pick (x : Option FoundPost × Nat) : ((x.1.filter fun post => post.id.isSome && passes kind post).map
      (x.2, ·)).map Prod.snd = (x.1.filter (·.id.isSome)).filter (passes kind) := by
    rw [Option.map_map, Option.filter_filter]
    simp [Function.comp_def]
  rw [eligible, List.map_filterMap, List.filter_filterMap]
  simp only [pick]
  conv_lhs => rw [← List.zipIdx_map_fst 0 posts]
  rw [List.filterMap_map]
  rfl

/-- An entry of the sort, made of a post with its position and its place among the eligible ones. -/
def entryOf (q : Str) (x : (Nat × FoundPost) × Nat) : Scored := ⟨x.1.2, x.2, scoreOf x.1.2 q⟩

def entries (q : Str) (listed : List (Nat × FoundPost)) : List ((Nat × FoundPost) × Nat) :=
  listed.zipIdx.mergeSort (byScore (scoreOf ·.2 q))

def strongEntries (q : Str) (listed : List (Nat × FoundPost)) : List ((Nat × FoundPost) × Nat) :=
  (entries q listed).filter fun x => scoreOf x.1.2 q < weakScore

theorem sorted_entries (q : Str) (listed : List (Nat × FoundPost)) :
    ((listed.map Prod.snd).zipIdx.map fun x => Scored.mk x.1 x.2 (scoreOf x.1 q)).mergeSort
      Scored.notAfter = (entries q listed).map (entryOf q) := by
  rw [entries, List.zipIdx_map, List.map_map, List.map_mergeSort fun x _ y _ => ?_]
  · rfl
  · rfl

theorem entries_fst (q : Str) (listed : List (Nat × FoundPost)) :
    (entries q listed).map Prod.fst = buckets (scoreOf ·.2 q) (weakScore + 1) listed :=
  sort_eq_buckets fun x _ => Nat.lt_succ_of_le (scoreOf_le x.2 q)

theorem strongEntries_fst (q : Str) (listed : List (Nat × FoundPost)) :
    (strongEntries q listed).map Prod.fst = buckets (scoreOf ·.2 q) weakScore listed := by
  rw [← buckets_filter, ← entries_fst, List.filter_map]
  rfl

theorem chosen_fst (q : Str) (listed : List (Nat × FoundPost)) :
    (if 0 < (strongEntries q listed).length then strongEntries q listed
      else (entries q listed).take 5).map Prod.fst =
    if buckets (scoreOf ·.2 q) weakScore listed = [] then listed.take 5
      else buckets (scoreOf ·.2 q) weakScore listed := by
  have strong := strongEntries_fst q listed
  by_cases he : buckets (scoreOf ·.2 q) weakScore listed = []
  · have empty : strongEntries q listed = [] := List.map_eq_nil_iff.mp (strong.trans he)
    rw [if_pos he, empty, List.length_nil, if_neg (Nat.lt_irrefl 0), List.map_take, entries_fst,
      buckets_last (fun x _ => scoreOf_le x.2 q) he]
  · have some_strong : 0 < (strongEntries q listed).length :=
      List.length_pos_iff.mpr fun h => he (strong.symm.trans (congrArg (List.map Prod.fst) h))
    rw [if_neg he, if_pos some_strong, strong]

theorem shown_entries (q : Str) (n : Nat) (chosen : List ((Nat × FoundPost) × Nat)) :
    ((chosen.map (entryOf q)).take n).map (fun entry =>
      toSearchResult entry.post ((matchByScore[entry.score]?).getD .weak)) =
    ((chosen.map Prod.fst).take n).map (labelled q) := by
  rw [← List.map_take, ← List.map_take, List.map_map, List.map_map]
  rfl

/-- The code ranks as the bands say. -/
theorem rankPosts_eq (posts : List (Option FoundPost)) (q : Str) (options : SearchOptions) :
    rankPosts posts q options = (ranking posts q options).map (labelled q) := by
  have strong (listed : List (Nat × FoundPost)) : ((entries q listed).map (entryOf q)).filter
      (·.score < weakScore) = (strongEntries q listed).map (entryOf q) := List.filter_map
  simp only [rankPosts, eligible_posts, sorted_entries, strong, List.length_map]
  rw [← List.map_take, ← apply_ite (List.map (entryOf q)), shown_entries, chosen_fst]
  rfl

theorem mem_eligible : x ∈ eligible posts kind ↔
    posts[x.1]? = some (some x.2) ∧ x.2.id.isSome ∧ passes kind x.2 := by
  simp only [eligible, List.mem_filterMap, Option.map_eq_some_iff, Option.filter_eq_some_iff,
    Bool.and_eq_true]
  constructor
  · rintro ⟨⟨_, i⟩, hm, post, ⟨rfl, hid, hk⟩, rfl⟩
    exact ⟨List.mem_zipIdx_iff_getElem?.mp hm, hid, hk⟩
  · rintro ⟨hm, hid, hk⟩
    exact ⟨(some x.2, x.1), List.mem_zipIdx_iff_getElem?.mpr hm, x.2, ⟨rfl, hid, hk⟩, rfl⟩

theorem eligible_pairwise (posts : List (Option FoundPost)) (kind : Option TitleKind) :
    (eligible posts kind).Pairwise fun x y => x.1 < y.1 := by
  refine List.pairwise_filterMap.mpr ((zipIdx_pairwise posts).imp fun {a b} hab x hx y hy => ?_)
  obtain ⟨_, -, rfl⟩ := Option.map_eq_some_iff.mp hx
  obtain ⟨_, -, rfl⟩ := Option.map_eq_some_iff.mp hy
  exact hab

/-- The candidates are the best of the eligible posts. -/
theorem candidates_cases (posts : List (Option FoundPost)) (q : Str) (kind : Option TitleKind) :
    (candidates posts q kind = (eligible posts kind).take 5 ∧
      ∀ x ∈ eligible posts kind, scoreOf x.2 q = weakScore) ∨
    candidates posts q kind = buckets (scoreOf ·.2 q) weakScore (eligible posts kind) := by
  by_cases he : buckets (scoreOf ·.2 q) weakScore (eligible posts kind) = []
  · refine .inl ⟨if_pos he, fun x hx => Nat.le_antisymm (scoreOf_le x.2 q) ?_⟩
    by_contra hlt
    have hm : x ∈ buckets (scoreOf ·.2 q) weakScore (eligible posts kind) :=
      mem_buckets.mpr ⟨hx, Nat.lt_of_not_le hlt⟩
    rw [he] at hm
    cases hm
  · exact .inr (if_neg he)

theorem mem_candidates (h : x ∈ candidates posts q kind) : x ∈ eligible posts kind := by
  rcases candidates_cases posts q kind with ⟨hc, -⟩ | hc
  · rw [hc] at h
    exact List.mem_of_mem_take h
  · rw [hc] at h
    exact (mem_buckets.mp h).1

theorem candidates_ordered (posts : List (Option FoundPost)) (q : Str) (kind : Option TitleKind) :
    (candidates posts q kind).Pairwise (Before q) := by
  have positions := eligible_pairwise posts kind
  rcases candidates_cases posts q kind with ⟨hc, hweak⟩ | hc
  · rw [hc]
    refine List.Pairwise.imp_of_mem (fun {x y} hx hy hxy => .inr ⟨?_, hxy⟩)
      (positions.sublist (List.take_sublist _ _))
    rw [hweak x (List.mem_of_mem_take hx), hweak y (List.mem_of_mem_take hy)]
  · rw [hc]
    exact buckets_pairwise (scoreOf ·.2 q) weakScore positions

theorem candidates_omitted (hx : x ∈ eligible posts kind) (hn : x ∉ candidates posts q kind)
    (hy : y ∈ candidates posts q kind) : Before q y x := by
  rcases candidates_cases posts q kind with ⟨hc, hweak⟩ | hc
  · rw [hc] at hn hy
    refine .inr ⟨?_, take_before (eligible_pairwise posts kind) hy hx hn⟩
    rw [hweak x hx, hweak y (List.mem_of_mem_take hy)]
  · rw [hc] at hn hy
    have weak : weakScore ≤ scoreOf x.2 q := Nat.le_of_not_lt fun h => hn (mem_buckets.mpr ⟨hx, h⟩)
    exact .inl (Nat.lt_of_lt_of_le (mem_buckets.mp hy).2 weak)

theorem candidates_weak (hx : x ∈ candidates posts q kind) (h : scoreOf x.2 q = weakScore)
    (hy : y ∈ candidates posts q kind) : scoreOf y.2 q = weakScore := by
  rcases candidates_cases posts q kind with ⟨-, hweak⟩ | hc
  · exact hweak y (mem_candidates hy)
  · rw [hc] at hx
    exact absurd h (Nat.ne_of_lt (mem_buckets.mp hx).2)

theorem labelled_strength (q : Str) (x : Nat × FoundPost) :
    matchByScore[scoreOf x.2 q]? = some (labelled q x).strength := by
  have inside : scoreOf x.2 q < matchByScore.length := Nat.lt_succ_of_le (scoreOf_le x.2 q)
  rw [labelled, toSearchResult, List.getElem?_eq_getElem inside]
  rfl

theorem ranking_ranked (posts : List (Option FoundPost)) (q : Str) (options : SearchOptions) :
    Ranked posts q options (ranking posts q options) := by
  have mem {x : Nat × FoundPost} (h : x ∈ ranking posts q options) :
      x ∈ candidates posts q options.kind := List.mem_of_mem_take h
  have ordered := candidates_ordered posts q options.kind
  refine ⟨List.length_take_le _ _, ?_, fun x hx => mem_eligible.mp (mem_candidates (mem hx)),
    ordered.sublist (List.take_sublist _ _), fun x _ => labelled_strength q x,
    fun x hx h y hy => candidates_weak (mem hx) h (mem hy), fun x hx hn y hy => ?_⟩
  · refine List.Nodup.map_on (fun x hx y hy hxy => ?_) ((ordered.sublist (List.take_sublist _ _)).imp ?_)
    · have hpost := (mem_eligible.mp (mem_candidates (mem hx))).1
      rw [hxy, (mem_eligible.mp (mem_candidates (mem hy))).1] at hpost
      exact Prod.ext hxy (Option.some.inj (Option.some.inj hpost)).symm
    · rintro x _ h rfl
      rcases h with h | ⟨-, h⟩
      · exact Nat.lt_irrefl _ h
      · exact Nat.lt_irrefl _ h
  · by_cases hc : x ∈ candidates posts q options.kind
    · exact take_before ordered hy hc hn
    · exact candidates_omitted hx hc (mem hy)

/-- The results are the posts of the ranking, each with its band. -/
theorem searchTitles_exact {ε : Type} (rawSearch : Str → Except ε (List (Option FoundPost)))
    (query : Str) (options : SearchOptions) (hq : trim query ≠ []) :
    searchTitles rawSearch query options = (rawSearch (trim query)).map (fun posts =>
      (ranking posts (normalizeText (trim query)) options).map (labelled (normalizeText (trim query)))) ∧
    ∀ posts, Ranked posts (normalizeText (trim query)) options
      (ranking posts (normalizeText (trim query)) options) := by
  refine ⟨?_, fun posts => ranking_ranked posts _ options⟩
  have asked : (trim query).length ≠ 0 := fun h => hq (List.length_eq_zero_iff.mp h)
  simp only [searchTitles, if_neg asked, rankPosts_eq]
  rfl

end

def shelf : List (Option FoundPost) :=
  [some { id := some "7".toList, name := some "Dune: Part Two".toList }, none,
    some { id := some "8".toList, name := some "Arrival".toList },
    some { id := some "9".toList, name := some "Dune".toList }]

theorem shelf_searched : (ranking shelf "dune".toList {}).map Prod.fst = [3, 0] ∧
    searchTitles (ε := Unit) (fun _ => .ok shelf) " Dune".toList {} =
      .ok ((ranking shelf "dune".toList {}).map (labelled "dune".toList)) := by
  have normal : normalizeText (trim " Dune".toList) = "dune".toList := by decide +kernel
  refine ⟨by decide +kernel, (searchTitles_exact _ _ _ (by decide +kernel)).1.trans ?_⟩
  rw [normal]
  rfl

end CircleFtp.Titles
