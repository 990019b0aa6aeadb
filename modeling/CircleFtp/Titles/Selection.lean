import CircleFtp.Titles.Clean

/-! The seasons of a series as a plan offers them, and which of them a selection takes. -/
namespace CircleFtp.Titles
open Strings Regex

def seasonNameOf (season : RawItem) : Str := trim (season.seasonName.getD [])

/-- The seasons in their order, each with the name that it is offered under. -/
def offeredFrom : List (Option RawItem) → Nat → List (RawItem × Str)
  | [], _ => []
  | none :: items, done => offeredFrom items done
  | some season :: items, done =>
    (season, orElse (seasonNameOf season) ("Season ".toList ++ decimal (done + 1))) ::
      offeredFrom items (done + 1)

def summaryOf (o : RawItem × Str) : SeasonSummary :=
  ⟨o.2, parseSeasonNumber (seasonNameOf o.1), (episodesOf o.1).length⟩

/-- The files of one season. -/
def seasonFiles (js : Platform) (showName : Str) (season : RawItem) : List PlannedFile :=
  (episodesOf season).mapIdx fun index x =>
    planEpisode js showName (seasonNameOf season) index x.1 x.2

/-- Does the selection take the season? -/
def selects (js : Platform) (wanted : List Str) (season : RawItem) : Bool :=
  seasonMatches js (seasonNameOf season) (parseSeasonNumber (seasonNameOf season)) wanted

theorem planSeasons_eq (js : Platform) (showName : Str) (wanted : List Str)
    (items : List (Option RawItem)) (done : Nat) :
    planSeasons js showName wanted items done = ((offeredFrom items done).map summaryOf,
      (offeredFrom items done).flatMap fun o =>
        if selects js wanted o.1 then seasonFiles js showName o.1 else []) := by
  induction items generalizing done with
  | nil => rfl
  | cons item items ih =>
    cases item with
    | none => exact ih done
    | some season =>
      simp only [planSeasons, offeredFrom, List.map_cons, List.flatMap_cons, ih (done + 1)]
      refine Prod.ext rfl ?_
      by_cases h : selects js wanted season = true
      · rw [if_pos h]
        exact if_pos h
      · rw [if_neg h]
        exact if_neg h

/-- The content of a series, as far as it is a list. -/
def seasonsOf (post : RawPost) : List (Option RawItem) :=
  match post.content with
  | .list items => items
  | _ => []

def showNameOf (post : RawPost) : Str := sanitize ((post.name.or post.title).getD []) "Show".toList

theorem plan_series {post : RawPost} (h : post.type = some "series".toList) (js : Platform)
    (wanted : List Str) :
    plan js post wanted = planSeasons js (showNameOf post) wanted (seasonsOf post) 0 := by
  simp only [plan, h, Option.getD_some, if_true, seasonsOf, showNameOf]
  cases post.content <;> rfl

/-- De-duplication changes nothing but paths. -/
theorem deduplicateFrom_keeps {α : Type} {g : PlannedFile → α}
    (hg : ∀ f relPath, g { f with relPath } = g f) (seen : Str → Option Nat)
    (files : List PlannedFile) : (deduplicateFrom seen files).map g = files.map g := by
  induction files generalizing seen with
  | nil => rfl
  | cons file files ih =>
    rw [deduplicateFrom]
    split
    · rw [List.map_cons, List.map_cons, ih]
    · rw [List.map_cons, List.map_cons, ih, hg]

/-- The seasons that a post offers. -/
def offered (post : RawPost) : List (RawItem × Str) := offeredFrom (seasonsOf post) 0

section
variable {post : RawPost} (h : post.type = some "series".toList) (js : Platform) (wanted : List Str)
include h

theorem buildPlan_seasons : (buildPlan js post wanted).seasons = (offered post).map summaryOf := by
  rw [buildPlan, plan_series h, planSeasons_eq]
  rfl

theorem plan_files : (plan js post wanted).2 = (offered post).flatMap fun o =>
    if selects js wanted o.1 then seasonFiles js (showNameOf post) o.1 else [] := by
  rw [plan_series h, planSeasons_eq]
  rfl

theorem buildPlan_files {α : Type} {g : PlannedFile → α} (hg : ∀ f relPath, g { f with relPath } = g f) :
    (buildPlan js post wanted).files.map g = (offered post).flatMap fun o =>
      if selects js wanted o.1 then (seasonFiles js (showNameOf post) o.1).map g else [] := by
  rw [buildPlan, deduplicatePaths, deduplicateFrom_keeps hg, plan_files h, List.map_flatMap]
  refine List.flatMap_congr fun o _ => ?_
  split <;> rfl

end

/-- The name has a number, or a letter or digit to compare. -/
def Telling (name : Str) : Prop := parseSeasonNumber name ≠ none ∨ normalizeText name ≠ []

instance : DecidablePred Telling := fun _ => inferInstanceAs (Decidable (_ ∨ _))

/-- The entry gives the number of the season, or has its text up to case and punctuation. -/
def SameSeason (js : Platform) (entry name : Str) : Prop :=
  (∃ n, parseSeasonNumber name = some n ∧
    (js.toInteger (trim entry) = some (n : Int) ∨ parseSeasonNumber (trim entry) = some n)) ∨
  normalizeText name ≠ [] ∧ normalizeText (trim entry) = normalizeText name

/-- A selection takes the seasons that one of its entries names. -/
theorem selects_iff {js : Platform} {wanted : List Str} (hne : wanted ≠ []) {season : RawItem} :
    selects js wanted season = true ↔
      ∃ entry ∈ wanted, trim entry ≠ [] ∧ SameSeason js entry (seasonNameOf season) := by
  have hempty : wanted.isEmpty = false := List.isEmpty_eq_false_iff.mpr hne
  simp only [selects, seasonMatches, hempty, Bool.false_or, List.any_eq_true]
  refine exists_congr fun entry => and_congr_right fun _ => ?_
  rw [Bool.and_eq_true, decide_eq_true_iff]
  refine and_congr_right fun _ => ?_
  have htext : normalizeText (trim entry) ≠ [] ∧
      normalizeText (trim entry) = normalizeText (seasonNameOf season) ↔
      normalizeText (seasonNameOf season) ≠ [] ∧
      normalizeText (trim entry) = normalizeText (seasonNameOf season) :=
    and_congr_left fun h => by rw [h]
  rw [Bool.or_eq_true, Bool.or_eq_true, Bool.and_eq_true, decide_eq_true_iff, decide_eq_true_iff, htext,
    SameSeason]
  cases parseSeasonNumber (seasonNameOf season) with
  | none => simp
  | some n =>
    have hint : ((js.toInteger (trim entry)).any fun k : Int => (some n).any fun m => k = m) = true ↔
        js.toInteger (trim entry) = some (n : Int) := by
      cases js.toInteger (trim entry) <;> simp
    have hparse : ((parseSeasonNumber (trim entry)).any fun k => some n = some k) = true ↔
        parseSeasonNumber (trim entry) = some n := by
      cases parseSeasonNumber (trim entry) <;> simp [eq_comm]
    rw [hint, hparse]
    simp only [Option.some.injEq, exists_eq_left']
    exact or_right_comm

theorem trim_trim (s : Str) : trim (trim s) = trim s := by
  have hlast : (trim s).rdropWhile isSpace = trim s := List.rdropWhile_idempotent ..
  have hfirst : (trim s).dropWhile isSpace = trim s := by
    refine dropWhile_id fun c hc => ?_
    have hpre : trim s <+: s.dropWhile isSpace := List.rdropWhile_prefix _ _
    have := List.head?_dropWhile_not isSpace s
    cases h : trim s with
    | nil => simp [h] at hc
    | cons d u =>
      obtain ⟨v, hv⟩ := hpre
      rw [← hv, h] at this
      rw [h] at hc
      cases hc
      simpa using this
  rw [trim, hfirst]
  exact hlast

/-- An entry that is the season's own name names the season if the name is telling. -/
theorem sameSeason_self {js : Platform} {season : RawItem} (h : Telling (seasonNameOf season)) :
    SameSeason js (seasonNameOf season) (seasonNameOf season) := by
  have htrim : trim (seasonNameOf season) = seasonNameOf season := trim_trim _
  rw [SameSeason, htrim]
  rcases h with h | h
  · obtain ⟨n, hn⟩ := Option.ne_none_iff_exists'.mp h
    exact .inl ⟨n, hn, .inr hn⟩
  · exact .inr ⟨h, rfl⟩

theorem Telling.ne_nil {name : Str} (h : Telling name) : name ≠ [] := by
  rintro rfl
  revert h
  decide

/-- A telling name is offered as it is. -/
theorem offered_name {items : List (Option RawItem)} {done : Nat} {o : RawItem × Str}
    (ho : o ∈ offeredFrom items done) (h : seasonNameOf o.1 ≠ []) : o.2 = seasonNameOf o.1 := by
  induction items generalizing done with
  | nil => cases ho
  | cons item items ih =>
    cases item with
    | none => exact ih ho
    | some season =>
      rcases List.mem_cons.mp ho with rfl | ho
      · exact if_neg h
      · exact ih ho

/-- Offered names are trimmed and not empty. -/
theorem offered_trimmed {items : List (Option RawItem)} {done : Nat} {o : RawItem × Str}
    (ho : o ∈ offeredFrom items done) : trim o.2 = o.2 ∧ o.2 ≠ [] := by
  induction items generalizing done with
  | nil => cases ho
  | cons item items ih =>
    cases item with
    | none => exact ih ho
    | some season =>
      rcases List.mem_cons.mp ho with rfl | ho
      · simp only [orElse]
        split
        · have hseason : Clean "Season".toList := clean_of_solid (solid_of_all (by decide)) (by decide)
          have hclean := hseason.spaced
            (clean_of_solid (solid_decimal (done + 1)) (by simp [decimal, Nat.toDigits_ne_nil]))
          exact ⟨hclean.trim_eq, hclean.nonempty⟩
        · exact ⟨trim_trim _, ‹_›⟩
      · exact ih ho

theorem planEpisode_url (js : Platform) (showName seasonName : Str) (index : Nat) (link : Str)
    (episode : RawEpisode) :
    (planEpisode js showName seasonName index link episode).url = trim link := rfl

theorem seasonFiles_urls (js : Platform) (showName : Str) (season : RawItem) :
    (seasonFiles js showName season).map (·.url) = (episodesOf season).map fun x => trim x.1 := by
  refine List.ext_getElem (by simp [seasonFiles]) fun i _ _ => ?_
  simp only [seasonFiles, List.getElem_map, List.getElem_mapIdx, planEpisode_url]

theorem flatMap_filter {α β : Type} (p : α → Bool) (f : α → List β) (xs : List α) :
    (xs.filter p).flatMap f = xs.flatMap fun x => if p x then f x else [] := by
  induction xs with
  | nil => rfl
  | cons x xs ih =>
    rw [List.filter_cons, List.flatMap_cons]
    split
    · rw [List.flatMap_cons, ih]
    · rw [ih, List.nil_append]

/-- What a non-empty selection of offered names takes: the linked episodes of some of the seasons
in their order. A season with a telling name is among them exactly if an entry gives its number or
its text, and so it is when its own name is ticked. All of them taken, the plan is the one without
a selection. -/
theorem ticked_seasons (js : Platform) {post : RawPost} (h : post.type = some "series".toList)
    {ticks : List Str} (hne : ticks ≠ [])
    (hsub : ∀ tick ∈ ticks, ∃ season ∈ (buildPlan js post []).seasons, season.name = tick) :
    (buildPlan js post ticks).seasons = (buildPlan js post []).seasons ∧
    (∃ taken : RawItem × Str → Bool,
      (buildPlan js post ticks).files.map (·.url) = ((offered post).filter taken).flatMap
        (fun o => (episodesOf o.1).map fun x => trim x.1) ∧
      ∀ o ∈ offered post, Telling (seasonNameOf o.1) →
        (taken o = true ↔ ∃ tick ∈ ticks, SameSeason js tick (seasonNameOf o.1)) ∧
        (o.2 ∈ ticks → taken o = true)) ∧
    ((∀ o ∈ offered post, episodesOf o.1 ≠ [] → Telling (seasonNameOf o.1) ∧ o.2 ∈ ticks) →
      (buildPlan js post ticks).files = (buildPlan js post []).files) := by
  have hentry {tick : Str} (ht : tick ∈ ticks) : trim tick ≠ [] := by
    obtain ⟨season, hs, rfl⟩ := hsub tick ht
    rw [buildPlan_seasons h] at hs
    obtain ⟨o, ho, rfl⟩ := List.mem_map.mp hs
    obtain ⟨htrim, hne⟩ := offered_trimmed ho
    exact fun e => hne (htrim.symm.trans e)
  have htelling {o : RawItem × Str} (ho : o ∈ offered post) (ht : Telling (seasonNameOf o.1))
      (hm : o.2 ∈ ticks) : selects js ticks o.1 = true := by
    refine (selects_iff hne).mpr ⟨o.2, hm, hentry hm, ?_⟩
    rw [offered_name ho ht.ne_nil]
    exact sameSeason_self ht
  refine ⟨?_, ⟨fun o => selects js ticks o.1, ?_, fun o ho ht => ⟨?_, htelling ho ht⟩⟩, fun hall => ?_⟩
  · rw [buildPlan_seasons h, buildPlan_seasons h]
  · rw [buildPlan_files h js ticks fun _ _ => rfl, flatMap_filter]
    simp only [seasonFiles_urls]
  · rw [selects_iff hne]
    exact exists_congr fun tick => and_congr_right fun hm => and_iff_right (hentry hm)
  · have hsame : (plan js post ticks).2 = (plan js post []).2 := by
      rw [plan_files h, plan_files h]
      refine List.flatMap_congr fun o ho => ?_
      by_cases he : episodesOf o.1 = []
      · simp [seasonFiles, he]
      · rw [if_pos (htelling ho (hall o ho he).1 (hall o ho he).2)]
        rfl
    rw [buildPlan, buildPlan, hsame]

/-- URLs that are paths already, and numbers that are digits. -/
def plainPlatform : Platform where
  urlPathname _ := none
  decodeURIComponent := some
  toInteger s := if s.all Char.isDigit && !s.isEmpty then some (digitsValue s) else none

def oneEpisode (name link : String) : Option RawItem :=
  some { seasonName := some name.toList, episodes := some [some { link := some link.toList }] }

/-- A series whose second season comes in two languages. -/
def dubbedSeries : RawPost where
  name := some "Show".toList
  type := some "series".toList
  content := .list [oneEpisode "Season 1" "a", oneEpisode "Season 2" "b",
    oneEpisode "Season 2 (Hindi)" "c"]

/-- `Season 2` takes `Season 2 (Hindi)` along. -/
theorem tick_takes_dubbed : ¬ ∀ (js : Platform) (post : RawPost) (ticks : List Str),
    post.type = some "series".toList → ticks ≠ [] →
    (∀ tick ∈ ticks, ∃ season ∈ (buildPlan js post []).seasons, season.name = tick) →
    (buildPlan js post ticks).files.map (·.url) =
      ((offered post).filter fun o => o.2 ∈ ticks).flatMap
        (fun o => (episodesOf o.1).map fun x => trim x.1) ∧
    (buildPlan js post ticks).seasons = (buildPlan js post []).seasons := by
  intro h
  have hurls := (h plainPlatform dubbedSeries ["Season 2".toList] rfl (by decide)
    (by decide +kernel)).1
  revert hurls
  decide +kernel

theorem ticked_seasons_dubbed :
    (buildPlan plainPlatform dubbedSeries ["Season 1".toList]).seasons =
      (buildPlan plainPlatform dubbedSeries []).seasons ∧
    (∃ taken : RawItem × Str → Bool,
      (buildPlan plainPlatform dubbedSeries ["Season 1".toList]).files.map (·.url) =
        ((offered dubbedSeries).filter taken).flatMap
          (fun o => (episodesOf o.1).map fun x => trim x.1) ∧
      ∀ o ∈ offered dubbedSeries, Telling (seasonNameOf o.1) →
        (taken o = true ↔ ∃ tick ∈ ["Season 1".toList],
          SameSeason plainPlatform tick (seasonNameOf o.1)) ∧
        (o.2 ∈ ["Season 1".toList] → taken o = true)) ∧
    ((∀ o ∈ offered dubbedSeries, episodesOf o.1 ≠ [] →
        Telling (seasonNameOf o.1) ∧ o.2 ∈ ["Season 1".toList]) →
      (buildPlan plainPlatform dubbedSeries ["Season 1".toList]).files =
        (buildPlan plainPlatform dubbedSeries []).files) :=
  ticked_seasons plainPlatform rfl (by decide) (by decide +kernel)

end CircleFtp.Titles
