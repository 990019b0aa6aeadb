import CircleFtp.Titles.Selection

/-! Episode numbers when links come and go. -/
namespace CircleFtp.Titles
open Strings Regex

def linkOf (episode : Option RawEpisode) : Option Str := episode.bind fun e => present e.link

/-- How many episodes of a season before a position have a link. -/
def linkedBefore (season : RawItem) (i : Nat) : Nat :=
  ((season.episodes.getD []).take i).countP fun e => (linkOf e).isSome

def withSeasons (post : RawPost) (seasons : List (Option RawItem)) : RawPost :=
  { post with content := .list seasons }

/-- The file of the linked episode at a position of a season, among the files of the plan. -/
def fileAt (js : Platform) (post : RawPost) (wanted : List Str) (earlier : List (Option RawItem))
    (season : RawItem) (later : List (Option RawItem)) (i : Nat) : Option PlannedFile :=
  (buildPlan js (withSeasons post (earlier ++ some season :: later)) wanted).files[
    (buildPlan js (withSeasons post earlier) wanted).files.length + linkedBefore season i]?

/-- The title of an episode carries its number. -/
def CarriesNumber (title : Str) : Prop := ∃ n, ∀ fallback, parseEpisodeNumber title fallback = n

theorem parseEpisodeNumber_cases (title : Str) :
    CarriesNumber title ∨ ∀ fallback, parseEpisodeNumber title fallback = fallback := by
  have key (o : Option Nat) : (∃ n, ∀ k, o.getD k = n) ∨ ∀ k, o.getD k = k := by
    cases o with
    | none => exact .inr fun _ => rfl
    | some n => exact .inl ⟨n, fun _ => rfl⟩
  exact key _

/-- An element keeps its rank when those without a value are left out. -/
theorem getElem?_filterMap_rank {α β : Type} {f : α → Option β} {xs : List α} {i : Nat} {a : α} {b : β}
    (h : xs[i]? = some a) (hf : f a = some b) :
    (xs.filterMap f)[(xs.take i).countP fun x => (f x).isSome]? = some b := by
  induction xs generalizing i with
  | nil => cases h
  | cons x xs ih =>
    cases i with
    | zero =>
      obtain rfl : x = a := by simpa using h
      simp [hf]
    | succ i =>
      have := ih (by simpa using h)
      cases hx : f x <;> simpa [hx] using this

theorem offeredFrom_append (a b : List (Option RawItem)) (done : Nat) : ∃ k,
    offeredFrom (a ++ b) done = offeredFrom a done ++ offeredFrom b k := by
  induction a generalizing done with
  | nil => exact ⟨done, rfl⟩
  | cons item a ih =>
    cases item with
    | none => exact ih done
    | some season =>
      obtain ⟨k, hk⟩ := ih (done + 1)
      exact ⟨k, by rw [List.cons_append, offeredFrom, offeredFrom, hk, List.cons_append]⟩

/-- The linked episode of a selected season gets a file with its link, numbered by its title or
else by its rank among the linked ones. -/
theorem fileAt_spec (js : Platform) {post : RawPost} (hpost : post.type = some "series".toList)
    {wanted : List Str} (earlier later : List (Option RawItem)) {season : RawItem}
    (hs : selects js wanted season = true) {i : Nat} {e : RawEpisode} {link : Str}
    (hi : (season.episodes.getD [])[i]? = some (some e)) (hl : present e.link = some link) :
    ∃ file, fileAt js post wanted earlier season later i = some file ∧ file.url = trim link ∧
      file.episode = some (parseEpisodeNumber (trim (e.title.getD [])) (linkedBefore season i + 1)) := by
  let g (f : PlannedFile) : Str × Option Nat := (f.url, f.episode)
  have hkeep : ∀ f relPath, g { f with relPath } = g f := fun _ _ => rfl
  have htype (items : List (Option RawItem)) :
      (withSeasons post items).type = some "series".toList := hpost
  have hearlier := buildPlan_files (htype earlier) js wanted hkeep
  have hall := buildPlan_files (htype (earlier ++ some season :: later)) js wanted hkeep
  obtain ⟨k, hk⟩ := offeredFrom_append earlier (some season :: later) 0
  have hsplit : offered (withSeasons post (earlier ++ some season :: later)) =
      offered (withSeasons post earlier) ++ offeredFrom (some season :: later) k := hk
  have hshow (items : List (Option RawItem)) : showNameOf (withSeasons post items) = showNameOf post := rfl
  rw [hsplit, hshow, List.flatMap_append] at hall
  rw [hshow] at hearlier
  rw [← hearlier, offeredFrom, List.flatMap_cons, if_pos hs] at hall
  have hfile : ((seasonFiles js (showNameOf post) season).map g)[linkedBefore season i]? =
      some (trim link, some (parseEpisodeNumber (trim (e.title.getD [])) (linkedBefore season i + 1))) := by
    have hep := getElem?_filterMap_rank (f := fun episode : Option RawEpisode =>
      episode.bind fun e => (present e.link).map (·, e)) hi (b := (link, e)) (by simp [hl])
    have hrank : (fun x : Option RawEpisode => (x.bind fun e => (present e.link).map (·, e)).isSome) =
        fun x => (linkOf x).isSome := by
      funext x
      cases x <;> simp [linkOf]
    rw [hrank] at hep
    have hget : (episodesOf season)[linkedBefore season i]? = some (link, e) := hep
    rw [seasonFiles, List.getElem?_map, List.getElem?_mapIdx, hget]
    rfl
  have hlen : (buildPlan js (withSeasons post earlier) wanted).files.length =
      ((buildPlan js (withSeasons post earlier) wanted).files.map g).length := by simp
  have hat : ((buildPlan js (withSeasons post (earlier ++ some season :: later)) wanted).files.map g)[
      (buildPlan js (withSeasons post earlier) wanted).files.length + linkedBefore season i]? =
      some (trim link, some (parseEpisodeNumber (trim (e.title.getD [])) (linkedBefore season i + 1))) := by
    rw [hall, hlen, List.getElem?_append_right (Nat.le_add_right _ _), Nat.add_sub_cancel_left,
      List.getElem?_append_left (List.getElem?_eq_some_iff.mp hfile).1]
    exact hfile
  rw [List.getElem?_map] at hat
  obtain ⟨file, hfile, hg⟩ := Option.map_eq_some_iff.mp hat
  exact ⟨file, hfile, congrArg Prod.fst hg, congrArg Prod.snd hg⟩

/-- Two versions of a season that differ at most in which of the episodes carry a link. -/
structure Versions (season season' : RawItem) : Prop where
  seasonName : season.seasonName = season'.seasonName
  titles : (season.episodes.getD []).map (·.map (·.title)) =
    (season'.episodes.getD []).map (·.map (·.title))

instance (season season' : RawItem) : Decidable (Versions season season') :=
  decidable_of_iff (season.seasonName = season'.seasonName ∧ (season.episodes.getD []).map
      (·.map (·.title)) = (season'.episodes.getD []).map (·.map (·.title)))
    ⟨fun h => ⟨h.1, h.2⟩, fun h => ⟨h.seasonName, h.titles⟩⟩

/-- An episode that is linked in two versions of its season keeps its number exactly if its title
carries one, or as many episodes before it are linked in both. -/
theorem same_number_iff (js : Platform) {post : RawPost} (hpost : post.type = some "series".toList)
    {wanted : List Str} (earlier later : List (Option RawItem)) {season season' : RawItem}
    (hv : Versions season season') (hs : selects js wanted season = true) {i : Nat} {e : RawEpisode}
    {link : Str} (hl : present e.link = some link) (hi : (season.episodes.getD [])[i]? = some (some e))
    (hi' : (season'.episodes.getD [])[i]? = some (some e)) :
    ∃ file file', fileAt js post wanted earlier season later i = some file ∧
      fileAt js post wanted earlier season' later i = some file' ∧
      file.url = trim link ∧ file'.url = trim link ∧
      (file.episode = file'.episode ↔
        CarriesNumber (trim (e.title.getD [])) ∨ linkedBefore season i = linkedBefore season' i) := by
  have hs' : selects js wanted season' = true := by
    rw [← hs, selects, selects, seasonNameOf, seasonNameOf, hv.seasonName]
  obtain ⟨file, hf, hu, hn⟩ := fileAt_spec js hpost earlier later hs hi hl
  obtain ⟨file', hf', hu', hn'⟩ := fileAt_spec js hpost earlier later hs' hi' hl
  refine ⟨file, file', hf, hf', hu, hu', ?_⟩
  rw [hn, hn', Option.some.injEq]
  rcases parseEpisodeNumber_cases (trim (e.title.getD [])) with hc | hc
  · obtain ⟨n, hn⟩ := hc
    exact iff_of_true ((hn _).trans (hn _).symm) (.inl ⟨n, hn⟩)
  · rw [hc, hc]
    refine ⟨fun h => .inr (by omega), fun h => ?_⟩
    rcases h with ⟨n, hn⟩ | h
    · have := (hc 0).symm.trans ((hn 0).trans ((hn 1).symm.trans (hc 1)))
      omega
    · rw [h]

/-- A first episode with or without a link, and a second one without a number. -/
def pilotSeason (link : Option Str) : RawItem where
  seasonName := some "Season 1".toList
  episodes := some [some ⟨link, some "Pilot".toList⟩, some ⟨some ['b'], some "Two".toList⟩]

def emptySeries : RawPost where
  name := some "Show".toList
  type := some "series".toList

/-- Without the link of the first episode the second becomes number one. -/
theorem missing_link_renumbers : ¬ ∀ (js : Platform) (post : RawPost) (wanted : List Str)
    (earlier later : List (Option RawItem)) (season season' : RawItem) (i : Nat) (e : RawEpisode)
    (link : Str) (file file' : PlannedFile), post.type = some "series".toList →
    Versions season season' → selects js wanted season = true → present e.link = some link →
    (season.episodes.getD [])[i]? = some (some e) → (season'.episodes.getD [])[i]? = some (some e) →
    fileAt js post wanted earlier season later i = some file →
    fileAt js post wanted earlier season' later i = some file' → file.episode = file'.episode := by
  intro h
  have htype : emptySeries.type = some "series".toList := rfl
  have hs (link : Option Str) : selects plainPlatform [] (pilotSeason link) = true := rfl
  obtain ⟨file, hf, -, hn⟩ := fileAt_spec plainPlatform htype [] [] (hs none) (i := 1) rfl rfl
  obtain ⟨file', hf', -, hn'⟩ := fileAt_spec plainPlatform htype [] [] (hs (some ['a'])) (i := 1) rfl rfl
  have := h plainPlatform emptySeries [] [] [] (pilotSeason none) (pilotSeason (some ['a'])) 1 _ _ file
    file' htype (by decide) (hs none) rfl rfl rfl hf hf'
  rw [hn, hn'] at this
  revert this
  decide +kernel

theorem same_number_pilot : ∃ file file',
    fileAt plainPlatform emptySeries [] [] (pilotSeason (some ['a'])) [] 1 = some file ∧
    fileAt plainPlatform emptySeries [] [] (pilotSeason (some ['c'])) [] 1 = some file' ∧
    file.url = ['b'] ∧ file'.url = ['b'] ∧ (file.episode = file'.episode ↔
      CarriesNumber (trim "Two".toList) ∨
        linkedBefore (pilotSeason (some ['a'])) 1 = linkedBefore (pilotSeason (some ['c'])) 1) := by
  have hv : Versions (pilotSeason (some ['a'])) (pilotSeason (some ['c'])) := by decide
  have hs : selects plainPlatform [] (pilotSeason (some ['a'])) = true := rfl
  have hi (link : Option Str) : ((pilotSeason link).episodes.getD [])[1]? =
    some (some ⟨some ['b'], some "Two".toList⟩) := rfl
  have htype : emptySeries.type = some "series".toList := rfl
  exact same_number_iff plainPlatform htype [] [] hv hs rfl (hi _) (hi _)

end CircleFtp.Titles
