import CircleFtp.Downloads.Service
import CircleFtp.Titles.Selection

/-! The ticked seasons of the title page on their two ways to a plan: joined in the query of the
preview, and as a list in the body of the request that queues them. -/
namespace CircleFtp.Downloads
open Strings Titles

/-- The length of a string in the units of the language. -/
def utf16Length (s : Str) : Nat := (s.map fun c => if c.toNat < 0x10000 then 1 else 2).sum

inductive QueryValue where
  | one (s : Str)
  | many (ss : List Str)

def toStringArray (value : Option QueryValue) : List Str :=
  let list := match value with
    | none => []
    | some (.one s) => [s]
    | some (.many ss) => ss
  ((list.flatMap (split ',')).map trim).filter (· ≠ [])

/-- The `seasons` of the query string; nothing is sent for an empty text. -/
def seasonsQuery (ticks : List Str) : Option QueryValue :=
  let text := [','].intercalate ticks
  if ticks = [] ∨ text = [] then none else some (.one text)

/-- The files that the title endpoint previews. -/
def previewed (js : Platform) (post : RawPost) (ticks : List Str) : List PlannedFile :=
  (buildPlan js post (toStringArray (seasonsQuery ticks))).files

def tooMany : String := "Array must contain at most 100 element(s)"
def tooShort : String := "String must contain at least 1 character(s)"
def tooLong : String := "String must contain at most 120 character(s)"

/-- What is wrong with one entry, after it is trimmed. -/
def entryIssues (season : Str) : List String :=
  (if utf16Length season < 1 then [tooShort] else []) ++ if 120 < utf16Length season then [tooLong] else []

/-- The issues of the `seasons` of a body, by their paths. -/
def seasonIssues (seasons : List Str) : List (String × List String) :=
  (if 100 < seasons.length then [("seasons", [tooMany])] else []) ++
    (seasons.zipIdx.map fun (season, i) => (s!"seasons.{i}", entryIssues season)).filter (·.2 ≠ [])

/-- `createDownloadSchema` on the `seasons` of a body, with `seasons ?? []`. -/
def parseSeasons : Option (List Str) → Except ApiError (List Str)
  | none => pure []
  | some seasons =>
    let seasons := seasons.map trim
    if seasonIssues seasons = [] then pure seasons
    else throw (.badRequest "Check the highlighted fields" (seasonIssues seasons))

/-- The files that `createDownload` stores, unless it finds none. -/
def storedFiles (js : Platform) (post : RawPost) (seasons : List Str) :
    Except ApiError (List PlannedFile) :=
  let plan := buildPlan js post seasons
  if plan.files = [] then
    throw (.badRequest (if seasons ≠ [] then "No episodes matched the seasons you picked"
      else "Circle FTP lists no downloadable files for that title"))
  else pure plan.files

/-- The files that the ticks queue. -/
def queued (js : Platform) (post : RawPost) (ticks : List Str) : Except ApiError (List PlannedFile) :=
  parseSeasons (if ticks = [] then none else some ticks) >>= storedFiles js post

/-- What is queued is what was previewed, and nothing that was previewed is refused. -/
structure QueuedAsPreviewed (js : Platform) (post : RawPost) (ticks : List Str) : Prop where
  same : ∀ files, queued js post ticks = .ok files → files = previewed js post ticks
  accepted : ∀ e, queued js post ticks = .error e → previewed js post ticks = []

/-- The limits of the request. -/
def WithinLimits (ticks : List Str) : Prop :=
  ticks.length ≤ 100 ∧ ∀ tick ∈ ticks, utf16Length tick ≤ 120

instance : DecidablePred WithinLimits := fun _ => inferInstanceAs (Decidable (_ ∧ _))

/-- The texts between the commas of the ticks. -/
def pieces (ticks : List Str) : List Str :=
  ((ticks.flatMap (split ',')).map trim).filter (· ≠ [])

/-- Within the limits, the texts between the commas select the seasons that the ticks select;
beyond them, they select none; as far as the seasons have linked episodes. -/
def PiecesAgree (js : Platform) (post : RawPost) (ticks : List Str) : Prop :=
  ∀ o ∈ offered post, episodesOf o.1 ≠ [] →
    selects js (pieces ticks) o.1 = if WithinLimits ticks then selects js ticks o.1 else false

section
variable {js : Platform} {post : RawPost} {ticks : List Str}

theorem split_intercalate (c : Char) (ss : List Str) (hne : ss ≠ []) :
    split c ([c].intercalate ss) = ss.flatMap (split c) := by
  induction ss with
  | nil => exact absurd rfl hne
  | cons s ss ih =>
    cases ss with
    | nil => simp [List.intercalate]
    | cons t ss =>
      have hjoin : [c].intercalate (s :: t :: ss) = s ++ c :: [c].intercalate (t :: ss) := by
        simp [List.intercalate]
      rw [hjoin, split, List.splitOn_append_cons_self, List.flatMap_cons]
      exact congrArg (split c s ++ ·) (ih (List.cons_ne_nil _ _))

theorem toStringArray_seasonsQuery (hne : ticks ≠ []) :
    toStringArray (seasonsQuery ticks) = pieces ticks := by
  rw [pieces, ← split_intercalate ',' ticks hne, seasonsQuery]
  by_cases htext : [','].intercalate ticks = []
  · rw [if_pos (.inr htext), htext]
    decide
  · rw [if_neg (not_or_intro hne htext), toStringArray]
    simp

theorem entryIssues_eq_nil {season : Str} (hne : season ≠ []) :
    entryIssues season = [] ↔ utf16Length season ≤ 120 := by
  have hpos : 1 ≤ utf16Length season := by
    obtain ⟨c, rest, rfl⟩ := List.exists_cons_of_ne_nil hne
    simp only [utf16Length, List.map_cons, List.sum_cons]
    split <;> omega
  rw [entryIssues, if_neg (by omega), List.nil_append, ite_eq_right_iff]
  simp

theorem seasonIssues_eq_nil {seasons : List Str} (hne : ∀ season ∈ seasons, season ≠ []) :
    seasonIssues seasons = [] ↔ WithinLimits seasons := by
  rw [seasonIssues, List.append_eq_nil_iff, ite_eq_right_iff, WithinLimits]
  refine and_congr (by simp) ?_
  simp only [List.filter_eq_nil_iff, List.forall_mem_map, decide_eq_true_eq, not_not]
  constructor
  · intro h season hs
    obtain ⟨i, hi⟩ := List.mem_iff_getElem?.mp hs
    exact (entryIssues_eq_nil (hne season hs)).mp (h (season, i) (List.mem_zipIdx_iff_getElem?.mpr hi))
  · intro h x hx
    have hs : x.1 ∈ seasons := List.mem_of_getElem? (List.mem_zipIdx_iff_getElem?.mp hx)
    exact (entryIssues_eq_nil (hne x.1 hs)).mpr (h x.1 hs)

/-- Offered names pass the schema exactly within its limits. -/
theorem parseSeasons_offered (htrim : ∀ tick ∈ ticks, trim tick = tick ∧ tick ≠ []) :
    parseSeasons (some ticks) = if WithinLimits ticks then pure ticks
      else throw (.badRequest "Check the highlighted fields" (seasonIssues ticks)) := by
  have hmap : ticks.map trim = ticks := by
    conv_rhs => rw [← List.map_id ticks]
    exact List.map_congr_left fun tick ht => (htrim tick ht).1
  simp only [parseSeasons, hmap, seasonIssues_eq_nil fun tick ht => (htrim tick ht).2]

theorem seasonFiles_eq_nil {showName : Str} {season : RawItem} :
    seasonFiles js showName season = [] ↔ episodesOf season = [] := by
  simp [seasonFiles]

theorem plan_nil_iff (h : post.type = some "series".toList) (wanted : List Str) :
    (buildPlan js post wanted).files = [] ↔
      ∀ o ∈ offered post, episodesOf o.1 ≠ [] → selects js wanted o.1 = false := by
  have hfiles := buildPlan_files h js wanted (g := fun _ => ()) fun _ _ => rfl
  rw [← List.map_eq_nil_iff (f := fun _ : PlannedFile => ()), hfiles, List.flatMap_eq_nil_iff]
  refine forall₂_congr fun o _ => ?_
  cases hs : selects js wanted o.1 <;> simp [seasonFiles_eq_nil]

theorem planEpisode_season (js : Platform) (showName seasonName : Str) (index : Nat) (link : Str)
    (episode : RawEpisode) :
    (planEpisode js showName seasonName index link episode).season =
      some (orElse seasonName (seasonDirOf seasonName (parseSeasonNumber seasonName))) := rfl

theorem seasonFiles_season {showName : Str} {season : RawItem} {file : PlannedFile}
    (hf : file ∈ seasonFiles js showName season) : file.season = some (orElse (seasonNameOf season)
      (seasonDirOf (seasonNameOf season) (parseSeasonNumber (seasonNameOf season)))) := by
  obtain ⟨i, hi, rfl⟩ := List.mem_mapIdx.mp hf
  exact planEpisode_season ..

/-- Without a name a season is selected only with all others. -/
theorem unnamed_not_selected {wanted : List Str} (hne : wanted ≠ []) {season : RawItem}
    (hn : seasonNameOf season = []) : selects js wanted season = false := by
  refine Bool.eq_false_iff.mpr fun hs => ?_
  obtain ⟨entry, -, -, h⟩ := (selects_iff hne).mp hs
  rw [SameSeason, hn] at h
  have hnumber : parseSeasonNumber [] = none := by decide
  rcases h with ⟨n, h, -⟩ | ⟨h, -⟩
  · rw [hnumber] at h
    cases h
  · exact h (by decide)

theorem length_flatMap_if {α β : Type} (p : α → Bool) (f : α → List β) (xs : List α) :
    (xs.flatMap fun x => if p x then f x else []).length ≤ (xs.flatMap f).length := by
  induction xs with
  | nil => exact le_rfl
  | cons x xs ih =>
    simp only [List.flatMap_cons, List.length_append]
    refine Nat.add_le_add ?_ ih
    split <;> simp

/-- A part that is as long as the whole leaves nothing out. -/
theorem taken_of_length {α β : Type} {p : α → Bool} {f : α → List β} {xs : List α}
    (h : (xs.flatMap f).length ≤ (xs.flatMap fun x => if p x then f x else []).length) {x : α}
    (hx : x ∈ xs) (hf : f x ≠ []) : p x = true := by
  induction xs with
  | nil => cases hx
  | cons y ys ih =>
    simp only [List.flatMap_cons, List.length_append] at h
    have hys := length_flatMap_if p f ys
    have hy : (if p y then f y else []).length ≤ (f y).length := by
      split <;> simp
    rcases List.mem_cons.mp hx with rfl | hx
    · by_contra hp
      have := List.length_pos_of_ne_nil hf
      rw [if_neg hp, List.length_nil] at h
      omega
    · exact ih (by omega) hx

/-- A selection that finds the files of another one takes what the other takes. -/
theorem selects_of_files (h : post.type = some "series".toList) {wanted wanted' : List Str}
    (hne : wanted ≠ [])
    (hsub : ∀ season ∈ (buildPlan js post wanted').files.map (·.season),
      season ∈ (buildPlan js post wanted).files.map (·.season)) (hne' : wanted' ≠ [])
    {o : RawItem × Str} (ho : o ∈ offered post) (hlinked : episodesOf o.1 ≠ [])
    (hs : selects js wanted' o.1 = true) : selects js wanted o.1 = true := by
  have hname : seasonNameOf o.1 ≠ [] := by
    intro hn
    rw [unnamed_not_selected hne' hn] at hs
    cases hs
  obtain ⟨file, hfile⟩ := List.exists_mem_of_ne_nil _
    (mt seasonFiles_eq_nil.mp hlinked : seasonFiles js (showNameOf post) o.1 ≠ [])
  have hin : file.season ∈ (buildPlan js post wanted).files.map (·.season) := by
    refine hsub _ ?_
    rw [buildPlan_files h js wanted' fun _ _ => rfl]
    refine List.mem_flatMap.mpr ⟨o, ho, ?_⟩
    rw [if_pos hs]
    exact List.mem_map_of_mem hfile
  rw [buildPlan_files h js wanted fun _ _ => rfl] at hin
  obtain ⟨o', ho', hin⟩ := List.mem_flatMap.mp hin
  by_cases hs' : selects js wanted o'.1 = true
  · rw [if_pos hs'] at hin
    obtain ⟨file', hfile', he⟩ := List.mem_map.mp hin
    -- the two seasons have one name
    have hname' : seasonNameOf o'.1 ≠ [] := by
      intro hn
      rw [unnamed_not_selected hne hn] at hs'
      cases hs'
    rw [seasonFiles_season hfile, seasonFiles_season hfile', orElse, orElse, if_neg hname,
      if_neg hname', Option.some.injEq] at he
    rwa [selects, he] at hs'
  · rw [if_neg hs'] at hin
    cases hin

/-- Two selections find the same files exactly when they take the same seasons, apart from those
without linked episodes. -/
theorem files_eq_iff (h : post.type = some "series".toList) {wanted : List Str} (hne : ticks ≠ []) :
    (buildPlan js post ticks).files = (buildPlan js post wanted).files ↔
      ∀ o ∈ offered post, episodesOf o.1 ≠ [] → selects js wanted o.1 = selects js ticks o.1 := by
  constructor
  · intro he o ho hlinked
    have hunits (wanted : List Str) := buildPlan_files h js wanted (g := fun _ => ()) fun _ _ => rfl
    by_cases hw : wanted = []
    · subst hw
      have hall (o : RawItem × Str) : selects js [] o.1 = true := by
        simp [selects, seasonMatches]
      have hlength := congrArg List.length (congrArg (List.map fun _ => ()) he)
      rw [hunits, hunits] at hlength
      simp only [hall, if_true] at hlength
      have hfiles : (seasonFiles js (showNameOf post) o.1).map (fun _ => ()) ≠ [] :=
        mt List.map_eq_nil_iff.mp (mt seasonFiles_eq_nil.mp hlinked)
      rw [hall o, taken_of_length hlength.symm.le ho hfiles]
    · have hsub {a b : List Str} (hab : (buildPlan js post a).files = (buildPlan js post b).files) :
          ∀ season ∈ (buildPlan js post b).files.map (·.season),
            season ∈ (buildPlan js post a).files.map (·.season) := by
        rw [hab]
        exact fun _ h => h
      exact Bool.eq_iff_iff.mpr ⟨selects_of_files h hne (hsub he) hw ho hlinked,
        selects_of_files h hw (hsub he.symm) hne ho hlinked⟩
  · intro hall
    have hplan : (plan js post ticks).2 = (plan js post wanted).2 := by
      rw [plan_files h, plan_files h]
      refine List.flatMap_congr fun o ho => ?_
      by_cases hlinked : episodesOf o.1 = []
      · simp [seasonFiles_eq_nil.mpr hlinked]
      · rw [hall o ho hlinked]
    rw [buildPlan, buildPlan, hplan]

theorem queued_eq (hne : ticks ≠ []) (htrim : ∀ tick ∈ ticks, trim tick = tick ∧ tick ≠ []) :
    queued js post ticks = if WithinLimits ticks then storedFiles js post ticks
      else throw (.badRequest "Check the highlighted fields" (seasonIssues ticks)) := by
  rw [queued, if_neg hne, parseSeasons_offered htrim]
  split <;> rfl

/-- Within the limits the lists must be one; beyond them there must be nothing to see. -/
theorem queuedAsPreviewed_iff (hne : ticks ≠ [])
    (htrim : ∀ tick ∈ ticks, trim tick = tick ∧ tick ≠ []) :
    QueuedAsPreviewed js post ticks ↔ if WithinLimits ticks
      then (buildPlan js post ticks).files = previewed js post ticks
      else previewed js post ticks = [] := by
  have hqueued : queued js post ticks = _ := queued_eq hne htrim
  by_cases hlimits : WithinLimits ticks
  · rw [if_pos hlimits, storedFiles] at hqueued
    rw [if_pos hlimits]
    by_cases hfiles : (buildPlan js post ticks).files = []
    · rw [if_pos hfiles] at hqueued
      refine ⟨fun h => hfiles.trans (h.accepted _ hqueued).symm, fun h => ⟨?_, ?_⟩⟩
      · intro files hok
        rw [hqueued] at hok
        cases hok
      · exact fun _ _ => h.symm.trans hfiles
    · rw [if_neg hfiles] at hqueued
      refine ⟨fun h => h.same _ hqueued, fun h => ⟨?_, ?_⟩⟩
      · intro files hok
        rw [hqueued] at hok
        cases hok
        exact h
      · intro e herror
        rw [hqueued] at herror
        cases herror
  · rw [if_neg hlimits] at hqueued ⊢
    refine ⟨fun h => h.accepted _ hqueued, fun h => ⟨?_, fun _ _ => h⟩⟩
    intro files hok
    rw [hqueued] at hok
    cases hok

/-- What is previewed for ticked seasons is what is queued, exactly if the texts between the commas
of the ticks find what the ticks find. -/
theorem queued_as_previewed_iff (js : Platform) {post : RawPost}
    (h : post.type = some "series".toList) {ticks : List Str} (hne : ticks ≠ [])
    (hsub : ∀ tick ∈ ticks, ∃ season ∈ (buildPlan js post []).seasons, season.name = tick) :
    QueuedAsPreviewed js post ticks ↔ PiecesAgree js post ticks := by
  have htrim : ∀ tick ∈ ticks, trim tick = tick ∧ tick ≠ [] := by
    intro tick ht
    obtain ⟨season, hs, rfl⟩ := hsub tick ht
    rw [buildPlan_seasons h] at hs
    obtain ⟨o, ho, rfl⟩ := List.mem_map.mp hs
    exact offered_trimmed ho
  rw [queuedAsPreviewed_iff hne htrim, previewed, toStringArray_seasonsQuery hne, PiecesAgree]
  by_cases hlimits : WithinLimits ticks
  · simp only [if_pos hlimits]
    exact files_eq_iff h hne
  · simp only [if_neg hlimits]
    exact plan_nil_iff h _

end

/-- A series with a comma in the name of its first season. -/
def listedSeries : RawPost where
  name := some "Show".toList
  type := some "series".toList
  content := .list [oneEpisode "Extras, Specials" "a", oneEpisode "Specials" "b"]

/-- The preview shows the specials, the request stores the extras. -/
theorem comma_previews_another : ¬ ∀ (js : Platform) (post : RawPost) (ticks : List Str),
    post.type = some "series".toList → ticks ≠ [] →
    (∀ tick ∈ ticks, ∃ season ∈ (buildPlan js post []).seasons, season.name = tick) →
    QueuedAsPreviewed js post ticks := by
  intro h
  have hall := h plainPlatform listedSeries ["Extras, Specials".toList] rfl (by decide)
    (by decide +kernel)
  have hurls : (queued plainPlatform listedSeries ["Extras, Specials".toList]).map
      (fun files => files.map (·.url)) = .ok ["a".toList] := by decide +kernel
  have hseen : (previewed plainPlatform listedSeries ["Extras, Specials".toList]).map (·.url) =
      ["b".toList] := by decide +kernel
  cases hq : queued plainPlatform listedSeries ["Extras, Specials".toList] with
  | error e => rw [hq] at hurls; cases hurls
  | ok files =>
    rw [hq] at hurls
    rw [← hall.same files hq] at hseen
    cases (Except.ok.inj hurls).symm.trans hseen

theorem queued_as_previewed_dubbed :
    QueuedAsPreviewed plainPlatform dubbedSeries ["Season 1".toList] ↔
      PiecesAgree plainPlatform dubbedSeries ["Season 1".toList] :=
  queued_as_previewed_iff plainPlatform rfl (by decide) (by decide +kernel)

end CircleFtp.Downloads
