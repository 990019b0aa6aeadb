import CircleFtp.Titles.Text

/-! The files of a post and the paths they land at: `circleftp/types.ts`, `circleftp/plan.ts`. -/
namespace CircleFtp.Titles
open Strings Regex

structure RawEpisode where
  link : Option Str := none
  title : Option Str := none

/-- An element of `content`: the fields of a season and of a part, all optional. -/
structure RawItem where
  link : Option Str := none
  title : Option Str := none
  seasonName : Option Str := none
  episodes : Option (List (Option RawEpisode)) := none

/-- Elements of a list may be `null`. -/
inductive RawContent where
  | missing
  | text (s : Str)
  | list (items : List (Option RawItem))

/-- The fields that the plan reads. Numbers are given as the language prints them. -/
structure RawPost where
  id : Option Str := none
  title : Option Str := none
  name : Option Str := none
  type : Option Str := none
  year : Option Str := none
  content : RawContent := .missing

structure PlannedFile where
  url : Str
  relPath : Str
  label : Str
  season : Option Str
  episode : Option Nat
deriving DecidableEq

structure SeasonSummary where
  name : Str
  number : Option Nat
  episodeCount : Nat
deriving DecidableEq

structure DownloadPlan where
  folder : Str
  files : List PlannedFile
  seasons : List SeasonSummary
  type : Str
deriving DecidableEq

def decimal (n : Nat) : Str := Nat.toDigits 10 n

/-- `"Name (Year)"`, the folder layout Jellyfin matches titles against. -/
def folderTitle (post : RawPost) : Str :=
  let name := sanitize ((post.name.or post.title).getD
    ("post-".toList ++ post.id.getD "unknown".toList))
  match (firstYear (post.year.getD [])).or (firstYear (post.title.getD [])) with
  | some year => name ++ " (".toList ++ year ++ ")".toList
  | none => name

/-- An `SxxEyy` marker, so that prefixing one would be noise. -/
def hasEpisodeMarker : Regex :=
  seqs [.boundary, letter 's', .rep 1 3 digit, .star space,
    opt (.set fun c => c ∈ ['.', '_', ' ', '-']), letter 'e', .rep 1 4 digit, .boundary]

/-- A link that is there: `Boolean(link)`. -/
def present (link : Option Str) : Option Str := link.filter (· ≠ [])

def episodesOf (season : RawItem) : List (Str × RawEpisode) :=
  (season.episodes.getD []).filterMap fun episode =>
    episode.bind fun e => (present e.link).map (·, e)

def seasonDirOf (seasonName : Str) : Option Nat → Str
  | some n => "Season ".toList ++ padStart 2 '0' (decimal n)
  | none => sanitize seasonName "Season 01".toList

/-- The file of the linked episode at an index of its season. -/
def planEpisode (js : Platform) (showName seasonName : Str) (index : Nat) (link : Str)
    (episode : RawEpisode) : PlannedFile :=
  let seasonNumber := parseSeasonNumber seasonName
  let seasonDir := seasonDirOf seasonName seasonNumber
  let url := trim link
  let label := trim (episode.title.getD [])
  let episodeNumber := parseEpisodeNumber label (index + 1)
  let filename := filenameFromUrl js url (orElse label ("episode ".toList ++ decimal (index + 1)))
  let filename :=
    match seasonNumber with
    | some n =>
      if hasEpisodeMarker.test filename then filename
      else
        let marker := "S".toList ++ padStart 2 '0' (decimal n) ++ "E".toList ++
          padStart 2 '0' (decimal episodeNumber)
        showName ++ " ".toList ++ marker ++ " - ".toList ++ filename
    | none => filename
  { url, relPath := seasonDir ++ "/".toList ++ filename, label := orElse label filename,
    season := some (orElse seasonName seasonDir), episode := some episodeNumber }

/-- The seasons of a series and the files of those that are wanted, after `done` seasons. -/
def planSeasons (js : Platform) (showName : Str) (wanted : List Str) :
    List (Option RawItem) → Nat → List SeasonSummary × List PlannedFile
  | [], _ => ([], [])
  | none :: items, done => planSeasons js showName wanted items done
  | some season :: items, done =>
    let seasonName := trim (season.seasonName.getD [])
    let seasonNumber := parseSeasonNumber seasonName
    let episodes := episodesOf season
    let summary := ⟨orElse seasonName ("Season ".toList ++ decimal (done + 1)), seasonNumber,
      episodes.length⟩
    let (seasons, files) := planSeasons js showName wanted items (done + 1)
    (summary :: seasons,
      if seasonMatches js seasonName seasonNumber wanted then
        (episodes.mapIdx fun index x => planEpisode js showName seasonName index x.1 x.2) ++ files
      else files)

def planPart (js : Platform) (index : Nat) (part : Option RawItem) : Option PlannedFile :=
  part.bind fun p => (present p.link).map fun link =>
    let url := trim link
    let label := p.title.getD ("part ".toList ++ decimal (index + 1))
    { url, relPath := filenameFromUrl js url label, label, season := none, episode := none }

/-- Everything `buildPlan` finds, before the paths are made distinct. -/
def plan (js : Platform) (post : RawPost) (wanted : List Str) :
    List SeasonSummary × List PlannedFile :=
  let type := post.type.getD []
  let folder := folderTitle post
  let showName := sanitize ((post.name.or post.title).getD []) "Show".toList
  let single (content label : Str) : PlannedFile :=
    let url := trim content
    { url, relPath := filenameFromUrl js url folder, label, season := none, episode := none }
  if type = "series".toList then
    match post.content with
    | .list items => planSeasons js showName wanted items 0
    | _ => ([], [])
  else if type = "singleVideo".toList ∨ type = "singleFile".toList then
    match post.content with
    | .text s => ([], if trim s = [] then [] else [single s (post.title.getD folder)])
    | _ => ([], [])
  else if type = "multiVideo".toList ∨ type = "multiFile".toList then
    match post.content with
    | .list parts => ([], (parts.mapIdx (planPart js)).filterMap id)
    | _ => ([], [])
  else
    match post.content with
    | .text s => ([], if "http".toList.isPrefixOf s then [single s folder] else [])
    | _ => ([], [])

/-- The path with a number before its extension, which a dot in the last segment begins. -/
def suffixed (relPath : Str) (next : Nat) : Str :=
  let dot := lastIndexOf relPath '.'
  let slash := lastIndexOf relPath '/'
  let mark := " (".toList ++ decimal next ++ ")".toList
  if dot > slash ∧ dot ≠ -1 then relPath.take dot.toNat ++ mark ++ relPath.drop dot.toNat
  else relPath ++ mark

/-- Suffix the later ones of several files with one path. -/
def deduplicateFrom (seen : Str → Option Nat) : List PlannedFile → List PlannedFile
  | [] => []
  | file :: files =>
    match seen file.relPath with
    | none => file :: deduplicateFrom (Function.update seen file.relPath (some 1)) files
    | some count =>
      { file with relPath := suffixed file.relPath (count + 1) } ::
        deduplicateFrom (Function.update seen file.relPath (some (count + 1))) files

def deduplicatePaths (files : List PlannedFile) : List PlannedFile :=
  deduplicateFrom (fun _ => none) files

def buildPlan (js : Platform) (post : RawPost) (wanted : List Str := []) : DownloadPlan where
  folder := folderTitle post
  files := deduplicatePaths (plan js post wanted).2
  seasons := (plan js post wanted).1
  type := post.type.getD []

end CircleFtp.Titles
