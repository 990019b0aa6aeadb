import CircleFtp.Downloads.Previewed
import CircleFtp.Files.Tree

/-! The directories of a download: made on the way to its files, and tidied up when it is deleted. -/
namespace CircleFtp.Downloads
open Files Strings Titles

/-- Where the system finds a path. -/
def MediaRoot.locate (m : MediaRoot) (path : Str) : List Str := components m.cwd [path]

/-- `ensureParentDir`, and the file written. -/
def createAt {β : Type} (m : MediaRoot) (t : Tree Str β) (destination : Str) (content : β) :
    Option (Tree Str β) :=
  (t.makeDirs (m.locate (dirname destination))).bind fun t =>
    t.writeFile (m.locate destination) content

/-- A file at every destination that is accepted. -/
def createFiles {β : Type} (m : MediaRoot) (folder : Str) (content : Str → β) :
    List Str → Tree Str β → Option (Tree Str β)
  | [], t => some t
  | relPath :: relPaths, t =>
    match resolveDestination m folder relPath with
    | .error _ => createFiles m folder content relPaths t
    | .ok destination => (createAt m t destination (content relPath)).bind fun t =>
        createFiles m folder content relPaths t

/-- The directory part of a path, as a string. -/
def seasonDir (relPath : Str) : Str := joinSlash (split '/' relPath).dropLast

def seasonDirs (relPaths : List Str) : List Str :=
  ((relPaths.map seasonDir).filter (· ≠ [])).eraseDups

/-- The files of the job and their part files; a directory in their place ends the deletion. -/
def removeFiles {β : Type} (m : MediaRoot) (folder : Str) :
    List Str → Tree Str β → Except (Tree Str β) (Tree Str β)
  | [], t => pure t
  | relPath :: relPaths, t =>
    match resolveDestination m folder relPath with
    | .error _ => removeFiles m folder relPaths t
    | .ok destination => do
      let t ← t.remove (m.locate destination)
      let t ← t.remove (m.locate (partPathFor destination))
      removeFiles m folder relPaths t

/-- `removeDownloadFiles` with its directories; an error comes with what it leaves. -/
def MediaRoot.removeDownloadFiles {β : Type} (m : MediaRoot) (folder : Str) (relPaths : List Str)
    (t : Tree Str β) : Except (Tree Str β) (Tree Str β) := do
  let t ← removeFiles m folder relPaths t
  let titleDir := titleDirectory m folder
  if titleDir = m.root ∨ ¬ (m.root ++ ['/']).isPrefixOf titleDir then pure t
  else
    let t := (seasonDirs relPaths).foldl (fun t dir =>
      t.removeDir (m.locate (join titleDir (sanitize dir "season".toList)))) t
    pure (t.removeDir (m.locate titleDir))

/-- The tree in the end, with or without an error. -/
def afterwards {α : Type} : Except α α → α
  | .ok a | .error a => a

def destinations (m : MediaRoot) (folder : Str) (relPaths : List Str) : List Str :=
  relPaths.filterMap fun relPath => (resolveDestination m folder relPath).toOption

/-- The directories of the title that are tidied up, by name. -/
def tidiedNames (relPaths : List Str) : List Str :=
  (seasonDirs relPaths).map (sanitize · "season".toList)

/-- No destination lies in a directory with the name of another one's part file. Every directory
that is missing on the way to a destination is the title directory or one of those in it that are
tidied up by name. And the title directory did not hold empty directories of these names only. -/
structure TidiesUp {β : Type} (m : MediaRoot) (folder : Str) (relPaths : List Str) (t : Tree Str β) :
    Prop where
  parts : ∀ d ∈ destinations m folder relPaths, ∀ d' ∈ destinations m folder relPaths,
    m.locate (partPathFor d) <+: m.locate d' → m.locate (partPathFor d) = m.locate d'
  named : ∀ d ∈ destinations m folder relPaths, ∀ q, q <+: m.locate d → q ≠ m.locate d →
    t.entry q = none → q = m.locate (titleDirectory m folder) ∨
      ∃ n ∈ tidiedNames relPaths, q = m.locate (titleDirectory m folder) ++ [n]
  held : m.root ≠ ['/'] →
    ¬ t.HoldsOnly (tidiedNames relPaths) (m.locate (titleDirectory m folder))

section
variable {m : MediaRoot} {folder relPath d : Str}

theorem locate_slash {cs : List Str} (h : ∀ c ∈ cs, Proper c) : m.locate ('/' :: joinSlash cs) = cs := by
  have hsplit : split '/' ('/' :: joinSlash cs) = [] :: split '/' (joinSlash cs) := by
    rw [← List.nil_append ('/' :: _), split_append_slash]
    rfl
  rw [MediaRoot.locate, components_one, hsplit, isAbsolute, List.head?_cons, if_pos (by simp),
    List.foldl_cons, push_drops (.inl rfl)]
  by_cases hne : cs = []
  · subst hne
    decide
  · rw [split_joinSlash h hne, foldl_push_proper h, List.nil_append]

theorem locate_root : m.locate m.root = components m.cwd [m.path] :=
  locate_slash (components_proper _ _)

theorem locate_title : m.locate (titleDirectory m folder) = m.locate m.root ++ [sanitize folder] := by
  have hfolder : Proper (sanitize folder) := sanitize_proper folder untitled_clean
  have hc : components m.cwd [m.root, sanitize folder] =
      components m.cwd [m.path] ++ [sanitize folder] :=
    components_resolve m.cwd [m.path] fun c hc => List.mem_singleton.mp hc ▸ hfolder
  rw [titleDirectory, resolve, locate_slash (components_proper _ _), hc, locate_root]

theorem dirname_slash {cs : List Str} {c : Str} (hc : Proper c) (h : ∀ c ∈ cs, Proper c) (hne : cs ≠ []) :
    dirname ('/' :: joinSlash (cs ++ [c])) = '/' :: joinSlash cs := by
  have hpath : '/' :: joinSlash (cs ++ [c]) = '/' :: joinSlash cs ++ ['/'] ++ c := by
    rw [joinSlash_append hne (by simp)]
    simp [joinSlash]
  have hlast : ('/' :: joinSlash cs ++ ['/'] ++ c).rdropWhile (· = '/') =
      '/' :: joinSlash cs ++ ['/'] ++ c := by
    refine List.rdropWhile_eq_self_iff.mpr fun hl => ?_
    rw [List.getLast_append_of_ne_nil _ hc.nonempty, decide_eq_true_eq]
    exact fun he => hc.noSlash (he ▸ List.getLast_mem hc.nonempty)
  have hname : ('/' :: joinSlash cs ++ ['/'] ++ c).rdropWhile (· ≠ '/') = '/' :: joinSlash cs ++ ['/'] := by
    rw [List.rdropWhile, List.reverse_append, List.dropWhile_append_of_pos, List.reverse_append]
    · simp
    · intro x hx
      rw [decide_eq_true_eq]
      rintro rfl
      exact hc.noSlash (List.mem_reverse.mp hx)
  obtain ⟨x, u, hu⟩ := List.exists_cons_of_ne_nil (joinSlash_ne_nil h hne)
  rw [dirname, hpath, hlast, hname, hu, if_neg (by simp), if_neg (by simp), List.dropLast_concat]

/-- A destination and its part file lie side by side somewhere in the title directory. -/
theorem located (h : resolveDestination m folder relPath = .ok d) :
    ∃ cs c, m.locate d = m.locate (titleDirectory m folder) ++ cs ++ [c] ∧
      m.locate (partPathFor d) = m.locate (titleDirectory m folder) ++ cs ++ [c ++ PART_SUFFIX] ∧
      m.locate (dirname d) = m.locate (titleDirectory m folder) ++ cs := by
  have htitle : ∀ c ∈ components m.cwd [m.root, sanitize folder], Proper c := components_proper _ _
  have hat : m.locate (titleDirectory m folder) = components m.cwd [m.root, sanitize folder] :=
    locate_slash htitle
  have hne : components m.cwd [m.root, sanitize folder] ≠ [] := by
    rw [← hat, locate_title]
    simp
  obtain ⟨cs, hcs, hproper, hd⟩ := destination_in_titleDirectory h
  obtain ⟨ds, c, rfl⟩ := List.eq_nil_or_concat cs |>.resolve_left hcs
  rw [List.concat_eq_append] at hcs hproper hd
  have hc : Proper c := hproper c (by simp)
  rw [hat]
  have habove : ∀ e ∈ components m.cwd [m.root, sanitize folder] ++ ds, Proper e := fun e he =>
    (List.mem_append.mp he).elim (htitle e) fun he => hproper e (by simp [he])
  have hwith {x : Str} (hx : Proper x) :
      ∀ e ∈ components m.cwd [m.root, sanitize folder] ++ ds ++ [x], Proper e := fun e he =>
    (List.mem_append.mp he).elim (habove e) fun he => List.mem_singleton.mp he ▸ hx
  have hd' : d = '/' :: joinSlash (components m.cwd [m.root, sanitize folder] ++ ds ++ [c]) := by
    rw [hd, titleDirectory, resolve, List.append_assoc, joinSlash_append hne (by simp)]
    rfl
  have hdirs : components m.cwd [m.root, sanitize folder] ++ ds ≠ [] :=
    List.append_ne_nil_of_left_ne_nil hne ds
  refine ⟨ds, c, ?_, ?_, ?_⟩
  · rw [hd', locate_slash (hwith hc)]
  · rw [hd', partPathFor, List.cons_append, ← joinSlash_concat, locate_slash (hwith (proper_part hc))]
  · rw [hd', dirname_slash hc habove hdirs, locate_slash habove]

end

theorem locate_join (m : MediaRoot) (folder : Str) {dir : Str} :
    m.locate (join (titleDirectory m folder) (sanitize dir "season".toList)) =
      m.locate (titleDirectory m folder) ++ [sanitize dir "season".toList] :=
  components_join (sanitize_proper dir (clean_of_solid (solid_of_all (by decide)) (by decide))) _ _

/-- The title directory is the media root or outside it only where the root is that of the system. -/
theorem title_refused_iff (m : MediaRoot) (folder : Str) :
    (titleDirectory m folder = m.root ∨ ¬ (m.root ++ ['/']).isPrefixOf (titleDirectory m folder)) ↔
      m.root = ['/'] := by
  have hfolder : Proper (sanitize folder) := sanitize_proper folder untitled_clean
  have hproper : ∀ c ∈ components m.cwd [m.path], Proper c := components_proper _ _
  have htitle : titleDirectory m folder =
      '/' :: joinSlash (components m.cwd [m.path] ++ [sanitize folder]) := by
    rw [titleDirectory, resolve, MediaRoot.root,
      components_resolve m.cwd [m.path] fun c hc => List.mem_singleton.mp hc ▸ hfolder]
  by_cases hroot : components m.cwd [m.path] = []
  · have hr : m.root = ['/'] := by
      rw [MediaRoot.root, resolve, hroot]
      rfl
    refine iff_of_true (.inr fun hp => ?_) hr
    obtain ⟨u, hu⟩ := List.isPrefixOf_iff_prefix.mp hp
    rw [htitle, hr, hroot, List.nil_append] at hu
    refine hfolder.noSlash ?_
    rw [show sanitize folder = '/' :: u by simpa [joinSlash] using hu.symm]
    exact List.mem_cons_self
  · have hr : m.root ≠ ['/'] := by
      intro hr
      exact joinSlash_ne_nil hproper hroot (List.cons.inj hr).2
    have hbelow : titleDirectory m folder = m.root ++ ['/'] ++ sanitize folder := by
      rw [htitle, joinSlash_append hroot (by simp), MediaRoot.root, resolve]
      simp [joinSlash]
    refine iff_of_false ?_ hr
    rintro (he | hp)
    · rw [hbelow] at he
      simpa using congrArg List.length he
    · rw [hbelow] at hp
      exact hp (List.isPrefixOf_iff_prefix.mpr (List.prefix_append _ _))

/-- Nothing is accepted into the root of the system. -/
theorem destinations_root (m : MediaRoot) (folder : Str) (relPaths : List Str) (hr : m.root = ['/']) :
    destinations m folder relPaths = [] := by
  rw [destinations, List.filterMap_eq_nil_iff]
  intro relPath _
  cases h : resolveDestination m folder relPath with
  | error e => rfl
  | ok d =>
    exfalso
    have htitle : 2 ≤ (titleDirectory m folder).length := by
      have hne : joinSlash (components m.cwd [m.root, sanitize folder]) ≠ [] := by
        refine joinSlash_ne_nil (components_proper _ _) ?_
        rw [MediaRoot.root, components_resolve m.cwd [m.path] fun c hc =>
          List.mem_singleton.mp hc ▸ sanitize_proper folder untitled_clean]
        simp
      have := List.length_pos_of_ne_nil hne
      rw [titleDirectory, resolve, List.length_cons]
      omega
    obtain ⟨cs, -, -, hd⟩ := destination_in_titleDirectory h
    obtain ⟨-, hin⟩ := resolveDestinationBy_ok (resolveDestinationBy_sanitize m folder relPath ▸ h)
    rw [hr] at hin
    rcases hin with hin | ⟨u, hin⟩
    · have := congrArg List.length (hd.symm.trans hin)
      rw [List.length_append, List.length_singleton] at this
      omega
    · -- the destination begins with two slashes, so the title directory does
      have hslashes : ['/', '/'] <+: titleDirectory m folder :=
        List.prefix_of_prefix_length_le ⟨u, hin.symm⟩ ⟨_, hd.symm⟩ htitle
      rcases (title_refused_iff m folder).mpr hr with he | hp
      · rw [he, hr] at htitle
        simp at htitle
      · rw [hr] at hp
        exact hp (List.isPrefixOf_iff_prefix.mpr hslashes)

section
variable {β : Type} {m : MediaRoot} {folder : Str} {f : Str → β}

theorem createAt_eq {relPath d : Str} (h : resolveDestination m folder relPath = .ok d)
    (t : Tree Str β) (content : β) : createAt m t d content = t.createFile (m.locate d) content := by
  obtain ⟨cs, c, hd, -, hdir⟩ := located h
  rw [createAt, Tree.createFile, hdir, hd, List.dropLast_concat]

/-- The files of the job, each with its content. -/
def placed (m : MediaRoot) (folder : Str) (f : Str → β) (relPaths : List Str) :
    List (List Str × β) :=
  relPaths.filterMap fun relPath =>
    (resolveDestination m folder relPath).toOption.map fun d => (m.locate d, f relPath)

theorem placed_fst (relPaths : List Str) : (placed m folder f relPaths).map Prod.fst =
    (destinations m folder relPaths).map m.locate := by
  rw [placed, destinations, List.map_filterMap, List.map_filterMap]
  congr 1
  funext relPath
  rw [Option.map_map]
  rfl

theorem createFiles_eq (relPaths : List Str) (t : Tree Str β) : createFiles m folder f relPaths t =
    (placed m folder f relPaths).foldlM (fun t x => t.createFile x.1 x.2) t := by
  induction relPaths generalizing t with
  | nil => rfl
  | cons relPath relPaths ih =>
    rw [createFiles, placed, List.filterMap_cons]
    cases h : resolveDestination m folder relPath with
    | error e => exact ih t
    | ok d =>
      change (createAt m t d (f relPath)).bind (createFiles m folder f relPaths) =
        (t.createFile (m.locate d) (f relPath)).bind fun t =>
          (placed m folder f relPaths).foldlM (fun t x => t.createFile x.1 x.2) t
      rw [createAt_eq h, funext ih]

/-- The paths that are removed, in order. -/
def swept (m : MediaRoot) (ds : List Str) : List (List Str) :=
  ds.flatMap fun d => [m.locate d, m.locate (partPathFor d)]

theorem removeFiles_eq (relPaths : List Str) (t : Tree Str β) : removeFiles m folder relPaths t =
    (swept m (destinations m folder relPaths)).foldlM Tree.remove t := by
  induction relPaths generalizing t with
  | nil => rfl
  | cons relPath relPaths ih =>
    rw [removeFiles, destinations, List.filterMap_cons]
    cases h : resolveDestination m folder relPath with
    | error e => exact ih t
    | ok d =>
      change ((t.remove (m.locate d)).bind fun t =>
          (t.remove (m.locate (partPathFor d))).bind (removeFiles m folder relPaths)) =
        (t.remove (m.locate d)).bind fun t => (t.remove (m.locate (partPathFor d))).bind fun t =>
          (swept m (destinations m folder relPaths)).foldlM Tree.remove t
      rw [funext ih]

theorem tidied_eq (relPaths : List Str) (t : Tree Str β) :
    ((seasonDirs relPaths).foldl (fun t dir =>
      t.removeDir (m.locate (join (titleDirectory m folder) (sanitize dir "season".toList)))) t).removeDir
        (m.locate (titleDirectory m folder)) =
      t.tidy (tidiedNames relPaths) (m.locate (titleDirectory m folder)) := by
  simp only [locate_join, Tree.tidy, tidiedNames, List.map_map, List.foldl_map]
  rfl

theorem mem_swept {q : List Str} {ds : List Str} :
    q ∈ swept m ds ↔ ∃ d ∈ ds, q = m.locate d ∨ q = m.locate (partPathFor d) := by
  simp [swept]

theorem removeDownloadFiles_ok {relPaths : List Str} {t u : Tree Str β}
    (h : (swept m (destinations m folder relPaths)).foldlM Tree.remove t = .ok u) :
    afterwards (m.removeDownloadFiles folder relPaths t) = if m.root = ['/'] then u
      else u.tidy (tidiedNames relPaths) (m.locate (titleDirectory m folder)) := by
  rw [MediaRoot.removeDownloadFiles, removeFiles_eq, h]
  change afterwards (if titleDirectory m folder = m.root ∨ _ then _ else _) = _
  rw [if_congr (title_refused_iff m folder) rfl rfl, ← tidied_eq]
  split <;> rfl

theorem removeDownloadFiles_error {relPaths : List Str} {t u : Tree Str β}
    (h : (swept m (destinations m folder relPaths)).foldlM Tree.remove t = .error u) :
    afterwards (m.removeDownloadFiles folder relPaths t) = u := by
  rw [MediaRoot.removeDownloadFiles, removeFiles_eq, h]
  rfl

variable {relPaths : List Str} {t t₁ : Tree Str β}

/-- Where no part file is in the way, all files are removed and the directories stay. -/
theorem removed_grown (haside : Tree.Aside ((destinations m folder relPaths).map m.locate))
    (hfree : ∀ q ∈ swept m (destinations m folder relPaths), t.entry q = none)
    (hmade : Tree.Made ((destinations m folder relPaths).map m.locate) t t₁)
    (hparts : ∀ d ∈ destinations m folder relPaths, ∀ d' ∈ destinations m folder relPaths,
      m.locate (partPathFor d) <+: m.locate d' → m.locate (partPathFor d) = m.locate d') :
    ∃ u, (swept m (destinations m folder relPaths)).foldlM Tree.remove t₁ = .ok u ∧
      Tree.Grown (fun q => t.entry q = none ∧
        ∃ p ∈ (destinations m folder relPaths).map m.locate, q <+: p ∧ q ≠ p) t u := by
  have hapart : ∀ q ∈ swept m (destinations m folder relPaths),
      ∀ p ∈ (destinations m folder relPaths).map m.locate, q <+: p → q = p := by
    intro q hq p hp hpre
    obtain ⟨d, hd, rfl | rfl⟩ := mem_swept.mp hq
    · exact haside _ (List.mem_map_of_mem hd) p hp hpre
    · obtain ⟨d', hd', rfl⟩ := List.mem_map.mp hp
      exact hparts d hd d' hd' hpre
  have hfiles : ∀ q ∈ swept m (destinations m folder relPaths), t₁.entry q ≠ some .dir := by
    intro q hq
    by_cases hbelow : ∃ p ∈ (destinations m folder relPaths).map m.locate, q <+: p
    · obtain ⟨p, hp, hpre⟩ := hbelow
      rw [hapart q hq p hp hpre]
      exact hmade.files p hp
    · rw [hmade.same q fun p hp hpre => hbelow ⟨p, hp, hpre⟩, hfree q hq]
      simp
  obtain ⟨u, hu, hentry⟩ := Tree.removes_entry.1 hfiles
  refine ⟨u, hu, hmade.grown (fun p hp => ?_) hfree hapart hentry⟩
  obtain ⟨d, hd, rfl⟩ := List.mem_map.mp hp
  exact mem_swept.mpr ⟨d, hd, .inl rfl⟩

/-- Deleting what was created restores the tree exactly where the directories made for the files
are those that are tidied up, and the title directory was not one of empty directories. -/
theorem restored_iff (haside : Tree.Aside ((destinations m folder relPaths).map m.locate))
    (hfree : ∀ d ∈ destinations m folder relPaths,
      t.entry (m.locate d) = none ∧ t.entry (m.locate (partPathFor d)) = none)
    (h : createFiles m folder f relPaths t = some t₁) :
    t.Restored (afterwards (m.removeDownloadFiles folder relPaths t₁)) ↔
      TidiesUp m folder relPaths t := by
  have hmade : Tree.Made ((destinations m folder relPaths).map m.locate) t t₁ := by
    rw [← placed_fst (f := f)]
    rw [createFiles_eq] at h
    exact Tree.creates_made (by rwa [placed_fst]) h
  have hfree' : ∀ q ∈ swept m (destinations m folder relPaths), t.entry q = none := by
    intro q hq
    obtain ⟨d, hd, rfl | rfl⟩ := mem_swept.mp hq
    · exact (hfree d hd).1
    · exact (hfree d hd).2
  by_cases hparts : ∀ d ∈ destinations m folder relPaths, ∀ d' ∈ destinations m folder relPaths,
      m.locate (partPathFor d) <+: m.locate d' → m.locate (partPathFor d) = m.locate d'
  · obtain ⟨u, hu, hgrown⟩ := removed_grown haside hfree' hmade hparts
    have hpaths {R : List Str → Prop} : (∀ q, (t.entry q = none ∧
        ∃ p ∈ (destinations m folder relPaths).map m.locate, q <+: p ∧ q ≠ p) → R q) ↔
        ∀ d ∈ destinations m folder relPaths, ∀ q, q <+: m.locate d → q ≠ m.locate d →
          t.entry q = none → R q := by
      simp only [List.mem_map]
      grind
    rw [removeDownloadFiles_ok hu]
    by_cases hr : m.root = ['/']
    · rw [if_pos hr]
      have hnone := destinations_root m folder relPaths hr
      refine iff_of_true (fun q => .inl (hgrown.same q ?_)) ⟨hparts, ?_, fun h => absurd hr h⟩
      · simp [hnone]
      · simp [hnone]
    · rw [if_neg hr, Tree.tidy_restores_iff hgrown, hpaths]
      · exact ⟨fun h => ⟨hparts, h.1, fun _ => h.2⟩, fun h => ⟨h.named, h.held hr⟩⟩
      · rw [locate_title]
        simp
  · -- a part path is a directory, which ends the deletion
    refine iff_of_false (fun hrestored => ?_) fun h => hparts h.parts
    push Not at hparts
    obtain ⟨d, hd, d', hd', hpre, hne⟩ := hparts
    have hmem : m.locate (partPathFor d) ∈ swept m (destinations m folder relPaths) :=
      mem_swept.mpr ⟨d, hd, .inr rfl⟩
    have hdir := hmade.dirs _ (List.mem_map_of_mem hd') _ hpre hne
    obtain ⟨u, hu, hkept⟩ := Tree.removes_entry.2 ⟨_, hmem, hdir⟩
    rw [removeDownloadFiles_error hu] at hrestored
    have hleft := hkept _ hdir
    rcases hrestored (m.locate (partPathFor d)) with hs | ⟨hs, -⟩
    · rw [hleft, (hfree d hd).2] at hs
      cases hs
    · rw [(hfree d hd).2] at hs
      cases hs

end

def mediaRoot : MediaRoot := ⟨['/'], "/m".toList⟩

/-- An empty media root, and nothing else. -/
def onlyMedia : Tree Str Unit := Tree.bare.put ["m".toList] .dir (by simp) rfl (.inl rfl)

theorem season_destinations :
    destinations mediaRoot ['T'] ["S/x".toList] = ["/m/T/S/x".toList] := by decide +kernel

theorem season_created :
    (createFiles mediaRoot ['T'] (fun _ => ()) ["S/x".toList] onlyMedia).isSome := by decide +kernel

/-- A file in a season directory. -/
theorem season_restored : onlyMedia.Restored (afterwards (mediaRoot.removeDownloadFiles ['T']
    ["S/x".toList] ((createFiles mediaRoot ['T'] (fun _ => ()) ["S/x".toList] onlyMedia).get
      season_created))) := by
  have hat : mediaRoot.locate "/m/T/S/x".toList = ["m".toList, ['T'], ['S'], ['x']] := by decide
  have hpart : mediaRoot.locate (partPathFor "/m/T/S/x".toList) =
      ["m".toList, ['T'], ['S'], "x.part".toList] := by decide
  have htitle : mediaRoot.locate (titleDirectory mediaRoot ['T']) = ["m".toList, ['T']] := by
    decide +kernel
  have hnames : tidiedNames ["S/x".toList] = [['S']] := by decide +kernel
  refine (restored_iff (f := fun _ => ()) ?_ ?_ (Option.some_get _).symm).mpr ⟨?_, ?_, ?_⟩
  · rw [season_destinations, List.map_singleton]
    simp only [Tree.Aside, List.mem_singleton]
    rintro p rfl q rfl -
    rfl
  · rw [season_destinations]
    simp only [List.mem_singleton, forall_eq, hat, hpart, Tree.entry_eq_none]
    decide +kernel
  · rw [season_destinations]
    simp only [List.mem_singleton, forall_eq, hat, hpart]
    decide +kernel
  · rw [season_destinations, htitle, hnames]
    simp only [List.mem_singleton, forall_eq, exists_eq_left, hat, ← List.mem_inits, Tree.entry_eq_none]
    decide +kernel
  · intro _ h
    have hnone : onlyMedia.entry ["m".toList, ['T']] = none := Tree.entry_eq_none.mpr (by decide +kernel)
    rw [htitle] at h
    rw [h.1] at hnone
    cases hnone

/-- Directories in a directory: the tidied name is that of both of them at once. -/
theorem nested_left : ∃ t₁ : Tree Str Unit,
    createFiles mediaRoot ['T'] (fun _ => ()) ["a/b/c".toList] onlyMedia = some t₁ ∧
      destinations mediaRoot ['T'] ["a/b/c".toList] = ["/m/T/a/b/c".toList] ∧
      onlyMedia.entry (mediaRoot.locate "/m/T/a/b/c".toList) = none ∧
      onlyMedia.entry (mediaRoot.locate (partPathFor "/m/T/a/b/c".toList)) = none ∧
      ¬ onlyMedia.Restored
        (afterwards (mediaRoot.removeDownloadFiles ['T'] ["a/b/c".toList] t₁)) := by
  have hleft : (createFiles mediaRoot ['T'] (fun _ => ()) ["a/b/c".toList] onlyMedia).any (fun t₁ =>
      (afterwards (mediaRoot.removeDownloadFiles ['T'] ["a/b/c".toList] t₁)).entry
        ["m".toList, ['T'], ['a'], ['b']] = some .dir) := by decide +kernel
  obtain ⟨t₁, ht₁, hdir⟩ := (Option.any_eq_true _ _).mp hleft
  refine ⟨t₁, ht₁, by decide +kernel, ?_, ?_, fun hr => ?_⟩
  · exact Tree.entry_eq_none.mpr (by decide +kernel)
  · exact Tree.entry_eq_none.mpr (by decide +kernel)
  · have hnone : onlyMedia.entry ["m".toList, ['T'], ['a'], ['b']] = none :=
      Tree.entry_eq_none.mpr (by decide +kernel)
    rcases hr ["m".toList, ['T'], ['a'], ['b']] with hs | ⟨hs, -⟩
    · rw [of_decide_eq_true hdir, hnone] at hs
      cases hs
    · rw [hnone] at hs
      cases hs

end CircleFtp.Downloads
