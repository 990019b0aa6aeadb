import CircleFtp.Downloads.Containment
import CircleFtp.Downloads.Service

/-! The files of a plan on the disk, and the directories that later steps take them to be in. -/
namespace CircleFtp.Downloads
open Strings Titles

/-- The title directory that `removeDownloadFiles` tidies. -/
def titleDirectory (m : MediaRoot) (folder : Str) : Str := resolve m.cwd [m.root, sanitize folder]

/-- The directory that `finishJob` hands to the post-processing, as the system resolves it. -/
def announcedDirectory (m : MediaRoot) (folder : Str) : Str := resolve m.cwd [join m.path folder]

/-- Every file of a plan lands at its previewed path, in the directory that is announced when the
job ends and in the one that is tidied when it is deleted. -/
structure LandsAsPreviewed (m : MediaRoot) (plan : DownloadPlan) : Prop where
  lands : ∀ file ∈ plan.files, resolveDestination m plan.folder file.relPath =
    .ok (m.root ++ '/' :: plan.folder ++ '/' :: file.relPath)
  announced : ∀ file ∈ plan.files, ∀ d, resolveDestination m plan.folder file.relPath = .ok d →
    Beneath (announcedDirectory m plan.folder) d
  tidied : ∀ file ∈ plan.files, ∀ d, resolveDestination m plan.folder file.relPath = .ok d →
    Beneath (titleDirectory m plan.folder) d

/-- No path that is planned more than once has blanks before its extension. -/
def TightCopies (names : List Str) : Prop := ∀ r, 2 ≤ names.count r → tight r = r

section
variable {m : MediaRoot} {folder relPath d : Str}

theorem sanitize_proper (name : Str) {fallback : Str} (h : Clean fallback) :
    Proper (sanitize name fallback) := (sanitize_clean h).proper

theorem untitled_clean : Clean "untitled".toList :=
  clean_of_solid (solid_of_all (by decide)) (by decide)

theorem safeSegments_proper : ∀ c ∈ safeSegments relPath, Proper c := by
  intro c hc
  obtain ⟨segment, -, rfl⟩ := List.mem_map.mp hc
  exact sanitize_proper segment (clean_of_solid (solid_of_all (by decide)) (by decide))

/-- Every destination lies in the title directory. -/
theorem destination_in_titleDirectory (h : resolveDestination m folder relPath = .ok d) :
    Beneath (titleDirectory m folder) d := by
  have hfolder : Proper (sanitize folder) := sanitize_proper folder untitled_clean
  have hne : safeSegments relPath ≠ [] := by
    intro hn
    simp only [resolveDestination, hn, if_true] at h
    cases h
  obtain ⟨hd, -⟩ := resolveDestinationBy_ok (resolveDestinationBy_sanitize m folder relPath ▸ h)
  refine ⟨safeSegments relPath, hne, safeSegments_proper, ?_⟩
  have hpath : pathBy @sanitize m folder relPath =
      components m.cwd [m.path] ++ [sanitize folder] ++ safeSegments relPath := by
    have hsafe : safeSegmentsBy @sanitize relPath = safeSegments relPath := rfl
    rw [pathBy, hsafe, MediaRoot.root, components_resolve m.cwd [m.path] fun c hc =>
      (List.mem_cons.mp hc).elim (fun e => e ▸ hfolder) (safeSegments_proper c)]
    simp
  rw [hd, hpath, joinSlash_append (by simp) hne, titleDirectory, resolve, MediaRoot.root,
    components_resolve m.cwd [m.path] fun c hc => List.mem_singleton.mp hc ▸ hfolder]
  rfl

/-- A clean folder gives one directory both times. -/
theorem announcedDirectory_eq (h : Clean folder) :
    announcedDirectory m folder = titleDirectory m folder := by
  rw [announcedDirectory, titleDirectory, h.sanitize_eq, resolve, resolve,
    components_join h.proper, MediaRoot.root, components_resolve m.cwd [m.path] fun c hc =>
      List.mem_singleton.mp hc ▸ h.proper]

end

theorem tightCopies_iff {names : List Str} :
    TightCopies names ↔ ∀ p ∈ copies names, landName p = copyName p := by
  constructor
  · rintro h ⟨r, n⟩ hp
    obtain ⟨h1, h2⟩ := mem_copies.mp hp
    simp only [landName, copyName]
    split
    · rfl
    · rw [h r (by omega)]
  · intro h r hr
    have := h (r, 2) (mem_copies.mpr ⟨by omega, hr⟩)
    exact (suffixed_injective this).1

/-- A plan lands as it is previewed exactly when it is empty or has a media root to land in, and
no repeated path has blanks before its extension. -/
theorem lands_as_previewed_iff (js : Platform) (m : MediaRoot) (post : RawPost) (wanted : List Str) :
    LandsAsPreviewed m (buildPlan js post wanted) ↔
      ((buildPlan js post wanted).files = [] ∨ m.root ≠ ['/']) ∧
        TightCopies ((plan js post wanted).2.map (·.relPath)) := by
  have hfolder : Clean (buildPlan js post wanted).folder := folderTitle_clean post
  have hresolve := fun p hp => resolve_copy_mem m js post wanted (p := p) hp
  have hfiles : (buildPlan js post wanted).files.map (·.relPath) =
      (copies ((plan js post wanted).2.map (·.relPath))).map copyName :=
    deduplicateFrom_names (fun _ => 0) (plan js post wanted).2
  rw [tightCopies_iff]
  set names := (plan js post wanted).2.map (·.relPath)
  have hmem {p : Str × Nat} (hp : p ∈ copies names) :
      ∃ file ∈ (buildPlan js post wanted).files, file.relPath = copyName p := by
    have := List.mem_map_of_mem (f := copyName) hp
    rw [← hfiles] at this
    exact List.mem_map.mp this
  have hcopy {file : PlannedFile} (hf : file ∈ (buildPlan js post wanted).files) :
      ∃ p ∈ copies names, copyName p = file.relPath := by
    have := List.mem_map_of_mem (f := PlannedFile.relPath) hf
    rw [hfiles] at this
    exact List.mem_map.mp this
  constructor
  · intro h
    have hroot : (buildPlan js post wanted).files = [] ∨ m.root ≠ ['/'] := by
      refine Decidable.or_iff_not_imp_left.mpr fun hne hr => ?_
      obtain ⟨file, files, hcons⟩ := List.exists_cons_of_ne_nil hne
      have hf : file ∈ (buildPlan js post wanted).files := by rw [hcons]; exact List.mem_cons_self
      obtain ⟨p, hp, he⟩ := hcopy hf
      have herr := hresolve p hp
      rw [if_pos hr] at herr
      obtain ⟨e, herr⟩ := herr
      have hok := h.lands file hf
      rw [← he] at hok
      cases herr.symm.trans hok
    refine ⟨hroot, fun p hp => ?_⟩
    obtain ⟨file, hf, he⟩ := hmem hp
    have hr : m.root ≠ ['/'] := hroot.resolve_left fun hn => by
      rw [hn] at hf
      exact absurd hf List.not_mem_nil
    have hland := hresolve p hp
    rw [if_neg hr] at hland
    have hok := h.lands file hf
    rw [he] at hok
    have := Except.ok.inj (hland.symm.trans hok)
    exact (List.cons.inj (List.append_cancel_left this)).2
  · rintro ⟨hroot, htight⟩
    refine ⟨fun file hf => ?_, fun file hf d hd => ?_, fun file hf d hd =>
      destination_in_titleDirectory hd⟩
    · obtain ⟨p, hp, he⟩ := hcopy hf
      have hr : m.root ≠ ['/'] := hroot.resolve_left fun hn => by
        rw [hn] at hf
        exact absurd hf List.not_mem_nil
      have hland := hresolve p hp
      rw [if_neg hr, htight p hp] at hland
      rw [← he]
      exact hland
    · rw [announcedDirectory_eq hfolder]
      exact destination_in_titleDirectory hd

/-- The platform on the URLs of the post below. -/
def blankPlatform : Platform where
  urlPathname url := some (url.drop "http://h".length)
  decodeURIComponent s := some (if s = "a%20.mkv".toList then "a .mkv".toList else s)
  toInteger _ := none

/-- The second of two parts named `a .mkv` is previewed with two blanks and lands with one. -/
theorem copy_lands_elsewhere : ¬ ∀ (js : Platform) (m : MediaRoot) (post : RawPost)
    (wanted : List Str), m.root ≠ ['/'] → LandsAsPreviewed m (buildPlan js post wanted) := by
  intro h
  have := (h blankPlatform ⟨"/".toList, "/media".toList⟩
    { name := some "Film".toList, type := some "multiVideo".toList,
      content := .list [partOf "http://h/a%20.mkv", partOf "http://h/a%20.mkv"] } [] (by decide)).lands
    ⟨"http://h/a%20.mkv".toList, "a  (2).mkv".toList, "part 2".toList, none, none⟩ (by decide)
  revert this
  decide

end CircleFtp.Downloads
