import CircleFtp.Downloads.PlanPaths

/-! Destinations under the media root, whatever the sanitiser makes of a folder and its
segments. -/
namespace CircleFtp.Downloads
open Strings Titles

/-- A path that leads from a directory down to something in it. -/
def Beneath (root p : Str) : Prop :=
  ∃ cs, cs ≠ [] ∧ (∀ c ∈ cs, Proper c) ∧ p = root ++ '/' :: joinSlash cs

theorem Beneath.ne {root p : Str} (h : Beneath root p) : p ≠ root := by
  obtain ⟨cs, -, -, rfl⟩ := h
  intro he
  have := congrArg List.length he
  simp at this

theorem joinSlash_concat (cs : List Str) (c u : Str) :
    joinSlash (cs ++ [c ++ u]) = joinSlash (cs ++ [c]) ++ u := by
  by_cases h : cs = []
  · subst h
    simp [joinSlash]
  · rw [joinSlash_append h (by simp), joinSlash_append h (by simp)]
    simp [joinSlash]

theorem proper_part {c : Str} (hc : Proper c) : Proper (c ++ PART_SUFFIX) := by
  have long {x : Str} (hx : x.length < 5) : c ++ PART_SUFFIX ≠ x := by
    rintro rfl
    have : PART_SUFFIX.length = 5 := rfl
    rw [List.length_append] at hx
    omega
  refine ⟨long (by decide), fun hm => ?_, long (by decide), long (by decide)⟩
  rcases List.mem_append.mp hm with hm | hm
  · exact hc.noSlash hm
  · revert hm
    decide

/-- The part file lies where the file does. -/
theorem Beneath.part {root p : Str} (h : Beneath root p) : Beneath root (partPathFor p) := by
  obtain ⟨cs, hne, hcs, rfl⟩ := h
  obtain ⟨ds, c, rfl⟩ := List.eq_nil_or_concat cs |>.resolve_left hne
  rw [List.concat_eq_append] at hcs ⊢
  have hc := hcs c (by simp)
  refine ⟨ds ++ [c ++ PART_SUFFIX], by simp, fun d hd => ?_, ?_⟩
  · rcases List.mem_append.mp hd with hd | hd
    · exact hcs d (by simp [hd])
    · exact List.mem_singleton.mp hd ▸ proper_part hc
  · rw [joinSlash_concat, partPathFor]
    simp

/-- The segments of a path with a given sanitiser. -/
def safeSegmentsBy (sanitize : Str → Str → Str) (relPath : Str) : List Str :=
  (((split '/' relPath).map trim).filter fun segment =>
    segment ≠ [] ∧ segment ≠ ['.'] ∧ segment ≠ ['.', '.']).map (sanitize · "file".toList)

/-- `resolveDestination` with a given sanitiser. -/
def resolveDestinationBy (sanitize : Str → Str → Str) (m : MediaRoot) (folder relPath : Str) :
    Except ApiError Str :=
  let safeFolder := sanitize folder "untitled".toList
  let segments := safeSegmentsBy sanitize relPath
  if segments = [] then throw (.badRequest "That title has no usable file name")
  else
    let resolved := resolve m.cwd (m.root :: safeFolder :: segments)
    if resolved ≠ m.root ∧ ¬ (m.root ++ ['/']).isPrefixOf resolved then
      throw (.badRequest "Refusing to write outside the media directory")
    else pure resolved

theorem resolveDestinationBy_sanitize (m : MediaRoot) (folder relPath : Str) :
    resolveDestinationBy @sanitize m folder relPath = resolveDestination m folder relPath := rfl

/-- The names of the directories down to the media root. -/
def MediaRoot.names (m : MediaRoot) : List Str := components m.cwd [m.path]

/-- Strings that go up from the media root, or to `/`, and down the same names again; in the simplest
case each name is empty or a dot, or taken back by a `..` after it. -/
def GoesBack (m : MediaRoot) (strings : List Str) : Prop :=
  (lead strings).down =
    if (lead strings).absolute then m.names else m.names.rtake (lead strings).up

instance (m : MediaRoot) (strings : List Str) : Decidable (GoesBack m strings) :=
  inferInstanceAs (Decidable (_ = _))

/-- The sanitised folder and segments do. -/
def LeadsBack (sanitize : Str → Str → Str) (m : MediaRoot) (folder relPath : Str) : Prop :=
  GoesBack m (sanitize folder "untitled".toList :: safeSegmentsBy sanitize relPath)

instance (sanitize : Str → Str → Str) (m : MediaRoot) (folder relPath : Str) :
    Decidable (LeadsBack @sanitize m folder relPath) := inferInstanceAs (Decidable (GoesBack _ _))

/-- The names of the destination. -/
def pathBy (sanitize : Str → Str → Str) (m : MediaRoot) (folder relPath : Str) : List Str :=
  components m.cwd (m.root :: sanitize folder "untitled".toList :: safeSegmentsBy sanitize relPath)

section
variable {sane : Str → Str → Str} {m : MediaRoot} {folder relPath p : Str}

/-- An accepted path is the root or begins with it as a directory. -/
theorem resolveDestinationBy_ok (h : resolveDestinationBy sane m folder relPath = .ok p) :
    p = '/' :: joinSlash (pathBy sane m folder relPath) ∧
      (p = m.root ∨ ∃ t, p = m.root ++ '/' :: t) := by
  simp only [resolveDestinationBy] at h
  split at h
  · cases h
  split at h
  · cases h
  · rename_i hin
    cases h
    refine ⟨rfl, ?_⟩
    rcases Decidable.em (resolve m.cwd (m.root :: sane folder "untitled".toList ::
      safeSegmentsBy sane relPath) = m.root) with he | hne
    · exact .inl he
    · right
      have hpre := Decidable.not_not.mp (not_and.mp hin hne)
      obtain ⟨t, ht⟩ := List.isPrefixOf_iff_prefix.mp hpre
      exact ⟨t, by rw [← ht]; simp⟩

theorem pathBy_eq_iff : pathBy sane m folder relPath = m.names ↔ LeadsBack sane m folder relPath := by
  rw [pathBy, MediaRoot.root, components_lead]
  exact Lead.place_eq_iff _ _

theorem root_components (hroot : m.root ≠ ['/']) : m.names ≠ [] := by
  intro h
  exact hroot (by rw [MediaRoot.root, resolve, show components m.cwd [m.path] = [] from h]; rfl)

/-- Whatever the sanitiser returns, an accepted destination and its part file lie strictly
inside the media root exactly when the sanitised strings do not lead back to it. -/
theorem containment_iff (hroot : m.root ≠ ['/'])
    (h : resolveDestinationBy sane m folder relPath = .ok p) :
    (Beneath m.root p ∧ Beneath m.root (partPathFor p)) ↔ ¬ LeadsBack sane m folder relPath := by
  obtain ⟨hp, hin⟩ := resolveDestinationBy_ok h
  have hrc := root_components hroot
  have hprop : ∀ c ∈ m.names, Proper c := components_proper m.cwd [m.path]
  have hpath : ∀ c ∈ pathBy sane m folder relPath, Proper c := components_proper _ _
  refine ⟨fun hb hback => hb.1.ne ?_, fun hne => ?_⟩
  · rw [hp, pathBy_eq_iff.mpr hback]
    rfl
  suffices hb : Beneath m.root p from ⟨hb, hb.part⟩
  have hpne : pathBy sane m folder relPath ≠ [] := by
    intro he
    rw [he] at hp
    rcases hin with hr | ⟨t, hr⟩
    · exact hroot (hr.symm.trans hp)
    · have := congrArg List.length (hr.symm.trans hp)
      simp [MediaRoot.root, resolve, joinSlash] at this
  rcases hin with hr | ⟨t, ht⟩
  · have hj : joinSlash (pathBy sane m folder relPath) = joinSlash m.names :=
      (List.cons.inj (hp.symm.trans hr)).2
    exact absurd (pathBy_eq_iff.mp (joinSlash_injective hpath hprop hpne hrc hj)) hne
  · have hj : joinSlash (pathBy sane m folder relPath) =
        joinSlash m.names ++ '/' :: t :=
      (List.cons.inj (hp.symm.trans ht)).2
    have hsplit : pathBy sane m folder relPath = m.names ++ split '/' t := by
      rw [← split_joinSlash hprop hrc, ← split_append_slash, ← hj, split_joinSlash hpath hpne]
    refine ⟨split '/' t, List.splitOn_ne_nil '/' t, fun c hc => hpath c ?_, ?_⟩
    · rw [hsplit]
      exact List.mem_append_right _ hc
    · rw [ht, joinSlash, split, List.intercalate_splitOn]

end

/-- A sanitiser that turns every name into the directory itself: the destination is the media
root, and the part file its sibling. -/
theorem containment_fails : ¬ ∀ (sane : Str → Str → Str) (m : MediaRoot) (folder relPath p : Str),
    m.root ≠ ['/'] → resolveDestinationBy sane m folder relPath = .ok p →
    Beneath m.root p ∧ Beneath m.root (partPathFor p) := by
  intro h
  have hb := h (fun _ _ => ['.']) ⟨"/".toList, "/media".toList⟩ "F".toList "a".toList
    "/media".toList (by decide) (by decide)
  exact hb.1.ne (by decide)

/-- The sanitiser of the code leads to a file in a folder. -/
theorem containment_clean : Beneath "/media".toList "/media/F/a".toList ∧
    Beneath "/media".toList (partPathFor "/media/F/a".toList) := by
  have h : resolveDestinationBy @sanitize ⟨"/".toList, "/media".toList⟩ "F".toList "a".toList =
    .ok "/media/F/a".toList := by decide
  exact (containment_iff (by decide) h).mpr (by decide)

end CircleFtp.Downloads
