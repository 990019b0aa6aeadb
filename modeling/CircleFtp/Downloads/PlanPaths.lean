import CircleFtp.Downloads.Paths
import CircleFtp.Titles.CleanPaths

/-! Where the files of a plan land, and when all their paths stay apart. -/
namespace CircleFtp.Downloads
open Strings Titles

section
variable {d f : Str}

theorem safeSegments_directory (h : CleanPath d f) {g : Str} (hg : '/' ∉ g) (ht : trim g = g)
    (hc : Clean (clean g)) : ∃ segs, (∀ c ∈ segs, Clean c) ∧
      safeSegments (d ++ g) = segs ++ [clean g] ∧ joinSlash (segs ++ [clean g]) = d ++ clean g := by
  have hne : ∀ t : Str, (t = [] ∨ t = ['.'] ∨ t = ['.', '.']) → clean t = [] := by
    rintro t (rfl | rfl | rfl) <;> decide
  have hg' : g ≠ [] ∧ g ≠ ['.'] ∧ g ≠ ['.', '.'] :=
    ⟨fun e => hc.nonempty (hne g (.inl e)), fun e => hc.nonempty (hne g (.inr (.inl e))),
      fun e => hc.nonempty (hne g (.inr (.inr e)))⟩
  have hlast : ∀ fallback, sanitize g fallback = clean g := fun fallback => by
    rw [sanitize, orElse, if_neg hc.nonempty]
  rcases h.directory with rfl | ⟨seg, hs, rfl⟩
  · refine ⟨[], by simp, ?_, by simp [joinSlash]⟩
    rw [List.nil_append, safeSegments, split, List.splitOn_eq_singleton hg]
    simp [ht, hg', hlast]
  · refine ⟨[seg], by simpa using hs, ?_, by simp [joinSlash]⟩
    have hsplit : split '/' (seg ++ ['/'] ++ g) = [seg, g] := by
      rw [split, List.append_assoc, List.singleton_append,
        List.splitOn_append_cons_self_of_not_mem hs.proper.noSlash, List.splitOn_eq_singleton hg]
    rw [safeSegments, hsplit]
    have hp := hs.proper
    simp [ht, hg', hlast, hs.trim_eq, hp.nonempty, hp.noDot, hp.noDots, hs.sanitize_eq]

/-- A destination under a media root is the root, the folder and the path; the root of the
file system takes none. -/
theorem resolveDestination_clean (m : MediaRoot) {folder : Str} (hfolder : Clean folder)
    (h : CleanPath d f) {g : Str} (hg : '/' ∉ g) (ht : trim g = g) (hc : Clean (clean g)) :
    if m.root = ['/'] then ∃ e, resolveDestination m folder (d ++ g) = .error e
    else resolveDestination m folder (d ++ g) =
      .ok (m.root ++ '/' :: folder ++ '/' :: (d ++ clean g)) := by
  obtain ⟨segs, hsegs, hsafe, hjoin⟩ := safeSegments_directory h hg ht hc
  have hall : ∀ c ∈ folder :: (segs ++ [clean g]), Proper c := by
    intro c hm
    rcases List.mem_cons.mp hm with rfl | hm
    · exact hfolder.proper
    rcases List.mem_append.mp hm with hm | hm
    · exact (hsegs c hm).proper
    · exact List.mem_singleton.mp hm ▸ hc.proper
  have hne : segs ++ [clean g] ≠ [] := by simp
  have htail : joinSlash (folder :: (segs ++ [clean g])) = folder ++ '/' :: (d ++ clean g) := by
    rw [← hjoin, ← List.singleton_append, joinSlash_append (by simp) hne]
    simp [joinSlash]
  have hres : resolve m.cwd (m.root :: folder :: (segs ++ [clean g])) =
      '/' :: joinSlash (components m.cwd [m.path] ++ folder :: (segs ++ [clean g])) := by
    rw [resolve, MediaRoot.root, components_resolve m.cwd [m.path] hall]
  have hsegne : segs ++ [clean g] = [] ↔ False := by simp
  simp only [resolveDestination, hsafe, hfolder.sanitize_eq, hsegne, if_false, hres]
  by_cases hroot : components m.cwd [m.path] = []
  · have hr : m.root = ['/'] := by rw [MediaRoot.root, resolve, hroot]; rfl
    rw [if_pos hr]
    obtain ⟨c, u, hcu, -⟩ := hfolder.cons
    have hcs : c ≠ '/' := illegal_ne (hfolder.chars c (by rw [hcu]; simp)).1
    refine ⟨.badRequest "Refusing to write outside the media directory", ?_⟩
    rw [if_pos]
    · rfl
    · rw [hr, hroot, List.nil_append, htail, hcu]
      simp [List.isPrefixOf, Ne.symm hcs]
  · have hr : m.root ≠ ['/'] := by
      rw [MediaRoot.root, resolve]
      intro h
      have hj : joinSlash (components m.cwd [m.path]) = [] := by simpa using h
      obtain ⟨c, cs, hcc⟩ := List.exists_cons_of_ne_nil hroot
      have hc' := components_proper m.cwd [m.path] c (by rw [hcc]; simp)
      rw [hcc, joinSlash] at hj
      cases cs with
      | nil => exact hc'.nonempty (by simpa using hj)
      | cons => simp at hj
    have hfull : '/' :: joinSlash (components m.cwd [m.path] ++ folder :: (segs ++ [clean g])) =
        m.root ++ '/' :: folder ++ '/' :: (d ++ clean g) := by
      rw [joinSlash_append hroot (by simp), htail, MediaRoot.root, resolve]
      simp
    rw [if_neg hr, hfull, if_neg]
    · rfl
    · simp [List.append_assoc]

end

/-- The path of the `p.2`-th file that is planned at `p.1`. -/
def copyName (p : Str × Nat) : Str := if p.2 = 1 then p.1 else suffixed p.1 p.2

/-- Where that file lands under its folder. -/
def landName (p : Str × Nat) : Str := if p.2 = 1 then p.1 else suffixed (tight p.1) p.2

/-- Every name with the number of its occurrence, after some were seen. -/
def copiesFrom (seen : Str → Nat) : List Str → List (Str × Nat)
  | [] => []
  | r :: rs => (r, seen r + 1) :: copiesFrom (Function.update seen r (seen r + 1)) rs

def copies (names : List Str) : List (Str × Nat) := copiesFrom (fun _ => 0) names

theorem mem_copiesFrom {seen : Str → Nat} {names : List Str} {r : Str} {n : Nat} :
    (r, n) ∈ copiesFrom seen names ↔ seen r < n ∧ n ≤ seen r + names.count r := by
  induction names generalizing seen with
  | nil => simp [copiesFrom]
  | cons x names ih =>
    simp only [copiesFrom, List.mem_cons, Prod.mk.injEq, ih]
    by_cases h : r = x
    · subst h
      simp only [true_and, Function.update_self, List.count_cons_self]
      omega
    · simp [h, List.count_cons_of_ne (Ne.symm h)]

theorem copiesFrom_nodup (seen : Str → Nat) (names : List Str) : (copiesFrom seen names).Nodup := by
  induction names generalizing seen with
  | nil => exact List.nodup_nil
  | cons x names ih =>
    refine List.nodup_cons.mpr ⟨fun h => ?_, ih _⟩
    have := (mem_copiesFrom.mp h).1
    simp at this

theorem mem_copies {names : List Str} {r : Str} {n : Nat} :
    (r, n) ∈ copies names ↔ 1 ≤ n ∧ n ≤ names.count r := by
  rw [copies, mem_copiesFrom]
  omega

/-- De-duplication gives every file the name of its copy. -/
theorem deduplicateFrom_names (seen : Str → Nat) (files : List PlannedFile) :
    (deduplicateFrom (fun r => if seen r = 0 then none else some (seen r)) files).map (·.relPath) =
      (copiesFrom seen (files.map (·.relPath))).map copyName := by
  induction files generalizing seen with
  | nil => rfl
  | cons file files ih =>
    have hupd : ∀ r, Function.update (fun r => if seen r = 0 then none else some (seen r)) r
        (some (seen r + 1)) = fun x =>
        if Function.update seen r (seen r + 1) x = 0 then none
        else some (Function.update seen r (seen r + 1) x) := by
      intro r
      funext x
      by_cases h : x = r
      · subst h; simp
      · simp [Function.update_of_ne h]
    simp only [deduplicateFrom, List.map_cons, copiesFrom]
    by_cases h : seen file.relPath = 0
    · simp only [h, if_true, List.map_cons, copyName]
      have := hupd file.relPath
      rw [h] at this
      rw [this, ih]
    · simp only [h, if_false, List.map_cons, copyName, Nat.add_eq_right]
      rw [hupd, ih]

/-- Neither of two files' paths is the other's, before or after it is resolved, nor the path that
the other's transfer writes to. -/
def Apart (m : MediaRoot) (folder x y : Str) : Prop :=
  x ≠ y ∧ ∀ d d', resolveDestination m folder x = .ok d → resolveDestination m folder y = .ok d' →
    d ≠ d' ∧ d ≠ partPathFor d' ∧ d' ≠ partPathFor d

/-- The paths at which the repetitions of a name land. -/
def NumberedForm (names : List Str) (x : Str) : Prop :=
  ∃ r n, 2 ≤ n ∧ n ≤ names.count r ∧ x = suffixed (tight r) n

/-- The names of a plan do not get in the way of their numbered forms. -/
structure NamesApart (names : List Str) : Prop where
  fresh : ∀ x ∈ names, ¬ NumberedForm names x
  spread : ∀ r r', 2 ≤ names.count r → 2 ≤ names.count r' → tight r = tight r' → r = r'
  parts : ∀ x y, x ∈ names ∨ NumberedForm names x → y ∈ names ∨ NumberedForm names y →
    x ≠ y ++ PART_SUFFIX

/-- Under a media root the names have to stay apart; where nothing can land, only no name may
be the numbered one of another. -/
def PlanApart (m : MediaRoot) (names : List Str) : Prop :=
  if m.root = ['/'] then ∀ r n, 2 ≤ n → n ≤ names.count r → suffixed r n ∉ names
  else NamesApart names

theorem landName_mem {names : List Str} {p : Str × Nat} (h : p ∈ copies names) :
    landName p ∈ names ∨ NumberedForm names (landName p) := by
  obtain ⟨r, n⟩ := p
  obtain ⟨h1, h2⟩ := mem_copies.mp h
  simp only [landName]
  split
  · exact .inl (List.count_pos_iff.mp (by omega))
  · exact .inr ⟨r, n, by omega, h2, rfl⟩

theorem exists_copy {names : List Str} {x : Str} (h : x ∈ names ∨ NumberedForm names x) :
    ∃ p ∈ copies names, landName p = x := by
  rcases h with h | ⟨r, n, h2, hn, rfl⟩
  · exact ⟨(x, 1), mem_copies.mpr ⟨by omega, List.count_pos_iff.mpr h⟩, rfl⟩
  · exact ⟨(r, n), mem_copies.mpr ⟨by omega, hn⟩, if_neg (by simp; omega)⟩

theorem append_part_ne (x : Str) : x ≠ x ++ PART_SUFFIX := by
  intro h
  have := congrArg List.length h
  simp [PART_SUFFIX] at this

/-- Names apart are copies that land apart. -/
theorem namesApart_iff {names : List Str} : NamesApart names ↔
    ∀ p ∈ copies names, ∀ q ∈ copies names, p ≠ q →
      landName p ≠ landName q ∧ landName p ≠ landName q ++ PART_SUFFIX := by
  constructor
  · intro h p hp q hq hne
    refine ⟨fun he => ?_, h.parts _ _ (landName_mem hp) (landName_mem hq)⟩
    obtain ⟨r, n⟩ := p
    obtain ⟨r', n'⟩ := q
    obtain ⟨hr1, hr2⟩ := mem_copies.mp hp
    obtain ⟨hr1', hr2'⟩ := mem_copies.mp hq
    have hmem : ∀ {x k}, 1 ≤ k → k ≤ names.count x → x ∈ names := fun h1 h2 =>
      List.count_pos_iff.mp (by omega)
    simp only [landName] at he
    split at he <;> split at he <;> rename_i hn hn'
    · exact hne (by rw [he, hn, hn'])
    · exact h.fresh r (hmem hr1 hr2) ⟨r', n', by omega, hr2', he⟩
    · exact h.fresh r' (hmem hr1' hr2') ⟨r, n, by omega, hr2, he.symm⟩
    · obtain ⟨ht, rfl⟩ := suffixed_injective he
      obtain rfl := h.spread r r' (by omega) (by omega) ht
      exact hne rfl
  · intro h
    refine ⟨?_, ?_, ?_⟩
    · rintro x hx ⟨r, n, h2, hn, rfl⟩
      obtain ⟨p, hp, hpx⟩ := exists_copy (.inr ⟨r, n, h2, hn, rfl⟩)
      refine (h (suffixed (tight r) n, 1) (mem_copies.mpr ⟨by omega, List.count_pos_iff.mpr hx⟩)
        (r, n) (mem_copies.mpr ⟨by omega, hn⟩) ?_).1 ?_
      · intro he
        have := congrArg Prod.snd he
        simp only at this
        omega
      · simp only [landName, if_true]
        rw [if_neg (by omega)]
    · intro r r' hr hr' ht
      by_contra hne
      refine (h (r, 2) (mem_copies.mpr ⟨by omega, hr⟩) (r', 2) (mem_copies.mpr ⟨by omega, hr'⟩)
        (by simpa using hne)).1 ?_
      simp [landName, ht]
    · intro x y hx hy he
      obtain ⟨p, hp, rfl⟩ := exists_copy hx
      obtain ⟨q, hq, rfl⟩ := exists_copy hy
      by_cases hpq : p = q
      · subst hpq
        exact append_part_ne _ he
      · exact (h p hp q hq hpq).2 he

/-- Where a copy of a clean path lands. -/
theorem resolve_copy (m : MediaRoot) {folder d f : Str} (hfolder : Clean folder)
    (h : CleanPath d f) (n : Nat) :
    if m.root = ['/'] then ∃ e, resolveDestination m folder (copyName (d ++ f, n)) = .error e
    else resolveDestination m folder (copyName (d ++ f, n)) =
      .ok (m.root ++ '/' :: folder ++ '/' :: landName (d ++ f, n)) := by
  have hf := h.file
  have hs := hf.proper.noSlash
  by_cases hn : n = 1
  · have := resolveDestination_clean m hfolder h hs hf.trim_eq (by rwa [hf.clean_eq])
    rw [hf.clean_eq] at this
    simpa only [copyName, landName, hn, if_true] using this
  · obtain ⟨hc, he⟩ := hf.suffixed n
    have := resolveDestination_clean m hfolder h (suffixed_noSlash hs n) (hf.suffixed_trim n)
      (by rwa [he])
    have hland : suffixed (tight (d ++ f)) n = d ++ suffixed (tight f) n := by
      rw [tight_directory h.isDirectory hs hf.cons, suffixed_directory h.isDirectory (tight_noSlash hs)]
    rw [he, ← hland, ← suffixed_directory h.isDirectory hs] at this
    simpa only [copyName, landName, hn, if_false] using this

theorem resolve_copy_mem (m : MediaRoot) (js : Platform) (post : RawPost) (wanted : List Str)
    {p : Str × Nat} (hp : p ∈ copies ((plan js post wanted).2.map (·.relPath))) :
    if m.root = ['/'] then
      ∃ e, resolveDestination m (folderTitle post) (copyName p) = .error e
    else resolveDestination m (folderTitle post) (copyName p) =
      .ok (m.root ++ '/' :: folderTitle post ++ '/' :: landName p) := by
  obtain ⟨r, n⟩ := p
  have hr : r ∈ (plan js post wanted).2.map (·.relPath) := by
    have := mem_copies.mp hp
    exact List.count_pos_iff.mp (by omega)
  obtain ⟨file, hfile, rfl⟩ := List.mem_map.mp hr
  obtain ⟨d, f, hdf, he⟩ := plan_clean js post wanted file hfile
  rw [he]
  exact resolve_copy m (folderTitle_clean post) hdf n

/-- Copies are pairwise in a symmetric relation when any two different ones are. -/
theorem copies_pairwise {names : List Str} {R : Str × Nat → Str × Nat → Prop}
    (symm : ∀ p q, R p q → R q p) : (copies names).Pairwise R ↔
      ∀ p ∈ copies names, ∀ q ∈ copies names, p ≠ q → R p q := by
  have hsymm : Std.Symm R := ⟨symm⟩
  constructor
  · exact fun h p hp q hq hne => h.forall hp hq hne
  · exact fun h => (copiesFrom_nodup _ names).imp_of_mem fun hp hq hne => h _ hp _ hq hne

theorem Apart.symm {m : MediaRoot} {folder x y : Str} (h : Apart m folder x y) :
    Apart m folder y x :=
  ⟨h.1.symm, fun d d' hd hd' => have := h.2 d' d hd' hd
    ⟨this.1.symm, this.2.2, this.2.1⟩⟩

theorem copyName_ne_iff {names : List Str} :
    (∀ p ∈ copies names, ∀ q ∈ copies names, p ≠ q → copyName p ≠ copyName q) ↔
      ∀ r n, 2 ≤ n → n ≤ names.count r → suffixed r n ∉ names := by
  constructor
  · intro h r n h2 hn hm
    refine h (suffixed r n, 1) (mem_copies.mpr ⟨by omega, List.count_pos_iff.mpr hm⟩) (r, n)
      (mem_copies.mpr ⟨by omega, hn⟩) ?_ ?_
    · intro he
      have := congrArg Prod.snd he
      simp only at this
      omega
    · simp only [copyName, if_true]
      rw [if_neg (by omega)]
  · rintro h ⟨r, n⟩ hp ⟨r', n'⟩ hq hne he
    have hr := mem_copies.mp hp
    have hr' := mem_copies.mp hq
    have hmem : ∀ {x k}, 1 ≤ k → k ≤ names.count x → x ∈ names := fun h1 h2 =>
      List.count_pos_iff.mp (by omega)
    simp only [copyName] at he
    split at he <;> split at he <;> rename_i hn hn'
    · exact hne (by rw [he, hn, hn'])
    · exact h r' n' (by omega) hr'.2 (he ▸ hmem hr.1 hr.2)
    · exact h r n (by omega) hr.2 (he ▸ hmem hr'.1 hr'.2)
    · obtain ⟨rfl, rfl⟩ := suffixed_injective he
      exact hne rfl

/-- Paths that resolve under one base are apart when what follows the base is. -/
theorem apart_iff_of_base {m : MediaRoot} {folder base x y u v : Str}
    (hx : resolveDestination m folder x = .ok (base ++ u))
    (hy : resolveDestination m folder y = .ok (base ++ v)) :
    Apart m folder x y ↔ u ≠ v ∧ u ≠ v ++ PART_SUFFIX ∧ v ≠ u ++ PART_SUFFIX := by
  have hpart : ∀ u v, base ++ u = partPathFor (base ++ v) ↔ u = v ++ PART_SUFFIX := by
    intro u v
    rw [partPathFor, List.append_assoc, List.append_cancel_left_eq]
  have hiff : ∀ u v, base ++ u = base ++ v ↔ u = v := fun u v => by
    rw [List.append_cancel_left_eq]
  constructor
  · intro h
    have := h.2 _ _ hx hy
    exact ⟨fun e => this.1 ((hiff u v).mpr e), fun e => this.2.1 ((hpart u v).mpr e),
      fun e => this.2.2 ((hpart v u).mpr e)⟩
  · rintro ⟨h1, h2, h3⟩
    refine ⟨?_, fun d d' hd hd' => ?_⟩
    · rintro rfl
      rw [hx] at hy
      exact h1 ((hiff u v).mp (Except.ok.inj hy))
    · rw [hx] at hd
      rw [hy] at hd'
      cases hd
      cases hd'
      exact ⟨fun e => h1 ((hiff u v).mp e), fun e => h2 ((hpart u v).mp e),
        fun e => h3 ((hpart v u).mp e)⟩

/-- The files of every plan stay apart exactly when the planned names and their numbered forms
do. -/
theorem plan_apart_iff (js : Platform) (m : MediaRoot) (post : RawPost) (wanted : List Str) :
    ((buildPlan js post wanted).files.map (·.relPath)).Pairwise
      (Apart m (buildPlan js post wanted).folder) ↔
      PlanApart m ((plan js post wanted).2.map (·.relPath)) := by
  have hresolve := fun p hp => resolve_copy_mem m js post wanted (p := p) hp
  have hfiles : (buildPlan js post wanted).files.map (·.relPath) = (copies _).map copyName :=
    deduplicateFrom_names (fun _ => 0) (plan js post wanted).2
  have hfolder : (buildPlan js post wanted).folder = folderTitle post := rfl
  rw [hfiles, hfolder, List.pairwise_map, copies_pairwise fun _ _ h => h.symm, PlanApart]
  set names := (plan js post wanted).2.map (·.relPath)
  split
  · rename_i hroot
    simp only [hroot, if_true] at hresolve
    rw [← copyName_ne_iff]
    refine forall₂_congr fun p hp => forall₃_congr fun q _ _ => ⟨fun h => h.1, fun h => ⟨h, ?_⟩⟩
    intro d _ hd
    obtain ⟨e, he⟩ := hresolve p hp
    rw [he] at hd
    cases hd
  · rename_i hroot
    simp only [hroot, if_false] at hresolve
    obtain ⟨base, hbase⟩ : ∃ base : Str, ∀ x,
        m.root ++ '/' :: folderTitle post ++ '/' :: x = base ++ x :=
      ⟨m.root ++ '/' :: folderTitle post ++ ['/'], fun x => by simp⟩
    simp only [hbase] at hresolve
    rw [namesApart_iff]
    constructor
    · intro h p hp q hq hne
      have := (apart_iff_of_base (hresolve p hp) (hresolve q hq)).mp (h p hp q hq hne)
      exact ⟨this.1, this.2.1⟩
    · intro h p hp q hq hne
      exact (apart_iff_of_base (hresolve p hp) (hresolve q hq)).mpr
        ⟨(h p hp q hq hne).1, (h p hp q hq hne).2, (h q hq p hp hne.symm).2⟩

/-- The platform on the URLs of the post below. -/
def samplePlatform : Platform where
  urlPathname url := some (url.drop "http://h".length)
  decodeURIComponent s := some (if s = "a%20(2).mkv".toList then "a (2).mkv".toList else s)
  toInteger _ := none

def partOf (link : String) : Option RawItem := some { link := some link.toList }

/-- The second copy of a name takes the path of a file that already bears the number. -/
theorem plan_copies_collide : ¬ ∀ (js : Platform) (m : MediaRoot) (post : RawPost)
    (wanted : List Str), ((buildPlan js post wanted).files.map (·.relPath)).Pairwise
      (Apart m (buildPlan js post wanted).folder) := by
  intro h
  have := h samplePlatform ⟨"/".toList, "/media".toList⟩
    { name := some "Film".toList, type := some "multiVideo".toList,
      content := .list [partOf "http://h/a.mkv", partOf "http://h/a%20(2).mkv",
        partOf "http://h/a.mkv"] } []
  have hfiles : (List.Pairwise (· ≠ ·) ["a.mkv".toList, "a (2).mkv".toList, "a (2).mkv".toList]) :=
    this.imp fun h => h.1
  revert hfiles
  decide

end CircleFtp.Downloads
