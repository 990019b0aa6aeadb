import CircleFtp.Titles.Clean

/-! Paths of clean names: their numbered forms, and the paths of a plan. -/
namespace CircleFtp.Titles
open Strings

theorem mark_clean (n : Nat) : ∃ u, mark n = ' ' :: u ∧ Clean u := by
  refine ⟨_, mark_eq n, clean_of_solid ?_ (by simp)⟩
  intro c hc
  rcases List.mem_cons.mp hc with rfl | hc
  · decide
  · exact solid_append (solid_decimal n) (solid_of_all (by decide)) c hc

theorem clean_double (s u : Str) : clean (s ++ ' ' :: ' ' :: u) = clean (s ++ ' ' :: u) := by
  have hb : (if illegal ' ' then ' ' else ' ') = ' ' := by decide
  have hp : isSpace ' ' = true := by decide
  simp only [clean, List.map_append, List.map_cons, hb]
  rw [squash_double hp]

/-- The stem of a clean name ends in at most one blank. -/
theorem Clean.stem {a b : Str} (h : Clean (a ++ '.' :: b)) :
    a.rdropWhile (· = ' ') ≠ [] ∧ (∀ c ∈ (a.rdropWhile (· = ' ')).getLast?, c ≠ ' ') ∧
    (a = a.rdropWhile (· = ' ') ∨ a = a.rdropWhile (· = ' ') ++ [' ']) := by
  obtain ⟨c, u, hcu, hsp, hdot⟩ := h.cons
  have hne : a.rdropWhile (· = ' ') ≠ [] := by
    intro hn
    cases a with
    | nil => exact hdot (List.cons_eq_cons.mp hcu).1.symm
    | cons x a =>
      have hx := List.rdropWhile_eq_nil_iff.mp hn x (by simp)
      exact hsp ((List.cons_eq_cons.mp hcu).1 ▸ of_decide_eq_true hx)
  refine ⟨hne, ?_, ?_⟩
  · intro c hc
    have := List.rdropWhile_last_not (fun x => decide (x = ' ')) a hne
    rw [List.getLast?_eq_getLast_of_ne_nil hne] at hc
    cases hc
    simpa using this
  · rcases List.eq_nil_or_concat a with rfl | ⟨a', x, rfl⟩
    · exact .inl rfl
    rw [List.concat_eq_append] at h ⊢
    rw [List.rdropWhile_concat]
    split
    · rename_i hx
      obtain rfl : x = ' ' := of_decide_eq_true hx
      right
      rw [rdropWhile_id]
      intro c hc
      have hch : (a' ++ [' ']).IsChain fun a b => ¬ (a = ' ' ∧ b = ' ') := h.single.left_of_append
      have := (List.isChain_append.mp hch).2.2 c hc ' ' rfl
      simpa using this
    · exact .inl rfl

/-- A clean name with a number in it is clean, up to a doubled blank. -/
theorem Clean.suffixed {f : Str} (h : Clean f) (n : Nat) :
    Clean (suffixed (tight f) n) ∧ clean (Titles.suffixed f n) = Titles.suffixed (tight f) n := by
  have hf := h.proper.noSlash
  obtain ⟨u, hu, hcu⟩ := mark_clean n
  rcases exists_last f '.' with hdot | ⟨a, b, rfl, hdot⟩
  · have ht := tight_no_extension (d := []) (.inl rfl) hdot hf
    have hs := suffixed_no_extension (d := []) (.inl rfl) hdot hf n
    rw [List.nil_append] at ht hs
    have hc : Clean (Titles.suffixed f n) := by
      rw [hs, hu]
      exact h.spaced hcu
    rw [ht]
    exact ⟨hc, hc.clean_eq⟩
  have hsl : '/' ∉ b := fun hm => hf (by simp [hm])
  obtain ⟨hne, hlast, ha⟩ := h.stem
  rw [tight_extension hdot hsl, suffixed_extension hdot hsl, suffixed_extension hdot hsl]
  set a₀ := a.rdropWhile (· = ' ') with ha₀
  have hpre : a₀ <+: a ++ '.' :: b := (List.rdropWhile_prefix _ _).trans ⟨_, rfl⟩
  have hc : Clean (a₀ ++ mark n ++ '.' :: b) := by
    have hcm : Clean (['x'] ++ mark n) := by
      rw [hu]
      exact (clean_of_solid (s := ['x']) (solid_of_all (by decide)) (by simp)).spaced hcu
    refine ⟨?_, ?_, ?_, ?_, by simp⟩
    · intro c hc
      rcases List.mem_append.mp hc with hc | hc
      · rcases List.mem_append.mp hc with hc | hc
        · exact h.chars c (hpre.subset hc)
        · exact hcm.chars c (List.mem_append_right _ hc)
      · exact h.chars c (List.mem_append_right _ hc)
    · refine List.isChain_append.mpr ⟨List.isChain_append.mpr ⟨?_, ?_, ?_⟩, ?_, ?_⟩
      · obtain ⟨w, hw⟩ := hpre
        have := h.single
        rw [← hw] at this
        exact this.left_of_append
      · exact hcm.single.right_of_append
      · exact fun c hc _ _ hh => hlast c hc hh.1
      · exact h.single.right_of_append
      · rintro c - d hd ⟨-, rfl⟩
        cases hd
    · intro c hc
      refine h.first c ?_
      obtain ⟨w, hw⟩ := hpre
      rw [← hw]
      cases h₀ : a₀ with
      | nil => exact absurd h₀ hne
      | cons x a₁ => simpa [h₀] using hc
    · intro c hc
      refine h.last c ?_
      rw [List.getLast?_append_of_ne_nil _ (by simp)] at hc ⊢
      exact hc
  refine ⟨hc, ?_⟩
  rcases ha with ha | ha
  · rw [ha]
    exact hc.clean_eq
  · rw [ha]
    have he : a₀ ++ [' '] ++ mark n ++ '.' :: b = a₀ ++ ' ' :: ' ' :: (u ++ '.' :: b) := by
      simp [hu]
    have hg : a₀ ++ mark n ++ '.' :: b = a₀ ++ ' ' :: (u ++ '.' :: b) := by simp [hu]
    rw [he, clean_double, ← hg, hc.clean_eq]

theorem head_suffixed {f : Str} {c : Char} {u : Str} (hf : f = c :: u) (hc : c ≠ '.') (n : Nat) :
    (suffixed f n).head? = some c := by
  rcases exists_extension f with ⟨a, b, rfl, hb, hs⟩ | ⟨d, e, rfl, hd, he, hs⟩
  · rw [suffixed_extension hb hs]
    cases a with
    | nil => exact absurd (List.cons_eq_cons.mp hf).1.symm hc
    | cons x a => simpa using (List.cons_eq_cons.mp hf).1
  · rw [suffixed_no_extension hd he hs, hf]
    rfl

theorem last_suffixed (f : Str) (n : Nat) :
    (suffixed f n).getLast? = some ')' ∨ (suffixed f n).getLast? = f.getLast? := by
  rcases exists_extension f with ⟨a, b, rfl, hb, hs⟩ | ⟨d, e, rfl, hd, he, hs⟩
  · right
    rw [suffixed_extension hb hs, List.getLast?_append_of_ne_nil _ (by simp),
      List.getLast?_append_of_ne_nil _ (by simp)]
  · left
    have hm : mark n = (" (".toList ++ decimal n) ++ [')'] := rfl
    rw [suffixed_no_extension hd he hs, hm, ← List.append_assoc, List.getLast?_concat]

theorem Clean.suffixed_trim {f : Str} (h : Clean f) (n : Nat) :
    trim (Titles.suffixed f n) = Titles.suffixed f n := by
  have h1 : (Titles.suffixed f n).dropWhile isSpace = Titles.suffixed f n := by
    refine dropWhile_id fun c hc => ?_
    obtain ⟨x, u, hf, -, hdot⟩ := h.cons
    rw [head_suffixed hf hdot n] at hc
    cases hc
    exact edge_space (h.first c (by rw [hf]; rfl))
  have h2 : (Titles.suffixed f n).rdropWhile isSpace = Titles.suffixed f n := by
    refine rdropWhile_id fun c hc => ?_
    rcases last_suffixed f n with hl | hl <;> rw [hl] at hc
    · cases hc
      decide
    · exact edge_space (h.last c hc)
  rw [trim, h1]
  exact h2

theorem suffixed_noSlash {f : Str} (h : '/' ∉ f) (n : Nat) : '/' ∉ suffixed f n := by
  have hm := mark_noSep n (.inr rfl)
  rcases exists_extension f with ⟨a, b, rfl, hb, hs⟩ | ⟨d, e, rfl, hd, he, hs⟩
  · rw [suffixed_extension hb hs]
    simp only [List.mem_append, List.mem_cons, not_or] at h ⊢
    exact ⟨⟨h.1, hm⟩, h.2⟩
  · rw [suffixed_no_extension hd he hs]
    simp only [List.mem_append, not_or] at h ⊢
    exact ⟨h, hm⟩

/-- A clean file name, possibly in one clean directory. -/
structure CleanPath (d f : Str) : Prop where
  directory : d = [] ∨ ∃ seg, Clean seg ∧ d = seg ++ ['/']
  file : Clean f

theorem CleanPath.isDirectory {d f : Str} (h : CleanPath d f) : Directory d := by
  rcases h.directory with rfl | ⟨seg, -, rfl⟩
  · exact .inl rfl
  · exact .inr ⟨seg, rfl⟩

theorem filenameFromUrl_clean (js : Platform) (url fallback : Str) :
    Clean (filenameFromUrl js url fallback) :=
  sanitize_clean (sanitize_clean (clean_of_solid (solid_of_all (by decide)) (by decide)))

theorem folderTitle_clean (post : RawPost) : Clean (folderTitle post) := by
  have hname : ∀ name, Clean (sanitize name) := fun name =>
    sanitize_clean (clean_of_solid (solid_of_all (by decide)) (by decide))
  rw [folderTitle]
  split
  · rename_i year hy
    have hyear : (∀ c ∈ year, solid c = true) ∧ year ≠ [] := by
      rcases Option.or_eq_some_iff.mp hy with h | ⟨-, h⟩ <;> exact firstYear_digits h
    have hp : Clean ("(".toList ++ year ++ ")".toList) :=
      clean_of_solid (solid_append (solid_append (solid_of_all (by decide)) hyear.1)
        (solid_of_all (by decide))) (by simp)
    have := (hname ((post.name.or post.title).getD
      ("post-".toList ++ post.id.getD "unknown".toList))).spaced hp
    simpa using this
  · exact hname _

theorem seasonDirOf_clean (seasonName : Str) (n : Option Nat) : Clean (seasonDirOf seasonName n) := by
  cases n with
  | some n =>
    have hs : Clean "Season".toList := clean_of_solid (solid_of_all (by decide)) (by decide)
    have hn : Clean (padStart 2 '0' (decimal n)) :=
      clean_of_solid (solid_padded n) (by simp [padStart, decimal, Nat.toDigits_ne_nil])
    exact hs.spaced hn
  | none =>
    have hs : Clean "Season".toList := clean_of_solid (solid_of_all (by decide)) (by decide)
    have h1 : Clean "01".toList := clean_of_solid (solid_of_all (by decide)) (by decide)
    exact sanitize_clean (hs.spaced h1)

theorem planEpisode_clean (js : Platform) {showName : Str} (hs : Clean showName) (seasonName : Str)
    (index : Nat) (link : Str) (episode : RawEpisode) : ∃ d f, CleanPath d f ∧
      (planEpisode js showName seasonName index link episode).relPath = d ++ f := by
  have hdir := seasonDirOf_clean seasonName (parseSeasonNumber seasonName)
  have hfile := filenameFromUrl_clean js
  have dash : ∀ {f}, Clean f → Clean ("-".toList ++ " ".toList ++ f) := fun hf =>
    (clean_of_solid (s := "-".toList) (solid_of_all (by decide)) (by decide)).spaced hf
  have marked : ∀ (n e : Nat) {f}, Clean f → Clean (showName ++ " ".toList ++
      ("S".toList ++ padStart 2 '0' (decimal n) ++ "E".toList ++ padStart 2 '0' (decimal e)) ++
      " - ".toList ++ f) := by
    intro n e f hf
    have hm : Clean ("S".toList ++ padStart 2 '0' (decimal n) ++ "E".toList ++
        padStart 2 '0' (decimal e)) :=
      clean_of_solid (solid_append (solid_append (solid_append (solid_of_all (by decide)) (solid_padded n))
        (solid_of_all (by decide))) (solid_padded e)) (by simp)
    have := hs.spaced (hm.spaced (dash hf))
    simpa using this
  refine ⟨seasonDirOf seasonName (parseSeasonNumber seasonName) ++ ['/'], _,
    ⟨.inr ⟨_, hdir, rfl⟩, ?_⟩, rfl⟩
  split
  · split
    · exact hfile _ _
    · exact marked _ _ (hfile _ _)
  · exact hfile _ _

theorem planSeasons_clean (js : Platform) {showName : Str} (hs : Clean showName)
    (wanted : List Str) (items : List (Option RawItem)) (done : Nat) :
    ∀ file ∈ (planSeasons js showName wanted items done).2, ∃ d f, CleanPath d f ∧
      file.relPath = d ++ f := by
  induction items generalizing done with
  | nil => simp [planSeasons]
  | cons item items ih =>
    cases item with
    | none => exact ih done
    | some season =>
      intro file hf
      simp only [planSeasons] at hf
      split at hf
      · rcases List.mem_append.mp hf with hf | hf
        · obtain ⟨i, hi, rfl⟩ := List.mem_mapIdx.mp hf
          exact planEpisode_clean js hs _ _ _ _
        · exact ih _ file hf
      · exact ih _ file hf

/-- Every planned path is clean. -/
theorem plan_clean (js : Platform) (post : RawPost) (wanted : List Str) :
    ∀ file ∈ (plan js post wanted).2, ∃ d f, CleanPath d f ∧ file.relPath = d ++ f := by
  have flat : ∀ url fallback : Str, ∃ d f, CleanPath d f ∧
      filenameFromUrl js url fallback = d ++ f := fun url fallback =>
    ⟨[], _, ⟨.inl rfl, filenameFromUrl_clean js url fallback⟩, rfl⟩
  have hshow : Clean (sanitize ((post.name.or post.title).getD []) "Show".toList) :=
    sanitize_clean (clean_of_solid (solid_of_all (by decide)) (by decide))
  intro file hf
  simp only [plan] at hf
  split at hf
  · split at hf
    · exact planSeasons_clean js hshow wanted _ 0 file hf
    · simp at hf
  split at hf
  · split at hf
    · split at hf
      · simp at hf
      · obtain rfl := List.mem_singleton.mp hf
        exact flat _ _
    · simp at hf
  split at hf
  · split at hf
    · simp only [List.mem_filterMap, id_eq, exists_eq_right, List.mem_mapIdx] at hf
      obtain ⟨i, hi, hp⟩ := hf
      obtain ⟨part, -, hp⟩ := Option.bind_eq_some_iff.mp hp
      obtain ⟨link, -, rfl⟩ := Option.map_eq_some_iff.mp hp
      exact flat _ _
    · simp at hf
  · split at hf
    · split at hf
      · obtain rfl := List.mem_singleton.mp hf
        exact flat _ _
      · simp at hf
    · simp at hf

end CircleFtp.Titles
