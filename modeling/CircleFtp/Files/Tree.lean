import Mathlib.Data.Finmap
import Mathlib.Data.List.Infix

/-! Directory trees. A path is the list of names from the root; whatever is there lies in a
directory. -/
namespace Files

inductive Node (β : Type) where
  | dir
  | file (content : β)

instance {β : Type} : (n : Option (Node β)) → Decidable (n = some .dir)
  | some .dir => isTrue rfl
  | some (.file _) => isFalse (by simp)
  | none => isFalse (by simp)

structure Tree (π β : Type) [DecidableEq π] where
  nodes : Finmap fun _ : List π => Node β
  root : nodes.lookup [] = some .dir
  closed : ∀ p c, p ++ [c] ∈ nodes → nodes.lookup p = some .dir

namespace Tree
variable {π β : Type} [DecidableEq π]

def entry (t : Tree π β) (p : List π) : Option (Node β) := t.nodes.lookup p

/-- Nothing lies directly in `p`. -/
def Childless (t : Tree π β) (p : List π) : Prop := ∀ q ∈ t.nodes.keys, q ≠ [] → q.dropLast ≠ p

instance (t : Tree π β) : DecidablePred t.Childless :=
  fun p => inferInstanceAs (Decidable (∀ q ∈ t.nodes.keys, q ≠ [] → q.dropLast ≠ p))

theorem entry_eq_none {t : Tree π β} {p : List π} : t.entry p = none ↔ p ∉ t.nodes :=
  Finmap.lookup_eq_none

theorem childless_iff {t : Tree π β} {p : List π} :
    t.Childless p ↔ ∀ c, t.entry (p ++ [c]) = none := by
  constructor
  · intro h c
    refine entry_eq_none.mpr fun hc => ?_
    exact h (p ++ [c]) (Finmap.mem_keys.mpr hc) (by simp) List.dropLast_concat
  · intro h q hq hne hd
    have := h (q.getLast hne)
    rw [← hd, List.dropLast_append_getLast, entry_eq_none] at this
    exact this (Finmap.mem_keys.mp hq)

theorem entry_parent {t : Tree π β} {p : List π} {c : π} (h : t.entry (p ++ [c]) ≠ none) :
    t.entry p = some .dir :=
  t.closed p c (by_contra fun hc => h (entry_eq_none.mpr hc))

/-- Nothing but the root. -/
def bare : Tree π β where
  nodes := Finmap.singleton [] .dir
  root := Finmap.lookup_singleton_eq
  closed p c h := by
    rw [Finmap.mem_singleton] at h
    simp at h

def put (t : Tree π β) (p : List π) (n : Node β) (hp : p ≠ [])
    (hd : t.entry p.dropLast = some .dir) (hn : n = .dir ∨ t.entry p ≠ some .dir) : Tree π β where
  nodes := t.nodes.insert p n
  root := by rw [Finmap.lookup_insert_of_ne _ hp.symm, t.root]
  closed q c hq := by
    have hparent : t.entry q = some .dir := by
      rcases Finmap.mem_insert.mp hq with rfl | hq
      · rwa [List.dropLast_concat] at hd
      · exact t.closed q c hq
    by_cases he : q = p
    · subst he
      rcases hn with rfl | hn
      · exact Finmap.lookup_insert _
      · exact absurd hparent hn
    · rw [Finmap.lookup_insert_of_ne _ he]
      exact hparent

def erase (t : Tree π β) (p : List π) (hp : p ≠ []) (hc : t.Childless p) : Tree π β where
  nodes := t.nodes.erase p
  root := by rw [Finmap.lookup_erase_ne hp.symm, t.root]
  closed q c hq := by
    obtain ⟨hne, hq⟩ := Finmap.mem_erase.mp hq
    have hqp : q ≠ p := by
      intro he
      rw [he] at hq
      exact entry_eq_none.mp (childless_iff.mp hc c) hq
    rw [Finmap.lookup_erase_ne hqp]
    exact t.closed q c hq

theorem entry_put {t : Tree π β} {p : List π} {n : Node β} {hp : p ≠ []}
    {hd : t.entry p.dropLast = some .dir} {hn : n = .dir ∨ t.entry p ≠ some .dir} (q : List π) :
    (t.put p n hp hd hn).entry q = if q = p then some n else t.entry q := by
  by_cases h : q = p
  · subst h
    rw [if_pos rfl]
    exact Finmap.lookup_insert _
  · rw [if_neg h]
    exact Finmap.lookup_insert_of_ne _ h

theorem entry_erase {t : Tree π β} {p : List π} {hp : p ≠ []} {hc : t.Childless p} (q : List π) :
    (t.erase p hp hc).entry q = if q = p then none else t.entry q := by
  by_cases h : q = p
  · subst h
    rw [if_pos rfl]
    exact Finmap.lookup_erase _ _
  · rw [if_neg h]
    exact Finmap.lookup_erase_ne h

/-- A directory, unless it is there; the one above it must be. -/
def makeDir (t : Tree π β) (p : List π) : Option (Tree π β) :=
  match t.entry p with
  | some .dir => some t
  | some (.file _) => none
  | none =>
    if h : p ≠ [] ∧ t.entry p.dropLast = some .dir then some (t.put p .dir h.1 h.2 (.inl rfl))
    else none

/-- A directory with all those above it. -/
def makeDirs (t : Tree π β) (p : List π) : Option (Tree π β) := p.inits.foldlM makeDir t

def writeFile (t : Tree π β) (p : List π) (content : β) : Option (Tree π β) :=
  if h : p ≠ [] ∧ t.entry p.dropLast = some .dir ∧ t.entry p ≠ some .dir then
    some (t.put p (.file content) h.1 h.2.1 (.inr h.2.2))
  else none

/-- What is not a directory has nothing in it. -/
theorem childless_of_not_dir {t : Tree π β} {p : List π} (h : t.entry p ≠ some .dir) :
    p ≠ [] ∧ t.Childless p := by
  refine ⟨?_, childless_iff.mpr fun c => by_contra fun hc => h (entry_parent hc)⟩
  rintro rfl
  exact h t.root

/-- A file that may not be there; a directory is refused. -/
def remove (t : Tree π β) (p : List π) : Except (Tree π β) (Tree π β) :=
  if h : t.entry p = some .dir then .error t
  else .ok (t.erase p (childless_of_not_dir h).1 (childless_of_not_dir h).2)

/-- An empty directory; anything else stays. -/
def removeDir (t : Tree π β) (p : List π) : Tree π β :=
  if h : p ≠ [] ∧ t.entry p = some .dir ∧ t.Childless p then t.erase p h.1 h.2.2 else t

theorem makeDir_entry {t t' : Tree π β} {p : List π} (h : t.makeDir p = some t') :
    (t.entry p = none ∨ t.entry p = some .dir) ∧
      ∀ q, t'.entry q = if q = p then some .dir else t.entry q := by
  rw [makeDir] at h
  split at h
  · rename_i hd
    cases h
    refine ⟨.inr hd, fun q => ?_⟩
    split
    · subst q
      exact hd
    · rfl
  · cases h
  · rename_i hn
    split at h
    · cases h
      exact ⟨.inl hn, entry_put⟩
    · cases h

theorem makeDirs_entry {ps : List (List π)} {t t' : Tree π β} (h : ps.foldlM makeDir t = some t') :
    (∀ q ∈ ps, t.entry q = none ∨ t.entry q = some .dir) ∧
      ∀ q, t'.entry q = if q ∈ ps then some .dir else t.entry q := by
  induction ps generalizing t with
  | nil =>
    cases h
    exact ⟨by simp, by simp⟩
  | cons p ps ih =>
    rw [List.foldlM_cons] at h
    obtain ⟨u, hu, h⟩ := Option.bind_eq_some_iff.mp h
    obtain ⟨hp, hentry⟩ := makeDir_entry hu
    obtain ⟨hps, hrest⟩ := ih h
    constructor
    · intro q hq
      rcases List.mem_cons.mp hq with rfl | hq
      · exact hp
      · by_cases he : q = p
        · rw [he]
          exact hp
        · have := hps q hq
          rwa [hentry, if_neg he] at this
    · intro q
      rw [hrest, hentry]
      by_cases he : q = p
      · simp [he]
      · simp [he]

theorem writeFile_entry {t t' : Tree π β} {p : List π} {content : β}
    (h : t.writeFile p content = some t') (q : List π) :
    t'.entry q = if q = p then some (.file content) else t.entry q := by
  rw [writeFile] at h
  split at h
  · cases h
    exact entry_put q
  · cases h

/-- A file with the directories that lead to it. -/
def createFile (t : Tree π β) (p : List π) (content : β) : Option (Tree π β) :=
  (t.makeDirs p.dropLast).bind fun t => t.writeFile p content

theorem createFile_entry {t t' : Tree π β} {p : List π} {content : β}
    (h : t.createFile p content = some t') :
    (∀ q, q <+: p → q ≠ p → t.entry q = none ∨ t.entry q = some .dir) ∧
      ∀ q, t'.entry q = if q = p then some (.file content) else if q <+: p then some .dir
        else t.entry q := by
  obtain ⟨u, hu, h⟩ := Option.bind_eq_some_iff.mp h
  obtain ⟨hfree, hentry⟩ := makeDirs_entry hu
  simp only [List.mem_inits] at hfree hentry
  have habove {q : List π} (hq : q ≠ p) : q <+: p.dropLast ↔ q <+: p := by
    rcases List.eq_nil_or_concat p with rfl | ⟨ps, c, rfl⟩
    · simp
    · rw [List.concat_eq_append] at hq ⊢
      rw [List.dropLast_concat, List.prefix_concat_iff, or_iff_right hq]
  refine ⟨fun q hq hne => hfree q ((habove hne).mpr hq), fun q => ?_⟩
  rw [writeFile_entry h, hentry]
  by_cases hq : q = p
  · rw [if_pos hq, if_pos hq]
  · rw [if_neg hq, if_neg hq]
    exact if_congr (habove hq) rfl rfl

theorem remove_entry {t t' : Tree π β} {p : List π} (h : t.remove p = .ok t') :
    t.entry p ≠ some .dir ∧ ∀ q, t'.entry q = if q = p then none else t.entry q := by
  rw [remove] at h
  split at h
  · cases h
  · cases h
    exact ⟨‹_›, entry_erase⟩

theorem remove_error {t t' : Tree π β} {p : List π} (h : t.remove p = .error t') :
    t.entry p = some .dir ∧ t' = t := by
  rw [remove] at h
  split at h
  · cases h
    exact ⟨‹_›, rfl⟩
  · cases h

theorem removeDir_entry (t : Tree π β) (p q : List π) : (t.removeDir p).entry q =
    if q = p ∧ p ≠ [] ∧ t.entry p = some .dir ∧ t.Childless p then none else t.entry q := by
  rw [removeDir]
  split
  · rename_i h
    rw [entry_erase]
    simp [h]
  · rename_i h
    rw [if_neg fun hq => h hq.2]

/-- Files one after another, up to the first directory among them. -/
theorem removes_entry {ps : List (List π)} {t : Tree π β} :
    ((∀ p ∈ ps, t.entry p ≠ some .dir) →
      ∃ t', ps.foldlM remove t = .ok t' ∧ ∀ q, t'.entry q = if q ∈ ps then none else t.entry q) ∧
    ((∃ p ∈ ps, t.entry p = some .dir) →
      ∃ t', ps.foldlM remove t = .error t' ∧ ∀ q, t.entry q = some .dir → t'.entry q = some .dir) := by
  induction ps generalizing t with
  | nil => exact ⟨fun _ => ⟨t, rfl, by simp⟩, by simp⟩
  | cons p ps ih =>
    rw [List.foldlM_cons]
    cases hr : t.remove p with
    | error u =>
      obtain ⟨hd, rfl⟩ := remove_error hr
      exact ⟨fun h => absurd hd (h p List.mem_cons_self), fun _ => ⟨u, rfl, fun _ h => h⟩⟩
    | ok u =>
      obtain ⟨hd, hentry⟩ := remove_entry hr
      have dirs {q : List π} : u.entry q = some .dir ↔ t.entry q = some .dir := by
        rw [hentry]
        split
        · subst q
          simp [hd]
        · rfl
      constructor
      · intro h
        obtain ⟨t', ht', hrest⟩ := ih.1 fun q hq hdir =>
          h q (List.mem_cons_of_mem p hq) (dirs.mp hdir)
        refine ⟨t', ht', fun q => ?_⟩
        rw [hrest, hentry]
        by_cases he : q = p
        · simp [he]
        · simp [he]
      · rintro ⟨q, hq, hdir⟩
        rcases List.mem_cons.mp hq with rfl | hq
        · exact absurd hdir hd
        · obtain ⟨t', ht', hrest⟩ := ih.2 ⟨q, hq, dirs.mpr hdir⟩
          exact ⟨t', ht', fun q hq => hrest q (dirs.mpr hq)⟩

/-- No path leads through another one. -/
def Aside (ps : List (List π)) : Prop := ∀ p ∈ ps, ∀ q ∈ ps, p <+: q → p = q

/-- What is there after files have been made one after another. -/
structure Made (ps : List (List π)) (t t' : Tree π β) : Prop where
  free : ∀ p ∈ ps, ∀ q, q <+: p → q ≠ p → t.entry q = none ∨ t.entry q = some .dir
  files : ∀ p ∈ ps, t'.entry p ≠ some .dir
  dirs : ∀ p ∈ ps, ∀ q, q <+: p → q ≠ p → t'.entry q = some .dir
  same : ∀ q, (∀ p ∈ ps, ¬ q <+: p) → t'.entry q = t.entry q

theorem creates_made {xs : List (List π × β)} (hxs : Aside (xs.map Prod.fst)) {t t' : Tree π β}
    (h : xs.foldlM (fun t x => t.createFile x.1 x.2) t = some t') : Made (xs.map Prod.fst) t t' := by
  induction xs generalizing t with
  | nil =>
    cases h
    exact ⟨by simp, by simp, by simp, fun _ _ => rfl⟩
  | cons x xs ih =>
    rw [List.foldlM_cons] at h
    obtain ⟨u, hu, h⟩ := Option.bind_eq_some_iff.mp h
    obtain ⟨hfree, hentry⟩ := createFile_entry hu
    have hrest := ih (fun p hp q hq => hxs p (List.mem_cons_of_mem _ hp) q (List.mem_cons_of_mem _ hq)) h
    -- what the later files leave of the first one and of the directories above it
    have hlater {q : List π} (hq : q <+: x.1) {p : List π} (hp : p ∈ xs.map Prod.fst) (he : q = p) :
        p = x.1 := hxs p (List.mem_cons_of_mem _ hp) x.1 List.mem_cons_self (he ▸ hq)
    refine ⟨?_, ?_, ?_, ?_⟩
    · rintro p hp q hq hne
      rcases List.mem_cons.mp hp with rfl | hp
      · exact hfree q hq hne
      · have hmid := hrest.free p hp q hq hne
        rw [hentry] at hmid
        by_cases hx : q = x.1
        · simp [hx] at hmid
        · by_cases hbelow : q <+: x.1
          · exact hfree q hbelow hx
          · simpa [hx, hbelow] using hmid
    · rintro p hp
      rcases List.mem_cons.mp hp with rfl | hp
      · by_cases hagain : x.1 ∈ xs.map Prod.fst
        · exact hrest.files x.1 hagain
        · rw [hrest.same, hentry]
          · simp
          · intro p hp hpre
            have he := hxs x.1 List.mem_cons_self p (List.mem_cons_of_mem _ hp) hpre
            exact hagain (he ▸ hp)
      · exact hrest.files p hp
    · rintro p hp q hq hne
      rcases List.mem_cons.mp hp with rfl | hp
      · by_cases hagain : ∃ p ∈ xs.map Prod.fst, q <+: p
        · obtain ⟨p, hp, hpre⟩ := hagain
          refine hrest.dirs p hp q hpre fun he => hne ?_
          rw [he]
          exact hlater hq hp he
        · rw [hrest.same q fun p hp hpre => hagain ⟨p, hp, hpre⟩, hentry, if_neg hne, if_pos hq]
      · exact hrest.dirs p hp q hq hne
    · intro q hq
      rw [hrest.same q fun p hp => hq p (List.mem_cons_of_mem _ hp), hentry]
      have hx := hq x.1 List.mem_cons_self
      have hne : q ≠ x.1 := by
        rintro rfl
        exact hx List.prefix_rfl
      rw [if_neg hne, if_neg hx]

/-- Directories side by side, each removed if it is empty. -/
theorem removeDirs_entry {l : List (List π)} (hl : ∀ p ∈ l, p ≠ [])
    (hapart : ∀ p ∈ l, ∀ q ∈ l, ∀ c, p ≠ q ++ [c]) (t : Tree π β) (q : List π) :
    (l.foldl removeDir t).entry q =
      if q ∈ l ∧ t.entry q = some .dir ∧ t.Childless q then none else t.entry q := by
  induction l generalizing t with
  | nil => simp
  | cons p l ih =>
    rw [List.foldl_cons, ih (fun p hp => hl p (List.mem_cons_of_mem _ hp))
      fun p hp q hq => hapart p (List.mem_cons_of_mem _ hp) q (List.mem_cons_of_mem _ hq)]
    have hentry := t.removeDir_entry p
    have childless {q : List π} (hq : q ∈ l) : (t.removeDir p).Childless q ↔ t.Childless q := by
      rw [childless_iff, childless_iff]
      refine forall_congr' fun c => ?_
      rw [hentry, if_neg]
      exact fun h => hapart p List.mem_cons_self q (List.mem_cons_of_mem _ hq) c h.1.symm
    by_cases he : q = p
    · subst q
      by_cases hgone : t.entry p = some .dir ∧ t.Childless p
      · have hnone : (t.removeDir p).entry p = none := by
          rw [hentry, if_pos ⟨rfl, hl p List.mem_cons_self, hgone⟩]
        have hhere : p ∈ p :: l ∧ t.entry p = some .dir ∧ t.Childless p :=
          ⟨List.mem_cons_self, hgone⟩
        rw [hnone, if_pos hhere, ite_self]
      · have hsame : (t.removeDir p).entry p = t.entry p := by
          rw [hentry, if_neg fun h => hgone h.2.2]
        rw [hsame, if_neg, if_neg fun h => hgone h.2]
        rintro ⟨hp, hd, hc⟩
        exact hgone ⟨hd, (childless hp).mp hc⟩
    · have hsame : (t.removeDir p).entry q = t.entry q := by
        rw [hentry, if_neg fun h => he h.1]
      rw [hsame]
      refine if_congr ?_ rfl rfl
      rw [List.mem_cons, or_iff_right he]
      exact and_congr_right fun hq => and_congr_right fun _ => childless hq

/-- Directories that were empty may be gone, nothing else has changed. -/
def Restored (t t' : Tree π β) : Prop := ∀ p, t'.entry p = t.entry p ∨
  (t.entry p = some .dir ∧ t.Childless p ∧ t'.entry p = none)

/-- New directories, and nothing else, have been added. -/
structure Grown (new : List π → Prop) (t t' : Tree π β) : Prop where
  added : ∀ p, new p → t.entry p = none ∧ t'.entry p = some .dir
  same : ∀ p, ¬ new p → t'.entry p = t.entry p

/-- Files made and removed again, with paths that nothing was at, leave the directories above them. -/
theorem Made.grown {ps qs : List (List π)} {t t' u : Tree π β} (h : Made ps t t')
    (hsub : ∀ p ∈ ps, p ∈ qs) (hfree : ∀ q ∈ qs, t.entry q = none)
    (hqs : ∀ q ∈ qs, ∀ p ∈ ps, q <+: p → q = p)
    (hu : ∀ q, u.entry q = if q ∈ qs then none else t'.entry q) :
    Grown (fun q => t.entry q = none ∧ ∃ p ∈ ps, q <+: p ∧ q ≠ p) t u := by
  constructor
  · rintro q ⟨hnone, p, hp, hpre, hne⟩
    refine ⟨hnone, ?_⟩
    rw [hu, if_neg fun hq => hne (hqs q hq p hp hpre)]
    exact h.dirs p hp q hpre hne
  · intro q hold
    rw [hu]
    split
    · exact (hfree q ‹_›).symm
    · rename_i hq
      by_cases habove : ∃ p ∈ ps, q <+: p
      · obtain ⟨p, hp, hpre⟩ := habove
        have hne : q ≠ p := fun he => hq (he ▸ hsub p hp)
        rw [h.dirs p hp q hpre hne]
        refine ((h.free p hp q hpre hne).resolve_left fun hnone => ?_).symm
        exact hold ⟨hnone, p, hp, hpre, hne⟩
      · exact h.same q fun p hp hpre => habove ⟨p, hp, hpre⟩

/-- The directories beneath another one, as far as they are empty, and then that one. -/
def tidy (t : Tree π β) (names : List π) (p : List π) : Tree π β :=
  ((names.map fun n => p ++ [n]).foldl removeDir t).removeDir p

/-- The directory holds something, and nothing but empty directories of those names. -/
def HoldsOnly (t : Tree π β) (names : List π) (p : List π) : Prop :=
  t.entry p = some .dir ∧ ¬ t.Childless p ∧ ∀ c, t.entry (p ++ [c]) ≠ none →
    c ∈ names ∧ t.entry (p ++ [c]) = some .dir ∧ t.Childless (p ++ [c])

section
variable {new : List π → Prop} {t t' : Tree π β} (h : Grown new t t') {p : List π} {names : List π}
include h

theorem Grown.childless {q : List π} (hq : t'.Childless q) : t.Childless q := by
  refine childless_iff.mpr fun c => by_contra fun hc => ?_
  have hold : ¬ new (q ++ [c]) := fun hn => hc (h.added _ hn).1
  rw [← h.same _ hold] at hc
  exact hc (childless_iff.mp hq c)

/-- Where every new directory is named, a directory beside them is as empty as it was. -/
theorem Grown.childless_beneath (hnamed : ∀ q, new q → q = p ∨ ∃ n ∈ names, q = p ++ [n]) {c : π}
    (hc : t.Childless (p ++ [c])) : t'.Childless (p ++ [c]) := by
  refine childless_iff.mpr fun e => ?_
  have hold : ¬ new (p ++ [c] ++ [e]) := by
    intro hn
    rcases hnamed _ hn with hp | ⟨n, -, hp⟩
    · simpa using congrArg List.length hp
    · simpa using congrArg List.length hp
  rw [h.same _ hold]
  exact childless_iff.mp hc e

/-- What is left in the directory after those in it have been swept. -/
theorem Grown.swept_iff (hnamed : ∀ q, new q → q = p ∨ ∃ n ∈ names, q = p ++ [n]) :
    ((names.map fun n => p ++ [n]).foldl removeDir t').Childless p ↔
      ∀ c, t.entry (p ++ [c]) ≠ none →
        c ∈ names ∧ t.entry (p ++ [c]) = some .dir ∧ t.Childless (p ++ [c]) := by
  have hswept (c : π) := removeDirs_entry (l := names.map fun n => p ++ [n]) (by simp) (by simp) t'
    (p ++ [c])
  simp only [List.mem_map, List.append_cancel_left_eq, List.cons.injEq, and_true,
    exists_eq_right] at hswept
  rw [childless_iff]
  refine forall_congr' fun c => ?_
  rw [hswept]
  by_cases hn : new (p ++ [c])
  · obtain ⟨hnone, hdir⟩ := h.added _ hn
    have hc : c ∈ names := by
      rcases hnamed _ hn with hp | ⟨n, hn, hp⟩
      · simp at hp
      · obtain rfl : c = n := by simpa using hp
        exact hn
    have hchildless : t.Childless (p ++ [c]) :=
      (childless_of_not_dir (by rw [hnone]; simp)).2
    rw [if_pos ⟨hc, hdir, h.childless_beneath hnamed hchildless⟩]
    simp [hnone]
  · rw [h.same _ hn]
    constructor
    · intro hgone hc
      split at hgone
      · rename_i hall
        exact ⟨hall.1, hall.2.1, h.childless hall.2.2⟩
      · exact absurd hgone hc
    · intro hall
      by_cases hc : t.entry (p ++ [c]) = none
      · rw [hc, ite_self]
      · obtain ⟨hname, hdir, hchildless⟩ := hall hc
        rw [if_pos ⟨hname, hdir, h.childless_beneath hnamed hchildless⟩]

/-- Tidying up undoes the growth exactly if it names every new directory and does not sweep away
what was there before. -/
theorem tidy_restores_iff (hp : p ≠ []) :
    t.Restored (t'.tidy names p) ↔
      (∀ q, new q → q = p ∨ ∃ n ∈ names, q = p ++ [n]) ∧ ¬ t.HoldsOnly names p := by
  have hswept (q : List π) := removeDirs_entry (l := names.map fun n => p ++ [n])
    (by simp) (by simp) t' q
  have hmem (q : List π) : q ∈ (names.map fun n => p ++ [n]) ↔ ∃ n ∈ names, q = p ++ [n] := by
    simp [eq_comm]
  simp only [hmem] at hswept
  have htidy (q : List π) := ((names.map fun n => p ++ [n]).foldl removeDir t').removeDir_entry p q
  have hself : ((names.map fun n => p ++ [n]).foldl removeDir t').entry p = t'.entry p := by
    rw [hswept, if_neg]
    rintro ⟨⟨n, -, he⟩, -⟩
    simp at he
  rw [hself] at htidy
  constructor
  · intro hr
    have hnamed : ∀ q, new q → q = p ∨ ∃ n ∈ names, q = p ++ [n] := by
      intro q hq
      by_contra hno
      obtain ⟨hnone, hdir⟩ := h.added q hq
      have hkept : (t'.tidy names p).entry q = some .dir := by
        rw [tidy, htidy, if_neg fun hc => hno (.inl hc.1), hswept,
          if_neg fun hc => hno (.inr hc.1), hdir]
      rcases hr q with hs | ⟨hd, -⟩
      · rw [hkept, hnone] at hs
        cases hs
      · rw [hnone] at hd
        cases hd
    refine ⟨hnamed, ?_⟩
    rintro ⟨hd, hfull, hall⟩
    have hold : ¬ new p := by
      intro hn
      rw [(h.added p hn).1] at hd
      cases hd
    have hgone : (t'.tidy names p).entry p = none := by
      rw [tidy, htidy, if_pos ⟨rfl, hp, by rw [h.same p hold, hd], (h.swept_iff hnamed).mpr hall⟩]
    rcases hr p with hs | ⟨-, hc, -⟩
    · rw [hgone, hd] at hs
      cases hs
    · exact hfull hc
  · rintro ⟨hnamed, hholds⟩ q
    rw [tidy, htidy]
    by_cases he : q = p
    · subst q
      rw [hself]
      by_cases hn : new p
      · -- the directory itself is new, and so is all in it
        obtain ⟨hnone, hdir⟩ := h.added p hn
        have hempty (c : π) : t.entry (p ++ [c]) = none :=
          childless_iff.mp (childless_of_not_dir (by rw [hnone]; simp)).2 c
        rw [if_pos ⟨rfl, hp, hdir, (h.swept_iff hnamed).mpr fun c hc => absurd (hempty c) hc⟩]
        exact .inl hnone.symm
      · rw [h.same p hn]
        split
        · rename_i hall
          refine .inr ⟨hall.2.2.1, by_contra fun hc => hholds ⟨hall.2.2.1, hc, ?_⟩, rfl⟩
          exact (h.swept_iff hnamed).mp hall.2.2.2
        · exact .inl rfl
    · rw [if_neg fun hc => he hc.1, hswept]
      split
      · rename_i hall
        obtain ⟨-, hdir, hchildless⟩ := hall
        by_cases hn : new q
        · exact .inl (h.added q hn).1.symm
        · rw [h.same q hn] at hdir
          exact .inr ⟨hdir, h.childless hchildless, rfl⟩
      · rename_i hall
        by_cases hn : new q
        · obtain ⟨hnone, hdir⟩ := h.added q hn
          obtain ⟨n, hname, rfl⟩ := (hnamed q hn).resolve_left he
          have hc : t.Childless (p ++ [n]) := (childless_of_not_dir (by rw [hnone]; simp)).2
          exact absurd ⟨⟨n, hname, rfl⟩, hdir, h.childless_beneath hnamed hc⟩ hall
        · exact .inl (h.same q hn)

end
end Tree
end Files
