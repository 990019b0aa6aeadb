import CircleFtp.Strings.Basic
import Mathlib.Data.List.DropRight

/-! Absolute paths as `path.resolve` of the POSIX path module builds them. -/
namespace Strings

def joinSlash (segments : List Str) : Str := ['/'].intercalate segments

/-- One segment of a path, normalised away or kept. -/
def push (acc : List Str) (segment : Str) : List Str :=
  if segment = [] ∨ segment = ['.'] then acc
  else if segment = ['.', '.'] then acc.dropLast
  else acc ++ [segment]

def isAbsolute (s : Str) : Bool := s.head? = some '/'

/-- The directory names on the way to a path, from the root. -/
def components (cwd : Str) (args : List Str) : List Str :=
  args.foldl (fun acc arg => (split '/' arg).foldl push (if isAbsolute arg then [] else acc))
    ((split '/' cwd).foldl push [])

def resolve (cwd : Str) (args : List Str) : Str := '/' :: joinSlash (components cwd args)

/-- One segment of a path that need not be absolute; leading `..` of a relative path stay. -/
def pushFrom (absolute : Bool) (acc : List Str) (segment : Str) : List Str :=
  if segment = ['.', '.'] ∧ !absolute ∧ (acc = [] ∨ acc.getLast? = some ['.', '.']) then
    acc ++ [segment]
  else push acc segment

def normalize (path : Str) : Str :=
  let absolute := isAbsolute path
  let body := joinSlash ((split '/' path).foldl (pushFrom absolute) [])
  let body := if body = [] ∧ !absolute then ['.'] else body
  let body := if path.getLast? = some '/' ∧ body ≠ [] then body ++ ['/'] else body
  if absolute then '/' :: body else body

/-- `path.join` of two paths. -/
def join (a b : Str) : Str :=
  normalize (joinSlash ([a, b].filter (· ≠ [])))

/-- `path.dirname`. -/
def dirname (path : Str) : Str :=
  let head := (path.rdropWhile (· = '/')).rdropWhile (· ≠ '/')
  if isAbsolute path ∧ head.length ≤ 2 then (if head = [] then ['/'] else head)
  else if head = [] then ['.'] else head.dropLast

/-- A name that stays when a path is normalised. -/
structure Proper (c : Str) : Prop where
  nonempty : c ≠ []
  noSlash : '/' ∉ c
  noDot : c ≠ ['.']
  noDots : c ≠ ['.', '.']

theorem push_proper {c : Str} (h : Proper c) (acc : List Str) : push acc c = acc ++ [c] := by
  simp [push, h.nonempty, h.noDot, h.noDots]

theorem foldl_push_proper {cs : List Str} (h : ∀ c ∈ cs, Proper c) (acc : List Str) :
    cs.foldl push acc = acc ++ cs := by
  induction cs generalizing acc with
  | nil => simp
  | cons c cs ih =>
    rw [List.foldl_cons, push_proper (h c (by simp)), ih fun d hd => h d (by simp [hd])]
    simp

theorem push_keeps {acc : List Str} (h : ∀ c ∈ acc, Proper c) {s : Str} (hs : '/' ∉ s) :
    ∀ c ∈ push acc s, Proper c := by
  intro c hc
  simp only [push] at hc
  split at hc
  · exact h c hc
  split at hc
  · exact h c ((List.dropLast_subset acc) hc)
  · rename_i h1 h2
    rcases List.mem_append.mp hc with hc | hc
    · exact h c hc
    · obtain rfl := List.mem_singleton.mp hc
      exact ⟨fun e => h1 (.inl e), hs, fun e => h1 (.inr e), h2⟩

theorem foldl_push_keeps {segments : List Str} (hs : ∀ s ∈ segments, '/' ∉ s) {acc : List Str}
    (h : ∀ c ∈ acc, Proper c) : ∀ c ∈ segments.foldl push acc, Proper c := by
  induction segments generalizing acc with
  | nil => exact h
  | cons s segments ih =>
    exact ih (fun t ht => hs t (by simp [ht])) (push_keeps h (hs s (by simp)))

theorem noSlash_of_mem_split {s segment : Str} (h : segment ∈ split '/' s) : '/' ∉ segment := by
  induction s generalizing segment with
  | nil =>
    obtain rfl : segment = [] := by simpa [split] using h
    simp
  | cons c s ih =>
    rw [split, List.splitOn_cons_eq_if_modifyHead] at h
    split at h
    · rcases List.mem_cons.mp h with rfl | h
      · simp
      · exact ih h
    · rename_i hc
      cases hs : List.splitOn '/' s with
      | nil => exact absurd hs (List.splitOn_ne_nil '/' s)
      | cons x xs =>
        rw [hs, List.modifyHead_cons] at h
        rcases List.mem_cons.mp h with rfl | h
        · have hx : '/' ∉ x := ih (by rw [split, hs]; simp)
          simp only [beq_iff_eq] at hc
          exact fun hm => (List.mem_cons.mp hm).elim (fun e => hc e.symm) hx
        · exact ih (by rw [split, hs]; exact List.mem_cons_of_mem x h)

theorem components_proper (cwd : Str) (args : List Str) :
    ∀ c ∈ components cwd args, Proper c := by
  have hsplit : ∀ s acc, (∀ c ∈ acc, Proper c) → ∀ c ∈ (split '/' s).foldl push acc, Proper c :=
    fun s _ h => foldl_push_keeps (fun _ => noSlash_of_mem_split) h
  have hargs : ∀ (args acc : List Str), (∀ c ∈ acc, Proper c) → ∀ c ∈ args.foldl (fun acc arg =>
      (split '/' arg).foldl push (if isAbsolute arg then [] else acc)) acc, Proper c := by
    intro args
    induction args with
    | nil => exact fun _ h => h
    | cons arg args ih =>
      intro acc h
      refine ih _ (hsplit arg _ ?_)
      split
      · simp
      · exact h
  exact hargs args _ (hsplit cwd [] (by simp))

theorem split_joinSlash {cs : List Str} (h : ∀ c ∈ cs, Proper c) (hne : cs ≠ []) :
    split '/' (joinSlash cs) = cs :=
  List.splitOn_intercalate '/' (fun c hc => (h c hc).noSlash) hne

theorem joinSlash_ne_nil {cs : List Str} (h : ∀ c ∈ cs, Proper c) (hne : cs ≠ []) :
    joinSlash cs ≠ [] := by
  intro he
  have hsplit := split_joinSlash h hne
  rw [he] at hsplit
  exact (h [] (by rw [← hsplit]; simp [split])).nonempty rfl

theorem split_proper {c : Str} (h : Proper c) : split '/' c = [c] :=
  List.splitOn_eq_singleton h.noSlash

theorem joinSlash_append {a b : List Str} (ha : a ≠ []) (hb : b ≠ []) :
    joinSlash (a ++ b) = joinSlash a ++ '/' :: joinSlash b := by
  induction a with
  | nil => exact absurd rfl ha
  | cons c a ih =>
    by_cases h : a = []
    · subst h
      simp [joinSlash, List.intercalate_cons_of_ne_nil hb]
    · have hab : a ++ b ≠ [] := by simp [h]
      have hi := ih h
      simp only [joinSlash] at hi ⊢
      rw [List.cons_append, List.intercalate_cons_of_ne_nil hab, hi,
        List.intercalate_cons_of_ne_nil h]
      simp

theorem joinSlash_injective {a b : List Str} (ha : ∀ c ∈ a, Proper c) (hb : ∀ c ∈ b, Proper c)
    (hna : a ≠ []) (hnb : b ≠ []) (h : joinSlash a = joinSlash b) : a = b := by
  rw [← split_joinSlash ha hna, h, split_joinSlash hb hnb]

/-- A resolved path resolves to itself. -/
theorem components_resolve (cwd : Str) (args : List Str) {cs : List Str}
    (h : ∀ c ∈ cs, Proper c) :
    components cwd (resolve cwd args :: cs) = components cwd args ++ cs := by
  have hcs : ∀ (cs : List Str) (acc : List Str), (∀ c ∈ cs, Proper c) →
      cs.foldl (fun acc arg => (split '/' arg).foldl push (if isAbsolute arg then [] else acc)) acc
        = acc ++ cs := by
    intro cs
    induction cs with
    | nil => simp
    | cons c cs ih =>
      intro acc h
      have hc := h c (by simp)
      have hrel : isAbsolute c = false := by
        rw [isAbsolute, decide_eq_false_iff_not]
        exact fun e => hc.noSlash (List.mem_of_mem_head? e)
      rw [List.foldl_cons, split_proper hc, hrel]
      simp only [Bool.false_eq_true, if_false, List.foldl_cons, List.foldl_nil, push_proper hc]
      rw [ih _ fun d hd => h d (by simp [hd])]
      simp
  have hroot : (split '/' (resolve cwd args)).foldl push [] = components cwd args := by
    rw [resolve, split, List.splitOn_cons_eq_if_modifyHead]
    simp only [beq_self_eq_true, if_true, List.foldl_cons]
    by_cases hne : components cwd args = []
    · simp [hne, joinSlash, push]
    · rw [← split, split_joinSlash (components_proper cwd args) hne]
      simpa [push] using foldl_push_proper (components_proper cwd args) []
  have habs : isAbsolute (resolve cwd args) = true := by simp [isAbsolute, resolve]
  rw [components, List.foldl_cons, habs]
  simp only [if_true]
  rw [hcs cs _ h, hroot]

/-- Where strings lead: up so many directories, or to `/`, and then down by names. -/
structure Lead where
  absolute : Bool
  up : Nat
  down : List Str
deriving DecidableEq

namespace Lead

/-- A `..` takes back the last name, or leads up one more. -/
def name (l : Lead) (segment : Str) : Lead :=
  if segment = [] ∨ segment = ['.'] then l
  else if segment = ['.', '.'] then
    if l.down = [] then { l with up := l.up + 1 } else { l with down := l.down.dropLast }
  else { l with down := l.down ++ [segment] }

/-- An absolute string starts anew. -/
def string (l : Lead) (s : Str) : Lead :=
  (split '/' s).foldl name (if isAbsolute s then ⟨true, 0, []⟩ else l)

/-- Where it leads to from a directory. -/
def place (base : List Str) (l : Lead) : List Str :=
  (if l.absolute then [] else base).rdrop l.up ++ l.down

theorem place_name (base : List Str) (l : Lead) (segment : Str) :
    (l.name segment).place base = push (l.place base) segment := by
  simp only [name, push]
  split
  · rfl
  split
  · split
    · rename_i hd
      simp only [place, hd, List.append_nil, List.rdrop, List.dropLast_eq_take, List.take_take,
        List.length_take]
      congr 1
      omega
    · rename_i hd
      simp only [place, List.dropLast_append_of_ne_nil hd]
  · simp only [place, List.append_assoc]

theorem place_string (base : List Str) (l : Lead) (s : Str) :
    (l.string s).place base =
      (split '/' s).foldl push (if isAbsolute s then [] else l.place base) := by
  have names (segments : List Str) (l : Lead) :
      (segments.foldl name l).place base = segments.foldl push (l.place base) := by
    induction segments generalizing l with
    | nil => rfl
    | cons segment segments ih => rw [List.foldl_cons, List.foldl_cons, ih, place_name]
  rw [string, names]
  split <;> rfl

end Lead

def lead (strings : List Str) : Lead := strings.foldl Lead.string ⟨false, 0, []⟩

/-- Strings resolved against a directory lead from there. -/
theorem components_lead (cwd : Str) (args strings : List Str) :
    components cwd (resolve cwd args :: strings) = (lead strings).place (components cwd args) := by
  have all (l : Lead) : strings.foldl (fun acc arg =>
      (split '/' arg).foldl push (if isAbsolute arg then [] else acc)) (l.place (components cwd args)) =
        (strings.foldl Lead.string l).place (components cwd args) := by
    induction strings generalizing l with
    | nil => rfl
    | cons s strings ih => rw [List.foldl_cons, List.foldl_cons, ← Lead.place_string, ih]
  have base : components cwd (resolve cwd args :: []) = components cwd args ++ [] :=
    components_resolve cwd args (by simp)
  rw [List.append_nil] at base
  rw [lead, ← all, Lead.place, ← base]
  simp [components]

/-- The strings lead back to a directory if and only if they go down again what they went up. -/
theorem Lead.place_eq_iff (base : List Str) (l : Lead) :
    l.place base = base ↔ l.down = if l.absolute then base else base.rtake l.up := by
  rw [place]
  cases l.absolute with
  | true => simp
  | false =>
    simp only [Bool.false_eq_true, if_false]
    conv_lhs => rhs; rw [← List.take_append_drop (base.length - l.up) base]
    exact List.append_right_inj _

/-- What `normalize` keeps of the segments. -/
structure Kept (c : Str) : Prop where
  nonempty : c ≠ []
  noSlash : '/' ∉ c
  noDot : c ≠ ['.']

theorem pushFrom_absolute : pushFrom true = push := by
  funext acc s
  simp [pushFrom]

theorem push_dots (acc : List Str) : push acc ['.', '.'] = acc.dropLast := by simp [push]

theorem push_kept {c : Str} (h : Kept c) (hd : c ≠ ['.', '.']) (acc : List Str) :
    push acc c = acc ++ [c] := push_proper ⟨h.nonempty, h.noSlash, h.noDot, hd⟩ acc

theorem push_drops {s : Str} (h : s = [] ∨ s = ['.']) (acc : List Str) : push acc s = acc :=
  if_pos h

/-- Normalising a segment first leads to the same place. -/
theorem foldl_pushFrom_step {acc : List Str} (h : ∀ c ∈ acc, Kept c) {s : Str} (hs : '/' ∉ s)
    (base : List Str) : (∀ c ∈ pushFrom false acc s, Kept c) ∧
      (pushFrom false acc s).foldl push base = push (acc.foldl push base) s := by
  by_cases hup : s = ['.', '.'] ∧ (acc = [] ∨ acc.getLast? = some ['.', '.'])
  · have hp : pushFrom false acc s = acc ++ [s] := if_pos ⟨hup.1, rfl, hup.2⟩
    rw [hp]
    refine ⟨fun c hc => ?_, by rw [List.foldl_append, List.foldl_cons, List.foldl_nil]⟩
    rcases List.mem_append.mp hc with hc | hc
    · exact h c hc
    · obtain rfl := List.mem_singleton.mp hc
      exact ⟨by simp [hup.1], hs, by simp [hup.1]⟩
  have hp : pushFrom false acc s = push acc s :=
    if_neg fun hc => hup ⟨hc.1, hc.2.2⟩
  rw [hp]
  by_cases hdrop : s = [] ∨ s = ['.']
  · rw [push_drops hdrop, push_drops hdrop]
    exact ⟨h, rfl⟩
  have hk : Kept s := ⟨fun e => hdrop (.inl e), hs, fun e => hdrop (.inr e)⟩
  by_cases hd : s = ['.', '.']
  · subst hd
    -- the segment before is a name, and is taken back
    rcases List.eq_nil_or_concat acc with rfl | ⟨names, c, rfl⟩
    · exact absurd ⟨rfl, .inl rfl⟩ hup
    rw [List.concat_eq_append] at h hup ⊢
    have hc : c ≠ ['.', '.'] := fun e => hup ⟨rfl, .inr (by simp [e])⟩
    rw [push_dots, push_dots, List.dropLast_concat, List.foldl_append, List.foldl_cons,
      List.foldl_nil, push_kept (h c (by simp)) hc, List.dropLast_concat]
    exact ⟨fun d hd => h d (by simp [hd]), rfl⟩
  · rw [push_kept hk hd, List.foldl_append, List.foldl_cons, List.foldl_nil]
    refine ⟨fun c hc => ?_, rfl⟩
    rcases List.mem_append.mp hc with hc | hc
    · exact h c hc
    · exact List.mem_singleton.mp hc ▸ hk

theorem foldl_pushFrom {segments : List Str} (hs : ∀ s ∈ segments, '/' ∉ s) {acc : List Str}
    (h : ∀ c ∈ acc, Kept c) (base : List Str) :
    (∀ c ∈ segments.foldl (pushFrom false) acc, Kept c) ∧
      (segments.foldl (pushFrom false) acc).foldl push base =
        segments.foldl push (acc.foldl push base) := by
  induction segments generalizing acc with
  | nil => exact ⟨h, rfl⟩
  | cons s segments ih =>
    obtain ⟨hk, he⟩ := foldl_pushFrom_step h (hs s (by simp)) base
    rw [List.foldl_cons, List.foldl_cons, ← he]
    exact ih (fun t ht => hs t (by simp [ht])) hk

theorem split_append_slash (a b : Str) : split '/' (a ++ '/' :: b) = split '/' a ++ split '/' b :=
  List.splitOn_append_cons_self a b

theorem isAbsolute_append {a b : Str} (ha : a ≠ []) : isAbsolute (a ++ b) = isAbsolute a := by
  cases a with
  | nil => exact absurd rfl ha
  | cons c a => rfl

theorem components_one (cwd path : Str) : components cwd [path] =
    (split '/' path).foldl push (if isAbsolute path then [] else (split '/' cwd).foldl push []) := rfl

/-- A name joined to a path is the name in the directory that the path leads to. -/
theorem components_join {b : Str} (hb : Proper b) (cwd a : Str) :
    components cwd [join a b] = components cwd [a] ++ [b] := by
  have hlast : b.getLast? ≠ some '/' := fun e => hb.noSlash (List.mem_of_getLast? e)
  have hrel : isAbsolute b = false := by
    rw [isAbsolute, decide_eq_false_iff_not]
    exact fun e => hb.noSlash (List.mem_of_mem_head? e)
  -- the segments, the last of which is the name
  have key (absolute : Bool) (path : Str) (acc : List Str) (hpath : path.getLast? = b.getLast?)
      (habs : isAbsolute path = absolute)
      (hacc : (split '/' path).foldl (pushFrom absolute) [] = acc ++ [b]) :
      normalize path = if absolute then '/' :: joinSlash (acc ++ [b]) else joinSlash (acc ++ [b]) := by
    have hne : joinSlash (acc ++ [b]) ≠ [] := by
      by_cases h : acc = []
      · subst h
        simpa [joinSlash] using hb.nonempty
      · rw [joinSlash_append h (by simp)]
        simp
    simp only [normalize, habs, hacc, hne, hpath, hlast, false_and, if_false]
  by_cases ha : a = []
  · subst ha
    have hn := key false b [] rfl hrel (by
      rw [split_proper hb]
      simp [pushFrom, hb.noDots, push_proper hb])
    have hj : join [] b = b := by
      rw [join, List.filter_cons_of_neg (by simp), List.filter_cons_of_pos (by simpa using hb.nonempty)]
      simpa [joinSlash] using hn
    rw [hj, components_one, components_one, hrel, split_proper hb, List.foldl_cons, List.foldl_nil,
      push_proper hb]
    simp [split, push_drops, isAbsolute]
  have hfilter : [a, b].filter (· ≠ []) = [a, b] := by simp [ha, hb.nonempty]
  have hpath : joinSlash [a, b] = a ++ '/' :: b := by simp [joinSlash]
  have hsplit : split '/' (a ++ '/' :: b) = split '/' a ++ [b] := by
    rw [split_append_slash, split_proper hb]
  have hend : (a ++ '/' :: b).getLast? = b.getLast? := by
    rw [List.getLast?_append_of_ne_nil _ (by simp), List.getLast?_cons_of_ne_nil hb.nonempty]
  rw [join, hfilter, hpath]
  cases habs : isAbsolute a with
  | true =>
    have hacc : (split '/' (a ++ '/' :: b)).foldl (pushFrom true) [] =
        (split '/' a).foldl push [] ++ [b] := by
      rw [hsplit, pushFrom_absolute, List.foldl_append, List.foldl_cons, List.foldl_nil, push_proper hb]
    have hprop : ∀ c ∈ (split '/' a).foldl push [] ++ [b], Proper c := by
      intro c hc
      rcases List.mem_append.mp hc with hc | hc
      · exact foldl_push_keeps (fun _ => noSlash_of_mem_split) (by simp) c hc
      · exact List.mem_singleton.mp hc ▸ hb
    rw [key true _ _ hend ((isAbsolute_append ha).trans habs) hacc, components_one, components_one, habs]
    have hcons : split '/' ('/' :: joinSlash ((split '/' a).foldl push [] ++ [b])) =
        [] :: ((split '/' a).foldl push [] ++ [b]) := by
      rw [← List.nil_append ('/' :: _), split_append_slash, split_joinSlash hprop (by simp)]
      rfl
    rw [if_pos rfl, hcons]
    simp only [isAbsolute, List.head?_cons, decide_true, if_true, List.foldl_cons]
    rw [push_drops (.inl rfl), foldl_push_proper hprop, List.nil_append]
  | false =>
    have hacc : (split '/' (a ++ '/' :: b)).foldl (pushFrom false) [] =
        (split '/' a).foldl (pushFrom false) [] ++ [b] := by
      rw [hsplit, List.foldl_append, List.foldl_cons, List.foldl_nil, pushFrom,
        if_neg fun h => hb.noDots h.1, push_proper hb]
    have hslash : ∀ s ∈ split '/' a, '/' ∉ s := fun _ => noSlash_of_mem_split
    have hnone : ∀ c ∈ ([] : List Str), Kept c := fun _ h => absurd h List.not_mem_nil
    obtain ⟨hkept, hfold⟩ := foldl_pushFrom hslash hnone ((split '/' cwd).foldl push [])
    have hall : ∀ c ∈ (split '/' a).foldl (pushFrom false) [] ++ [b], Kept c := by
      intro c hc
      rcases List.mem_append.mp hc with hc | hc
      · exact hkept c hc
      · exact List.mem_singleton.mp hc ▸ ⟨hb.nonempty, hb.noSlash, hb.noDot⟩
    rw [key false _ _ hend ((isAbsolute_append ha).trans habs) hacc, components_one, components_one, habs]
    have hrel' : isAbsolute (joinSlash ((split '/' a).foldl (pushFrom false) [] ++ [b])) = false := by
      rw [isAbsolute, decide_eq_false_iff_not]
      obtain ⟨c, cs, hc⟩ := List.exists_cons_of_ne_nil
        (List.append_ne_nil_of_right_ne_nil ((split '/' a).foldl (pushFrom false) []) (by simp : [b] ≠ []))
      have hk := hall c (by rw [hc]; simp)
      obtain ⟨x, c', rfl⟩ := List.exists_cons_of_ne_nil hk.nonempty
      rw [hc]
      have hx : x ≠ '/' := fun e => hk.noSlash (by simp [e])
      cases cs <;> simpa [joinSlash] using hx
    have hback : split '/' (joinSlash ((split '/' a).foldl (pushFrom false) [] ++ [b])) =
        (split '/' a).foldl (pushFrom false) [] ++ [b] :=
      List.splitOn_intercalate '/' (fun c hc => (hall c hc).noSlash) (by simp)
    simp only [Bool.false_eq_true, if_false]
    rw [hrel', hback, List.foldl_append]
    simp only [Bool.false_eq_true, if_false]
    rw [hfold, List.foldl_cons, List.foldl_nil, List.foldl_nil, push_proper hb]

end Strings
