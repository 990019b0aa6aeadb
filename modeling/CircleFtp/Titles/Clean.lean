import CircleFtp.Strings.PosixPath
import CircleFtp.Titles.Numbered
import Mathlib.Data.List.Chain

/-! Clean names: what `sanitize` produces, leaves alone, and the plan builds its paths from. -/
namespace CircleFtp.Titles
open Strings

/-- A character of a clean name: nothing illegal, and no blank but the plain one. -/
def plainChar (c : Char) : Prop := illegal c = false ∧ (isSpace c = true → c = ' ')

/-- A name that `sanitize` leaves alone. -/
structure Clean (s : Str) : Prop where
  chars : ∀ c ∈ s, plainChar c
  single : s.IsChain fun a b => ¬ (a = ' ' ∧ b = ' ')
  first : ∀ c ∈ s.head?, edge c = false
  last : ∀ c ∈ s.getLast?, edge c = false
  nonempty : s ≠ []

section Squash
variable {p : Char → Bool}

theorem squash_chars (b : Bool) (s : Str) : ∀ c ∈ squash p b s, c = ' ' ∨ (c ∈ s ∧ p c = false) := by
  induction s generalizing b with
  | nil => simp [squash]
  | cons x s ih =>
    intro c hc
    simp only [squash] at hc
    split at hc
    · have : c = ' ' ∨ c ∈ squash p true s := by
        split at hc
        · exact .inr hc
        · simpa using hc
      rcases this with h | h
      · exact .inl h
      · exact (ih true c h).imp_right fun h => ⟨List.mem_cons_of_mem x h.1, h.2⟩
    · rename_i hx
      rcases List.mem_cons.mp hc with rfl | h
      · exact .inr ⟨by simp, by simpa using hx⟩
      · exact (ih false c h).imp_right fun h => ⟨List.mem_cons_of_mem x h.1, h.2⟩

theorem squash_single (hp : p ' ' = true) (b : Bool) (s : Str) :
    (squash p b s).IsChain (fun a b => ¬ (a = ' ' ∧ b = ' ')) ∧
    (b = true → (squash p b s).head? ≠ some ' ') := by
  induction s generalizing b with
  | nil => simp [squash]
  | cons x s ih =>
    simp only [squash]
    split
    · obtain ⟨hc, hh⟩ := ih true
      split
      · exact ⟨hc, fun _ => hh rfl⟩
      · rename_i hb
        refine ⟨List.isChain_cons.mpr ⟨?_, hc⟩, fun h => absurd h hb⟩
        rintro y hy ⟨-, rfl⟩
        exact hh rfl hy
    · rename_i hx
      have hne : x ≠ ' ' := by rintro rfl; exact hx hp
      exact ⟨List.isChain_cons.mpr ⟨fun y _ h => hne h.1, (ih false).1⟩, by simp [hne]⟩

theorem squash_id {s : Str} (hp : ∀ c ∈ s, p c = true → c = ' ')
    (h : s.IsChain fun a b => ¬ (a = ' ' ∧ b = ' ')) {b : Bool} (hb : b = true → s.head? ≠ some ' ') :
    squash p b s = s := by
  induction s generalizing b with
  | nil => rfl
  | cons x s ih =>
    obtain ⟨hx, hs⟩ := List.isChain_cons.mp h
    have ih' := fun {b} => ih (b := b) (fun c hc => hp c (List.mem_cons_of_mem x hc)) hs
    simp only [squash]
    split
    · rename_i hpx
      obtain rfl := hp x (by simp) hpx
      have hbf : b = false := by
        cases b with
        | false => rfl
        | true => exact absurd rfl (hb rfl)
      rw [hbf, if_neg (by simp), ih' fun _ hh => hx ' ' hh ⟨rfl, rfl⟩]
    · rw [ih' (by simp)]

/-- Two blanks in a row are one. -/
theorem squash_double (hp : p ' ' = true) (b : Bool) (s u : Str) :
    squash p b (s ++ ' ' :: ' ' :: u) = squash p b (s ++ ' ' :: u) := by
  induction s generalizing b with
  | nil => cases b <;> simp [squash, hp]
  | cons x s ih =>
    simp only [List.cons_append, squash]
    split
    · rw [ih]
    · rw [ih]

end Squash

theorem illegal_ne {c : Char} (h : illegal c = false) : c ≠ '/' := by
  rintro rfl
  exact absurd h (by decide)

theorem dropWhile_edge_first {s : Str} : ∀ c ∈ (s.dropWhile edge).head?, edge c = false := by
  intro c hc
  have := List.head?_dropWhile_not edge s
  rw [hc] at this
  simpa using this

theorem clean_clean {name : Str} (h : clean name ≠ []) : Clean (clean name) := by
  set mapped := name.map fun c => if illegal c then ' ' else c with hm
  set t := squash isSpace false mapped with ht
  have hchars : ∀ c ∈ t, plainChar c := by
    intro c hc
    rcases squash_chars false mapped c hc with rfl | ⟨hmem, hs⟩
    · exact ⟨by decide, fun _ => rfl⟩
    · obtain ⟨d, -, rfl⟩ := List.mem_map.mp hmem
      split
      · exact ⟨by decide, fun _ => rfl⟩
      · exact ⟨by simpa using ‹¬ illegal d = true›, fun hd => absurd hd (by simp_all)⟩
  have hsub : clean name <:+: t :=
    (List.rdropWhile_prefix edge _).isInfix.trans (List.dropWhile_suffix edge).isInfix
  refine ⟨fun c hc => hchars c (hsub.subset hc), ?_, ?_, ?_, h⟩
  · have hsp : isSpace ' ' = true := by decide
    obtain ⟨a, b, hab⟩ := hsub
    have hch := (squash_single hsp false mapped).1
    rw [← ht, ← hab] at hch
    exact hch.left_of_append.right_of_append
  · intro c hc
    have hpre : clean name <+: t.dropWhile edge := List.rdropWhile_prefix edge _
    obtain ⟨u, hu⟩ := hpre
    refine dropWhile_edge_first (s := t) c ?_
    rw [← hu, List.head?_append, hc]
    rfl
  · intro c hc
    have hne : (t.dropWhile edge).rdropWhile edge ≠ [] := h
    have := List.rdropWhile_last_not edge (t.dropWhile edge) hne
    rw [clean, List.getLast?_eq_getLast_of_ne_nil hne] at hc
    cases hc
    simpa using this

theorem sanitize_clean {name fallback : Str} (h : Clean fallback) :
    Clean (sanitize name fallback) := by
  rw [sanitize, orElse]
  split
  · exact h
  · exact clean_clean ‹_›

theorem dropWhile_id {p : Char → Bool} {s : Str} (h : ∀ c ∈ s.head?, p c = false) :
    s.dropWhile p = s := by
  cases s with
  | nil => rfl
  | cons c s => simp [h c (by simp)]

theorem rdropWhile_id {p : Char → Bool} {s : Str} (h : ∀ c ∈ s.getLast?, p c = false) :
    s.rdropWhile p = s := by
  rw [List.rdropWhile, dropWhile_id, List.reverse_reverse]
  simpa [List.head?_reverse] using h

theorem edge_space {c : Char} (h : edge c = false) : isSpace c = false := by
  simp only [edge, Bool.or_eq_false_iff] at h
  exact h.1

namespace Clean
variable {s : Str}

theorem clean_eq (h : Clean s) : clean s = s := by
  have hm : (s.map fun c => if illegal c then ' ' else c) = s := by
    refine List.map_congr_left (fun c hc => ?_) |>.trans (List.map_id s)
    simp [(h.chars c hc).1]
  rw [clean, hm, squash_id (fun c hc => (h.chars c hc).2) h.single (by simp),
    dropWhile_id h.first, rdropWhile_id h.last]

theorem sanitize_eq (h : Clean s) (fallback : Str) : sanitize s fallback = s := by
  rw [sanitize, h.clean_eq, orElse, if_neg h.nonempty]

theorem trim_eq (h : Clean s) : trim s = s := by
  have h1 : s.dropWhile isSpace = s := dropWhile_id fun c hc => edge_space (h.first c hc)
  have h2 : s.rdropWhile isSpace = s := rdropWhile_id fun c hc => edge_space (h.last c hc)
  rw [trim, h1]
  exact h2

theorem proper (h : Clean s) : Proper s where
  nonempty := h.nonempty
  noSlash hm := illegal_ne (h.chars _ hm).1 rfl
  noDot := by
    rintro rfl
    exact absurd (h.first '.' rfl) (by decide)
  noDots := by
    rintro rfl
    exact absurd (h.first '.' rfl) (by decide)

/-- A clean name begins with a character that is neither a blank nor a dot. -/
theorem cons (h : Clean s) : ∃ c u, s = c :: u ∧ c ≠ ' ' ∧ c ≠ '.' := by
  cases s with
  | nil => exact absurd rfl h.nonempty
  | cons c u =>
    have hc := h.first c rfl
    exact ⟨c, u, rfl, by rintro rfl; revert hc; decide, by rintro rfl; revert hc; decide⟩

/-- Clean text on both sides of a blank. -/
theorem spaced {t : Str} (hs : Clean s) (ht : Clean t) : Clean (s ++ ' ' :: t) where
  chars c hc := by
    rcases List.mem_append.mp hc with hc | hc
    · exact hs.chars c hc
    rcases List.mem_cons.mp hc with rfl | hc
    · exact ⟨by decide, fun _ => rfl⟩
    · exact ht.chars c hc
  single := by
    have space : ∀ {c}, edge c = false → c ≠ ' ' := by
      rintro c hc rfl
      revert hc
      decide
    refine List.isChain_append.mpr ⟨hs.single, List.isChain_cons.mpr ⟨?_, ht.single⟩, ?_⟩
    · exact fun c hc hh => space (ht.first c hc) hh.2
    · exact fun c hc _ _ hh => space (hs.last c hc) hh.1
  first c hc := hs.first c (by
    obtain ⟨d, u, rfl, -⟩ := hs.cons
    simpa using hc)
  last c hc := ht.last c (by
    rw [List.getLast?_append_of_ne_nil _ (by simp), List.getLast?_cons] at hc
    obtain ⟨d, u, rfl, -⟩ := ht.cons
    simpa [List.getLast?_cons] using hc)
  nonempty := by simp

end Clean

/-- A character that may stand anywhere in a clean name. -/
def solid (c : Char) : Bool := !illegal c && !edge c

theorem clean_of_solid {s : Str} (h : ∀ c ∈ s, solid c = true) (hne : s ≠ []) : Clean s := by
  have hs : ∀ c ∈ s, illegal c = false ∧ edge c = false := by
    intro c hc
    simpa [solid] using h c hc
  refine ⟨fun c hc => ⟨(hs c hc).1, fun hsp => ?_⟩, ?_, ?_, ?_, hne⟩
  · exact absurd hsp (by simp [edge_space (hs c hc).2])
  · refine List.Pairwise.isChain (List.pairwise_of_forall_mem_list ?_)
    rintro a ha b - ⟨rfl, -⟩
    have := (hs ' ' ha).2
    revert this
    decide
  · exact fun c hc => (hs c (List.mem_of_mem_head? hc)).2
  · exact fun c hc => (hs c (List.mem_of_getLast? hc)).2

theorem solid_digit {c : Char} (h : c.isDigit = true) : solid c = true := by
  have hb : '0'.toNat ≤ c.toNat ∧ c.toNat ≤ '9'.toNat := by
    simpa [Char.isDigit, UInt32.le_iff_toNat_le] using h
  have hall : ∀ n ∈ List.range' 48 10, solid (Char.ofNat n) = true := by decide
  have hc := hall c.toNat (List.mem_range'_1.mpr ⟨hb.1, Nat.lt_succ_of_le hb.2⟩)
  rwa [Char.ofNat_toNat] at hc

theorem solid_of_all {s : Str} (h : s.all solid = true) : ∀ c ∈ s, solid c = true :=
  List.all_eq_true.mp h

theorem solid_append {a b : Str} (ha : ∀ c ∈ a, solid c = true) (hb : ∀ c ∈ b, solid c = true) :
    ∀ c ∈ a ++ b, solid c = true := by
  intro c hc
  exact (List.mem_append.mp hc).elim (ha c) (hb c)

theorem solid_decimal (n : Nat) : ∀ c ∈ decimal n, solid c = true :=
  fun _ hc => solid_digit (decimal_digit hc)

theorem solid_padded (n : Nat) : ∀ c ∈ padStart 2 '0' (decimal n), solid c = true := by
  refine solid_append (fun c hc => ?_) (solid_decimal n)
  rw [(List.mem_replicate.mp hc).2]
  decide

theorem firstYear_digits {s y : Str} (h : firstYear s = some y) :
    (∀ c ∈ y, solid c = true) ∧ y ≠ [] := by
  fun_induction firstYear s with
  | case1 a b c d s hc =>
    obtain ⟨hab, hc, hd⟩ := hc
    cases h
    refine ⟨fun x hx => ?_, by simp⟩
    have hab : solid a = true ∧ solid b = true := by
      rcases hab with hab | hab <;> (cases hab; decide)
    simp only [List.mem_cons, List.not_mem_nil, or_false] at hx
    rcases hx with rfl | rfl | rfl | rfl
    · exact hab.1
    · exact hab.2
    · exact solid_digit hc
    · exact solid_digit hd
  | case2 a b c d s hc ih => exact ih h
  | case3 => cases h

end CircleFtp.Titles
