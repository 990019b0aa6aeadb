import CircleFtp.Titles.Plan
import Mathlib.Data.List.DropRight

/-! The numbers that de-duplication puts before the extension of a path. -/
namespace CircleFtp.Titles
open Strings

/-- The last occurrence of an element splits a list in one way. -/
theorem append_cons_inj_right {α : Type} {c : α} {a b a' b' : List α}
    (h : a ++ c :: b = a' ++ c :: b') (hb : c ∉ b) (hb' : c ∉ b') : a = a' ∧ b = b' := by
  rcases List.append_eq_append_iff.mp h with ⟨t, rfl, ht⟩ | ⟨t, rfl, ht⟩
  · cases t with
    | nil => simpa using ht
    | cons d t =>
      obtain ⟨rfl, rfl⟩ := List.cons_eq_cons.mp ht
      exact absurd (by simp) hb
  · cases t with
    | nil => simpa [eq_comm] using ht
    | cons d t =>
      obtain ⟨rfl, rfl⟩ := List.cons_eq_cons.mp ht
      exact absurd (by simp) hb'

theorem decimal_injective : Function.Injective decimal := fun m n h => by
  have := congrArg (Nat.ofDigitChars 10 · 0) h
  simpa [decimal, Nat.ofDigitChars_ten_toDigits] using this

theorem decimal_digit {n : Nat} {c : Char} (h : c ∈ decimal n) : c.isDigit = true :=
  Nat.isDigit_of_mem_toDigits (by decide) (by decide) h

def mark (n : Nat) : Str := " (".toList ++ decimal n ++ ")".toList

theorem mark_eq (n : Nat) : mark n = ' ' :: '(' :: (decimal n ++ [')']) := rfl

theorem mark_noSep (n : Nat) {c : Char} (h : c = '.' ∨ c = '/') : c ∉ mark n := by
  rw [mark_eq]
  intro hm
  rcases List.mem_cons.mp hm with rfl | hm
  · revert h; decide
  rcases List.mem_cons.mp hm with rfl | hm
  · revert h; decide
  rcases List.mem_append.mp hm with hm | hm
  · have := decimal_digit hm
    rcases h with rfl | rfl <;> revert this <;> decide
  · obtain rfl := List.mem_singleton.mp hm
    revert h; decide

theorem append_mark_injective {a b : Str} {m n : Nat} (h : a ++ mark m = b ++ mark n) :
    a = b ∧ m = n := by
  have hd : ∀ n, '(' ∉ decimal n ++ [')'] := fun n hm => by
    rcases List.mem_append.mp hm with hm | hm
    · exact absurd (decimal_digit hm) (by decide)
    · exact absurd hm (by decide)
  have h' : (a ++ [' ']) ++ '(' :: (decimal m ++ [')']) = (b ++ [' ']) ++ '(' :: (decimal n ++ [')']) := by
    simpa [mark_eq] using h
  obtain ⟨h1, h2⟩ := append_cons_inj_right h' (hd m) (hd n)
  exact ⟨List.append_cancel_right h1, decimal_injective (List.append_cancel_right h2)⟩

theorem lastIndexOf_lt (s : Str) (c : Char) : lastIndexOf s c < s.length := by
  rw [lastIndexOf]
  split <;> omega

theorem idxOf?_append {b a : Str} {c : Char} (h : c ∉ b) :
    (b ++ c :: a).idxOf? c = some b.length := by
  induction b with
  | nil => simp [List.idxOf?_cons]
  | cons x b ih =>
    have hx : x ≠ c := by rintro rfl; simp at h
    rw [List.cons_append, List.idxOf?_cons, ih fun hm => h (List.mem_cons_of_mem x hm)]
    simp [hx]

theorem lastIndexOf_append {a b : Str} {c : Char} (h : c ∉ b) :
    lastIndexOf (a ++ c :: b) c = a.length := by
  have hi : (a ++ c :: b).reverse.idxOf? c = some b.length := by
    have he : (a ++ c :: b).reverse = b.reverse ++ c :: a.reverse := by simp
    rw [he, idxOf?_append (by simpa using h), List.length_reverse]
  rw [lastIndexOf, hi]
  simp only [List.length_append, List.length_cons]
  omega

theorem lastIndexOf_none {s : Str} {c : Char} (h : c ∉ s) : lastIndexOf s c = -1 := by
  have hi : s.reverse.idxOf? c = none := by simpa using h
  rw [lastIndexOf, hi]

/-- An element either does not occur, or has a last occurrence. -/
theorem exists_last (s : Str) (c : Char) : c ∉ s ∨ ∃ a b, s = a ++ c :: b ∧ c ∉ b := by
  induction s with
  | nil => simp
  | cons x s ih =>
    rcases ih with h | ⟨a, b, rfl, h⟩
    · by_cases hx : x = c
      · exact .inr ⟨[], s, by simp [hx], h⟩
      · exact .inl (by simp [h, Ne.symm hx])
    · exact .inr ⟨x :: a, b, rfl, h⟩

theorem lastIndexOf_append_of_notMem {a b : Str} {c : Char} (h : c ∉ b) :
    lastIndexOf (a ++ b) c = lastIndexOf a c := by
  rcases exists_last a c with ha | ⟨x, y, rfl, hy⟩
  · rw [lastIndexOf_none ha, lastIndexOf_none (by simp [ha, h])]
  · have hyb : c ∉ y ++ b := by simp [hy, h]
    rw [lastIndexOf_append hy, List.append_assoc, List.cons_append, lastIndexOf_append hyb]

/-- The text before a path's last segment. -/
def Directory (d : Str) : Prop := d = [] ∨ ∃ a, d = a ++ ['/']

/-- A path has an extension, or its last segment has no dot. -/
theorem exists_extension (s : Str) : (∃ a b, s = a ++ '.' :: b ∧ '.' ∉ b ∧ '/' ∉ b) ∨
    ∃ d f, s = d ++ f ∧ Directory d ∧ '.' ∉ f ∧ '/' ∉ f := by
  have hseg : ∃ d f, s = d ++ f ∧ Directory d ∧ '/' ∉ f := by
    rcases exists_last s '/' with h | ⟨a, b, rfl, h⟩
    · exact ⟨[], s, rfl, .inl rfl, h⟩
    · exact ⟨a ++ ['/'], b, by simp, .inr ⟨a, rfl⟩, h⟩
  obtain ⟨d, f, rfl, hd, hf⟩ := hseg
  rcases exists_last f '.' with h | ⟨a, b, rfl, h⟩
  · exact .inr ⟨d, f, rfl, hd, h, hf⟩
  · simp only [List.mem_append, List.mem_cons, not_or] at hf
    exact .inl ⟨d ++ a, b, by simp, h, hf.2.2⟩

theorem extension_cond {a b : Str} (hb : '.' ∉ b) (hs : '/' ∉ b) :
    lastIndexOf (a ++ '.' :: b) '.' = a.length ∧
    lastIndexOf (a ++ '.' :: b) '.' > lastIndexOf (a ++ '.' :: b) '/' ∧
    lastIndexOf (a ++ '.' :: b) '.' ≠ -1 := by
  have hd := lastIndexOf_append (a := a) hb
  have hs : lastIndexOf (a ++ '.' :: b) '/' = lastIndexOf a '/' :=
    lastIndexOf_append_of_notMem (by simp [hs])
  have := lastIndexOf_lt a '/'
  rw [hd, hs]
  omega

theorem no_extension_cond {d f : Str} (hd : Directory d) (hf : '.' ∉ f) (hs : '/' ∉ f) :
    ¬ (lastIndexOf (d ++ f) '.' > lastIndexOf (d ++ f) '/' ∧ lastIndexOf (d ++ f) '.' ≠ -1) := by
  rw [lastIndexOf_append_of_notMem hf, lastIndexOf_append_of_notMem hs]
  rcases hd with rfl | ⟨a, rfl⟩
  · simp [lastIndexOf_none]
  · have h1 : lastIndexOf (a ++ ['/']) '.' = lastIndexOf a '.' :=
      lastIndexOf_append_of_notMem (by decide)
    have h2 : lastIndexOf (a ++ ['/']) '/' = a.length := lastIndexOf_append (by simp)
    have := lastIndexOf_lt a '.'
    rw [h1, h2]
    omega

theorem suffixed_extension {a b : Str} (hb : '.' ∉ b) (hs : '/' ∉ b) (n : Nat) :
    suffixed (a ++ '.' :: b) n = a ++ mark n ++ '.' :: b := by
  obtain ⟨hi, hc⟩ := extension_cond (a := a) hb hs
  simp only [suffixed]
  rw [if_pos hc, hi]
  simp [mark]

theorem suffixed_no_extension {d f : Str} (hd : Directory d) (hf : '.' ∉ f) (hs : '/' ∉ f)
    (n : Nat) : suffixed (d ++ f) n = d ++ f ++ mark n := by
  simp only [suffixed]
  rw [if_neg (no_extension_cond hd hf hs)]
  rfl

/-- The path without the blanks before its extension. -/
def tight (relPath : Str) : Str :=
  let dot := lastIndexOf relPath '.'
  if dot > lastIndexOf relPath '/' ∧ dot ≠ -1 then
    (relPath.take dot.toNat).rdropWhile (· = ' ') ++ relPath.drop dot.toNat
  else relPath

theorem tight_extension {a b : Str} (hb : '.' ∉ b) (hs : '/' ∉ b) :
    tight (a ++ '.' :: b) = a.rdropWhile (· = ' ') ++ '.' :: b := by
  obtain ⟨hi, hc⟩ := extension_cond (a := a) hb hs
  simp only [tight]
  rw [if_pos hc, hi]
  simp

theorem tight_no_extension {d f : Str} (hd : Directory d) (hf : '.' ∉ f) (hs : '/' ∉ f) :
    tight (d ++ f) = d ++ f := by
  simp only [tight]
  rw [if_neg (no_extension_cond hd hf hs)]

/-- Neither the path nor the number is lost in the numbered path. -/
theorem suffixed_injective {s s' : Str} {m n : Nat} (h : suffixed s m = suffixed s' n) :
    s = s' ∧ m = n := by
  have mixed : ∀ {a b d f : Str} {m n : Nat}, '.' ∉ b → '/' ∉ b → Directory d → '.' ∉ f →
      '/' ∉ f → a ++ mark m ++ '.' :: b ≠ d ++ f ++ mark n := by
    intro a b d f m n hb hsb hd hf hsf h
    have h' := no_extension_cond (d := d) (f := f ++ mark n) hd
      (by simp [hf, mark_noSep n (.inl rfl)]) (by simp [hsf, mark_noSep n (.inr rfl)])
    rw [← List.append_assoc, ← h] at h'
    exact h' (extension_cond (a := a ++ mark m) hb hsb).2
  rcases exists_extension s with ⟨a, b, rfl, hb, hs⟩ | ⟨d, f, rfl, hd, hf, hs⟩
  · rw [suffixed_extension hb hs] at h
    rcases exists_extension s' with ⟨a', b', rfl, hb', hs'⟩ | ⟨d', f', rfl, hd', hf', hs'⟩
    · rw [suffixed_extension hb' hs'] at h
      obtain ⟨h1, rfl⟩ := append_cons_inj_right h hb hb'
      obtain ⟨rfl, rfl⟩ := append_mark_injective h1
      exact ⟨rfl, rfl⟩
    · rw [suffixed_no_extension hd' hf' hs'] at h
      exact absurd h (mixed hb hs hd' hf' hs')
  · rw [suffixed_no_extension hd hf hs] at h
    rcases exists_extension s' with ⟨a', b', rfl, hb', hs'⟩ | ⟨d', f', rfl, hd', hf', hs'⟩
    · rw [suffixed_extension hb' hs'] at h
      exact absurd h.symm (mixed hb' hs' hd hf hs)
    · rw [suffixed_no_extension hd' hf' hs'] at h
      exact append_mark_injective h

/-- Numbering and tightening touch the last segment only. -/
theorem suffixed_directory {d f : Str} (hd : Directory d) (hf : '/' ∉ f) (n : Nat) :
    suffixed (d ++ f) n = d ++ suffixed f n := by
  rcases exists_last f '.' with h | ⟨a, b, rfl, h⟩
  · rw [suffixed_no_extension hd h hf]
    have := suffixed_no_extension (d := []) (.inl rfl) h hf n
    rw [List.nil_append] at this
    rw [this, List.append_assoc]
  · have hs : '/' ∉ b := fun hm => hf (by simp [hm])
    rw [← List.append_assoc, suffixed_extension h hs, suffixed_extension h hs]
    simp

theorem rdropWhile_append {p : Char → Bool} {a b : Str} (h : b.rdropWhile p ≠ []) :
    (a ++ b).rdropWhile p = a ++ b.rdropWhile p := by
  have hb : b.reverse.dropWhile p ≠ [] := by simpa [List.rdropWhile] using h
  simp [List.rdropWhile, List.dropWhile_append, hb]

theorem tight_directory {d f : Str} (hd : Directory d) (hf : '/' ∉ f)
    (hne : ∃ c s, f = c :: s ∧ c ≠ ' ' ∧ c ≠ '.') : tight (d ++ f) = d ++ tight f := by
  rcases exists_last f '.' with h | ⟨a, b, rfl, h⟩
  · rw [tight_no_extension hd h hf]
    have := tight_no_extension (d := []) (.inl rfl) h hf
    rw [List.nil_append] at this
    rw [this]
  · have hs : '/' ∉ b := fun hm => hf (by simp [hm])
    have ha : a.rdropWhile (· = ' ') ≠ [] := by
      intro hn
      obtain ⟨c, s, he, hc, hdot⟩ := hne
      cases a with
      | nil => exact hdot (List.cons_eq_cons.mp he).1.symm
      | cons x a =>
        have hx := List.rdropWhile_eq_nil_iff.mp hn x (by simp)
        exact hc ((List.cons_eq_cons.mp he).1 ▸ of_decide_eq_true hx)
    rw [← List.append_assoc, tight_extension h hs, tight_extension h hs, rdropWhile_append ha]
    simp

theorem tight_noSlash {f : Str} (h : '/' ∉ f) : '/' ∉ tight f := by
  rcases exists_last f '.' with hd | ⟨a, b, rfl, hd⟩
  · have := tight_no_extension (d := []) (.inl rfl) hd h
    rw [List.nil_append] at this
    rwa [this]
  · have hs : '/' ∉ b := fun hm => h (by simp [hm])
    rw [tight_extension hd hs]
    intro hm
    rcases List.mem_append.mp hm with hm | hm
    · exact h (List.mem_append_left _ ((List.rdropWhile_prefix _ _).subset hm))
    · exact h (List.mem_append_right _ hm)

end CircleFtp.Titles
