import Mathlib.Logic.Function.Basic
import Mathlib.Data.List.Basic

/-! Files as names of numbered contents. Removing or renaming a name leaves the content alone,
so an open handle keeps its file. -/
namespace Files

/-- No content has two names. -/
structure Disk (π β : Type) where
  links : π → Option Nat
  contents : Nat → List β
  next : Nat
  fresh : ∀ p i, links p = some i → i < next
  distinct : ∀ p q i, links p = some i → links q = some i → p = q

/-- One element at a position, with a gap filled up, or at the end. -/
def writeAt {β : Type} [Inhabited β] (bytes : List β) (position : Option Nat) (b : β) : List β :=
  match position with
  | none => bytes ++ [b]
  | some n => bytes.take n ++ List.replicate (n - bytes.length) default ++ b :: bytes.drop (n + 1)

theorem writeAt_end {β : Type} [Inhabited β] (bytes : List β) {position : Option Nat}
    (h : ∀ n, position = some n → n = bytes.length) (b : β) :
    writeAt bytes position b = bytes ++ [b] := by
  cases position with
  | none => rfl
  | some n =>
    obtain rfl := h n rfl
    simp [writeAt]

namespace Disk
variable {π β : Type}

def empty : Disk π β :=
  ⟨fun _ => none, fun _ => [], 0, fun _ _ h => (Option.some_ne_none _ h.symm).elim,
    fun _ _ _ h => (Option.some_ne_none _ h.symm).elim⟩

def content (d : Disk π β) (p : π) : Option (List β) := (d.links p).map d.contents

/-- The size of a file that may not be there. -/
def size (d : Disk π β) (p : π) : Nat := ((d.content p).getD []).length

variable [DecidableEq π]

def remove (d : Disk π β) (p : π) : Disk π β where
  links := Function.update d.links p none
  contents := d.contents
  next := d.next
  fresh q i h := by
    by_cases e : q = p
    · subst e
      simp at h
    · exact d.fresh q i (by rwa [Function.update_of_ne e] at h)
  distinct q r i hq hr := by
    by_cases e : q = p
    · subst e
      simp at hq
    by_cases e' : r = p
    · subst e'
      simp at hr
    rw [Function.update_of_ne e] at hq
    rw [Function.update_of_ne e'] at hr
    exact d.distinct q r i hq hr

/-- The name `new` takes over what `old` had. -/
def rename (d : Disk π β) (old new : π) : Disk π β where
  links p := if p = new then d.links old else if p = old then none else d.links p
  contents := d.contents
  next := d.next
  fresh p i h := by
    split at h
    · exact d.fresh old i h
    split at h
    · cases h
    · exact d.fresh p i h
  distinct p q i hp hq := by
    split at hp <;> split at hq
    · simp_all
    · split at hq
      · cases hq
      · exact absurd (d.distinct _ _ i hq hp) ‹_›
    · split at hp
      · cases hp
      · exact absurd (d.distinct _ _ i hp hq) ‹_›
    · split at hp
      · cases hp
      split at hq
      · cases hq
      · exact d.distinct p q i hp hq

/-- A new empty file under a name. -/
def create (d : Disk π β) (p : π) : Disk π β where
  links := Function.update d.links p (some d.next)
  contents := Function.update d.contents d.next []
  next := d.next + 1
  fresh q i h := by
    by_cases e : q = p
    · subst e
      have : d.next = i := by simpa using h
      omega
    · rw [Function.update_of_ne e] at h
      exact Nat.lt_succ_of_lt (d.fresh q i h)
  distinct q r i hq hr := by
    by_cases e : q = p <;> by_cases e' : r = p
    · rw [e, e']
    · subst e
      rw [Function.update_of_ne e'] at hr
      have : d.next = i := by simpa using hq
      exact absurd (d.fresh r i hr) (by omega)
    · subst e'
      rw [Function.update_of_ne e] at hq
      have : d.next = i := by simpa using hr
      exact absurd (d.fresh q i hq) (by omega)
    · rw [Function.update_of_ne e] at hq
      rw [Function.update_of_ne e'] at hr
      exact d.distinct q r i hq hr

def put (d : Disk π β) (i : Nat) (bytes : List β) : Disk π β :=
  { d with contents := Function.update d.contents i bytes }

/-- Open for writing, creating the file where it is missing; what is there is kept or not. -/
def openFile (d : Disk π β) (p : π) (keep : Bool) : Nat × Disk π β :=
  match d.links p with
  | some i => (i, if keep then d else d.put i [])
  | none => (d.next, d.create p)

def write [Inhabited β] (d : Disk π β) (i : Nat) (position : Option Nat) (b : β) : Disk π β :=
  d.put i (writeAt (d.contents i) position b)

omit [DecidableEq π] in
@[simp] theorem put_links (d : Disk π β) (i : Nat) (bytes : List β) :
    (d.put i bytes).links = d.links := rfl

@[simp] theorem remove_links_self (d : Disk π β) (p : π) : (d.remove p).links p = none := by
  simp [remove]

theorem remove_links_of_ne (d : Disk π β) {p q : π} (h : q ≠ p) :
    (d.remove p).links q = d.links q := by simp [remove, Function.update_of_ne h]

theorem content_remove_self (d : Disk π β) (p : π) : (d.remove p).content p = none := by
  simp [content]

theorem content_remove_of_ne (d : Disk π β) {p q : π} (h : q ≠ p) :
    (d.remove p).content q = d.content q := by
  rw [content, remove_links_of_ne d h]
  rfl

theorem content_rename_new (d : Disk π β) (p q : π) : (d.rename p q).content q = d.content p := by
  simp [content, rename]

theorem content_rename_old (d : Disk π β) {p q : π} (h : p ≠ q) :
    (d.rename p q).content p = none := by simp [content, rename, h]

theorem content_rename_of_ne (d : Disk π β) {p q r : π} (hp : r ≠ p) (hq : r ≠ q) :
    (d.rename p q).content r = d.content r := by simp [content, rename, hp, hq]

omit [DecidableEq π] in
theorem content_put (d : Disk π β) {i : Nat} {p : π} (h : d.links p = some i) (bytes : List β) :
    (d.put i bytes).content p = some bytes := by simp [content, put, h]

omit [DecidableEq π] in
theorem content_put_of_ne (d : Disk π β) {i : Nat} {p : π} (h : d.links p ≠ some i)
    (bytes : List β) : (d.put i bytes).content p = d.content p := by
  cases hp : d.links p with
  | none => simp [content, hp]
  | some j =>
    have hj : j ≠ i := fun e => h (by rw [hp, e])
    simp [content, put, hp, Function.update_of_ne hj]

theorem openFile_links (d : Disk π β) (p : π) (keep : Bool) :
    (d.openFile p keep).2.links p = some (d.openFile p keep).1 := by
  rw [openFile]
  split
  · rename_i i h
    cases keep <;> exact h
  · simp [create]

theorem openFile_content (d : Disk π β) (p : π) (keep : Bool) :
    (d.openFile p keep).2.content p = some (if keep then (d.content p).getD [] else []) := by
  rw [openFile]
  split
  · rename_i i h
    cases keep
    · exact content_put d h []
    · simp [content, h]
  · rename_i h
    cases keep <;> simp [content, create, h]

theorem openFile_content_of_ne (d : Disk π β) {p q : π} (h : q ≠ p) (keep : Bool) :
    (d.openFile p keep).2.content q = d.content q := by
  rw [openFile]
  split
  · rename_i i hi
    cases keep
    · exact content_put_of_ne d (fun hq => h (d.distinct q p i hq hi)) []
    · rfl
  · cases hq : d.links q with
    | none => simp [content, create, Function.update_of_ne h, hq]
    | some j =>
      have hj : j ≠ d.next := Nat.ne_of_lt (d.fresh q j hq)
      simp [content, create, Function.update_of_ne h, Function.update_of_ne hj, hq]

theorem openFile_links_of_ne (d : Disk π β) {p q : π} (h : q ≠ p) (keep : Bool) :
    (d.openFile p keep).2.links q = d.links q := by
  rw [openFile]
  split
  · cases keep <;> rfl
  · simp [create, Function.update_of_ne h]

omit [DecidableEq π] in
theorem size_eq {d : Disk π β} {p : π} {bytes : List β} (h : d.content p = some bytes) :
    d.size p = bytes.length := by simp [size, h]

omit [DecidableEq π] in
theorem content_of_size_pos {d : Disk π β} {p : π} (h : 0 < d.size p) :
    ∃ bytes, d.content p = some bytes ∧ bytes.length = d.size p := by
  cases hc : d.content p with
  | none => simp [size, hc] at h
  | some bytes => exact ⟨bytes, rfl, (size_eq hc).symm⟩

/-- Another name is where it was, and what it had. -/
def SameAt (d d' : Disk π β) (p : π) : Prop :=
  d'.links p = d.links p ∧ d'.content p = d.content p

theorem openFile_sameAt (d : Disk π β) {p q : π} (h : q ≠ p) (keep : Bool) :
    d.SameAt (d.openFile p keep).2 q :=
  ⟨openFile_links_of_ne d h keep, openFile_content_of_ne d h keep⟩

theorem rename_sameAt (d : Disk π β) {p q r : π} (hp : r ≠ p) (hq : r ≠ q) :
    d.SameAt (d.rename p q) r := ⟨by simp [rename, hp, hq], content_rename_of_ne d hp hq⟩

omit [DecidableEq π] in
theorem write_sameAt [Inhabited β] (d : Disk π β) {i : Nat} {p : π} (h : d.links p ≠ some i)
    (position : Option Nat) (b : β) : d.SameAt (d.write i position b) p :=
  ⟨rfl, content_put_of_ne d h _⟩

omit [DecidableEq π] in
/-- The next element of what is written from the start. -/
theorem write_content [Inhabited β] {d : Disk π β} {i : Nat} {p : π} (h : d.links p = some i)
    {bytes : List β} {n : Nat} {b : β} (hc : d.content p = some (bytes.take n))
    (hb : bytes[n]? = some b) : (d.write i (some n) b).content p = some (bytes.take (n + 1)) := by
  have hcontents : d.contents i = bytes.take n := by simpa [content, h] using hc
  have hn : n < bytes.length := (List.getElem?_eq_some_iff.mp hb).1
  rw [write, content_put d h, hcontents, writeAt_end, List.take_add_one, hb]
  · rfl
  · intro m hm
    cases hm
    rw [List.length_take, Nat.min_eq_left (Nat.le_of_lt hn)]

end Disk
end Files
