import Mathlib.Logic.Function.Basic
import Mathlib.Data.List.Basic

/-! A table of rows under keys that are handed out in order and never again. All writes are
instances of one: every row is kept, changed or dropped. -/
namespace Concurrent

structure Table (α : Type) where
  rows : Nat → Option α
  next : Nat
  fresh : ∀ i, next ≤ i → rows i = none

namespace Table
variable {α : Type}

def empty : Table α := ⟨fun _ => none, 0, fun _ _ => rfl⟩

def insert (t : Table α) (a : α) : Table α where
  rows := Function.update t.rows t.next (some a)
  next := t.next + 1
  fresh i hi := by
    rw [Function.update_of_ne (by omega)]
    exact t.fresh i (by omega)

def mapMany (t : Table α) (f : Nat → α → Option α) : Table α where
  rows i := (t.rows i).bind (f i)
  next := t.next
  fresh i hi := by rw [t.fresh i hi]; rfl

def modify (t : Table α) (i : Nat) (f : α → α) : Table α :=
  t.mapMany fun j a => some (if j = i then f a else a)

def erase (t : Table α) (i : Nat) : Table α :=
  t.mapMany fun j a => if j = i then none else some a

def updateMany (t : Table α) (p : α → Bool) (f : α → α) : Table α :=
  t.mapMany fun _ a => some (if p a then f a else a)

def deleteMany (t : Table α) (p : α → Bool) : Table α :=
  t.mapMany fun _ a => if p a then none else some a

def matching (t : Table α) (p : Nat → α → Bool) : List Nat :=
  (List.range t.next).filter fun i => (t.rows i).any (p i)

/-- The first row, in order of creation. -/
def findFirst (t : Table α) (p : Nat → α → Bool) : Option Nat := (t.matching p).head?

/-- All rows under their keys, in order of creation. -/
def entries (t : Table α) : List (Nat × α) :=
  (List.range t.next).filterMap fun i => (t.rows i).map (i, ·)

def count (t : Table α) (p : Nat → α → Bool) : Nat := (t.matching p).length

theorem lt_next {t : Table α} {i : Nat} {a : α} (h : t.rows i = some a) : i < t.next := by
  by_contra hn
  rw [t.fresh i (by omega)] at h
  cases h

theorem insert_rows_self (t : Table α) (a : α) : (t.insert a).rows t.next = some a := by
  simp [insert]

theorem insert_rows_of_ne (t : Table α) (a : α) {i : Nat} (h : i ≠ t.next) :
    (t.insert a).rows i = t.rows i := by
  simp [insert, Function.update_of_ne h]

/-- A row of a table after an insertion is the new one or an old one. -/
theorem insert_rows {t : Table α} {a b : α} {i : Nat} (h : (t.insert a).rows i = some b) :
    (i = t.next ∧ b = a) ∨ (i < t.next ∧ t.rows i = some b) := by
  by_cases e : i = t.next
  · subst e
    rw [insert_rows_self] at h
    exact .inl ⟨rfl, (Option.some.inj h).symm⟩
  · rw [insert_rows_of_ne t a e] at h
    exact .inr ⟨lt_next h, h⟩

theorem insert_rows_old {t : Table α} {a b : α} {i : Nat} (h : t.rows i = some b) :
    (t.insert a).rows i = some b := by
  rw [insert_rows_of_ne t a (Nat.ne_of_lt (lt_next h))]
  exact h

@[simp] theorem insert_next (t : Table α) (a : α) : (t.insert a).next = t.next + 1 := rfl
@[simp] theorem mapMany_next (t : Table α) (f : Nat → α → Option α) :
    (t.mapMany f).next = t.next := rfl
@[simp] theorem modify_next (t : Table α) (i : Nat) (f : α → α) : (t.modify i f).next = t.next := rfl
@[simp] theorem erase_next (t : Table α) (i : Nat) : (t.erase i).next = t.next := rfl

theorem mapMany_rows {t : Table α} {f : Nat → α → Option α} {i : Nat} {b : α} :
    (t.mapMany f).rows i = some b ↔ ∃ a, t.rows i = some a ∧ f i a = some b := by
  simp [mapMany, Option.bind_eq_some_iff]

theorem modify_rows {t : Table α} {i j : Nat} {f : α → α} {b : α} :
    (t.modify i f).rows j = some b ↔ ∃ a, t.rows j = some a ∧ (if j = i then f a else a) = b := by
  simp [modify, mapMany_rows]

theorem modify_rows_self (t : Table α) (i : Nat) (f : α → α) :
    (t.modify i f).rows i = (t.rows i).map f := by
  cases h : t.rows i <;> simp [modify, mapMany, h]

theorem erase_rows {t : Table α} {i j : Nat} {b : α} :
    (t.erase i).rows j = some b ↔ j ≠ i ∧ t.rows j = some b := by
  by_cases h : j = i <;> simp [erase, mapMany_rows, h]

theorem updateMany_rows {t : Table α} {p : α → Bool} {f : α → α} {i : Nat} {b : α} :
    (t.updateMany p f).rows i = some b ↔
      ∃ a, t.rows i = some a ∧ (if p a then f a else a) = b := by
  simp [updateMany, mapMany_rows]

theorem deleteMany_rows {t : Table α} {p : α → Bool} {i : Nat} {b : α} :
    (t.deleteMany p).rows i = some b ↔ t.rows i = some b ∧ p b = false := by
  by_cases h : p b <;> simp only [deleteMany, mapMany_rows] <;> grind

theorem mem_matching {t : Table α} {p : Nat → α → Bool} {i : Nat} :
    i ∈ t.matching p ↔ ∃ a, t.rows i = some a ∧ p i a = true := by
  simp only [matching, List.mem_filter, List.mem_range, Option.any_eq_true]
  constructor
  · rintro ⟨-, a, ha, hp⟩
    exact ⟨a, ha, hp⟩
  · rintro ⟨a, ha, hp⟩
    exact ⟨lt_next ha, a, ha, hp⟩

theorem findFirst_some {t : Table α} {p : Nat → α → Bool} {i : Nat} (h : t.findFirst p = some i) :
    ∃ a, t.rows i = some a ∧ p i a = true := mem_matching.mp (List.mem_of_head? h)

theorem findFirst_none {t : Table α} {p : Nat → α → Bool} (h : t.findFirst p = none) {i : Nat}
    {a : α} (ha : t.rows i = some a) : p i a = false := by
  have he : t.matching p = [] := List.head?_eq_none_iff.mp h
  by_contra hp
  have hm : i ∈ t.matching p := mem_matching.mpr ⟨a, ha, by simpa using hp⟩
  simp [he] at hm

theorem count_ne_zero {t : Table α} {p : Nat → α → Bool} :
    t.count p ≠ 0 ↔ ∃ i a, t.rows i = some a ∧ p i a = true := by
  constructor
  · intro h
    obtain ⟨i, hi⟩ := List.exists_mem_of_length_pos (Nat.pos_of_ne_zero h)
    exact ⟨i, mem_matching.mp hi⟩
  · rintro ⟨i, h⟩
    exact Nat.ne_of_gt (List.length_pos_of_mem (mem_matching.mpr h))

theorem mem_entries {t : Table α} {i : Nat} {a : α} : (i, a) ∈ t.entries ↔ t.rows i = some a := by
  simp only [entries, List.mem_filterMap, List.mem_range, Option.map_eq_some_iff, Prod.mk.injEq]
  constructor
  · rintro ⟨j, -, b, hb, rfl, rfl⟩
    exact hb
  · exact fun h => ⟨i, lt_next h, a, h, rfl, rfl⟩

theorem entries_keys (t : Table α) :
    t.entries.map Prod.fst = (List.range t.next).filter fun i => (t.rows i).isSome := by
  rw [entries, List.map_filterMap, ← List.filterMap_eq_filter]
  refine List.filterMap_congr fun i _ => ?_
  cases h : t.rows i <;> simp [Option.guard, h]

end Table
end Concurrent
