import Mathlib.Data.List.Perm.Basic
import Mathlib.Data.List.Nodup

/-! A copy of a table as a list of keyed entries, kept up to date by announcements about one key at
a time. -/
namespace Concurrent.Replica
variable {κ α : Type} [DecidableEq κ]

/-- What the list has under a key. -/
def shown (list : List (κ × α)) (k : κ) : Option α := (list.find? (·.1 = k)).map Prod.snd

def keys (list : List (κ × α)) : List κ := list.map Prod.fst

def remove (list : List (κ × α)) (k : κ) : List (κ × α) := list.filter (·.1 ≠ k)

/-- The entry in its place, or in front when there is none. -/
def update (list : List (κ × α)) (k : κ) (a : α) : List (κ × α) :=
  match list.findIdx? (·.1 = k) with
  | none => (k, a) :: list
  | some i => list.set i (k, a)

variable {list : List (κ × α)} {j k : κ} {a b : α}

@[simp] theorem shown_nil (k : κ) : shown ([] : List (κ × α)) k = none := rfl

theorem shown_cons (x : κ × α) (list : List (κ × α)) (k : κ) :
    shown (x :: list) k = if x.1 = k then some x.2 else shown list k := by
  by_cases h : x.1 = k <;> simp [shown, h]

theorem shown_none (h : k ∉ keys list) : shown list k = none := by
  induction list with
  | nil => rfl
  | cons x list ih =>
    obtain ⟨hx, hl⟩ := not_or.mp (mt List.mem_cons.mpr h)
    rw [shown_cons, if_neg fun e => hx e.symm]
    exact ih hl

/-- With one entry for each key, the list has what it shows. -/
theorem shown_iff (hn : (keys list).Nodup) : shown list k = some a ↔ (k, a) ∈ list := by
  induction list with
  | nil => simp
  | cons x list ih =>
    obtain ⟨hx, hl⟩ := List.nodup_cons.mp hn
    rw [shown_cons, List.mem_cons]
    by_cases e : x.1 = k
    · subst e
      have absent : (x.1, a) ∉ list := fun hm => hx (List.mem_map.mpr ⟨_, hm, rfl⟩)
      rw [if_pos rfl, or_iff_left absent]
      exact ⟨fun h => Prod.ext rfl (Option.some.inj h).symm, fun h => congrArg some (congrArg Prod.snd h).symm⟩
    · rw [if_neg e, ih hl]
      exact ⟨.inr, fun h => h.resolve_left fun hx => e (congrArg Prod.fst hx).symm⟩

theorem shown_perm {other : List (κ × α)} (hp : list.Perm other) (hn : (keys list).Nodup) (k : κ) :
    shown list k = shown other k := by
  have hn' : (keys other).Nodup := (hp.map Prod.fst).nodup_iff.mp hn
  refine Option.ext fun a => ?_
  rw [shown_iff hn, shown_iff hn', hp.mem_iff]

theorem shown_remove : shown (remove list k) j = if j = k then none else shown list j := by
  induction list with
  | nil => simp [remove]
  | cons x list ih =>
    by_cases e : x.1 = k
    · subst e
      have drop : remove (x :: list) x.1 = remove list x.1 := by simp [remove]
      rw [drop, ih, shown_cons]
      by_cases hj : j = x.1
      · rw [if_pos hj, if_pos hj]
      · rw [if_neg hj, if_neg hj, if_neg fun h => hj h.symm]
    · have keep : remove (x :: list) k = x :: remove list k := by simp [remove, e]
      rw [keep, shown_cons, shown_cons, ih]
      by_cases hx : x.1 = j
      · rw [if_pos hx, if_pos hx, if_neg fun h => e (hx.trans h)]
      · rw [if_neg hx, if_neg hx]

theorem keys_remove (h : (keys list).Nodup) : (keys (remove list k)).Nodup ∧ k ∉ keys (remove list k) := by
  refine ⟨h.sublist (List.filter_sublist.map Prod.fst), fun hm => ?_⟩
  obtain ⟨x, hx, rfl⟩ := List.mem_map.mp hm
  simp [remove] at hx

theorem findIdx_none (h : list.findIdx? (·.1 = k) = none) : k ∉ keys list := by
  rintro hm
  obtain ⟨x, hx, rfl⟩ := List.mem_map.mp hm
  simpa using List.findIdx?_eq_none_iff.mp h x hx

/-- The entry that is found is replaced. -/
theorem set_found {i : Nat} (h : list.findIdx? (·.1 = k) = some i) :
    (∀ j, shown (list.set i (k, a)) j = if j = k then some a else shown list j) ∧
    keys (list.set i (k, a)) = keys list := by
  induction list generalizing i with
  | nil => cases h
  | cons x list ih =>
    rw [List.findIdx?_cons] at h
    by_cases e : x.1 = k
    · subst e
      obtain rfl : 0 = i := by simpa using h
      refine ⟨fun j => ?_, rfl⟩
      rw [List.set_cons_zero, shown_cons, shown_cons]
      by_cases hj : j = x.1
      · rw [if_pos hj, if_pos hj.symm]
      · rw [if_neg hj, if_neg fun h => hj h.symm, if_neg fun h => hj h.symm]
    · obtain ⟨i, hi, rfl⟩ : ∃ n, list.findIdx? (·.1 = k) = some n ∧ n + 1 = i := by simpa [e] using h
      obtain ⟨hs, hk⟩ := ih hi
      refine ⟨fun j => ?_, congrArg (x.1 :: ·) hk⟩
      rw [List.set_cons_succ, shown_cons, shown_cons, hs]
      by_cases hx : x.1 = j
      · rw [if_pos hx, if_pos hx, if_neg fun h => e (hx.trans h)]
      · rw [if_neg hx, if_neg hx]

theorem shown_update : shown (update list k a) j = if j = k then some a else shown list j := by
  rw [update]
  split
  · rw [shown_cons]
    by_cases hj : j = k
    · rw [if_pos hj, if_pos hj.symm]
    · rw [if_neg hj, if_neg fun h => hj h.symm]
  · exact (set_found ‹_›).1 j

theorem keys_update (h : (keys list).Nodup) : (keys (update list k a)).Nodup := by
  rw [update]
  split
  · exact List.nodup_cons.mpr ⟨findIdx_none ‹_›, h⟩
  · rwa [(set_found ‹_›).2]

end Concurrent.Replica
