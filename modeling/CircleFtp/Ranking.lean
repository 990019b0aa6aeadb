import Mathlib.Data.List.Basic
import Mathlib.Data.List.Sort

/-! Lists in the order of a rank: how they split at a property, what a prefix leaves out, and the
order by a small key as the concatenation of its buckets. -/
namespace Ranking
variable {α : Type}

/-- When everything with the property comes first, the list splits there. -/
theorem split {p : α → Bool} {l : List α} (h : l.Pairwise fun x y => p y = true → p x = true) :
    l = l.filter p ++ l.filter (!p ·) := by
  induction l with
  | nil => rfl
  | cons x l ih =>
    obtain ⟨hx, hl⟩ := List.pairwise_cons.mp h
    cases hp : p x with
    | true =>
      rw [List.filter_cons_of_pos hp, List.filter_cons_of_neg (by simp [hp]), List.cons_append, ← ih hl]
    | false =>
      have none : l.filter p = [] := List.filter_eq_nil_iff.mpr fun y hy hpy => by
        have := hx y hy hpy
        rw [hp] at this
        cases this
      have all : l.filter (!p ·) = l := List.filter_eq_self.mpr fun y hy => by
        simpa using List.filter_eq_nil_iff.mp none y hy
      rw [List.filter_cons_of_neg (by simp [hp]), List.filter_cons_of_pos (by simp [hp]), none, all]
      rfl

/-- What a prefix leaves out comes after what it keeps. -/
theorem take_before {R : α → α → Prop} {l : List α} (h : l.Pairwise R) {k : Nat} {x y : α}
    (hx : x ∈ l.take k) (hy : y ∈ l) (hn : y ∉ l.take k) : R x y := by
  rw [← List.take_append_drop k l] at h hy
  exact (List.pairwise_append.mp h).2.2 x hx y ((List.mem_append.mp hy).resolve_left hn)

def byScore (score : α → Nat) (x y : α × Nat) : Bool :=
  score x.1 < score y.1 || (score x.1 = score y.1 && x.2 ≤ y.2)

/-- The elements with a score below `n`, those with the least score first. -/
def buckets (score : α → Nat) (n : Nat) (l : List α) : List α :=
  (List.range n).flatMap fun b => l.filter (score · = b)

section
variable {score : α → Nat} {n : Nat} {l : List α} {x : α}

theorem mem_buckets : x ∈ buckets score n l ↔ x ∈ l ∧ score x < n := by
  simp only [buckets, List.mem_flatMap, List.mem_range, List.mem_filter, decide_eq_true_eq]
  constructor
  · rintro ⟨b, hb, hx, rfl⟩
    exact ⟨hx, hb⟩
  · exact fun h => ⟨score x, h.2, h.1, rfl⟩

/-- In the buckets, an order of the list is the second key. -/
theorem buckets_pairwise (score : α → Nat) (n : Nat) {R : α → α → Prop} (h : l.Pairwise R) :
    (buckets score n l).Pairwise fun x y => score x < score y ∨ (score x = score y ∧ R x y) := by
  refine List.pairwise_flatMap.mpr ⟨fun b _ => ?_, List.pairwise_lt_range.imp fun {a b} hab => ?_⟩
  · refine List.Pairwise.imp_of_mem (fun {x y} hx hy hr => .inr ⟨?_, hr⟩) (h.sublist List.filter_sublist)
    rw [of_decide_eq_true (List.mem_filter.mp hx).2, of_decide_eq_true (List.mem_filter.mp hy).2]
  · intro x hx y hy
    rw [of_decide_eq_true (List.mem_filter.mp hx).2, of_decide_eq_true (List.mem_filter.mp hy).2]
    exact .inl hab

theorem buckets_succ : buckets score (n + 1) l = buckets score n l ++ l.filter (score · = n) := by
  simp [buckets, List.range_succ]

theorem buckets_filter (score : α → Nat) (n : Nat) (l : List α) :
    (buckets score (n + 1) l).filter (score · < n) = buckets score n l := by
  have low : (buckets score n l).filter (score · < n) = buckets score n l :=
    List.filter_eq_self.mpr fun x hx => decide_eq_true (mem_buckets.mp hx).2
  have high : (l.filter (score · = n)).filter (score · < n) = [] := by
    refine List.filter_eq_nil_iff.mpr fun x hx => ?_
    rw [of_decide_eq_true (List.mem_filter.mp hx).2]
    simp
  rw [buckets_succ, List.filter_append, low, high, List.append_nil]

/-- When only the last bucket has anything in it, it is the list. -/
theorem buckets_last (h : ∀ x ∈ l, score x ≤ n) (he : buckets score n l = []) :
    buckets score (n + 1) l = l := by
  rw [buckets_succ, he, List.nil_append]
  refine List.filter_eq_self.mpr fun x hx => decide_eq_true (Nat.le_antisymm (h x hx) ?_)
  by_contra hlt
  have hm : x ∈ buckets score n l := mem_buckets.mpr ⟨hx, by omega⟩
  rw [he] at hm
  cases hm

theorem zipIdx_pairwise (l : List α) : l.zipIdx.Pairwise fun x y => x.2 < y.2 := by
  have positions : (l.zipIdx.map Prod.snd).Pairwise (· < ·) := by
    rw [List.zipIdx_map_snd]
    exact List.pairwise_lt_range'
  exact List.pairwise_map.mp positions

theorem byScore_trans (x y z : α × Nat) (h : byScore score x y = true) (h' : byScore score y z = true) :
    byScore score x z = true := by
  simp only [byScore, Bool.or_eq_true, Bool.and_eq_true, decide_eq_true_eq] at *
  omega

theorem byScore_total (x y : α × Nat) : (byScore score x y || byScore score y x) = true := by
  simp only [byScore, Bool.or_eq_true, Bool.and_eq_true, decide_eq_true_eq]
  omega

theorem byScore_antisymm {x y : α × Nat} (hx : x ∈ l.zipIdx) (hy : y ∈ l.zipIdx)
    (h : byScore score x y = true) (h' : byScore score y x = true) : x = y := by
  simp only [byScore, Bool.or_eq_true, Bool.and_eq_true, decide_eq_true_eq] at h h'
  have position : x.2 = y.2 := by omega
  have hx := List.mem_zipIdx_iff_getElem?.mp hx
  rw [position, List.mem_zipIdx_iff_getElem?.mp hy] at hx
  exact Prod.ext (Option.some.inj hx).symm position

theorem map_buckets (n : Nat) (l : List α) :
    (buckets (fun x => score x.1) n l.zipIdx).map Prod.fst = buckets score n l := by
  rw [buckets, List.map_flatMap]
  refine List.flatMap_congr fun b _ => ?_
  have step : (l.zipIdx.map Prod.fst).filter (score · = b) =
      (l.zipIdx.filter fun x => score x.1 = b).map Prod.fst := List.filter_map
  rw [← step, List.zipIdx_map_fst]

/-- Sorting by score and position puts the buckets one after the other. -/
theorem sort_eq_buckets (h : ∀ x ∈ l, score x < n) :
    (l.zipIdx.mergeSort (byScore score)).map Prod.fst = buckets score n l := by
  have strict := buckets_pairwise (fun x => score x.1) n (zipIdx_pairwise l)
  have sorted : (buckets (fun x => score x.1) n l.zipIdx).Pairwise fun x y => byScore score x y = true :=
    strict.imp fun {x y} hxy => by
      simp only [byScore, Bool.or_eq_true, Bool.and_eq_true, decide_eq_true_eq]
      omega
  have mem {x : α × Nat} : x ∈ buckets (fun x => score x.1) n l.zipIdx ↔ x ∈ l.zipIdx :=
    mem_buckets.trans (and_iff_left_of_imp fun hx => h x.1 (List.fst_mem_of_mem_zipIdx hx))
  have perm : (l.zipIdx.mergeSort (byScore score)).Perm (buckets (fun x => score x.1) n l.zipIdx) := by
    refine (List.mergeSort_perm _ _).trans ((List.perm_ext_iff_of_nodup ?_ ?_).mpr fun x => mem.symm)
    · exact (zipIdx_pairwise l).imp fun {x y} hxy => by
        rintro rfl
        omega
    · exact strict.imp fun {x y} hxy => by
        rintro rfl
        omega
  rw [← map_buckets, List.Perm.eq_of_pairwise (fun x y hx hy => byScore_antisymm
    (List.mem_mergeSort.mp hx) (mem.mp hy))
    (List.pairwise_mergeSort byScore_trans byScore_total _) sorted perm]

end
end Ranking
