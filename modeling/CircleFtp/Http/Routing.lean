import Mathlib.Data.List.Infix

/-! Stacks of middleware in the order of their registration: which handlers a request goes through,
and when a guard comes before all that need it, whatever the path. -/
namespace Routing
variable {Path M H : Type}

/-- What stands between two slashes of a pattern. -/
inductive Piece where
  | text (s : List Char)
  | param
deriving DecidableEq

abbrev Pattern := List Piece

/-- How paths match: at the front, with what is left of the path, or as a whole, with the parts that
the parameters stand for. A pattern that begins another one matches wherever that one does. -/
structure Matcher (Path : Type) where
  under : Pattern → Path → Option Path
  exact : Pattern → Path → Option (List (List Char))
  under_prefix : ∀ {q p : Pattern} {path : Path}, q <+: p → (under p path).isSome → (under q path).isSome
  exact_prefix : ∀ {q p : Pattern} {path : Path}, q <+: p → (exact p path).isSome → (under q path).isSome

/-- Handlers for all methods under a path, handlers of one route by the method, and stacks of their
own. -/
inductive Stack (M H : Type) where
  | done
  | use (p : Pattern) (h : H) (rest : Stack M H)
  | route (p : Pattern) (hs : M → List (List Char) → List H) (rest : Stack M H)
  | mount (p : Pattern) (inner rest : Stack M H)

/-- The handlers that a request comes to, as long as each hands it on. -/
def Stack.chain (m : Matcher Path) (method : M) : Stack M H → Path → List H
  | .done, _ => []
  | .use p h rest, path => (if (m.under p path).isSome then [h] else []) ++ rest.chain m method path
  | .route p hs rest, path =>
    (match m.exact p path with
      | some args => hs method args
      | none => []) ++ rest.chain m method path
  | .mount p inner rest, path =>
    (match m.under p path with
      | some left => inner.chain m method left
      | none => []) ++ rest.chain m method path

/-- What holds of each handler by itself and of the handlers of each route. -/
def Stack.Each (φ : M → List H → Prop) : Stack M H → Prop
  | .done => True
  | .use _ h rest => (∀ method, φ method [h]) ∧ rest.Each φ
  | .route _ hs rest => (∀ method args, φ method (hs method args)) ∧ rest.Each φ
  | .mount _ inner rest => inner.Each φ ∧ rest.Each φ

theorem Stack.Each.mono {φ ψ : M → List H → Prop} (h : ∀ method l, φ method l → ψ method l) {st : Stack M H}
    (hst : st.Each φ) : st.Each ψ := by
  induction st with
  | done => trivial
  | use p x rest ih => exact ⟨fun method => h _ _ (hst.1 method), ih hst.2⟩
  | route p hs rest ih => exact ⟨fun method args => h _ _ (hst.1 method args), ih hst.2⟩
  | mount p inner rest ihi ih => exact ⟨ihi hst.1, ih hst.2⟩

/-- It holds of what requests come to, if it passes to lists put together. -/
theorem Stack.Each.chain {φ : M → List H → Prop} {st : Stack M H} {m : Matcher Path}
    {method : M} {path : Path} (nil : φ method [])
    (append : ∀ l l', φ method l → φ method l' → φ method (l ++ l')) (h : st.Each φ) :
    φ method (st.chain m method path) := by
  induction st generalizing path with
  | done => exact nil
  | use p x rest ih =>
    refine append _ _ ?_ (ih h.2)
    split
    · exact h.1 method
    · exact nil
  | route p hs rest ih =>
    refine append _ _ ?_ (ih h.2)
    split
    · exact h.1 method _
    · exact nil
  | mount p inner rest ihi ih =>
    refine append _ _ ?_ (ih h.2)
    split
    · exact ihi h.1
    · exact nil

/-- Every handler that needs a guard has one before it, here or in what went before. -/
def Led (guard needs : H → Prop) (past l : List H) : Prop :=
  ∀ pre h post, l = pre ++ h :: post → needs h → ∃ x ∈ past ++ pre, guard x

section
variable {guard needs : H → Prop} {past l l' : List H}

theorem Led.nil : Led guard needs past [] := fun pre h post e => by simp at e

theorem Led.append (h : Led guard needs past l) (h' : Led guard needs (past ++ l) l') :
    Led guard needs past (l ++ l') := by
  intro pre x post e hx
  rcases List.append_eq_append_iff.mp e with ⟨mid, rfl, rfl⟩ | ⟨mid, rfl, hmid⟩
  · simpa using h' mid x post rfl hx
  · rcases List.cons_eq_append_iff.mp hmid with ⟨rfl, rfl⟩ | ⟨mid', rfl, rfl⟩
    · simpa using h' [] x post rfl hx
    · exact h pre x mid' rfl hx

theorem Led.cons {h : H} (hh : needs h → ∃ x ∈ past, guard x) (hl : Led guard needs (past ++ [h]) l) :
    Led guard needs past (h :: l) := by
  refine Led.append (l := [h]) ?_ hl
  intro pre x post e hx
  rcases List.cons_eq_append_iff.mp e with ⟨rfl, he⟩ | ⟨pre', rfl, he⟩
  · cases he
    simpa using hh hx
  · simp at he

end

/-- A list in which nothing needs a guard that has not come yet; `sure` says that one has. -/
def ledBy (guard needs : H → Bool) : Bool → List H → Bool
  | _, [] => true
  | sure, h :: l => (!needs h || sure) && ledBy guard needs (sure || guard h) l

/-- A guard is in force at a pattern: it is anyway, or stands under a part of the pattern. -/
def shielded (sure : Bool) (held : List Pattern) (p : Pattern) : Bool :=
  sure || held.any fun q => decide (q <+: p)

/-- Going through a stack with the patterns under which a guard stands: whatever needs one is under
such a pattern, or has one in its own route. -/
def Stack.Guarded (guard needs : H → Bool) (sure : Bool) (held : List Pattern) : Stack M H → Prop
  | .done => True
  | .use p h rest => (needs h = true → shielded sure held p = true) ∧
      rest.Guarded guard needs sure (bif guard h then p :: held else held)
  | .route p hs rest =>
      (∀ method args, ledBy guard needs (shielded sure held p) (hs method args) = true) ∧
      rest.Guarded guard needs sure held
  | .mount p inner rest => inner.Guarded guard needs (shielded sure held p) [] ∧
      rest.Guarded guard needs sure held

section
variable {guard needs : H → Bool} {past l : List H} {sure : Bool} {held : List Pattern}
  {m : Matcher Path} {path : Path} {p : Pattern}

theorem ledBy.led (h : ledBy guard needs sure l = true) (hs : sure = true → ∃ x ∈ past, guard x = true) :
    Led (guard · = true) (needs · = true) past l := by
  induction l generalizing past sure with
  | nil => exact .nil
  | cons x l ih =>
    obtain ⟨hx, hl⟩ := Bool.and_eq_true_iff.mp h
    refine .cons (fun hn => ?_) (ih hl fun hg => ?_)
    · rw [hn] at hx
      exact hs hx
    · rcases Bool.or_eq_true_iff.mp hg with hg | hg
      · exact (hs hg).imp fun _ hy => ⟨List.mem_append_left _ hy.1, hy.2⟩
      · exact ⟨x, by simp, hg⟩

/-- The guards of a path have been passed. -/
def Passed (guard : H → Bool) (m : Matcher Path) (path : Path) (past : List H) (sure : Bool)
    (held : List Pattern) : Prop :=
  (sure = true → ∃ x ∈ past, guard x = true) ∧
    ∀ q ∈ held, (m.under q path).isSome → ∃ x ∈ past, guard x = true

theorem Passed.more (h : Passed guard m path past sure held) (l : List H) :
    Passed guard m path (past ++ l) sure held :=
  ⟨fun hs => (h.1 hs).imp fun _ hx => ⟨List.mem_append_left l hx.1, hx.2⟩,
    fun q hq hu => (h.2 q hq hu).imp fun _ hx => ⟨List.mem_append_left l hx.1, hx.2⟩⟩

/-- What is shielded and matches has passed a guard. -/
theorem Passed.shielded (h : Passed guard m path past sure held)
    (hm : ∀ q, q <+: p → (m.under q path).isSome) (hs : shielded sure held p = true) :
    ∃ x ∈ past, guard x = true := by
  rcases Bool.or_eq_true_iff.mp hs with hs | hs
  · exact h.1 hs
  · obtain ⟨q, hq, hp⟩ := List.any_eq_true.mp hs
    exact h.2 q hq (hm q (of_decide_eq_true hp))

/-- In a guarded stack every request passes a guard before whatever needs one. -/
theorem Stack.Guarded.led {st : Stack M H} {method : M}
    (hst : st.Guarded guard needs sure held) (h : Passed guard m path past sure held) :
    Led (guard · = true) (needs · = true) past (st.chain m method path) := by
  induction st generalizing sure held past path with
  | done => exact .nil
  | use p x rest ih =>
    refine Led.append ?_ (ih hst.2 ?_)
    · split
      · rename_i hu
        exact .cons (fun hx => h.shielded (fun q hq => m.under_prefix hq hu) (hst.1 hx)) .nil
      · exact .nil
    · cases hg : guard x with
      | true =>
        refine ⟨(h.more _).1, fun q hq hu => ?_⟩
        rcases List.mem_cons.mp hq with rfl | hq
        · exact ⟨x, by simp [hu], hg⟩
        · exact (h.more _).2 q hq hu
      | false => exact h.more _
  | route p hs rest ih =>
    refine Led.append ?_ (ih hst.2 (h.more _))
    split
    · rename_i args ha
      exact ledBy.led (hst.1 method args) (h.shielded fun q hq => m.exact_prefix hq (by simp [ha]))
    · exact .nil
  | mount p inner rest ihi ih =>
    refine Led.append ?_ (ih hst.2 (h.more _))
    split
    · rename_i left hl
      refine ihi hst.1 ⟨fun hs => ?_, fun _ hq => absurd hq List.not_mem_nil⟩
      exact h.shielded (fun q hq => m.under_prefix hq (by simp [hl])) hs
    · exact .nil

end

/-- Every handler comes after as many tolls as it owes, with `n` paid before the list. -/
def Paid (toll : H → Bool) (owes : H → Nat → Bool) : Nat → List H → Prop
  | _, [] => True
  | n, h :: l => owes h n = true ∧ Paid toll owes (n + (toll h).toNat) l

/-- Going through a stack whose tolls and mounts all stand at one pattern, with `n` paid so far: what
a mounted stack comes to owes just these, and nothing else owes any. -/
def Stack.Tolled (toll : H → Bool) (owes : H → Nat → Bool) (p : Pattern) : Nat → Stack M H → Prop
  | _, .done => True
  | n, .use q h rest => (∀ k, owes h k = true) ∧ (toll h = true → q = p) ∧
      rest.Tolled toll owes p (n + (toll h).toNat)
  | _, .route _ _ _ => False
  | n, .mount q inner rest => q = p ∧
      inner.Each (fun _ l => (l.all fun h => !toll h && owes h n) = true) ∧ rest.Tolled toll owes p n

section
variable {toll : H → Bool} {owes : H → Nat → Bool} {n : Nat} {l l' : List H} {m : Matcher Path}
  {path : Path} {p : Pattern}

theorem Paid.append (h : Paid toll owes n l) (h' : Paid toll owes (n + l.countP toll) l') :
    Paid toll owes n (l ++ l') := by
  induction l generalizing n with
  | nil => exact h'
  | cons x l ih =>
    refine ⟨h.1, ih h.2 ?_⟩
    cases hx : toll x <;> simpa [hx, List.countP_cons, Nat.add_comm, Nat.add_left_comm] using h'

theorem Paid.free (h : (l.all fun x => !toll x && owes x n) = true) :
    Paid toll owes n l ∧ l.countP toll = 0 := by
  induction l with
  | nil => exact ⟨trivial, rfl⟩
  | cons x l ih =>
    obtain ⟨hx, hl⟩ := Bool.and_eq_true_iff.mp h
    obtain ⟨ht, ho⟩ := Bool.and_eq_true_iff.mp hx
    have ht : toll x = false := by simpa using ht
    exact ⟨⟨ho, by simpa [ht] using (ih hl).1⟩, by simpa [ht] using (ih hl).2⟩

theorem Stack.Each.all_chain {φ : H → Bool} {st : Stack M H} {method : M}
    (h : st.Each fun _ l => l.all φ = true) : (st.chain m method path).all φ = true :=
  Stack.Each.chain (φ := fun _ l => l.all φ = true) rfl
    (fun l l' h h' => by rw [List.all_append, h, h']; rfl) h

/-- Where the pattern matches, every toll has been paid that was asked for. -/
theorem Stack.Tolled.paid {st : Stack M H} {method : M} (h : st.Tolled toll owes p n)
    (hp : (m.under p path).isSome) : Paid toll owes n (st.chain m method path) := by
  induction st generalizing n with
  | done => trivial
  | use q x rest ih =>
    obtain ⟨ho, hq, hrest⟩ := h
    rw [chain]
    cases hx : toll x with
    | true =>
      rw [hq hx, if_pos hp]
      exact ⟨ho n, by simpa [hx] using ih hrest⟩
    | false =>
      have hrest : rest.Tolled toll owes p n := by simpa [hx] using hrest
      split
      · exact ⟨ho n, by simpa [hx] using ih hrest⟩
      · exact ih hrest
  | route => exact h.elim
  | mount q inner rest _ ih =>
    obtain ⟨rfl, hinner, hrest⟩ := h
    rw [chain]
    split
    · obtain ⟨paid, none⟩ := Paid.free hinner.all_chain
      exact paid.append (by rw [none]; exact ih hrest)
    · exact ih hrest

/-- Where it does not, nothing is owed. -/
theorem Stack.Tolled.unowed {st : Stack M H} {method : M} (h : st.Tolled toll owes p n)
    (hp : m.under p path = none) (k : Nat) : Paid toll owes k (st.chain m method path) := by
  induction st generalizing n with
  | done => trivial
  | use q x rest ih =>
    obtain ⟨ho, hq, hrest⟩ := h
    rw [chain]
    split
    · rename_i hu
      have hx : toll x = false := by
        refine Bool.eq_false_iff.mpr fun hx => ?_
        rw [hq hx, hp] at hu
        cases hu
      exact ⟨ho k, by simpa [hx] using ih hrest⟩
    · exact ih hrest
  | route => exact h.elim
  | mount q inner rest _ ih =>
    obtain ⟨rfl, hinner, hrest⟩ := h
    rw [chain, hp]
    exact ih hrest

end

/-- Paths cut at their slashes. -/
def Piece.fits (same : List Char → List Char → Bool) : Piece → List Char → Bool
  | .text s, t => same s t
  | .param, t => t ≠ []

/-- The rest of a path after a pattern. -/
def strip (same : List Char → List Char → Bool) : Pattern → List (List Char) → Option (List (List Char))
  | [], path => some path
  | _ :: _, [] => none
  | x :: p, t :: path => if x.fits same t then strip same p path else none

/-- What the parameters of a pattern stand for. -/
def captures : Pattern → List (List Char) → List (List Char)
  | .param :: p, t :: path => t :: captures p path
  | .text _ :: p, _ :: path => captures p path
  | _, _ => []

theorem strip_prefix {same : List Char → List Char → Bool} {q p : Pattern} {path : List (List Char)}
    (h : q <+: p) (hp : (strip same p path).isSome) : (strip same q path).isSome := by
  obtain ⟨p', rfl⟩ := h
  induction q generalizing path with
  | nil => rfl
  | cons x q ih =>
    cases path with
    | nil => exact hp
    | cons t path =>
      simp only [List.cons_append, strip] at hp ⊢
      split at hp
      · rw [if_pos ‹_›]
        exact ih hp
      · cases hp

/-- Matching piece by piece, where one slash at the end makes no difference. -/
def Matcher.pieces (same : List Char → List Char → Bool) : Matcher (List (List Char)) where
  under p path := (strip same p path).map fun left => if left = [] then [[]] else left
  exact p path :=
    (strip same p path).bind fun left => if left = [] ∨ left = [[]] then some (captures p path) else none
  under_prefix h hp := by simpa using strip_prefix h (by simpa using hp)
  exact_prefix h hp := by
    obtain ⟨args, ha⟩ := Option.isSome_iff_exists.mp hp
    obtain ⟨left, hl, -⟩ := Option.bind_eq_some_iff.mp ha
    simpa using strip_prefix h (by simp [hl])

end Routing
