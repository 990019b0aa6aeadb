import CircleFtp.Concurrent.Guarantee

/-! Disciplines whose rely is the history itself: what the others did since is a chain of
recorded events, none by the thread in question, each of a kind that the discipline admits. -/
namespace Concurrent
variable {σ κ Op : Type} {Reply : Op → Type} {ι χ ρ : Type}

namespace Event

def before : Event σ κ Op Reply χ ρ → σ
  | .did _ _ _ _ s _ | .ended _ _ _ s _ | .outer _ s _ => s

def after : Event σ κ Op Reply χ ρ → σ
  | .did _ _ _ _ _ s | .ended _ _ _ _ s | .outer _ _ s => s

def By (t : Nat) : Event σ κ Op Reply χ ρ → Prop
  | .did t' _ _ _ _ _ | .ended t' _ _ _ _ => t' = t
  | .outer _ _ _ => False

instance (t : Nat) : DecidablePred (By t : Event σ κ Op Reply χ ρ → Prop) := fun e => by
  cases e <;> unfold By <;> infer_instance

end Event

namespace History

/-- What the others do: events, none by thread `t`, each of a kind that is admitted in the world
it finds. -/
def rely (P : World σ κ Op Reply χ ρ → Event σ κ Op Reply χ ρ → Prop) (t : Nat) :
    World σ κ Op Reply χ ρ → World σ κ Op Reply χ ρ → Prop :=
  Relation.ReflTransGen fun v v' =>
    ∃ e, e.before = v.state ∧ ¬ e.By t ∧ P v e ∧ v' = ⟨e.after, e :: v.trace⟩

theorem rely_single {P : World σ κ Op Reply χ ρ → Event σ κ Op Reply χ ρ → Prop} {t : Nat}
    {w : World σ κ Op Reply χ ρ} {e : Event σ κ Op Reply χ ρ} (hb : e.before = w.state)
    (ht : ¬ e.By t) (hp : P w e) : rely P t w ⟨e.after, e :: w.trace⟩ :=
  .single ⟨e, hb, ht, hp, rfl⟩

/-- What every admitted event of the others keeps, the rely keeps. -/
theorem rely_induct {P : World σ κ Op Reply χ ρ → Event σ κ Op Reply χ ρ → Prop} {t : Nat}
    {φ : World σ κ Op Reply χ ρ → Prop}
    (step : ∀ v e, φ v → e.before = v.state → ¬ e.By t → P v e → φ ⟨e.after, e :: v.trace⟩)
    {w w' : World σ κ Op Reply χ ρ} (h : rely P t w w') (hw : φ w) : φ w' := by
  induction h with
  | refl => exact hw
  | tail _ hs ih =>
    obtain ⟨e, hb, ht, hp, rfl⟩ := hs
    exact step _ e ih hb ht hp

/-- Since the first event of thread `t`, every event of another thread satisfies `P`. -/
def Since (P : Event σ κ Op Reply χ ρ → Prop) (trace : List (Event σ κ Op Reply χ ρ)) (t : Nat) :
    Prop := ∀ new e old, trace = new ++ e :: old → e.By t → ∀ d ∈ new, d.By t ∨ P d

theorem Since.tail {P : Event σ κ Op Reply χ ρ → Prop} {e : Event σ κ Op Reply χ ρ}
    {trace : List (Event σ κ Op Reply χ ρ)} {t : Nat} (h : Since P (e :: trace) t) :
    Since P trace t := fun new d old he hb c hc =>
  h (e :: new) d old (by rw [he]; rfl) hb c (List.mem_cons_of_mem e hc)

theorem Since.cons {P : Event σ κ Op Reply χ ρ → Prop} {e : Event σ κ Op Reply χ ρ}
    {trace : List (Event σ κ Op Reply χ ρ)} {t : Nat} (h : Since P trace t) (he : e.By t ∨ P e) :
    Since P (e :: trace) t := by
  intro new d old hd hb c hc
  rcases List.cons_eq_append_iff.mp hd with ⟨rfl, -⟩ | ⟨new', rfl, htrace⟩
  · cases hc
  · rcases List.mem_cons.mp hc with rfl | hc
    · exact he
    · exact h new' d old htrace hb c hc

/-- A thread that has not begun has seen nothing. -/
theorem Since.unbegun {P : Event σ κ Op Reply χ ρ → Prop} {trace : List (Event σ κ Op Reply χ ρ)}
    {t : Nat} (h : ∀ e ∈ trace, ¬ e.By t) : Since P trace t :=
  fun _ e _ he hb => absurd hb (h e (he ▸ List.mem_append_right _ List.mem_cons_self))

theorem Since.head {P : Event σ κ Op Reply χ ρ → Prop} {e : Event σ κ Op Reply χ ρ}
    {trace : List (Event σ κ Op Reply χ ρ)} {t : Nat} (h : Since P (e :: trace) t)
    (hb : ∃ d ∈ trace, d.By t) (he : ¬ e.By t) : P e := by
  obtain ⟨d, hd, hbt⟩ := hb
  obtain ⟨mid, old, rfl⟩ := List.append_of_mem hd
  exact (h (e :: mid) d old rfl hbt e List.mem_cons_self).resolve_left he

/-- A thread whose events follow one another has seen no other event in between. -/
theorem Since.of_consecutive {P : Event σ κ Op Reply χ ρ → Prop}
    {trace : List (Event σ κ Op Reply χ ρ)} {t : Nat}
    (h : (trace.dropWhile (·.By t)).all (¬ ·.By t) = true) : Since P trace t := by
  rintro new e old rfl hb d hd
  induction new with
  | nil => cases hd
  | cons f new ih =>
    by_cases hf : f.By t
    · rcases List.mem_cons.mp hd with rfl | hd
      · exact .inl hf
      · exact ih (by simpa [hf] using h) hd
    · simp [hf, hb] at h

/-- The calls of the thread that moves have so far followed one another. -/
def uninterrupted (p : Pool σ κ Op Reply χ ρ) : Label ι χ → Bool
  | .exec t _ => (p.trace.dropWhile (·.By t)).all (¬ ·.By t)
  | _ => true

/-- The thread has begun, and `φ` holds unless an event in between broke `P`. -/
def Guarded (P : Event σ κ Op Reply χ ρ → Prop) (φ : World σ κ Op Reply χ ρ → Prop) (t : Nat)
    (w : World σ κ Op Reply χ ρ) : Prop :=
  (∃ e ∈ w.trace, e.By t) ∧ (Since P w.trace t → φ w)

theorem Guarded.stable {P : Event σ κ Op Reply χ ρ → Prop} {φ : World σ κ Op Reply χ ρ → Prop}
    {Q : World σ κ Op Reply χ ρ → Event σ κ Op Reply χ ρ → Prop} {t : Nat} {w w' : World σ κ Op Reply χ ρ}
    (keep : ∀ v e, φ v → e.before = v.state → P e → φ ⟨e.after, e :: v.trace⟩)
    (h : Guarded P φ t w) (hr : rely Q t w w') : Guarded P φ t w' := by
  refine rely_induct (fun v e hv hb ht _ => ?_) hr h
  obtain ⟨begun, hφ⟩ := hv
  refine ⟨begun.imp fun d hd => ⟨List.mem_cons_of_mem e hd.1, hd.2⟩, fun hs => ?_⟩
  exact keep v e (hφ hs.tail) hb (hs.head begun ht)

/-- A call by which the thread finds out that `φ` holds. -/
theorem Guarded.read {P : Event σ κ Op Reply χ ρ → Prop} {φ : World σ κ Op Reply χ ρ → Prop}
    {t : Nat} {k : κ} {op : Op} {r : Reply op} {w w' : World σ κ Op Reply χ ρ}
    (hw : w' = ⟨w'.state, .did t k op r w.state w'.state :: w.trace⟩) (h : φ w') :
    Guarded P φ t w' := by
  refine ⟨⟨.did t k op r w.state w'.state, ?_, rfl⟩, fun _ => h⟩
  rw [hw]
  exact List.mem_cons_self

/-- A call of the thread itself that keeps `φ`. -/
theorem Guarded.act {P : Event σ κ Op Reply χ ρ → Prop} {φ : World σ κ Op Reply χ ρ → Prop}
    {t : Nat} {k : κ} {op : Op} {r : Reply op} {w w' : World σ κ Op Reply χ ρ}
    (h : Guarded P φ t w) (hw : w' = ⟨w'.state, .did t k op r w.state w'.state :: w.trace⟩)
    (keep : φ w → φ w') : Guarded P φ t w' := by
  obtain ⟨⟨e, he, hb⟩, hφ⟩ := h
  have htrace : w'.trace = .did t k op r w.state w'.state :: w.trace := by rw [hw]
  refine ⟨⟨e, by rw [htrace]; exact List.mem_cons_of_mem _ he, hb⟩, fun hs => keep (hφ ?_)⟩
  rw [htrace] at hs
  exact hs.tail

/-- Thread `t` has done what `sets` says, and since then nothing of what `clears` says. -/
def outstanding (sets clears : Event σ κ Op Reply χ ρ → Bool) (t : Nat) :
    List (Event σ κ Op Reply χ ρ) → Bool
  | [] => false
  | e :: trace =>
    if e.By t then sets e || (!clears e && outstanding sets clears t trace)
    else outstanding sets clears t trace

section
variable {sets clears : Event σ κ Op Reply χ ρ → Bool} {t : Nat} {e : Event σ κ Op Reply χ ρ}
  {trace : List (Event σ κ Op Reply χ ρ)}

theorem outstanding_other (h : ¬ e.By t) :
    outstanding sets clears t (e :: trace) = outstanding sets clears t trace := if_neg h

theorem outstanding_own (h : e.By t) : outstanding sets clears t (e :: trace) =
    (sets e || (!clears e && outstanding sets clears t trace)) := if_pos h

theorem outstanding_fresh (h : ∀ e ∈ trace, ¬ e.By t) : outstanding sets clears t trace = false := by
  induction trace with
  | nil => rfl
  | cons e trace ih =>
    rw [outstanding_other (h e List.mem_cons_self)]
    exact ih fun d hd => h d (List.mem_cons_of_mem e hd)

end

/-- The contract of thread `t`: `may` says what its calls can do, `guar` what they must keep. -/
def contract (P : World σ κ Op Reply χ ρ → Event σ κ Op Reply χ ρ → Prop) (t : Nat) (k : κ)
    (may : World σ κ Op Reply χ ρ → (op : Op) → Reply op → σ → Prop)
    (guar : World σ κ Op Reply χ ρ → (op : Op) → Reply op → World σ κ Op Reply χ ρ → Prop) :
    Contract (World σ κ Op Reply χ ρ) Op Reply where
  rely := rely P t
  refl _ := .refl
  trans := .trans
  act w op r w' := w' = ⟨w'.state, .did t k op r w.state w'.state :: w.trace⟩ ∧ may w op r w'.state
  guar := guar

end History

/-- What a discipline by history needs: `admits` names the events a thread may see of others,
`may` and `guar` are the two sides of a call. -/
structure Ledger (σ κ Op : Type) (Reply : Op → Type) (χ ρ : Type) where
  admits : Nat → κ → World σ κ Op Reply χ ρ → Event σ κ Op Reply χ ρ → Prop
  may : Nat → κ → World σ κ Op Reply χ ρ → (op : Op) → Reply op → σ → Prop
  guar : Nat → κ → World σ κ Op Reply χ ρ → (op : Op) → Reply op → World σ κ Op Reply χ ρ → Prop
  post : Nat → κ → ρ → World σ κ Op Reply χ ρ → Prop

namespace Ledger

def discipline (l : Ledger σ κ Op Reply χ ρ) : Discipline σ κ Op Reply χ ρ where
  contract t k := History.contract (l.admits t k) t k (l.may t k) (l.guar t k)
  post := l.post

/-- The other threads may see the event, and the new ones start safely after it. -/
structure Allows (l : Ledger σ κ Op Reply χ ρ) (p : Pool σ κ Op Reply χ ρ) (others : Nat → Prop)
    (e : Event σ κ Op Reply χ ρ) (ths : List (Thread κ Op Reply ρ)) : Prop where
  admits : ∀ t th, others t → p.threads t = some th → l.admits t th.kind p.toWorld e
  spawns : ∀ th ∈ ths, ∀ t, p.next ≤ t → l.discipline.SafeThread t th ⟨e.after, e :: p.trace⟩

/-- The obligations of a ledger on a system. -/
structure Keeps (l : Ledger σ κ Op Reply χ ρ) (sys : System σ κ Op Reply ι χ ρ)
    (ok : Pool σ κ Op Reply χ ρ → Label ι χ → Prop) (I : Pool σ κ Op Reply χ ρ → Prop) :
    Prop where
  may : ∀ {p t k op rest c r s ths}, I p → ok p (.exec t c) →
    p.threads t = some ⟨k, .call op rest⟩ → sys.exec p.state k op c = some (r, s, ths) →
    l.may t k p.toWorld op r s
  exec : ∀ {p t k op rest c r s ths}, I p → ok p (.exec t c) →
    p.threads t = some ⟨k, .call op rest⟩ → sys.exec p.state k op c = some (r, s, ths) →
    l.guar t k p.toWorld op r ⟨s, .did t k op r p.state s :: p.trace⟩ →
    I (p.didCall t k op rest r s ths) ∧ l.Allows p (· ≠ t) (.did t k op r p.state s) ths
  finish : ∀ {p t k a}, I p → ok p (.finish t) → p.threads t = some ⟨k, .ret a⟩ →
    l.post t k a p.toWorld →
    I (p.didEnd t k a (sys.finish p.state k a).1 (sys.finish p.state k a).2) ∧
    l.Allows p (· ≠ t) (.ended t k a p.state (sys.finish p.state k a).1) (sys.finish p.state k a).2
  external : ∀ {p x s dies ths}, I p → ok p (.external x) →
    sys.external p.state x = some (s, dies, ths) →
    I (p.didOuter x s dies ths) ∧ l.Allows p (fun _ => dies = false) (.outer x p.state s) ths

theorem Allows.leaves {l : Ledger σ κ Op Reply χ ρ} {p : Pool σ κ Op Reply χ ρ}
    {others : Nat → Prop} {e : Event σ κ Op Reply χ ρ} {ths : List (Thread κ Op Reply ρ)}
    (h : l.Allows p others e ths) (hb : e.before = p.state) (ht : ∀ t, others t → ¬ e.By t) :
    l.discipline.Leaves p others ⟨e.after, e :: p.trace⟩ ths :=
  ⟨fun t th ho hth => History.rely_single hb (ht t ho) (h.admits t th ho hth), h.spawns⟩

theorem Keeps.keeps {l : Ledger σ κ Op Reply χ ρ} {sys : System σ κ Op Reply ι χ ρ}
    {ok : Pool σ κ Op Reply χ ρ → Label ι χ → Prop} {I : Pool σ κ Op Reply χ ρ → Prop}
    (h : l.Keeps sys ok I) : Concurrent.Keeps sys l.discipline ok I where
  act hI hok ht he := ⟨by simp, by simpa using h.may hI hok ht he⟩
  exec hI _ hok ht he hg := by
    rw [Pool.didCall_world] at hg ⊢
    obtain ⟨hI', ha⟩ := h.exec hI hok ht he hg
    exact ⟨hI', ha.leaves rfl fun t' hne e => hne e.symm⟩
  finish hI _ hok ht hp := by
    rw [Pool.didEnd_world]
    obtain ⟨hI', ha⟩ := h.finish hI hok ht hp
    exact ⟨hI', ha.leaves rfl fun t' hne e => hne e.symm⟩
  external hI _ hok he := by
    rw [Pool.didOuter_world]
    obtain ⟨hI', ha⟩ := h.external hI hok he
    exact ⟨hI', ha.leaves rfl fun _ _ e => e⟩

end Ledger
end Concurrent
