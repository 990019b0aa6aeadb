import CircleFtp.Concurrent.Pool

/-! Soundness of the rely/guarantee judgement for a pool: when every call of a thread that
keeps its guarantee also respects what the other threads rely on, all threads stay safe. -/
namespace Concurrent
variable {σ κ Op : Type} {Reply : Op → Type} {ι χ ρ : Type}

/-- One contract and one postcondition for each thread number and kind. -/
structure Discipline (σ κ Op : Type) (Reply : Op → Type) (χ ρ : Type) where
  contract : Nat → κ → Contract (World σ κ Op Reply χ ρ) Op Reply
  post : Nat → κ → ρ → World σ κ Op Reply χ ρ → Prop

namespace Discipline

def SafeThread (d : Discipline σ κ Op Reply χ ρ) (t : Nat) (th : Thread κ Op Reply ρ)
    (w : World σ κ Op Reply χ ρ) : Prop := th.prog.Safe (d.contract t th.kind) (d.post t th.kind) w

def AllSafe (d : Discipline σ κ Op Reply χ ρ) (p : Pool σ κ Op Reply χ ρ) : Prop :=
  ∀ t th, p.threads t = some th → d.SafeThread t th p.toWorld

/-- What a step leaves to the other threads and to the new ones. -/
def Leaves (d : Discipline σ κ Op Reply χ ρ) (p : Pool σ κ Op Reply χ ρ) (others : Nat → Prop)
    (w : World σ κ Op Reply χ ρ) (ths : List (Thread κ Op Reply ρ)) : Prop :=
  (∀ t th, others t → p.threads t = some th → (d.contract t th.kind).rely p.toWorld w) ∧
  ∀ th ∈ ths, ∀ t, p.next ≤ t → d.SafeThread t th w

theorem allSafe_initial (d : Discipline σ κ Op Reply χ ρ) (s : σ) :
    d.AllSafe (Pool.initial s) := fun _ _ h => by cases h

end Discipline

/-- The obligations of a discipline on a system, for the steps that meet `ok` from a pool
that satisfies `I`. -/
structure Keeps (sys : System σ κ Op Reply ι χ ρ) (d : Discipline σ κ Op Reply χ ρ)
    (ok : Pool σ κ Op Reply χ ρ → Label ι χ → Prop) (I : Pool σ κ Op Reply χ ρ → Prop) :
    Prop where
  act : ∀ {p t k op rest c r s ths}, I p → ok p (.exec t c) →
    p.threads t = some ⟨k, .call op rest⟩ → sys.exec p.state k op c = some (r, s, ths) →
    (d.contract t k).act p.toWorld op r (p.didCall t k op rest r s ths).toWorld
  exec : ∀ {p t k op rest c r s ths}, I p → d.AllSafe p → ok p (.exec t c) →
    p.threads t = some ⟨k, .call op rest⟩ → sys.exec p.state k op c = some (r, s, ths) →
    (d.contract t k).guar p.toWorld op r (p.didCall t k op rest r s ths).toWorld →
    I (p.didCall t k op rest r s ths) ∧
    d.Leaves p (· ≠ t) (p.didCall t k op rest r s ths).toWorld ths
  finish : ∀ {p t k a}, I p → d.AllSafe p → ok p (.finish t) →
    p.threads t = some ⟨k, .ret a⟩ → d.post t k a p.toWorld →
    I (p.didEnd t k a (sys.finish p.state k a).1 (sys.finish p.state k a).2) ∧
    d.Leaves p (· ≠ t) (p.didEnd t k a (sys.finish p.state k a).1 (sys.finish p.state k a).2).toWorld
      (sys.finish p.state k a).2
  external : ∀ {p x s dies ths}, I p → d.AllSafe p → ok p (.external x) →
    sys.external p.state x = some (s, dies, ths) →
    I (p.didOuter x s dies ths) ∧
    d.Leaves p (fun _ => dies = false) (p.didOuter x s dies ths).toWorld ths

section
variable {sys : System σ κ Op Reply ι χ ρ} {d : Discipline σ κ Op Reply χ ρ}
  {ok : Pool σ κ Op Reply χ ρ → Label ι χ → Prop} {I : Pool σ κ Op Reply χ ρ → Prop}

theorem Discipline.AllSafe.call {p : Pool σ κ Op Reply χ ρ} (h : d.AllSafe p) {t : Nat} {k : κ}
    {op : Op} {rest : Reply op → Program Op Reply ρ} (ht : p.threads t = some ⟨k, .call op rest⟩)
    {r : Reply op} {w : World σ κ Op Reply χ ρ} (ha : (d.contract t k).act p.toWorld op r w) :
    (d.contract t k).guar p.toWorld op r w ∧ d.SafeThread t ⟨k, rest r⟩ w :=
  h t _ ht p.toWorld ((d.contract t k).refl _) r w ha

/-- The threads of a step's result are the one that moved, old ones and new ones. -/
theorem Discipline.Leaves.allSafe {p p' : Pool σ κ Op Reply χ ρ} {others : Nat → Prop}
    {ths : List (Thread κ Op Reply ρ)} (hl : d.Leaves p others p'.toWorld ths)
    (hs : d.AllSafe p)
    (hold : ∀ t th, p'.threads t = some th →
      d.SafeThread t th p'.toWorld ∨ (others t ∧ p.threads t = some th) ∨ (p.next ≤ t ∧ th ∈ ths)) :
    d.AllSafe p' := by
  intro t th ht
  rcases hold t th ht with h | ⟨ho, h⟩ | ⟨hn, h⟩
  · exact h
  · exact (hs t th h).stable (hl.1 t th ho h)
  · exact hl.2 th h t hn

theorem Keeps.step (hk : Keeps sys d ok I) {p p' : Pool σ κ Op Reply χ ρ} {l : Label ι χ}
    (h : I p ∧ d.AllSafe p) (hl : ok p l) (hs : sys.step p l = some p') : I p' ∧ d.AllSafe p' := by
  rcases sys.step_cases hs with
    ⟨t, k, op, rest, c, r, s, ths, rfl, ht, he, rfl⟩ | ⟨t, k, a, rfl, ht, rfl⟩ |
    ⟨x, s, dies, ths, rfl, he, rfl⟩
  · obtain ⟨hg, hrest⟩ := h.2.call ht (hk.act h.1 hl ht he)
    obtain ⟨hI, hleave⟩ := hk.exec h.1 h.2 hl ht he hg
    refine ⟨hI, hleave.allSafe h.2 ?_⟩
    intro t' th' ht'
    rcases Pool.spawn_threads ht' with h' | h'
    · by_cases e : t' = t
      · subst e
        have : (⟨k, rest r⟩ : Thread κ Op Reply ρ) = th' := by simpa [Pool.set] using h'
        subst this
        exact .inl hrest
      · exact .inr (.inl ⟨e, by simpa [Pool.set, Pool.log, Function.update_of_ne e] using h'⟩)
    · exact .inr (.inr h')
  · have hpost := h.2 t _ ht p.toWorld ((d.contract t k).refl _)
    obtain ⟨hI, hleave⟩ := hk.finish h.1 h.2 hl ht hpost
    refine ⟨hI, hleave.allSafe h.2 ?_⟩
    intro t' th' ht'
    rcases Pool.spawn_threads ht' with h' | h'
    · by_cases e : t' = t
      · subst e
        simp [Pool.set] at h'
      · exact .inr (.inl ⟨e, by simpa [Pool.set, Pool.log, Function.update_of_ne e] using h'⟩)
    · exact .inr (.inr h')
  · obtain ⟨hI, hleave⟩ := hk.external h.1 h.2 hl he
    refine ⟨hI, hleave.allSafe h.2 ?_⟩
    intro t' th' ht'
    rcases Pool.spawn_threads ht' with h' | h'
    · cases dies with
      | true => simp at h'
      | false => exact .inr (.inl ⟨rfl, h'⟩)
    · exact .inr (.inr h')

/-- Along every run that meets the condition the invariant holds and every thread is safe. -/
theorem Keeps.safe (hk : Keeps sys d ok I) {p p' : Pool σ κ Op Reply χ ρ} (h0 : I p)
    (hs : d.AllSafe p) (hr : sys.Runs ok p p') : I p' ∧ d.AllSafe p' :=
  sys.invariant (I := fun q => I q ∧ d.AllSafe q) (fun _ _ _ h hl hst => hk.step h hl hst)
    ⟨h0, hs⟩ hr

end
end Concurrent
