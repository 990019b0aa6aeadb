import CircleFtp.Concurrent.Program

/-! Triples for programs that may throw: an assertion before, one for the result and one for the
error, with the steps of other threads in between. -/
namespace Concurrent
variable {W Op : Type} {Val : Op → Type} {α β ε : Type}

abbrev Thrower (Op : Type) (Val : Op → Type) (ε α : Type) : Type :=
  ExceptT ε (Program Op fun o => Except ε (Val o)) α

/-- The other threads keep the assertion. -/
def Contract.Stable {Reply : Op → Type} (c : Contract W Op Reply) (P : W → Prop) : Prop :=
  ∀ w w', c.rely w w' → P w → P w'

theorem Contract.Stable.true {Reply : Op → Type} (c : Contract W Op Reply) :
    c.Stable fun _ => True := fun _ _ _ => id

/-- From `P` the call keeps the guarantee; a result satisfies `Q`, and an error leaves `P`. -/
structure Contract.Calls (c : Contract W Op fun o => Except ε (Val o)) (P : W → Prop) (op : Op)
    (Q : Val op → W → Prop) : Prop where
  guar : ∀ w r w', P w → c.act w op r w' → c.guar w op r w'
  ok : ∀ w a w', P w → c.act w op (.ok a) w' → Q a w'
  error : ∀ w e w', P w → c.act w op (.error e) w' → P w'

/-- From `P` the call keeps the guarantee; a result satisfies `Q` and an error `E`. -/
structure Contract.Leads (c : Contract W Op fun o => Except ε (Val o)) (P : W → Prop) (op : Op)
    (Q : Val op → W → Prop) (E : ε → W → Prop) : Prop where
  guar : ∀ w r w', P w → c.act w op r w' → c.guar w op r w'
  ok : ∀ w a w', P w → c.act w op (.ok a) w' → Q a w'
  error : ∀ w e w', P w → c.act w op (.error e) w' → E e w'

/-- From `P` the program is safe, with `Q` for its result and `E` for its error. -/
def Contract.Does (c : Contract W Op fun o => Except ε (Val o)) (P : W → Prop)
    (m : Thrower Op Val ε α) (Q : α → W → Prop) (E : ε → W → Prop) : Prop :=
  ∀ w, P w → m.run.Safe c (Program.split Q E) w

namespace Contract
variable {c : Contract W Op fun o => Except ε (Val o)} {P P' : W → Prop} {Q Q' : α → W → Prop}
  {R : β → W → Prop} {E E' : ε → W → Prop} {m : Thrower Op Val ε α}

theorem Calls.mono {op : Op} {Q Q' : Val op → W → Prop} (h : c.Calls P op Q)
    (hQ : ∀ a w, Q a w → Q' a w) : c.Calls P op Q' :=
  ⟨h.guar, fun w a w' hP ha => hQ a w' (h.ok w a w' hP ha), h.error⟩

theorem Does.conseq (h : c.Does P m Q E) (hP : ∀ w, P' w → P w) (hQ : ∀ a w, Q a w → Q' a w)
    (hE : ∀ e w, E e w → E' e w) : c.Does P' m Q' E' := by
  intro w hw
  refine (h w (hP w hw)).mono ?_
  rintro (e | a) v hv
  · exact hE e v hv
  · exact hQ a v hv

/-- A fact that no step undoes is carried along. -/
theorem Does.keeping {φ : W → Prop} (stable : c.Stable φ)
    (h : ∀ w op r w', c.act w op r w' → φ w → φ w') (hm : c.Does P m Q E) :
    c.Does (fun w => P w ∧ φ w) m (fun a w => Q a w ∧ φ w) fun e w => E e w ∧ φ w := by
  intro w hw
  refine ((hm w hw.1).keeping stable h hw.2).mono ?_
  rintro (e | a) v hv <;> exact hv

theorem Does.pure {a : α} (hP : c.Stable P) (h : ∀ w, P w → Q a w) :
    c.Does P (Pure.pure a : Thrower Op Val ε α) Q E := fun w hw v hv => h v (hP w v hv hw)

theorem Does.throw {e : ε} (hP : c.Stable P) (h : ∀ w, P w → E e w) :
    c.Does P (throw e : Thrower Op Val ε α) Q E := fun w hw v hv => h v (hP w v hv hw)

theorem Does.bind {f : α → Thrower Op Val ε β} (hE : ∀ e, c.Stable (E e)) (hm : c.Does P m Q E)
    (hf : ∀ a, c.Does (Q a) (f a) R E) : c.Does P (m >>= f) R E := by
  intro w hw
  refine Program.Safe.except_bind (fun e v v' => hE e v v') ((hm w hw).mono ?_)
  rintro (e | a) v hv
  · exact hv
  · exact hf a v hv

theorem Does.catch {F : ε → W → Prop} {f : ε → Thrower Op Val ε α} (hQ : ∀ a, c.Stable (Q a))
    (hm : c.Does P m Q F) (hf : ∀ e, c.Does (F e) (f e) Q E) : c.Does P (tryCatch m f) Q E := by
  intro w hw
  refine Program.Safe.tryCatch (fun a v v' => hQ a v v') ((hm w hw).mono ?_)
  rintro (e | a) v hv
  · exact hf e v hv
  · exact hv

theorem Does.leads {op : Op} {Q : Val op → W → Prop} {f : Val op → Thrower Op Val ε β}
    (hP : c.Stable P) (hE : ∀ e, c.Stable (E e)) (h : c.Leads P op Q E)
    (hf : ∀ a, c.Does (Q a) (f a) R E) : c.Does P (Program.invoke op >>= f) R E := by
  intro w hw
  refine Program.Safe.invoke_bind fun w₁ h₁ r w₂ ha => ?_
  have hw₁ := hP w w₁ h₁ hw
  refine ⟨h.guar w₁ r w₂ hw₁ ha, ?_⟩
  cases r with
  | error e => exact fun v hv => hE e w₂ v hv (h.error w₁ e w₂ hw₁ ha)
  | ok a => exact hf a w₂ (h.ok w₁ a w₂ hw₁ ha)

/-- The last call of a program. -/
theorem Does.leads_last {op : Op} {Q : Val op → W → Prop} (hP : c.Stable P)
    (hQ : ∀ a, c.Stable (Q a)) (hE : ∀ e, c.Stable (E e)) (h : c.Leads P op Q E) :
    c.Does P (Program.invoke op : Thrower Op Val ε _) Q E := by
  intro w hw
  refine Program.Safe.invoke fun w₁ h₁ r w₂ ha => ?_
  have hw₁ := hP w w₁ h₁ hw
  refine ⟨h.guar w₁ r w₂ hw₁ ha, fun v hv => ?_⟩
  cases r with
  | error e => exact hE e w₂ v hv (h.error w₁ e w₂ hw₁ ha)
  | ok a => exact hQ a w₂ v hv (h.ok w₁ a w₂ hw₁ ha)

theorem Does.call {op : Op} {Q : Val op → W → Prop} (hP : c.Stable P) (hQ : ∀ a, c.Stable (Q a))
    (h : c.Calls P op Q) : c.Does P (Program.invoke op : Thrower Op Val ε _) Q fun _ => P :=
  .leads_last hP hQ (fun _ => hP) ⟨h.guar, h.ok, h.error⟩

/-- A call followed by the rest, when an error of the call is a case of `E`. -/
theorem Does.step {op : Op} {Q : Val op → W → Prop} {f : Val op → Thrower Op Val ε β}
    (hP : c.Stable P) (hQ : ∀ a, c.Stable (Q a)) (hE : ∀ e, c.Stable (E e)) (h : c.Calls P op Q)
    (hPE : ∀ e w, P w → E e w) (hf : ∀ a, c.Does (Q a) (f a) R E) :
    c.Does P (Program.invoke op >>= f) R E :=
  .bind hE ((Does.call hP hQ h).conseq (fun _ h => h) (fun _ _ h => h) hPE) hf

theorem Does.call_telling {op : Op} {Q : Val op → W → Prop} (hP : c.Stable P)
    (hQ : ∀ a, c.Stable (Q a)) (hE : ∀ e, c.Stable (E e)) (h : c.Calls P op Q)
    (tells : ∀ w e w', P w → c.act w op (.error e) w' → E e w') :
    c.Does P (Program.invoke op : Thrower Op Val ε _) Q E :=
  .leads_last hP hQ hE ⟨h.guar, h.ok, tells⟩

/-- A call followed by the rest, with what its errors tell. -/
theorem Does.telling {op : Op} {Q : Val op → W → Prop} {f : Val op → Thrower Op Val ε β}
    (hP : c.Stable P) (hE : ∀ e, c.Stable (E e)) (h : c.Calls P op Q)
    (tells : ∀ w e w', P w → c.act w op (.error e) w' → E e w') (hf : ∀ a, c.Does (Q a) (f a) R E) :
    c.Does P (Program.invoke op >>= f) R E := .leads hP hE ⟨h.guar, h.ok, tells⟩ hf

/-- A call that does not fail. -/
theorem Does.surely {op : Op} {Q : Val op → W → Prop} {f : Val op → Thrower Op Val ε β}
    (hP : c.Stable P) (h : c.Calls P op Q)
    (sure : ∀ w e w', P w → ¬ c.act w op (.error e) w') (hf : ∀ a, c.Does (Q a) (f a) R E) :
    c.Does P (Program.invoke op >>= f) R E := by
  intro w hw
  refine Program.Safe.invoke_bind fun w₁ h₁ r w₂ ha => ?_
  have hw₁ := hP w w₁ h₁ hw
  refine ⟨h.guar w₁ r w₂ hw₁ ha, ?_⟩
  cases r with
  | error e => exact absurd ha (sure w₁ e w₂ hw₁)
  | ok a => exact hf a w₂ (h.ok w₁ a w₂ hw₁ ha)

/-- A program all of whose calls keep the guarantee and the assertion. -/
theorem Does.of_uses {allowed : Op → Prop} (hP : c.Stable P)
    (h : ∀ op, allowed op → c.Calls P op fun _ => P) (hm : m.run.Uses allowed) :
    c.Does P m (fun _ => P) fun _ => P := by
  intro w hw
  refine (Program.Safe.of_uses_keeping hP (fun v op r v' ho hv ha => ?_) hm hw).mono ?_
  · refine ⟨(h op ho).guar v r v' hv ha, ?_⟩
    cases r with
    | error e => exact (h op ho).error v e v' hv ha
    | ok a => exact (h op ho).ok v a v' hv ha
  · rintro (e | a) v hv <;> exact hv

/-- The same surroundings with a promise for each call. -/
def promising {Reply : Op → Type} (c : Contract W Op Reply)
    (G : W → (op : Op) → Reply op → W → Prop) : Contract W Op Reply := { c with guar := G }

theorem Calls.promising {op : Op} {Q : Val op → W → Prop}
    {G : W → (op : Op) → Except ε (Val op) → W → Prop} (h : c.Calls P op Q)
    (hG : ∀ w r w', P w → c.act w op r w' → G w op r w') : (c.promising G).Calls P op Q :=
  ⟨hG, h.ok, h.error⟩

end Contract
end Concurrent
