import Mathlib.Logic.Basic

/-! Programs as trees of atomic calls, and the rely/guarantee judgement for one program
whose calls interleave with the steps of other threads. -/
namespace Concurrent

/-- What is left to run of a thread: a result, or one call and what follows each reply. -/
inductive Program (Op : Type) (Reply : Op → Type) (α : Type) : Type where
  | ret (a : α)
  | call (op : Op) (rest : Reply op → Program Op Reply α)

/-- The environment of one thread. `rely` bounds any number of steps of the others, `act` is
what a call of this thread may do, `guar` is what every call has to establish. -/
structure Contract (W : Type) (Op : Type) (Reply : Op → Type) where
  rely : W → W → Prop
  refl : ∀ w, rely w w
  trans : ∀ {w v u}, rely w v → rely v u → rely w u
  act : W → (op : Op) → Reply op → W → Prop
  guar : W → (op : Op) → Reply op → W → Prop

namespace Program
variable {W Op : Type} {Reply : Op → Type} {α β ε : Type}

def bind : Program Op Reply α → (α → Program Op Reply β) → Program Op Reply β
  | .ret a, f => f a
  | .call op rest, f => .call op fun r => (rest r).bind f

instance : Monad (Program Op Reply) where
  pure := .ret
  bind := bind

def perform (op : Op) : Program Op Reply (Reply op) := .call op .ret

@[simp] theorem pure_eq (a : α) : (pure a : Program Op Reply α) = .ret a := rfl
@[simp] theorem ret_bind (a : α) (f : α → Program Op Reply β) :
    (Program.ret a >>= f) = f a := rfl
@[simp] theorem call_bind (op : Op) (rest : Reply op → Program Op Reply α)
    (f : α → Program Op Reply β) :
    (Program.call op rest >>= f) = .call op fun r => rest r >>= f := rfl

/-- Every call the program can still make is allowed, whatever the replies are. -/
def Uses (allowed : Op → Prop) : Program Op Reply α → Prop
  | .ret _ => True
  | .call op rest => allowed op ∧ ∀ r, (rest r).Uses allowed

theorem Uses.always {allowed : Op → Prop} (h : ∀ op, allowed op) : ∀ p : Program Op Reply α, p.Uses allowed
  | .ret _ => trivial
  | .call op rest => ⟨h op, fun r => Uses.always h (rest r)⟩

theorem Uses.mono {allowed allowed' : Op → Prop} (h : ∀ op, allowed op → allowed' op) :
    ∀ {p : Program Op Reply α}, p.Uses allowed → p.Uses allowed'
  | .ret _, _ => trivial
  | .call op _, hp => ⟨h op hp.1, fun r => (hp.2 r).mono h⟩

theorem Uses.and {allowed allowed' : Op → Prop} :
    ∀ {p : Program Op Reply α}, p.Uses allowed → p.Uses allowed' →
      p.Uses fun op => allowed op ∧ allowed' op
  | .ret _, _, _ => trivial
  | .call _ _, h, h' => ⟨⟨h.1, h'.1⟩, fun r => (h.2 r).and (h'.2 r)⟩

theorem Uses.bind {allowed : Op → Prop} {f : α → Program Op Reply β} :
    ∀ {p : Program Op Reply α}, p.Uses allowed → (∀ a, (f a).Uses allowed) →
      (p >>= f).Uses allowed
  | .ret a, _, hf => hf a
  | .call _ _, hp, hf => ⟨hp.1, fun r => Uses.bind (hp.2 r) hf⟩

/-- Every result that the program can have satisfies `post`, whatever the replies are. -/
def Gives (post : α → Prop) : Program Op Reply α → Prop
  | .ret a => post a
  | .call _ rest => ∀ r, (rest r).Gives post

theorem Gives.bind_ret {f : α → β} {post : β → Prop} (h : ∀ a, post (f a)) :
    ∀ p : Program Op Reply α, (p >>= fun a => .ret (f a)).Gives post
  | .ret a => h a
  | .call _ rest => fun r => Gives.bind_ret h (rest r)

/-- The program comes to this result where every reply on the way is `given`. -/
def Comes (given : (op : Op) → Reply op → Prop) : Program Op Reply α → α → Prop
  | .ret a, b => a = b
  | .call op rest, b => ∃ r, given op r ∧ (rest r).Comes given b

theorem Comes.mono {given given' : (op : Op) → Reply op → Prop} (h : ∀ op r, given op r → given' op r)
    {b : α} : ∀ {p : Program Op Reply α}, p.Comes given b → p.Comes given' b
  | .ret _, hp => hp
  | .call op _, ⟨r, hr, hp⟩ => ⟨r, h op r hr, hp.mono h⟩

theorem Comes.of_bind {given : (op : Op) → Reply op → Prop} {f : α → Program Op Reply β} {b : β} :
    ∀ {p : Program Op Reply α}, (p >>= f).Comes given b → ∃ a, p.Comes given a ∧ (f a).Comes given b
  | .ret a, hp => ⟨a, rfl, hp⟩
  | .call _ _, ⟨r, hr, hp⟩ =>
    have ⟨a, ha, hf⟩ := Comes.of_bind hp
    ⟨a, ⟨r, hr, ha⟩, hf⟩

/-- From `w`, with the steps of the others interleaved, every call keeps the guarantee and
every result satisfies `post`. -/
def Safe (c : Contract W Op Reply) (post : α → W → Prop) : Program Op Reply α → W → Prop
  | .ret a, w => ∀ w', c.rely w w' → post a w'
  | .call op rest, w => ∀ w', c.rely w w' → ∀ r w'', c.act w' op r w'' →
      c.guar w' op r w'' ∧ (rest r).Safe c post w''

section Rules
variable {c : Contract W Op Reply} {post : α → W → Prop} {w w' : W}

theorem Safe.stable {p : Program Op Reply α} (hp : p.Safe c post w) (h : c.rely w w') :
    p.Safe c post w' := by
  cases p with
  | ret a => exact fun v hv => hp v (c.trans h hv)
  | call op rest => exact fun v hv => hp v (c.trans h hv)

theorem Safe.mono {post' : α → W → Prop} (h : ∀ a v, post a v → post' a v) :
    ∀ {p : Program Op Reply α} {w : W}, p.Safe c post w → p.Safe c post' w
  | .ret a, _, hp => fun v hv => h a v (hp v hv)
  | .call _ _, _, hp => fun v hv r u hu => ⟨(hp v hv r u hu).1, (hp v hv r u hu).2.mono h⟩

theorem Safe.bind {f : α → Program Op Reply β} {q : β → W → Prop} :
    ∀ {p : Program Op Reply α} {w : W},
      p.Safe c (fun a v => (f a).Safe c q v) w → (p >>= f).Safe c q w
  | .ret _, w, hp => hp w (c.refl w)
  | .call _ _, _, hp => fun v hv r u hu =>
      ⟨(hp v hv r u hu).1, Safe.bind (hp v hv r u hu).2⟩

/-- What no step of the thread or of the others undoes still holds at the end. -/
theorem Safe.keeping {φ : W → Prop} (stable : ∀ w w', c.rely w w' → φ w → φ w')
    (h : ∀ w op r w', c.act w op r w' → φ w → φ w') :
    ∀ {p : Program Op Reply α} {w : W}, p.Safe c post w → φ w → p.Safe c (fun a v => post a v ∧ φ v) w
  | .ret _, w, hp, hw => fun v hv => ⟨hp v hv, stable w v hv hw⟩
  | .call op _, w, hp, hw => fun v hv r u hu => ⟨(hp v hv r u hu).1,
      (hp v hv r u hu).2.keeping stable h (h v op r u hu (stable w v hv hw))⟩

end Rules

/-! Programs that may throw are `ExceptT` over the trees. -/

theorem Uses.except_bind {allowed : Op → Prop} {m : ExceptT ε (Program Op Reply) α}
    {f : α → ExceptT ε (Program Op Reply) β} (hm : m.run.Uses allowed)
    (hf : ∀ a, (f a).run.Uses allowed) : (m >>= f).run.Uses allowed := by
  refine Uses.bind (p := m.run) hm ?_
  intro r
  cases r with
  | ok a => exact hf a
  | error e => trivial

theorem Uses.except_map {allowed : Op → Prop} {m : ExceptT ε (Program Op Reply) α} {f : α → β}
    (hm : m.run.Uses allowed) : (f <$> m).run.Uses allowed := by
  refine Uses.bind (p := m.run) hm ?_
  intro r
  cases r with
  | ok a => trivial
  | error e => trivial

theorem Uses.tryCatch {allowed : Op → Prop} {m : ExceptT ε (Program Op Reply) α}
    {f : ε → ExceptT ε (Program Op Reply) α} (hm : m.run.Uses allowed)
    (hf : ∀ e, (f e).run.Uses allowed) : (tryCatch m f).run.Uses allowed := by
  refine Uses.bind (p := m.run) hm ?_
  intro r
  cases r with
  | ok a => trivial
  | error e => exact hf e

/-- A postcondition that separates the normal result from the thrown one. -/
def split (ok : α → W → Prop) (err : ε → W → Prop) : Except ε α → W → Prop
  | .ok a, w => ok a w
  | .error e, w => err e w

section Throwing
variable {c : Contract W Op Reply} {w : W}

theorem Safe.except_bind {m : ExceptT ε (Program Op Reply) α}
    {f : α → ExceptT ε (Program Op Reply) β} {q : β → W → Prop} {err : ε → W → Prop}
    (stable : ∀ e x y, c.rely x y → err e x → err e y)
    (hm : m.run.Safe c (split (fun a v => (f a).run.Safe c (split q err) v) err) w) :
    (m >>= f).run.Safe c (split q err) w := by
  refine Safe.bind (p := m.run) (hm.mono ?_)
  intro r v hr
  cases r with
  | ok a => exact hr
  | error e => exact fun u hu => stable e v u hu hr

theorem Safe.map_any {m : ExceptT ε (Program Op Reply) α} {f : α → β}
    {q : Except ε α → W → Prop} (hm : m.run.Safe c q w) :
    (f <$> m).run.Safe c (fun _ _ => True) w := by
  refine Safe.bind (p := m.run) (hm.mono ?_)
  rintro (e | a) v _ u _ <;> trivial

theorem Safe.except_bind_any {m : ExceptT ε (Program Op Reply) α}
    {f : α → ExceptT ε (Program Op Reply) β} {q : α → W → Prop} {err : ε → W → Prop}
    (hm : m.run.Safe c (split q err) w) (hf : ∀ a v, q a v → (f a).run.Safe c (fun _ _ => True) v) :
    (m >>= f).run.Safe c (fun _ _ => True) w := by
  refine Safe.bind (p := m.run) (hm.mono ?_)
  intro r v hr
  cases r with
  | ok a => exact hf a v hr
  | error e => exact fun _ _ => trivial

theorem Safe.tryCatch_any {m : ExceptT ε (Program Op Reply) α}
    {f : ε → ExceptT ε (Program Op Reply) α} (hm : m.run.Safe c (fun _ _ => True) w)
    (hf : ∀ e v, (f e).run.Safe c (fun _ _ => True) v) :
    (tryCatch m f).run.Safe c (fun _ _ => True) w := by
  refine Safe.bind (p := m.run) (hm.mono ?_)
  intro r v _
  cases r with
  | ok a => exact fun _ _ => trivial
  | error e => exact hf e v

theorem Safe.tryCatch {m : ExceptT ε (Program Op Reply) α}
    {f : ε → ExceptT ε (Program Op Reply) α} {q : α → W → Prop} {err : ε → W → Prop}
    (stable : ∀ a x y, c.rely x y → q a x → q a y)
    (hm : m.run.Safe c (split q fun e v => (f e).run.Safe c (split q err) v) w) :
    (tryCatch m f).run.Safe c (split q err) w := by
  refine Safe.bind (p := m.run) (hm.mono ?_)
  intro r v hr
  cases r with
  | ok a => exact fun u hu => stable a v u hu hr
  | error e => exact hr

end Throwing

section Calls
variable {Val : Op → Type}

/-- A call whose reply is a value or a thrown error. -/
def invoke (op : Op) : ExceptT ε (Program Op fun o => Except ε (Val o)) (Val op) :=
  ExceptT.mk (perform op)

variable {c : Contract W Op fun o => Except ε (Val o)} {op : Op} {w : W}

theorem Uses.invoke {allowed : Op → Prop} (h : allowed op) :
    (invoke op : ExceptT ε (Program Op fun o => Except ε (Val o)) (Val op)).run.Uses allowed := ⟨h, fun _ => trivial⟩

theorem Safe.invoke_bind {f : Val op → ExceptT ε (Program Op fun o => Except ε (Val o)) β}
    {post : Except ε β → W → Prop}
    (h : ∀ w', c.rely w w' → ∀ r w'', c.act w' op r w'' → c.guar w' op r w'' ∧
      match r with
      | .ok a => (f a).run.Safe c post w''
      | .error e => ∀ v, c.rely w'' v → post (.error e) v) :
    (Program.invoke op >>= f).run.Safe c post w := by
  intro w' hw r w'' ha
  obtain ⟨hg, hr⟩ := h w' hw r w'' ha
  refine ⟨hg, ?_⟩
  cases r with
  | ok a => exact hr
  | error e => exact hr

theorem Safe.invoke {post : Except ε (Val op) → W → Prop}
    (h : ∀ w', c.rely w w' → ∀ r w'', c.act w' op r w'' → c.guar w' op r w'' ∧
      ∀ v, c.rely w'' v → post r v) :
    (Program.invoke op).run.Safe c post w := h

end Calls

/-- A program whose calls all keep the guarantee, and a fact that the others keep too, is safe. -/
theorem Safe.of_uses_keeping {c : Contract W Op Reply} {allowed : Op → Prop} {φ : W → Prop}
    (stable : ∀ w w', c.rely w w' → φ w → φ w')
    (h : ∀ w op r w', allowed op → φ w → c.act w op r w' → c.guar w op r w' ∧ φ w') :
    ∀ {p : Program Op Reply α} {w : W}, p.Uses allowed → φ w → p.Safe c (fun _ v => φ v) w
  | .ret _, w, _, hw => fun w' hr => stable w w' hr hw
  | .call _ _, w, hp, hw => fun v hv r u hu =>
    have ⟨hg, hφ⟩ := h v _ r u hp.1 (stable w v hv hw) hu
    ⟨hg, Safe.of_uses_keeping stable h (hp.2 r) hφ⟩

/-- A program whose calls all keep the guarantee by themselves is safe. -/
theorem Safe.of_uses {c : Contract W Op Reply} {allowed : Op → Prop}
    (h : ∀ w op r w', allowed op → c.act w op r w' → c.guar w op r w')
    {p : Program Op Reply α} {w : W} (hp : p.Uses allowed) : p.Safe c (fun _ _ => True) w :=
  .of_uses_keeping (fun _ _ _ => id) (fun w op r w' ho hφ ha => ⟨h w op r w' ho ha, hφ⟩) hp trivial

end Program
end Concurrent
