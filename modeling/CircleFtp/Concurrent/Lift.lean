import CircleFtp.Concurrent.Program

/-! Programs of one component within a larger system, whose calls include the component's. -/
namespace Concurrent.Program
variable {Op Op' : Type} {Reply : Op → Type} {Reply' : Op' → Type} {α : Type}

/-- The same program with its calls as calls of the larger system. -/
def lift (into : Op → Op') (back : ∀ o, Reply' (into o) → Reply o) :
    Program Op Reply α → Program Op' Reply' α
  | .ret a => .ret a
  | .call o rest => .call (into o) fun r => (rest (back o r)).lift into back

theorem Uses.lift {into : Op → Op'} {back : ∀ o, Reply' (into o) → Reply o} {allowed : Op' → Prop} :
    ∀ {p : Program Op Reply α}, (p.Uses fun o => allowed (into o)) → (p.lift into back).Uses allowed
  | .ret _, _ => trivial
  | .call o _, h => ⟨h.1, fun r => Uses.lift (h.2 (back o r))⟩

theorem lift_bind {β : Type} {into : Op → Op'} {back : ∀ o, Reply' (into o) → Reply o}
    (p : Program Op Reply α) (f : α → Program Op Reply β) :
    (p >>= f).lift into back = p.lift into back >>= fun a => (f a).lift into back := by
  induction p with
  | ret a => rfl
  | call o rest ih =>
    rw [call_bind, lift, lift, call_bind]
    exact congrArg _ (funext fun r => ih _)

theorem Comes.of_lift {into : Op → Op'} {back : ∀ o, Reply' (into o) → Reply o}
    {given : (o : Op') → Reply' o → Prop} {b : α} : ∀ {p : Program Op Reply α},
      (p.lift into back).Comes given b → p.Comes (fun o r => ∃ r', back o r' = r ∧ given (into o) r') b
  | .ret _, hp => hp
  | .call o _, ⟨r, hr, hp⟩ => ⟨back o r, ⟨r, rfl, hr⟩, Comes.of_lift hp⟩

end Concurrent.Program
