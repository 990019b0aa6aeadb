import Mathlib.Data.List.Basic

/-! Fixed windows: a counter that hits raise, refunds lower and the end of a window clears, and how many
hits it lets through. -/
namespace Quota

inductive Tick where
  | hit | refund | reset
deriving DecidableEq

/-- The counter after the ticks, of which the newest comes first. -/
def hits : List Tick → Nat
  | [] => 0
  | .hit :: l => hits l + 1
  | .refund :: l => hits l - 1
  | .reset :: _ => 0

/-- The hits that found the counter below the limit. -/
def admitted (limit : Nat) : List Tick → Nat
  | [] => 0
  | .hit :: l => admitted limit l + if hits l < limit then 1 else 0
  | .refund :: l => admitted limit l
  | .reset :: l => admitted limit l

section
variable (limit : Nat) (l : List Tick)

/-- Every window lets through as many as the limit says, and one more for each refund. -/
theorem admitted_le : admitted limit l ≤ limit * l.count .reset + hits l + l.count .refund ∧
    admitted limit l ≤ limit * (l.count .reset + 1) + l.count .refund := by
  induction l with
  | nil => simp [admitted]
  | cons x l ih =>
    obtain ⟨counted, bounded⟩ := ih
    cases x with
    | hit =>
      simp only [admitted, hits, List.count_cons, Nat.mul_add] at bounded ⊢
      split <;> simp <;> omega
    | refund =>
      simp only [admitted, hits, List.count_cons, Nat.mul_add] at bounded ⊢
      simp
      omega
    | reset =>
      simp only [admitted, hits, List.count_cons, Nat.mul_add] at bounded ⊢
      simp
      omega

end
end Quota
