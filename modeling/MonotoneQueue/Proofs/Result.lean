import Mathlib
import MonotoneQueue.Failure

/- How the steps of an operation that may fail are taken apart. -/
namespace MonotoneQueue.Result

variable {α β γ δ : Type}

@[simp] theorem ok_bind (a : α) (f : α → Result β) : ((.ok a : Result α) >>= f) = f a := rfl

@[simp] theorem error_bind (e : Failure) (f : α → Result β) :
    ((.error e : Result α) >>= f) = .error e := rfl

@[simp] theorem map_ok (f : α → β) (a : α) : f <$> (.ok a : Result α) = .ok (f a) := rfl

@[simp] theorem map_error (f : α → β) (e : Failure) :
    f <$> (.error e : Result α) = .error e := rfl

theorem bind_eq_ok {r : Result α} {f : α → Result β} {b : β} :
    (r >>= f) = .ok b ↔ ∃ a, r = .ok a ∧ f a = .ok b := by
  cases r with
  | error e => simp
  | ok a => simp

theorem map_eq_ok {r : Result α} {f : α → β} {b : β} :
    f <$> r = .ok b ↔ ∃ a, r = .ok a ∧ f a = b := by
  cases r with
  | error e => simp
  | ok a => simp

/-! Two results side by side. -/

/-- Both fail for the same cause, or what they give is related. -/
inductive Rel (R : α → β → Prop) : Result α → Result β → Prop
  | error (f : Failure) : Rel R (.error f) (.error f)
  | ok {a : α} {b : β} (h : R a b) : Rel R (.ok a) (.ok b)

namespace Rel

variable {R : α → β → Prop} {S : γ → δ → Prop} {r : Result α} {r' : Result β}

theorem bind {f : α → Result γ} {g : β → Result δ} (h : Rel R r r')
    (hfg : ∀ a b, R a b → Rel S (f a) (g b)) : Rel S (r >>= f) (r' >>= g) := by
  cases h with
  | error f => exact .error f
  | ok hab => exact hfg _ _ hab

theorem of_ok (h : Rel R r r') {b : β} (hr : r' = .ok b) : ∃ a, r = .ok a ∧ R a b := by
  subst hr
  cases h with
  | ok hab => exact ⟨_, rfl, hab⟩

theorem of_error (h : Rel R r r') {f : Failure} (hr : r' = .error f) : r = .error f := by
  subst hr
  cases h with
  | error => rfl

theorem map {f : α → γ} {g : β → δ} (h : Rel R r r') (hfg : ∀ a b, R a b → S (f a) (g b)) :
    Rel S (f <$> r) (g <$> r') := by
  cases h with
  | error f => exact .error f
  | ok hab => exact .ok (hfg _ _ hab)

end Rel
end MonotoneQueue.Result
