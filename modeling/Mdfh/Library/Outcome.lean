import Mathlib.Data.List.Basic

/-!
# Computations with excused errors

Partial correctness with named exceptions: a computation either returns a result that
satisfies the postcondition or fails with an error the specification excuses. Any other
error refutes the specification, so the absence of undefined behaviour is part of it.

## Main definitions

* `Ensures` — the triple without a precondition.

## Main results

* `Ensures.bind`, `Ensures.mapM` — sequencing.
-/

namespace Mdfh.Library

universe u

variable {ε : Type u} {α β : Type u} {excused : ε → Prop}

/-- Every result satisfies `Q`, and every error is excused. -/
def Ensures (excused : ε → Prop) (x : Except ε α) (Q : α → Prop) : Prop :=
  match x with
  | .ok a => Q a
  | .error e => excused e

namespace Ensures

variable {x : Except ε α} {f : α → Except ε β} {P Q : α → Prop} {Q' : β → Prop}

@[simp] theorem ok {a : α} : Ensures excused (.ok a) Q ↔ Q a := Iff.rfl

@[simp] theorem pure {a : α} : Ensures excused (pure a) Q ↔ Q a := Iff.rfl

/-- Nothing is claimed where there is no result. -/
theorem pure_none : Ensures excused (Pure.pure none) fun r : Option α => ∀ a, r = some a → Q a :=
  fun _ h => nomatch h

theorem of_eq_ok {a : α} (h : x = .ok a) (hQ : Q a) : Ensures excused x Q := by
  subst h
  exact hQ

theorem mono (h : Ensures excused x P) (himp : ∀ a, P a → Q a) : Ensures excused x Q := by
  cases x with
  | ok a => exact himp a h
  | error e => exact h

theorem weaken {excused' : ε → Prop} (h : Ensures excused x P)
    (himp : ∀ e, excused e → excused' e) : Ensures excused' x P := by
  cases x with
  | ok a => exact h
  | error e => exact himp e h

/-- A computation that may fail in any way, and of which nothing is claimed. -/
theorem any (x : Except ε α) : Ensures (fun _ => True) x fun _ => True := by
  cases x <;> trivial

/-- A result is one of this computation. -/
theorem with_eq (h : Ensures excused x P) : Ensures excused x fun a => x = .ok a ∧ P a := by
  cases x with
  | ok a => exact ⟨rfl, h⟩
  | error e => exact h

theorem and (h : Ensures excused x P) (h' : Ensures (fun _ => True) x Q) :
    Ensures excused x fun a => P a ∧ Q a := by
  cases x with
  | ok a => exact ⟨h, h'⟩
  | error e => exact h

theorem bind (h : Ensures excused x P) (hf : ∀ a, P a → Ensures excused (f a) Q') :
    Ensures excused (x >>= f) Q' := by
  cases x with
  | ok a => exact hf a h
  | error e => exact h

theorem map {g : α → β} (h : Ensures excused x (Q' ∘ g)) : Ensures excused (g <$> x) Q' := by
  cases x with
  | ok a => exact h
  | error e => exact h

/-- The only way not to return is an excused error. -/
theorem exists_ok (h : Ensures excused x Q) (hx : ∀ e, excused e → x ≠ .error e) :
    ∃ a, x = .ok a ∧ Q a := by
  cases x with
  | ok a => exact ⟨a, rfl, h⟩
  | error e => exact absurd rfl (hx e h)

theorem mapM {l : List α} (h : ∀ a ∈ l, Ensures excused (f a) Q') :
    Ensures excused (l.mapM f) fun bs => bs.length = l.length ∧ ∀ b ∈ bs, Q' b := by
  induction l with
  | nil => exact ⟨rfl, nofun⟩
  | cons a l ih =>
    rw [List.mapM_cons]
    refine (h a List.mem_cons_self).bind ?_
    intro b hb
    refine (ih fun a' ha' => h a' (List.mem_cons_of_mem a ha')).bind ?_
    rintro bs ⟨hlen, hbs⟩
    exact ⟨congrArg (· + 1) hlen, List.forall_mem_cons.mpr ⟨hb, hbs⟩⟩

end Ensures

end Mdfh.Library
