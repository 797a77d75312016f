/-
  Xv6Labs.Lib.Calls — calls that return or panic, one bind at a time.

  Two runs are in `Lockstep` if both return, with related results, or both panic with the same
  message.
-/

import Mathlib.Data.Nat.Basic

namespace Xv6Labs.Lib

variable {ε α β : Type}

/-- A call that returned: the rest runs on what it returned. -/
theorem ok_bind (a : α) (f : α → Except ε β) : (Except.ok a >>= f) = f a := rfl

theorem error_bind (e : ε) (f : α → Except ε β) : (Except.error e >>= f) = .error e := rfl

/-- A run that did not panic: the call returned, and the rest ran on what it returned. -/
theorem bind_ok {x : Except ε α} {f : α → Except ε β} {b : β} (h : (x >>= f) = .ok b) :
    ∃ a, x = .ok a ∧ f a = .ok b := by
  cases x with
  | error e => cases h
  | ok a => exact ⟨a, rfl, h⟩

/-- A run that panicked: in the call, or in the rest. -/
theorem bind_error {x : Except ε α} {f : α → Except ε β} {m : ε} (h : (x >>= f) = .error m) :
    x = .error m ∨ ∃ a, x = .ok a ∧ f a = .error m := by
  cases x with
  | error e =>
    cases h
    exact Or.inl rfl
  | ok a => exact Or.inr ⟨a, rfl, h⟩

/-- A run that does not panic with `m`; it may return, or panic with something else. -/
def Avoids (m : ε) (x : Except ε α) : Prop := x ≠ .error m

theorem Avoids.ok {m : ε} (a : α) : Avoids m (.ok a) := nofun

theorem Avoids.error {m e : ε} (h : e ≠ m) : Avoids m (.error e : Except ε α) := fun h' => h (Except.error.inj h')

theorem Avoids.bind {m : ε} {x : Except ε α} {f : α → Except ε β} (h : Avoids m x)
    (hf : ∀ a, x = .ok a → Avoids m (f a)) : Avoids m (x >>= f) := by
  intro hm
  rcases bind_error hm with hx | ⟨a, ha, hx⟩
  · exact h hx
  · exact hf a ha hx

/-- A run that returns with `P`, or panics with one of `E`. -/
def Ends (E : ε → Prop) (P : α → Prop) (x : Except ε α) : Prop :=
  match x with
  | .ok a => P a
  | .error e => E e

theorem Ends.bind {E : ε → Prop} {P : α → Prop} {Q : β → Prop} {x : Except ε α} {f : α → Except ε β} (h : Ends E P x)
    (hf : ∀ a, P a → Ends E Q (f a)) :
    Ends E Q (x >>= f) := by
  cases x with
  | error e => exact h
  | ok a => exact hf a h

theorem Ends.mono {E E' : ε → Prop} {P P' : α → Prop} {x : Except ε α} (h : Ends E P x) (hE : ∀ e, E e → E' e)
    (hP : ∀ a, P a → P' a) : Ends E' P' x := by
  cases x with
  | error e => exact hE e h
  | ok a => exact hP a h

/-- Calls one after the other that all return. -/
theorem mapM_ok {f : α → Except ε β} {g : α → β} : ∀ {l : List α}, (∀ a ∈ l, f a = .ok (g a)) →
    l.mapM f = .ok (l.map g) := by
  intro l
  induction l with
  | nil => exact fun _ => rfl
  | cons a l ih =>
    intro h
    rw [List.mapM_cons, h a (List.mem_cons_self ..), ok_bind, ih fun b hb => h b (List.mem_cons_of_mem a hb)]
    rfl

/-- The message of a panic, empty if there was none. -/
def message (x : Except String α) : String :=
  match x with
  | .ok _ => ""
  | .error m => m

theorem error_of_message {x : Except String α} {m : String} (h : message x = m) (hm : m ≠ "") : x = .error m := by
  cases x with
  | error e => exact congrArg _ h
  | ok a => exact absurd h.symm hm

/-! ## Two runs side by side -/

section

variable {α' β' : Type} {R : α → α' → Prop} {Q : β → β' → Prop} {x : Except ε α} {x' : Except ε α'}

inductive Lockstep (R : α → α' → Prop) : Except ε α → Except ε α' → Prop
  | ok {a : α} {a' : α'} : R a a' → Lockstep R (.ok a) (.ok a')
  | error (e : ε) : Lockstep R (.error e) (.error e)

theorem Lockstep.refl (x : Except ε α) : Lockstep Eq x x := by
  cases x with
  | error e => exact .error e
  | ok a => exact .ok rfl

/-- The rests are compared where both calls returned. -/
theorem Lockstep.bind {f : α → Except ε β} {f' : α' → Except ε β'} (h : Lockstep R x x')
    (hf : ∀ a a', x = .ok a → x' = .ok a' → R a a' → Lockstep Q (f a) (f' a')) :
      Lockstep Q (x >>= f) (x' >>= f') := by
  cases h with
  | ok hr => exact hf _ _ rfl rfl hr
  | error e => exact .error e

/-- What related results have in common. -/
theorem Lockstep.map_eq {f : α → β} {f' : α' → β} (h : Lockstep R x x') (hf : ∀ a a', R a a' → f a = f' a') :
    x.map f = x'.map f' := by
  cases h with
  | ok hr => exact congrArg Except.ok (hf _ _ hr)
  | error e => rfl

/-- The other run of one that returned. -/
theorem Lockstep.of_ok {a' : α'} (h : Lockstep R x x') (e : x' = .ok a') : ∃ a, x = .ok a ∧ R a a' := by
  cases h with
  | ok hr =>
    cases e
    exact ⟨_, rfl, hr⟩
  | error _ => cases e

end

end Xv6Labs.Lib
