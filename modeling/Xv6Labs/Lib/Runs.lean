/-
  Xv6Labs.Lib.Runs — runs of a labelled step relation, and what one such system says about
  another.
-/

import Mathlib.Algebra.Ring.Nat
import Mathlib.Data.List.Basic

namespace Xv6Labs.Lib

variable {ε σ τ : Type}

inductive Runs (R : ε → σ → σ → Prop) : List ε → σ → σ → Prop
  | nil (s : σ) : Runs R [] s s
  | cons {e : ε} {es : List ε} {s s1 s' : σ} : R e s s1 → Runs R es s1 s' → Runs R (e :: es) s s'

variable {R : ε → σ → σ → Prop} {T : ε → τ → τ → Prop} {I : σ → Prop} {f : σ → τ} {es : List ε} {s s' : σ}

/-- From states with `I`, a step keeps `I` and is a step of the other system, on what `f` shows of
    the states: then so is a run. -/
theorem Runs.simulates (hstep : ∀ e s s', I s → R e s s' → I s' ∧ T e (f s) (f s')) (h : Runs R es s s') (hi : I s) :
    I s' ∧ Runs T es (f s) (f s') := by
  induction h with
  | nil s => exact ⟨hi, .nil _⟩
  | cons h1 _ ih =>
    obtain ⟨hi1, ht⟩ := hstep _ _ _ hi h1
    obtain ⟨hi', hr⟩ := ih hi1
    exact ⟨hi', .cons ht hr⟩

/-- Where every step takes its cost off a stock, a run costs no more than the stock. -/
theorem Runs.within {cost : ε → Nat} {μ : σ → Nat} (hstep : ∀ e s s', I s → R e s s' → I s' ∧ cost e + μ s' ≤ μ s)
    (h : Runs R es s s') (hi : I s) :
    I s' ∧ (es.map cost).sum + μ s' ≤ μ s := by
  induction h with
  | nil s => exact ⟨hi, Nat.le_of_eq (Nat.zero_add _)⟩
  | cons h1 _ ih =>
    obtain ⟨hi1, hle1⟩ := hstep _ _ _ hi h1
    obtain ⟨hi', hle⟩ := ih hi1
    refine ⟨hi', ?_⟩
    rw [List.map_cons, List.sum_cons]
    omega

/-- Runs whose labels are calls with their answers: where the call settles answer and state, the calls
    of a run settle them all. -/
theorem Runs.unique {α β : Type} {A : α × β → σ → σ → Prop}
    (hone : ∀ a o1 o2 s s1 s2, A (a, o1) s s1 → A (a, o2) s s2 → o1 = o2 ∧ s1 = s2)
    {es1 es2 : List (α × β)} {s s1 s2 : σ} (h1 : Runs A es1 s s1) (h2 : Runs A es2 s s2)
    (he : es1.map (·.1) = es2.map (·.1)) : es1 = es2 ∧ s1 = s2 := by
  induction h1 generalizing es2 with
  | nil s =>
    cases h2 with
    | nil => exact ⟨rfl, rfl⟩
    | cons => cases he
  | @cons e1 es1 s t1 s1 hstep1 hrest1 ih =>
    cases h2 with
    | nil => cases he
    | @cons e2 es2 _ t2 _ hstep2 hrest2 =>
      obtain ⟨hcall, hcalls⟩ := List.cons.inj he
      have hcall : e1.1 = e2.1 := hcall
      have hstep2 : A (e1.1, e2.2) s t2 := by
        rw [hcall]
        exact hstep2
      obtain ⟨hout, rfl⟩ := hone e1.1 e1.2 e2.2 s t1 t2 hstep1 hstep2
      obtain ⟨rfl, rfl⟩ := ih hrest2 hcalls
      exact ⟨congrArg (· :: es1) (Prod.ext hcall hout), rfl⟩

end Xv6Labs.Lib
