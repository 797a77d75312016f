/-
  Xv6Labs.Lib.Waiting — sleepers and a waker, and locks taken in order.

  Who goes to sleep has looked at some data before. Who changes the data then goes through all the
  sleepers and wakes them. A look that is as old as the last change but one would be a lost wakeup.

  `holder l` has the lock, and `wants t` is the one that `t` waits for. When everyone waits for a
  lock above those it has, nobody waits for itself, however long the chain.

  - `Watch.Fresh.steps`: a sleeper has seen the data as they are, or the waker comes to it yet.
  - `Ordered.no_cycle`: nobody waits for itself.
-/

import Mathlib.Logic.Relation
import Mathlib.Logic.Function.Basic
import Mathlib.Data.Nat.Basic

namespace Xv6Labs.Lib

/-! ## Sleepers and a waker -/

section

variable {T D : Type}

structure Watch (T D : Type) where
  data : D
  /-- what somebody who sleeps, or is about to, has seen -/
  seen : T → Option D
  /-- the waker has still to come to it -/
  todo : T → Prop

inductive Watch.Step [DecidableEq T] : Watch T D → Watch T D → Prop where
  | look (w : Watch T D) (t : T) : Step w { w with seen := Function.update w.seen t (some w.data) }
  | wake (w : Watch T D) (t : T) : Step w { w with seen := Function.update w.seen t none }
  | change (w : Watch T D) (d : D) (todo : T → Prop) : (∀ t, todo t) → Step w { w with data := d, todo := todo }
  | pass (w : Watch T D) (todo : T → Prop) : (∀ t, w.todo t → todo t ∨ w.seen t = none) →
      Step w { w with todo := todo }

def Watch.Fresh (w : Watch T D) : Prop := ∀ t d, w.seen t = some d → d = w.data ∨ w.todo t

variable [DecidableEq T] {w w' : Watch T D}

theorem Watch.Fresh.step (h : w.Fresh) (hs : Watch.Step w w') : w'.Fresh := by
  intro t d hd
  cases hs with
  | look u =>
    by_cases e : t = u
    · subst e
      have hd : Function.update w.seen t (some w.data) t = some d := hd
      rw [Function.update_self] at hd
      exact Or.inl (Option.some.inj hd).symm
    · have hd : Function.update w.seen u (some w.data) t = some d := hd
      rw [Function.update_of_ne e] at hd
      exact h t d hd
  | wake u =>
    by_cases e : t = u
    · subst e
      have hd : Function.update w.seen t none t = some d := hd
      rw [Function.update_self] at hd
      cases hd
    · have hd : Function.update w.seen u none t = some d := hd
      rw [Function.update_of_ne e] at hd
      exact h t d hd
  | change d' todo hall => exact Or.inr (hall t)
  | pass todo hpass =>
    rcases h t d hd with hd' | ht
    · exact Or.inl hd'
    · rcases hpass t ht with ht | hn
      · exact Or.inr ht
      · have hd : w.seen t = some d := hd
        rw [hn] at hd
        cases hd

theorem Watch.Fresh.steps (h : w.Fresh) (hs : Relation.ReflTransGen Watch.Step w w') : w'.Fresh := by
  induction hs with
  | refl => exact h
  | tail _ hstep ih => exact ih.step hstep

end

/-! ## Locks taken in order -/

section

variable {L T : Type} {holder : L → Option T} {wants : T → Option L} {rank : L → Nat} {t u : T} {l : L}

variable (holder wants) in
def WaitsFor (t u : T) : Prop := ∃ l, wants t = some l ∧ holder l = some u

variable (holder wants rank) in
def Ordered : Prop := ∀ t l l', holder l = some t → wants t = some l' → rank l < rank l'

/-- Along a chain of waiting the locks waited for rise. -/
theorem Ordered.rises (ho : Ordered holder wants rank) (hc : Relation.TransGen (WaitsFor holder wants) t u)
    (hu : wants u = some l) :
    ∃ l', wants t = some l' ∧ rank l' < rank l := by
  induction hc using Relation.TransGen.head_induction_on with
  | single h =>
    obtain ⟨l', h1, h2⟩ := h
    exact ⟨l', h1, ho _ _ _ h2 hu⟩
  | head h _ ih =>
    obtain ⟨l', h1, h2⟩ := h
    obtain ⟨l'', h3, h4⟩ := ih
    exact ⟨l', h1, Nat.lt_trans (ho _ _ _ h2 h3) h4⟩

theorem Ordered.no_cycle (ho : Ordered holder wants rank) (t : T) :
    ¬ Relation.TransGen (WaitsFor holder wants) t t := by
  intro hc
  obtain ⟨l, hl⟩ : ∃ l, wants t = some l := by
    cases hc using Relation.TransGen.head_induction_on with
    | single h => exact ⟨_, h.choose_spec.1⟩
    | head h _ => exact ⟨_, h.choose_spec.1⟩
  obtain ⟨l', hl', hlt⟩ := ho.rises hc hl
  rw [hl] at hl'
  obtain rfl := Option.some.inj hl'
  exact Nat.lt_irrefl _ hlt

end

end Xv6Labs.Lib
