/-
  Xv6Labs.Threads.Rounds — the barrier program comes to its end.

  Without spurious returns, whatever the order: each thread has a stock of steps for each round it
  still has to do, and somebody can go on as long as there is a round to do.

  - `Inv.goes`: no deadlock.
  - `barrier_ends`: a run has a bounded length, and where it cannot go on every thread has done all
    of its rounds.
-/

import Xv6Labs.Lib.Runs
import Xv6Labs.Threads.Barrier
import Mathlib.Algebra.Order.BigOperators.Group.Finset

namespace Xv6Labs.Barrier

open Lib

/-- Has the mutex. -/
def Pc.has : Pc → Bool
  | .counted | .leave => true
  | _ => false

/-- How many of the six steps of a round are done. -/
def Pc.done : Pc → Nat
  | .top => 0
  | .read _ => 1
  | .counted => 2
  | .wait => 3
  | .woken => 4
  | .leave => 5

/-- The steps a thread has left in its round `i`, and in those after it. -/
def left (limit i : Nat) (p : Pc) : Nat := (limit - i) * 6 - p.done

/-- The steps of all threads. -/
def St.work (n limit : Nat) (s : St) : Nat := ∑ t ∈ Finset.range n, left limit (s.i t) (s.pc t)

/-- Who has the mutex, and that nobody is in a round past the last. -/
structure Held (n limit : Nat) (s : St) : Prop where
  mutex : ∀ u, s.mutex = some u → u < n ∧ (s.pc u).has = true
  busy : ∀ t, s.pc t ≠ .top → s.i t < limit
  le : ∀ t, s.i t ≤ limit

section

variable {n limit t : Nat} {s s' : St}

theorem Held.init : Held n limit .init := ⟨(fun u e => by cases e), (fun t e => absurd rfl e), fun t => Nat.zero_le _⟩

/-- One thread moves on, and with it the mutex. -/
theorem Held.move (h : Held n limit s) (nthread round : Nat) (p : Pc) (i : Nat) (mutex : Option Nat)
    (hm : mutex = none ∨ mutex = some t ∧ t < n ∧ p.has = true ∨ mutex = s.mutex ∧ (s.pc t).has = false)
    (hb : p ≠ .top → i < limit) (hi : i ≤ limit) :
    Held n limit ⟨mutex, nthread, round, Function.update s.pc t p, Function.update s.i t i⟩ := by
  refine ⟨fun u hu => ?_, fun u hu => ?_, fun u => ?_⟩
  · have hu : mutex = some u := hu
    show u < n ∧ (Function.update s.pc t p u).has = true
    rcases hm with hm | ⟨hm, hlt, hp⟩ | ⟨hm, hno⟩
    · rw [hm] at hu
      cases hu
    · rw [hm] at hu
      cases hu
      rw [Function.update_self]
      exact ⟨hlt, hp⟩
    · rw [hm] at hu
      have hkeep := h.mutex u hu
      have e : u ≠ t := by
        rintro rfl
        rw [hno] at hkeep
        exact Bool.false_ne_true hkeep.2
      rw [Function.update_of_ne e]
      exact hkeep
  · have hu : Function.update s.pc t p u ≠ .top := hu
    show Function.update s.i t i u < limit
    by_cases e : u = t
    · subst e
      rw [Function.update_self] at hu ⊢
      exact hb hu
    · rw [Function.update_of_ne e] at hu ⊢
      exact h.busy u hu
  · show Function.update s.i t i u ≤ limit
    by_cases e : u = t
    · subst e
      rw [Function.update_self]
      exact hi
    · rw [Function.update_of_ne e]
      exact h.le u

theorem broadcast_has (pc : Nat → Pc) (u : Nat) : (broadcast pc u).has = (pc u).has := by
  unfold broadcast
  split
  · rename_i e
    rw [e]
    rfl
  · rfl

theorem broadcast_top {pc : Nat → Pc} {u : Nat} (h : broadcast pc u ≠ .top) : pc u ≠ .top := by
  unfold broadcast at h
  split at h
  · rename_i e
    rw [e]
    decide
  · exact h

theorem Held.step (h : Held n limit s) (hi : Inv n s) (ht : t < n) (hs : Step n limit false t s s') :
    Held n limit s' := by
  have same : Function.update s.i t (s.i t) = s.i := Function.update_eq_self ..
  have hb : s.pc t ≠ .top → s.i t < limit := h.busy t
  have hf := hi.fits t ht
  cases hs with
  | read hp hlt =>
    have h1 := h.move (t := t) s.nthread s.round (.read s.round) (s.i t) s.mutex
      (Or.inr (Or.inr ⟨rfl, by rw [hp]; rfl⟩)) (fun _ => hlt) (h.le t)
    rwa [same] at h1
  | lock r hp _ _ =>
    have h1 := h.move (t := t) (s.nthread + 1) s.round .counted (s.i t) (some t) (Or.inr (Or.inl ⟨rfl, ht, rfl⟩))
      (fun _ => hb (by rw [hp]; simp)) (h.le t)
    rwa [same] at h1
  | last hp _ =>
    have hlt := hb (by rw [hp]; decide)
    have hw : Held n limit { s with pc := broadcast s.pc } := by
      refine ⟨fun u hu => ?_, fun u hu => h.busy u (broadcast_top hu), h.le⟩
      rw [show ({ s with pc := broadcast s.pc } : St).pc u = broadcast s.pc u from rfl, broadcast_has]
      exact h.mutex u hu
    simp only [hp, Pc.Fits] at hf
    have h1 := hw.move (t := t) 0 (s.round + 1) .leave (s.i t) s.mutex (Or.inr (Or.inl ⟨hf.2, ht, rfl⟩))
      (fun _ => hlt) (h.le t)
    rwa [show Function.update ({ s with pc := broadcast s.pc } : St).i t (s.i t) = s.i from same] at h1
  | wait hp _ =>
    have h1 := h.move (t := t) s.nthread s.round .wait (s.i t) none (Or.inl rfl) (fun _ => hb (by rw [hp]; decide))
      (h.le t)
    rwa [same] at h1
  | spurious hsp => cases hsp
  | relock hp _ =>
    have h1 := h.move (t := t) s.nthread s.round .leave (s.i t) (some t) (Or.inr (Or.inl ⟨rfl, ht, rfl⟩))
      (fun _ => hb (by rw [hp]; decide)) (h.le t)
    rwa [same] at h1
  | unlock hp =>
    exact h.move s.nthread s.round .top (s.i t + 1) none (Or.inl rfl) (fun e => absurd rfl e) (hb (by rw [hp]; decide))

/-! ## The stock -/

/-- Whoever moves has fewer steps left, and nobody has more. -/
theorem work_lt (ht : t < n) {p : Pc} {i : Nat} {pc : Nat → Pc} (hp : s'.pc = Function.update pc t p)
    (hi : s'.i = Function.update s.i t i) (hlt : left limit i p < left limit (s.i t) (s.pc t))
    (hle : ∀ u, (s.pc u).done ≤ (pc u).done) : s'.work n limit < s.work n limit := by
  unfold St.work
  rw [hp, hi]
  have hself : left limit (Function.update s.i t i t) (Function.update pc t p t) < left limit (s.i t) (s.pc t) := by
    rw [Function.update_self, Function.update_self]
    exact hlt
  refine Finset.sum_lt_sum (fun u _ => ?_) ⟨t, Finset.mem_range.mpr ht, hself⟩
  by_cases e : u = t
  · subst e
    exact Nat.le_of_lt hself
  · rw [Function.update_of_ne e, Function.update_of_ne e]
    exact Nat.sub_le_sub_left (hle u) _

theorem broadcast_done (pc : Nat → Pc) (u : Nat) : (pc u).done ≤ (broadcast pc u).done := by
  unfold broadcast
  split
  · rename_i e
    rw [e]
    decide
  · exact Nat.le_refl _

theorem Held.work (h : Held n limit s) (ht : t < n) (hs : Step n limit false t s s') :
    s'.work n limit < s.work n limit := by
  have hb : s.pc t ≠ .top → s.i t < limit := h.busy t
  have same : s.i = Function.update s.i t (s.i t) := (Function.update_eq_self ..).symm
  -- a step within a round
  have within : ∀ {p q : Pc}, s.pc t = q → s.i t < limit → q.done < p.done → p.done ≤ 5 →
      left limit (s.i t) p < left limit (s.i t) (s.pc t) :=
    fun {p q} e hlt h1 h2 => by
      rw [e]
      unfold left
      omega
  cases hs with
  | read hp hlt => exact work_lt ht rfl same (within hp hlt (Nat.zero_lt_one) (by simp [Pc.done])) fun u => Nat.le_refl _
  | lock r hp _ _ =>
    exact work_lt ht rfl same (within hp (hb (by rw [hp]; simp)) (by simp [Pc.done]) (by decide)) fun u => Nat.le_refl _
  | last hp _ =>
    exact work_lt ht rfl same (within hp (hb (by rw [hp]; decide)) (by decide) (by decide)) (broadcast_done s.pc)
  | wait hp _ => exact work_lt ht rfl same (within hp (hb (by rw [hp]; decide)) (by decide) (by decide)) fun u =>
      Nat.le_refl _
  | spurious hsp => cases hsp
  | relock hp _ =>
    exact work_lt ht rfl same (within hp (hb (by rw [hp]; decide)) (by decide) (by decide)) fun u => Nat.le_refl _
  | unlock hp =>
    refine work_lt ht rfl rfl ?_ fun u => Nat.le_refl (s.pc u).done
    have hlt := hb (by rw [hp]; decide)
    rw [hp]
    unfold left
    show (limit - (s.i t + 1)) * 6 - 0 < (limit - s.i t) * 6 - 5
    omega

/-! ## No deadlock -/

/-- Whoever has the mutex goes on; if nobody has it, whoever wants it does; and not everybody waits. -/
theorem Inv.goes (h : Inv n s) (hh : Held n limit s) (ht : t < n) (hlt : s.i t < limit) :
    ∃ u < n, ∃ s', Step n limit false u s s' := by
  cases hm : s.mutex with
  | some u =>
    obtain ⟨hu, hhas⟩ := hh.mutex u hm
    refine ⟨u, hu, ?_⟩
    cases hp : s.pc u with
    | counted =>
      by_cases hall : s.nthread = n
      · exact ⟨_, .last s hp hall⟩
      · exact ⟨_, .wait s hp hall⟩
    | leave => exact ⟨_, .unlock s hp⟩
    | _ => simp [hp, Pc.has] at hhas
  | none =>
    by_contra hstuck
    have stuck : ∀ u < n, ∀ s', ¬ Step n limit false u s s' := fun u hu s' hs => hstuck ⟨u, hu, s', hs⟩
    -- everybody waits, or is through
    have hwait : ∀ u < n, s.pc u = .wait ∨ s.pc u = .top ∧ limit ≤ s.i u := fun u hu => by
      have hf := h.fits u hu
      cases hp : s.pc u with
      | top =>
        refine Or.inr ⟨rfl, ?_⟩
        by_contra hno
        exact stuck u hu _ (.read s hp (by omega))
      | read r =>
        simp only [hp, Pc.Fits] at hf
        exact absurd (.lock s r hp (hf.1.trans hf.2.symm) hm) (stuck u hu _)
      | wait => exact Or.inl rfl
      | woken => exact absurd (.relock s hp hm) (stuck u hu _)
      | counted =>
        simp only [hp, Pc.Fits, hm] at hf
        cases hf.2
      | leave =>
        simp only [hp, Pc.Fits, hm] at hf
        cases hf.2
    -- the thread that has a round to do waits, so nobody is through, and everybody is counted
    have hround : s.i t = s.round := by
      have hf := h.fits t ht
      rcases hwait t ht with hp | ⟨-, hle⟩
      · simp only [hp, Pc.Fits] at hf
        exact hf
      · omega
    have hall : ∀ u < n, s.pc u = .wait := fun u hu => by
      refine (hwait u hu).resolve_right fun hp => ?_
      have hf := h.fits u hu
      simp only [hp.1, Pc.Fits] at hf
      omega
    have hcount : (List.range n).countP (fun u => (s.pc u).waits) = (List.range n).length :=
      List.countP_eq_length.mpr fun u hu => by rw [hall u (List.mem_range.mp hu)]; rfl
    rcases h.short with hshort | ⟨u, hu, hp⟩
    · rw [h.count, hcount, List.length_range] at hshort
      exact Nat.lt_irrefl _ hshort
    · rw [hall u hu] at hp
      cases hp

/-! ## The end -/

/-- One thread steps. -/
def Goes (n limit t : Nat) (s s' : St) : Prop := t < n ∧ Step n limit false t s s'

theorem goes_keeps (t : Nat) (s s' : St) (h : Inv n s ∧ Held n limit s) (hs : Goes n limit t s s') :
    (Inv n s' ∧ Held n limit s') ∧ 1 + s'.work n limit ≤ s.work n limit := by
  refine ⟨⟨h.1.step hs.1 hs.2, h.2.step h.1 hs.1 hs.2⟩, ?_⟩
  have hlt := h.2.work hs.1 hs.2
  omega

theorem work_init : St.init.work n limit = n * (limit * 6) := by
  have hleft : ∀ t ∈ Finset.range n, left limit (St.init.i t) (St.init.pc t) = limit * 6 := fun t _ => rfl
  unfold St.work
  rw [Finset.sum_const_nat hleft, Finset.card_range]

/-- Whatever the order, a run has six steps for each thread and round at most; and where no thread
    can go on, each has done all of its rounds, and so has the barrier. -/
theorem barrier_ends (hn : 1 ≤ n) {ts : List Nat} (hr : Runs (Goes n limit) ts .init s) :
    ts.length ≤ n * (limit * 6) ∧ ((∀ t s', ¬ Goes n limit t s s') → s.round = limit ∧ ∀ t < n, s.i t = limit ∧
      s.pc t = .top) := by
  obtain ⟨⟨h, hh⟩, hlen⟩ := hr.within goes_keeps ⟨.init hn, .init⟩
  rw [work_init, List.map_const', List.sum_replicate_nat, Nat.mul_one] at hlen
  refine ⟨Nat.le_trans (Nat.le_add_right ..) hlen, fun hstuck => ?_⟩
  have hall : ∀ t < n, s.i t = limit ∧ s.pc t = .top := fun t ht => by
    have hi : s.i t = limit := by
      refine Nat.le_antisymm (hh.le t) (Nat.le_of_not_lt fun hlt => ?_)
      obtain ⟨u, hu, s', hs⟩ := h.goes hh ht hlt
      exact hstuck u s' ⟨hu, hs⟩
    refine ⟨hi, ?_⟩
    by_contra hp
    exact absurd (hh.busy t hp) (by omega)
  refine ⟨?_, hall⟩
  obtain ⟨hi, hp⟩ := hall 0 hn
  have hf := h.fits 0 hn
  simp only [hp, Pc.Fits] at hf
  omega

end

/-- Two threads and one round: thread 0 waits, thread 1 comes last, and both leave. -/
theorem barrier_ends_two : ∃ ts s, Runs (Goes 2 1) ts .init s ∧ s.round = 1 ∧ ts.length ≤ 2 * (1 * 6) ∧
    ((∀ t s', ¬ Goes 2 1 t s s') → s.round = 1 ∧ ∀ t < 2, s.i t = 1 ∧ s.pc t = .top) := by
  have h : Runs (Goes 2 1) [0, 0, 0, 1, 1, 1, 1, 0, 0] .init _ :=
    .cons ⟨by decide, .read _ rfl (by decide)⟩
      (.cons ⟨by decide, .lock _ 0 rfl rfl rfl⟩ (.cons ⟨by decide, .wait _ rfl (by decide)⟩
      (.cons ⟨by decide, .read _ rfl (by decide)⟩
        (.cons ⟨by decide, .lock _ 0 rfl rfl rfl⟩ (.cons ⟨by decide, .last _ rfl rfl⟩
        (.cons ⟨by decide, .unlock _ rfl⟩ (.cons ⟨by decide, .relock _ rfl rfl⟩
          (.cons ⟨by decide, .unlock _ rfl⟩ (.nil _)))))))))
  exact ⟨_, _, h, rfl, barrier_ends (by decide) h⟩

end Xv6Labs.Barrier
