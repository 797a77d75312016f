/-
  Xv6Labs.Threads.Barrier — `barrier.c`: `n` threads that meet at a barrier again and again.

  Each thread runs the loop of thread(): it reads bstate.round without the mutex, checks it
  against its loop variable and calls barrier(). A step is what a thread does between two
  operations on the mutex or the condition variable. pthread_cond_wait gives the mutex up
  and waits in one step; a broadcast lets every waiting thread go on, and where `spurious`
  a thread may go on without one. Going on means taking the mutex again.

  - `barrier_safe`: without spurious returns nobody gets ahead, in every run.
  - `spurious_return_overtakes`: with them a thread leaves alone, since the wait is not in
    a loop.
-/

import Xv6Labs.Lib.Lists
import Mathlib.Logic.Function.Basic

namespace Xv6Labs.Barrier

open Lib

inductive Pc where
  | top
  /-- `t = bstate.round` has been read -/
  | read (t : Nat)
  /-- has the mutex, and has counted itself -/
  | counted
  /-- in pthread_cond_wait, waiting for a broadcast -/
  | wait
  /-- in pthread_cond_wait, waiting for the mutex -/
  | woken
  /-- has the mutex, before the unlock -/
  | leave
  deriving DecidableEq

structure St where
  mutex : Option Nat
  nthread : Nat
  round : Nat
  pc : Nat → Pc
  /-- the loop variable of thread() -/
  i : Nat → Nat

def St.init : St := ⟨none, 0, 0, fun _ => .top, fun _ => 0⟩

def St.goto (s : St) (t : Nat) (p : Pc) : St := { s with pc := Function.update s.pc t p }

def broadcast (pc : Nat → Pc) : Nat → Pc := fun u => if pc u = .wait then .woken else pc u

inductive Step (n limit : Nat) (spurious : Bool) (t : Nat) : St → St → Prop where
  | read (s : St) : s.pc t = .top → s.i t < limit → Step n limit spurious t s (s.goto t (.read s.round))
  /-- The assertion holds, barrier() is called and takes the mutex. -/
  | lock (s : St) (r : Nat) : s.pc t = .read r → s.i t = r → s.mutex = none →
      Step n limit spurious t s (St.goto { s with mutex := some t, nthread := s.nthread + 1 } t .counted)
  | last (s : St) : s.pc t = .counted → s.nthread = n →
      Step n limit spurious t s (St.goto { s with round := s.round + 1, nthread := 0, pc := broadcast s.pc } t .leave)
  | wait (s : St) : s.pc t = .counted → s.nthread ≠ n →
      Step n limit spurious t s (St.goto { s with mutex := none } t .wait)
  | spurious (s : St) : spurious = true → s.pc t = .wait → Step n limit spurious t s (s.goto t .woken)
  | relock (s : St) : s.pc t = .woken → s.mutex = none →
      Step n limit spurious t s (St.goto { s with mutex := some t } t .leave)
  | unlock (s : St) : s.pc t = .leave →
      Step n limit spurious t s (St.goto { s with mutex := none, i := Function.update s.i t (s.i t + 1) } t .top)

/-- The states `n` threads come to. -/
inductive Reach (n limit : Nat) (spurious : Bool) : St → Prop where
  | init : Reach n limit spurious .init
  | step {s s' : St} (t : Nat) : Reach n limit spurious s → t < n → Step n limit spurious t s s' →
      Reach n limit spurious s'

/-- In barrier(), counted. -/
def Pc.inside : Pc → Bool
  | .counted | .wait | .woken | .leave => true
  | _ => false

/-- Gone on from being counted, to the wait or to the broadcast. -/
def Pc.passed : Pc → Bool
  | .wait | .woken | .leave => true
  | _ => false

/-- How many calls of barrier() the thread has entered. -/
def St.entered (s : St) (t : Nat) : Nat := s.i t + if (s.pc t).inside then 1 else 0

/-- How many calls the thread has entered and gone on in. -/
def St.passed (s : St) (t : Nat) : Nat := s.i t + if (s.pc t).passed then 1 else 0

/-- Nobody has returned from more calls than everybody has entered, the round is the number
    of calls everybody has gone on in, and who has read the round read its loop variable. -/
structure Safe (n : Nat) (s : St) : Prop where
  together : ∀ t < n, ∀ u < n, s.i t ≤ s.entered u
  round : ∀ r, r ≤ s.round ↔ ∀ u < n, r ≤ s.passed u
  assert : ∀ t < n, ∀ r, s.pc t = .read r → s.i t = r

/-! ## The invariant -/

/-- What the round and the mutex are, by where a thread is. -/
def Pc.Fits (round i : Nat) (has : Prop) : Pc → Prop
  | .top => i = round
  | .read r => i = round ∧ r = round
  | .counted => i = round ∧ has
  | .wait => i = round
  | .woken => i + 1 = round
  | .leave => i + 1 = round ∧ has

/-- Counted in the current round. -/
def Pc.waits : Pc → Bool
  | .counted | .wait => true
  | _ => false

structure Inv (n : Nat) (s : St) : Prop where
  fits : ∀ t < n, (s.pc t).Fits s.round (s.i t) (s.mutex = some t)
  count : s.nthread = (List.range n).countP fun t => (s.pc t).waits
  short : s.nthread < n ∨ ∃ t < n, s.pc t = .counted

section

variable {n limit t : Nat} {s s' : St}

theorem Inv.init (hn : 1 ≤ n) : Inv n .init := by
  refine ⟨fun t _ => rfl, ?_, Or.inl hn⟩
  simp [St.init, Pc.waits]

/-- Threads that do not have the mutex fit whoever has it. -/
theorem Pc.Fits.other {p : Pc} {round i : Nat} {has : Prop} (h : p.Fits round i has) (hno : ¬ has) (has' : Prop) :
    p.Fits round i has' := by
  cases p with
  | counted => exact absurd h.2 hno
  | leave => exact absurd h.2 hno
  | _ => exact h

/-- Moving one thread keeps the others fitting, where the mutex was its or nobody's. -/
theorem Inv.move (h : Inv n s) (ht : t < n) (hm : s.mutex = none ∨ s.mutex = some t) (p : Pc) (i : Nat)
    {nthread : Nat} (mutex : Option Nat) (hp : p.Fits s.round i (mutex = some t))
    (hc : nthread = (List.range n).countP fun u => (Function.update s.pc t p u).waits)
    (hs : nthread < n ∨ p = .counted) :
    Inv n ⟨mutex, nthread, s.round, Function.update s.pc t p, Function.update s.i t i⟩ := by
  refine ⟨fun u hu => ?_, hc, ?_⟩
  · by_cases e : u = t
    · subst e
      simpa using hp
    · simp only [Function.update_of_ne e]
      refine (h.fits u hu).other ?_ _
      rcases hm with hm | hm <;> simp [hm, Ne.symm e]
  · rcases hs with hs | rfl
    · exact Or.inl hs
    · exact Or.inr ⟨t, ht, Function.update_self ..⟩

/-- The count after a thread moves without being counted or uncounted. -/
theorem Inv.count_same (h : Inv n s) {p : Pc} (hp : p.waits = (s.pc t).waits) :
    s.nthread = (List.range n).countP fun u => (Function.update s.pc t p u).waits := by
  rw [h.count]
  refine List.countP_congr fun u _ => ?_
  by_cases e : u = t
  · subst e
    simp [hp]
  · simp [Function.update_of_ne e]

/-- Nobody is at the counting when the mutex is free or another's. -/
theorem Inv.not_counted (h : Inv n s) (hm : s.mutex = none ∨ s.mutex = some t) (ht : s.pc t ≠ .counted) :
    s.nthread < n := by
  rcases h.short with hs | ⟨u, hu, hc⟩
  · exact hs
  · have hf := h.fits u hu
    simp only [hc, Pc.Fits] at hf
    rcases hm with hm | hm
    · simp [hm] at hf
    · have : t = u := by simpa [hm] using hf.2
      subst this
      exact absurd hc ht

/-- When everybody is counted, everybody waits but the thread that has the mutex. -/
theorem Inv.all_wait (h : Inv n s) (hall : s.nthread = n) {u : Nat} (hu : u < n) : (s.pc u).waits = true := by
  have h1 : (List.range n).countP (fun t => (s.pc t).waits) = (List.range n).length := by
    rw [← h.count, hall, List.length_range]
  exact List.countP_eq_length.mp h1 u (List.mem_range.mpr hu)

theorem Inv.step (h : Inv n s) (ht : t < n) (hs : Step n limit false t s s') : Inv n s' := by
  have hf := h.fits t ht
  have same : Function.update s.i t (s.i t) = s.i := Function.update_eq_self ..
  cases hs with
  | read hp _ =>
    simp only [hp, Pc.Fits] at hf
    refine ⟨fun u hu => ?_, h.count_same (by simp [hp, Pc.waits]), ?_⟩
    · by_cases e : u = t
      · subst e
        simp [St.goto, Pc.Fits, hf]
      · simpa [St.goto, Function.update_of_ne e] using h.fits u hu
    · rcases h.short with hlt | ⟨u, hu, hc⟩
      · exact Or.inl hlt
      · have e : u ≠ t := by
          rintro rfl
          simp [hp] at hc
        exact Or.inr ⟨u, hu, by simp [St.goto, Function.update_of_ne e, hc]⟩
  | lock r hp _ hm =>
    simp only [hp, Pc.Fits] at hf
    have h1 : s.nthread + 1 = (List.range n).countP fun u => (Function.update s.pc t .counted u).waits := by
      rw [h.count]
      refine (countP_flip List.nodup_range (List.mem_range.mpr ht) ?_ ?_ fun u _ e => ?_).symm
      · simp [hp, Pc.waits]
      · simp [Pc.waits]
      · simp [Function.update_of_ne e]
    have h2 := h.move ht (Or.inl hm) .counted (s.i t) (some t) ⟨hf.1, rfl⟩ h1 (Or.inr rfl)
    rwa [same] at h2
  | last hp hall =>
    simp only [hp, Pc.Fits] at hf
    refine ⟨fun u hu => ?_, ?_, Or.inl (Nat.lt_of_le_of_lt (Nat.zero_le t) ht)⟩
    · by_cases e : u = t
      · subst e
        simp [St.goto, Pc.Fits, hf]
      · -- another thread that is counted waits: the mutex is not its
        have h1 := h.all_wait hall hu
        have h2 := h.fits u hu
        cases hu' : s.pc u with
        | wait =>
          simp only [hu', Pc.Fits] at h2
          simp [St.goto, Function.update_of_ne e, broadcast, hu', Pc.Fits, h2]
        | counted =>
          simp only [hu', Pc.Fits, hf.2, Option.some.injEq] at h2
          exact absurd h2.2.symm e
        | _ => simp [hu', Pc.waits] at h1
    · symm
      simp only [St.goto, List.countP_eq_zero, List.mem_range]
      intro u _
      by_cases e : u = t
      · subst e
        simp [Pc.waits]
      · simp only [Function.update_of_ne e, broadcast]
        have h1 := h.all_wait hall ‹u < n›
        cases hu' : s.pc u with
        | wait => simp [Pc.waits]
        | counted =>
          have h2 := h.fits u ‹u < n›
          simp only [hu', Pc.Fits, hf.2, Option.some.injEq] at h2
          exact absurd h2.2.symm e
        | _ => simp [hu', Pc.waits] at h1
  | wait hp hne =>
    simp only [hp, Pc.Fits] at hf
    have h1 : s.nthread ≤ n := by
      rw [h.count]
      exact Nat.le_trans List.countP_le_length (by simp)
    have h2 := h.move ht (Or.inr hf.2) .wait (s.i t) none hf.1 (h.count_same (by simp [hp, Pc.waits]))
      (Or.inl (by omega))
    rwa [same] at h2
  | spurious hsp => cases hsp
  | relock hp hm =>
    simp only [hp, Pc.Fits] at hf
    have h2 := h.move ht (Or.inl hm) .leave (s.i t) (some t) ⟨hf, rfl⟩ (h.count_same (by simp [hp, Pc.waits]))
      (Or.inl (h.not_counted (t := t) (Or.inl hm) (by simp [hp])))
    rwa [same] at h2
  | unlock hp =>
    simp only [hp, Pc.Fits] at hf
    exact h.move ht (Or.inr hf.2) .top (s.i t + 1) none hf.1 (h.count_same (by simp [hp, Pc.waits]))
      (Or.inl (h.not_counted (Or.inr hf.2) (by simp [hp])))

theorem Reach.inv (h : Reach n limit false s) (hn : 1 ≤ n) : Inv n s := by
  induction h with
  | init => exact .init hn
  | step t _ ht hs ih => exact ih.step ht hs

/-! ## Safety -/

theorem Inv.safe (h : Inv n s) : Safe n s := by
  have le_round : ∀ t < n, s.i t ≤ s.round ∧ s.round ≤ s.passed t ∧ s.passed t ≤ s.entered t := fun t ht => by
    have hf := h.fits t ht
    simp only [St.passed, St.entered]
    cases hp : s.pc t <;> simp only [hp, Pc.Fits] at hf <;> simp [Pc.passed, Pc.inside] <;> omega
  refine ⟨fun t ht u hu => ?_, fun r => ⟨fun hr u hu => ?_, fun hr => ?_⟩, fun t ht r hp => ?_⟩
  · have h1 := le_round t ht
    have h2 := le_round u hu
    omega
  · have h1 := le_round u hu
    omega
  · -- somebody has not gone on: nobody is counted, or a thread that is has the mutex
    have behind : ∃ u < n, s.passed u ≤ s.round := by
      rcases h.short with hlt | ⟨u, hu, hc⟩
      · have hex : ∃ u ∈ List.range n, ¬ (s.pc u).waits = true := by
          by_contra hno
          have hall : (List.range n).countP (fun t => (s.pc t).waits) = (List.range n).length :=
            List.countP_eq_length.mpr fun u hu => by
              by_contra hw
              exact hno ⟨u, hu, hw⟩
          rw [← h.count, List.length_range] at hall
          omega
        obtain ⟨u, hu, hw⟩ := hex
        have hu := List.mem_range.mp hu
        refine ⟨u, hu, ?_⟩
        have hf := h.fits u hu
        simp only [St.passed]
        cases hp : s.pc u <;> simp only [hp, Pc.Fits] at hf <;> simp [hp, Pc.waits] at hw <;> simp
          [Pc.passed] <;> omega
      · have hf := h.fits u hu
        simp only [hc, Pc.Fits] at hf
        exact ⟨u, hu, by simp [St.passed, hc, Pc.passed, hf.1]⟩
    obtain ⟨u, hu, hle⟩ := behind
    have h1 := hr u hu
    omega
  · have hf := h.fits t ht
    simp only [hp, Pc.Fits] at hf
    omega

/-- In every run without spurious returns of pthread_cond_wait: nobody returns from a call
    of barrier() before everybody has entered it, bstate.round is the number of rounds done,
    and the assertion in thread() holds. -/
theorem barrier_safe (hn : 1 ≤ n) (h : Reach n limit false s) : Safe n s := (h.inv hn).safe

end

/-- Thread 0 waits, thread 1 comes last, and both leave. -/
theorem barrier_safe_two : ∃ s, Reach 2 20000 false s ∧ s.round = 1 ∧ s.i 0 = 1 ∧ s.i 1 = 1 ∧ Safe 2 s := by
  have h1 : Reach 2 20000 false _ := .step 0 .init (by decide) (.read _ rfl (by decide))
  have h2 : Reach 2 20000 false _ := .step 0 h1 (by decide) (.lock _ 0 rfl rfl rfl)
  have h3 : Reach 2 20000 false _ := .step 0 h2 (by decide) (.wait _ rfl (by decide))
  have h4 : Reach 2 20000 false _ := .step 1 h3 (by decide) (.read _ rfl (by decide))
  have h5 : Reach 2 20000 false _ := .step 1 h4 (by decide) (.lock _ 0 rfl rfl rfl)
  have h6 : Reach 2 20000 false _ := .step 1 h5 (by decide) (.last _ rfl rfl)
  have h7 : Reach 2 20000 false _ := .step 1 h6 (by decide) (.unlock _ rfl)
  have h8 : Reach 2 20000 false _ := .step 0 h7 (by decide) (.relock _ rfl rfl)
  have h9 : Reach 2 20000 false _ := .step 0 h8 (by decide) (.unlock _ rfl)
  exact ⟨_, h9, rfl, rfl, rfl, barrier_safe (by decide) h9⟩

/-- Thread 0 waits and returns spuriously while thread 1 has not come yet. -/
theorem spurious_return_overtakes : ¬ ∀ n limit s, 1 ≤ n → Reach n limit true s → Safe n s := by
  intro h
  have h1 : Reach 2 20000 true _ := .step 0 .init (by decide) (.read _ rfl (by decide))
  have h2 : Reach 2 20000 true _ := .step 0 h1 (by decide) (.lock _ 0 rfl rfl rfl)
  have h3 : Reach 2 20000 true _ := .step 0 h2 (by decide) (.wait _ rfl (by decide))
  have h4 : Reach 2 20000 true _ := .step 0 h3 (by decide) (.spurious _ rfl rfl)
  have h5 : Reach 2 20000 true _ := .step 0 h4 (by decide) (.relock _ rfl rfl)
  have h6 : Reach 2 20000 true _ := .step 0 h5 (by decide) (.unlock _ rfl)
  exact absurd ((h 2 20000 _ (by decide) h6).together 0 (by decide) 1 (by decide)) (by decide)

end Xv6Labs.Barrier
