/-
  Xv6Labs.Threads.Turns — no user thread waits for ever.

  thread_schedule looks from the running thread on, going round. So each time the processor is given
  up, who runs next is nearer to a thread that waits.

  - `Chosen.nearer`: the step.
  - `no_starvation`: a thread runs again at the third thread_yield, exit or thread_schedule at the latest.
-/

import Xv6Labs.Lib.Runs
import Xv6Labs.Threads.Uthread

namespace Xv6Labs.Uthread

open Lib

/-- How far thread `i` is behind thread `cur`, going round. -/
def behind (cur i : Nat) : Nat := (i + MAX_THREAD - cur) % MAX_THREAD

/-- A step after which thread `i` still waits, and whether the processor was given up. -/
inductive Passes (I : Image) (i : Nat) : Bool → St → St → Prop where
  | give {s s' : St} {m : Mem} : Gives I s m s' → s'.u.cur ≠ i → Passes I i true s s'
  | work {s : St} {c : Cpu} : Spares I s.u.cpu.mem c.mem → Passes I i false s { s with u := { s.u with cpu := c } }
  | create {s : St} {func : Word} {t : Nat} {u' : User} : thread_create I func s.u = some (t, u') →
      Passes I i false s ⟨u', Function.update s.origin t (.created func), Function.update s.live t true⟩

/-- Made by thread_create, and not the one that runs. -/
def Waiting (I : Image) (i : Nat) (s : St) : Prop := Inv I s ∧ i < MAX_THREAD ∧ s.live i = true ∧ i ≠ s.u.cur

section

variable {I : Image} {i cur n : Nat} {s s' : St} {m : Mem} {st : Nat → Nat} {u' : User} {func : Word} {t : Nat}

theorem behind_pos (hi : i < MAX_THREAD) (hcur : cur < MAX_THREAD) (hne : i ≠ cur) :
    1 ≤ behind cur i ∧ behind cur i < MAX_THREAD := by
  unfold behind MAX_THREAD at *
  omega

theorem Chosen.nearer (h : Chosen st cur n) (hst : st i = RUNNABLE) (hi : i < MAX_THREAD) (hcur : cur < MAX_THREAD)
    (hne : i ≠ cur) (hn : n ≠ i) :
    1 + behind n i ≤ behind cur i := by
  obtain ⟨d, h1, h2, rfl, -, hbefore⟩ := h
  have hpos := behind_pos hi hcur hne
  have hround : (cur + behind cur i) % MAX_THREAD = i := by
    unfold behind MAX_THREAD at *
    omega
  have hle : d ≤ behind cur i := by
    by_contra hlt
    have hno := hbefore _ hpos.1 (Nat.lt_of_not_le hlt)
    rw [hround] at hno
    exact hno hst
  have hlt : d ≠ behind cur i := fun e => hn (by rw [e, hround])
  unfold behind MAX_THREAD at *
  omega

theorem thread_create_spec {u : User} (e : thread_create I func u = some (t, u')) :
    u'.cur = u.cur ∧ ∀ j, state I u'.cpu.mem j = if j = t then RUNNABLE else state I u.cpu.mem j := by
  unfold thread_create at e
  split at e
  · cases e
  · cases e
    refine ⟨rfl, fun j => ?_⟩
    rw [← state_setState t RUNNABLE u.cpu.mem (by decide) j]
    exact Mem.loadLE_agree ((Mem.agree_storeLE _ (by simp only [ctx, stateAt, thread]; omega)).trans
      (Mem.agree_storeLE _ (by simp only [ctx, stateAt, thread]; omega)))

/-- The thread that gives up the processor is not the one that waits. -/
theorem Gives.waits (hg : Gives I s m s') (hlive : s.live i = true) (hne : i ≠ s.u.cur) :
    s'.live i = true ∧ state I m i = state I s.u.cpu.mem i := by
  cases hg with
  | yield r u' _ => exact ⟨hlive, by rw [state_setState _ _ _ (by decide), if_neg hne]⟩
  | exit r u' _ =>
      exact ⟨(Function.update_of_ne hne ..).trans hlive, by rw [state_setState _ _ _ (by decide), if_neg hne]⟩
  | schedule r u' _ _ => exact ⟨hlive, rfl⟩

theorem passes_keeps (b : Bool) (s s' : St) (h : Waiting I i s) (hs : Passes I i b s s') :
    Waiting I i s' ∧ b.toNat + behind s'.u.cur i ≤ behind s.u.cur i := by
  obtain ⟨hinv, hi, hlive, hne⟩ := h
  cases hs with
  | @give _ _ m hg hn =>
    obtain ⟨hinv', hchosen, -⟩ := hinv.gives hg
    obtain ⟨hlive', hst⟩ := hg.waits hlive hne
    exact ⟨⟨hinv', hi, hlive', Ne.symm hn⟩, hchosen.nearer (hst.trans (hinv.live i hi hlive hne)) hi hinv.cur hne hn⟩
  | work hsp => exact ⟨⟨hinv.work hsp, hi, hlive, hne⟩, Nat.le_of_eq (Nat.zero_add _)⟩
  | @create _ func t u' e =>
    have hcur := (thread_create_spec e).1
    refine ⟨⟨hinv.create e, hi, ?_, ?_⟩, ?_⟩
    · by_cases ht : i = t
      · subst ht
        exact Function.update_self ..
      · exact (Function.update_of_ne ht ..).trans hlive
    · rw [hcur]
      exact hne
    · rw [hcur]
      exact Nat.le_of_eq (Nat.zero_add _)

theorem sum_toNat (bs : List Bool) : (bs.map Bool.toNat).sum = bs.count true := by
  induction bs with
  | nil => rfl
  | cons b bs ih =>
    rw [List.map_cons, List.sum_cons, ih]
    cases b with
    | true =>
      rw [List.count_cons_self, Nat.add_comm]
      rfl
    | false =>
      rw [List.count_cons_of_ne (by decide)]
      exact Nat.zero_add _

/-- In every run: while a thread waits, the processor is given up twice at most, and giving it up
    does not end the program. -/
theorem no_starvation (h : Reach I s) (hi : i < MAX_THREAD) (hlive : s.live i = true) (hne : i ≠ s.u.cur)
    {bs : List Bool}
    (hr : Runs (Passes I i) bs s s') : bs.count true + 1 < MAX_THREAD ∧ ∀ r, (∃ u', thread_yield I r s'.u = some u') ∧
      (∃ u', thread_exit I r s'.u = some u') ∧ ∃ u', thread_schedule I r s'.u = some u' := by
  obtain ⟨⟨hinv, -, hlive', hne'⟩, hle⟩ := hr.within passes_keeps ⟨h.inv, hi, hlive, hne⟩
  rw [sum_toNat] at hle
  have h1 := behind_pos hi h.inv.cur hne
  have h2 := behind_pos hi hinv.cur hne'
  have hrun := hinv.live i hi hlive' hne'
  exact ⟨by omega, fun r => ⟨thread_yield_some r hinv.cur, (thread_exit_some r hinv.cur).mpr ⟨i, hi, hne', hrun⟩,
    (thread_schedule_some hinv.cur).mpr ⟨i, hi, hrun⟩⟩⟩

end

/-- main makes two threads and leaves to the first; the second waits. -/
theorem no_starvation_second : ∃ (I : Image) (s s' : St), Reach I s ∧ s.live 2 = true ∧
    Runs (Passes I 2) [true] s s' ∧ [true].count true + 1 < MAX_THREAD := by
  let I : Image := ⟨0xd90, by decide⟩
  let c : Cpu := ⟨fun _ => 0, 0, fun _ => 0⟩
  have hz : ∀ i, state I c.mem i = FREE := fun i => Mem.loadLE_zero fun _ _ _ => rfl
  have h0 : Reach I _ := .init c fun i _ => hz i
  have hst0 : ∀ i, state I (thread_init I c).cpu.mem i = if i = 0 then RUNNING else FREE := fun i => by
    rw [thread_init, state_setState 0 RUNNING c.mem (by decide), hz]
  have hcur0 : (thread_init I c).cur = 0 := rfl
  generalize thread_init I c = u0 at h0 hst0 hcur0
  obtain ⟨u1, e1⟩ : ∃ u, thread_create I 0x100 u0 = some (1, u) := by simp [thread_create, freeThread, hst0]
  obtain ⟨hcur1, hst1⟩ := thread_create_spec e1
  have h1 : Reach I _ := .step h0 (.create _ 0x100 1 u1 e1)
  obtain ⟨u2, e2⟩ : ∃ u, thread_create I 0x200 u1 = some (2, u) := by simp [thread_create, freeThread, hst1, hst0]
  obtain ⟨hcur2, hst2⟩ := thread_create_spec e2
  have h2 : Reach I _ := .step h1 (.create _ 0x200 2 u2 e2)
  have hcur : u2.cur = 0 := hcur2.trans (hcur1.trans hcur0)
  obtain ⟨u3, e3, hcur3⟩ : ∃ u, thread_schedule I (fun _ => 0) u2 = some u ∧ u.cur = 1 := by
    simp [thread_schedule, search, hcur, hst2, hst1]
  have hmain : Function.update (Function.update (fun _ => false) 1 true) 2 true u2.cur = false := by simp [hcur]
  have hg : Gives I _ _ _ :=
    .schedule ⟨u2, Function.update (Function.update (fun _ => .none) 1 (.created 0x100)) 2 (.created 0x200),
    Function.update (Function.update (fun _ => false) 1 true) 2 true⟩ (fun _ => 0) u3 hmain e3
  have hr : Runs (Passes I 2) [true] _ _ := .cons (.give hg (by rw [hcur3]; decide)) (.nil _)
  exact ⟨I, _, _, h2, rfl, hr, (no_starvation h2 (by decide) rfl (by rw [hcur]; decide) hr).1⟩

end Xv6Labs.Uthread
