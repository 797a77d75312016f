/-
  Xv6Labs.Procs.Table — the process table of `proc.c`: fork, exit, wait, kill.

  A slot has the fields these functions decide by. Whether memory can be had is an argument
  of fork (`mem` for allocproc, `copy` for uvmcopy), whether the status can be copied out one
  of wait; pids are ints. What one lock-held section does to a slot has a definition of its
  own (`alloc`, `freeproc`, `wakeAt`, `killAt`, ..); the functions here run their sections
  without interruption.

  - `kill_spec`: kill marks the first slot with its pid.
  - `kill_reaches_its_target`: in every run in which nobody calls kill(0) while a slot is
    unused, an unused slot is unmarked, kill finds exactly the processes, and a child starts
    unmarked.
  - `kill_zero_marks_a_free_slot`: not in every run.
-/

import Xv6Labs.Lib.Word
import Mathlib.Logic.Function.Basic

namespace Xv6Labs.Procs

open Lib

inductive ProcState where
  | UNUSED | USED | SLEEPING | RUNNABLE | RUNNING | ZOMBIE
  deriving DecidableEq

/-- A sleep channel: a slot's address, or another one. -/
inductive Chan where
  | proc (i : Nat)
  | other (a : Nat)
  deriving DecidableEq

structure Proc where
  state : ProcState
  chan : Option Chan
  killed : Int
  xstate : Int
  pid : Int
  parent : Option Nat
  deriving DecidableEq

structure Sys where
  proc : Nat → Proc
  nextpid : Int

/-- The slot of the first process. -/
abbrev initproc : Nat := 0

def Sys.set (s : Sys) (i : Nat) (p : Proc) : Sys := { s with proc := Function.update s.proc i p }

@[simp] theorem Sys.set_self (s : Sys) (i : Nat) (p : Proc) : (s.set i p).proc i = p := Function.update_self ..

@[simp] theorem Sys.set_ne (s : Sys) {i j : Nat} (p : Proc) (h : j ≠ i) : (s.set i p).proc j = s.proc j :=
  Function.update_of_ne h ..

/-! ## One slot -/

def Proc.unused : Proc := ⟨.UNUSED, none, 0, 0, 0, none⟩

/-- allocproc at `found`. -/
def alloc (i : Nat) (s : Sys) : Sys :=
  { s.set i { s.proc i with pid := s.nextpid, state := .USED } with nextpid := i32 (s.nextpid + 1) }

def freeproc (i : Nat) (s : Sys) : Sys := s.set i .unused

def setParent (p i : Nat) (s : Sys) : Sys := s.set i { s.proc i with parent := some p }

def setState (st : ProcState) (i : Nat) (s : Sys) : Sys := s.set i { s.proc i with state := st }

def wakeAt (chan : Option Chan) (i : Nat) (s : Sys) : Sys :=
  if (s.proc i).state = .SLEEPING ∧ (s.proc i).chan = chan then setState .RUNNABLE i s else s

def killAt (i : Nat) (s : Sys) : Sys :=
  s.set i { s.proc i with killed := 1, state := if (s.proc i).state = .SLEEPING then .RUNNABLE else (s.proc i).state }

def sleepOn (chan : Chan) (p : Nat) (s : Sys) : Sys := s.set p { s.proc p with chan := some chan, state := .SLEEPING }

def zombie (status : Int) (p : Nat) (s : Sys) : Sys := s.set p { s.proc p with xstate := status, state := .ZOMBIE }

/-- The scheduler runs the process; one that slept tidies up. -/
def resume (p : Nat) (s : Sys) : Sys := s.set p { s.proc p with chan := none, state := .RUNNING }

/-! ## The functions, with the rounds left and the slot -/

variable (NPROC : Nat)

def findUnused (s : Sys) : Nat → Nat → Option Nat
  | 0, _ => none
  | n + 1, i => if (s.proc i).state = .UNUSED then some i else findUnused s n (i + 1)

def wakeup (chan : Option Chan) (me : Nat) : Nat → Nat → Sys → Sys
  | 0, _, s => s
  | n + 1, i, s => wakeup chan me n (i + 1) (if i ≠ me then wakeAt chan i s else s)

def reparent (p : Nat) : Nat → Nat → Sys → Sys
  | 0, _, s => s
  | n + 1, i, s =>
    reparent p n (i + 1)
      (if (s.proc i).parent = some p then wakeup (some (.proc initproc)) p NPROC 0 (setParent initproc i s) else s)

def killLoop (pid : Int) (s : Sys) : Nat → Nat → Int × Sys
  | 0, _ => (-1, s)
  | n + 1, i => if (s.proc i).pid = pid then (0, killAt i s) else killLoop pid s n (i + 1)

def kill (pid : Int) (s : Sys) : Int × Sys := killLoop pid s NPROC 0

def fork (mem copy : Bool) (p : Nat) (s : Sys) : Int × Sys :=
  match findUnused s NPROC 0 with
  | none => (-1, s)
  | some np =>
    if mem = false then (-1, freeproc np (alloc np s))
    else if copy = false then (-1, freeproc np (alloc np s))
    else (((alloc np s).proc np).pid, setState .RUNNABLE np (setParent p np (alloc np s)))

def exit (status : Int) (p : Nat) (s : Sys) : Except String Sys :=
  if p = initproc then .error "init exiting"
  else
    let s := reparent NPROC p NPROC 0 s
    .ok (zombie status p (wakeup ((s.proc p).parent.map .proc) p NPROC 0 s))

/-- The scan of wait: whether there are children, or the result. -/
def waitScan (copied : Bool) (p : Nat) (s : Sys) : Nat → Nat → Bool → Bool ⊕ (Int × Sys)
  | 0, _, havekids => .inl havekids
  | n + 1, i, havekids =>
    if (s.proc i).parent = some p then
      if (s.proc i).state = .ZOMBIE then .inr (if copied then ((s.proc i).pid, freeproc i s) else (-1, s))
      else waitScan copied p s n (i + 1) true
    else waitScan copied p s n (i + 1) havekids

/-- `none`: the process sleeps, and scans again when it runs. -/
def wait (copied : Bool) (p : Nat) (s : Sys) : Option Int × Sys :=
  match waitScan copied p s NPROC 0 false with
  | .inr (r, s) => (some r, s)
  | .inl havekids =>
    if havekids = false ∨ (s.proc p).killed ≠ 0 then (some (-1), s) else (none, sleepOn (.proc p) p s)

/-! ## Runs -/

/-- After userinit. -/
def Sys.init : Sys := ⟨Function.update (fun _ => .unused) initproc ⟨.RUNNABLE, none, 0, 0, 1, none⟩, 2⟩

/-- kill(0) would hit an unused slot. -/
def KillOk (pid : Int) (s : Sys) : Prop := pid = 0 → ∀ i < NPROC, (s.proc i).state ≠ .UNUSED

/-- Process `p` calls, or the scheduler runs it or takes it off. -/
inductive Step (strict : Bool) (p : Nat) : Sys → Sys → Prop where
  | fork (s : Sys) (mem copy : Bool) : (s.proc p).state = .RUNNING → Step strict p s (fork NPROC mem copy p s).2
  | exit (s s' : Sys) (status : Int) : (s.proc p).state = .RUNNING → exit NPROC status p s = .ok s' →
      Step strict p s s'
  | wait (s : Sys) (copied : Bool) : (s.proc p).state = .RUNNING → Step strict p s (wait NPROC copied p s).2
  | kill (s : Sys) (pid : Int) : (s.proc p).state = .RUNNING → (strict = true → KillOk NPROC pid s) →
      Step strict p s (kill NPROC pid s).2
  | resume (s : Sys) : (s.proc p).state = .RUNNABLE → Step strict p s (resume p s)
  | yield (s : Sys) : (s.proc p).state = .RUNNING → Step strict p s (setState .RUNNABLE p s)

/-- `strict`: runs in which kill is called as `KillOk` says. -/
inductive Reach (strict : Bool) : Sys → Prop where
  | init : Reach strict .init
  | step {s s' : Sys} (p : Nat) : Reach strict s → p < NPROC → Step NPROC strict p s s' → Reach strict s'

/-- An unused slot has no pid and is not marked. -/
def Fresh (s : Sys) : Prop := ∀ i < NPROC, (s.proc i).state = .UNUSED → (s.proc i).killed = 0 ∧ (s.proc i).pid = 0

/-- Kill finds the processes and marks the one it finds; a child is not marked. -/
structure Aimed (s : Sys) : Prop where
  fresh : Fresh NPROC s
  finds : ∀ pid, KillOk NPROC pid s → ((kill NPROC pid s).1 = 0 ↔ ∃ i < NPROC, (s.proc i).state ≠ .UNUSED ∧
    (s.proc i).pid = pid)
  only : ∀ pid, KillOk NPROC pid s → (kill NPROC pid s).1 = 0 →
    ∃ i < NPROC, (s.proc i).state ≠ .UNUSED ∧ (s.proc i).pid = pid ∧ ∀ j, j ≠ i →
      (kill NPROC pid s).2.proc j = s.proc j
  none : ∀ pid, (kill NPROC pid s).1 ≠ 0 → (kill NPROC pid s).2 = s
  child : ∀ mem copy p i, i < NPROC → (s.proc i).state = .UNUSED →
    ((fork NPROC mem copy p s).2.proc i).state ≠ .UNUSED →
    ((fork NPROC mem copy p s).2.proc i).killed = 0

section

variable {NPROC} {strict : Bool} {p : Nat} {s s' : Sys}

theorem killLoop_spec (pid : Int) : ∀ n j, n + j = NPROC →
    (∃ i < NPROC, (s.proc i).pid = pid ∧ killLoop pid s n j = (0, killAt i s)) ∨
      (∀ i, j ≤ i → i < NPROC → (s.proc i).pid ≠ pid) ∧ killLoop pid s n j = (-1, s) := by
  intro n
  induction n with
  | zero => exact fun j hj => Or.inr ⟨fun i h1 h2 => by omega, rfl⟩
  | succ n ih =>
    intro j hj
    simp only [killLoop]
    split
    · rename_i hp
      exact Or.inl ⟨j, by omega, hp, rfl⟩
    · rename_i hp
      rcases ih (j + 1) (by omega) with h | ⟨h1, h2⟩
      · exact Or.inl h
      · refine Or.inr ⟨fun i hi hlt => ?_, h2⟩
        by_cases e : i = j
        · subst e
          exact hp
        · exact h1 i (by omega) hlt

/-- kill marks the first slot that has the pid, or finds none. -/
theorem kill_spec (NPROC : Nat) (pid : Int) (s : Sys) :
    (∃ i < NPROC, (s.proc i).pid = pid ∧ kill NPROC pid s = (0, killAt i s)) ∨
      (∀ i < NPROC, (s.proc i).pid ≠ pid) ∧ kill NPROC pid s = (-1, s) := by
  rcases killLoop_spec (s := s) pid NPROC 0 rfl with h | ⟨h1, h2⟩
  · exact Or.inl h
  · exact Or.inr ⟨fun i hi => h1 i (Nat.zero_le _) hi, h2⟩

/-! ## Unused slots -/

theorem Fresh.set (h : Fresh NPROC s) {i : Nat} {q : Proc} (hq : q.state = .UNUSED → q.killed = 0 ∧ q.pid = 0) :
    Fresh NPROC (s.set i q) := by
  intro j hj
  by_cases e : j = i
  · subst e
    simpa using hq
  · simpa [e] using h j hj

theorem Fresh.alloc (h : Fresh NPROC s) (i : Nat) : Fresh NPROC (alloc i s) := h.set (i := i) (fun e => by cases e)

theorem Fresh.freeproc (h : Fresh NPROC s) (i : Nat) : Fresh NPROC (freeproc i s) := h.set (by simp [Proc.unused])

theorem Fresh.setParent (h : Fresh NPROC s) (p i : Nat) : Fresh NPROC (setParent p i s) := by
  intro j hj
  by_cases e : j = i
  · subst e
    simpa [Procs.setParent] using h j hj
  · simpa [Procs.setParent, e] using h j hj

theorem Fresh.wakeAt (h : Fresh NPROC s) (chan : Option Chan) (i : Nat) : Fresh NPROC (wakeAt chan i s) := by
  simp only [Procs.wakeAt]
  split
  · exact h.set (by simp)
  · exact h

theorem Fresh.wakeup (chan : Option Chan) (me : Nat) : ∀ n i (s : Sys), Fresh NPROC s →
    Fresh NPROC (wakeup chan me n i s) := by
  intro n
  induction n with
  | zero => exact fun _ _ h => h
  | succ n ih =>
    intro i s h
    simp only [Procs.wakeup]
    refine ih (i + 1) _ ?_
    split
    · exact h.wakeAt chan i
    · exact h

theorem Fresh.reparent (p : Nat) (h : Fresh NPROC s) : ∀ n i, Fresh NPROC (reparent NPROC p n i s) := by
  intro n
  induction n generalizing s with
  | zero => exact fun _ => h
  | succ n ih =>
    intro i
    simp only [Procs.reparent]
    refine ih ?_ (i + 1)
    split
    · exact Fresh.wakeup _ _ _ _ _ (h.setParent initproc i)
    · exact h

theorem Fresh.killAt (h : Fresh NPROC s) {i : Nat} (hi : (s.proc i).state ≠ .UNUSED) : Fresh NPROC (killAt i s) := by
  refine h.set fun e => ?_
  dsimp only at e
  split at e
  · cases e
  · exact absurd e hi

theorem Fresh.waitScan (h : Fresh NPROC s) {copied : Bool} {r : Int} : ∀ n i havekids,
    waitScan copied p s n i havekids = .inr (r, s') → Fresh NPROC s' := by
  intro n
  induction n with
  | zero => intro i k e; cases e
  | succ n ih =>
    intro i k e
    simp only [Procs.waitScan] at e
    split at e
    · split at e
      · cases copied with
        | true =>
          obtain ⟨-, rfl⟩ := Prod.mk.inj (Sum.inr.inj e)
          exact h.freeproc i
        | false =>
          obtain ⟨-, rfl⟩ := Prod.mk.inj (Sum.inr.inj e)
          exact h
      · exact ih _ _ e
    · exact ih _ _ e

/-- What kill finds has the pid, and is in use. -/
theorem Fresh.kill_cases (h : Fresh NPROC s) {pid : Int} (hk : KillOk NPROC pid s) :
    (∃ i < NPROC, (s.proc i).state ≠ .UNUSED ∧ (s.proc i).pid = pid ∧ kill NPROC pid s = (0, Procs.killAt i s)) ∨
      (∀ i < NPROC, (s.proc i).pid ≠ pid) ∧ kill NPROC pid s = (-1, s) := by
  rcases kill_spec NPROC pid s with ⟨i, hi, hp, e⟩ | hno
  · refine Or.inl ⟨i, hi, fun hu => ?_, hp, e⟩
    have h0 := (h i hi hu).2
    rw [hp] at h0
    exact hk h0 i hi hu
  · exact Or.inr hno

theorem Fresh.step (h : Fresh NPROC s) (hs : Step NPROC true p s s') : Fresh NPROC s' := by
  cases hs with
  | fork mem copy _ =>
    simp only [Procs.fork]
    split
    · exact h
    · split
      · exact (h.alloc _).freeproc _
      · split
        · exact (h.alloc _).freeproc _
        · exact ((h.alloc _).setParent _ _).set (by simp)
  | exit s' status _ e =>
    simp only [Procs.exit] at e
    split at e
    · cases e
    · obtain rfl := Except.ok.inj e
      exact (Fresh.wakeup _ _ _ _ _ (h.reparent p _ _)).set (by simp)
  | wait copied _ =>
    simp only [Procs.wait]
    split
    · rename_i r s' e
      exact h.waitScan _ _ _ e
    · split
      · exact h
      · exact h.set (by simp)
  | kill pid _ hk =>
    rcases h.kill_cases (hk rfl) with ⟨i, -, hu, -, e⟩ | ⟨-, e⟩
    · rw [e]
      exact h.killAt hu
    · rw [e]
      exact h
  | resume _ => exact h.set (by simp)
  | yield _ => exact h.set (by simp)

theorem Fresh.init : Fresh NPROC .init := by
  intro i _
  by_cases e : i = initproc
  · subst e
    simp [Sys.init]
  · simp [Sys.init, e, Proc.unused]

theorem Fresh.aimed (h : Fresh NPROC s) : Aimed NPROC s := by
  refine ⟨h, fun pid hk => ?_, fun pid hk h0 => ?_, fun pid h0 => ?_, fun mem copy p i hi hu hne => ?_⟩
  · rcases h.kill_cases hk with ⟨i, hi, hu, hp, e⟩ | ⟨hno, e⟩
    · simpa [e] using ⟨i, hi, hu, hp⟩
    · simpa [e] using fun i hi _ => hno i hi
  · rcases h.kill_cases hk with ⟨i, hi, hu, hp, e⟩ | ⟨-, e⟩
    · refine ⟨i, hi, hu, hp, fun j hj => ?_⟩
      simp [e, Procs.killAt, hj]
    · simp [e] at h0
  · rcases kill_spec NPROC pid s with ⟨i, -, -, e⟩ | ⟨-, e⟩
    · simp [e] at h0
    · rw [e]
  · -- the slot fork filled was unused, and it does not touch `killed`
    have hk := (h i hi hu).1
    revert hne
    simp only [Procs.fork]
    split
    · exact fun hne => absurd hu hne
    · rename_i np _
      by_cases e : i = np
      · subst e
        split
        · simp [Procs.freeproc, Proc.unused]
        · split
          · simp [Procs.freeproc, Proc.unused]
          · intro _
            simpa [Procs.setState, Procs.setParent, Procs.alloc, Sys.set] using hk
      · split
        · simp [Procs.freeproc, Procs.alloc, Sys.set, e, hu]
        · split
          · simp [Procs.freeproc, Procs.alloc, Sys.set, e, hu]
          · simp [Procs.setState, Procs.setParent, Procs.alloc, Sys.set, e, hu]

/-- In every run of fork, exit, wait and kill with any arguments, kill(0) only while no slot
    is unused: kill reaches its target and nothing else does. -/
theorem kill_reaches_its_target (h : Reach NPROC true s) : Aimed NPROC s := by
  suffices hf : Fresh NPROC s from hf.aimed
  induction h with
  | init => exact .init
  | step p _ _ hs ih => exact ih.step hs

end

/-- The first process runs and forks. -/
theorem kill_reaches_its_target_first : ∃ s, Reach 64 true s ∧ (s.proc 1).state = .RUNNABLE ∧ (s.proc 1).pid = 2 ∧
    Aimed 64 s := by
  have h1 : Reach 64 true _ := .step 0 .init (by decide) (.resume _ rfl)
  have h2 : Reach 64 true _ := .step 0 h1 (by decide) (.fork _ true true rfl)
  exact ⟨_, h2, rfl, rfl, kill_reaches_its_target h2⟩

/-- kill(0) finds slot 1, which nobody uses, and marks it for the next process there. -/
theorem kill_zero_marks_a_free_slot : ¬ ∀ NPROC s, Reach NPROC false s → Aimed NPROC s := by
  intro h
  have h1 : Reach 64 false _ := .step 0 .init (by decide) (.resume _ rfl)
  have h2 : Reach 64 false _ := .step 0 h1 (by decide) (.kill _ 0 rfl (fun e => by cases e))
  exact absurd ((h 64 _ h2).fresh 1 (by decide) rfl).1 (by decide)

end Xv6Labs.Procs
