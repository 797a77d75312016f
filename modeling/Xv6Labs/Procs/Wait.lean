/-
  Xv6Labs.Procs.Wait — fork, exit, wait, kill, sleep and wakeup by many processes.

  A step is what a process does while it holds one p->lock, or between two locks; wait_lock
  is held over several steps (`lock`), and a step that acquires it has to find it free. A
  process steps while it is RUNNING; the scheduler may run any RUNNABLE process and take off
  any that does not hold wait_lock. wait is wait(0), and the first process does not exit.

  `serial` numbers the processes as they are made, `exited` lists who called exit with what
  status, `returned` what wait returned: nothing reads them.

  - `Inv.step`: what holds whoever has wait_lock.
  - `exit_wait_exact`: what wait returns is an exited child, once, with its status, and no
    parent sleeps in wait beside a zombie child when wait_lock is free.
-/

import Xv6Labs.Procs.Table
import Mathlib.Data.List.Nodup

namespace Xv6Labs.Procs

/-! ## Steps -/

/-- Where a process is. -/
inductive Pc where
  | user
  /-- allocproc at slot `i` -/
  | forkScan (i : Nat)
  | forkParent (np : Nat)
  | forkRun (np : Nat)
  | exitLock (status : Int)
  | reparent (status : Int) (i : Nat)
  /-- wakeup(initproc) at slot `j`, in reparent at slot `i` -/
  | wakeInit (status : Int) (i j : Nat)
  | wakeParent (status : Int) (j : Nat)
  | zombie (status : Int)
  | waitLock
  | waitScan (i : Nat) (havekids : Bool)
  /-- wait has children and was not killed -/
  | waitStay
  /-- in the sleep of wait -/
  | waitSleep
  | killScan (pid : Int) (i : Nat)
  | wakeScan (a i : Nat)
  /-- in any other sleep -/
  | asleep
  | dead
  deriving DecidableEq

structure Ret where
  caller : Nat
  parent : Option Nat
  serial : Nat
  pid : Int
  xstate : Int

structure World where
  s : Sys
  lock : Option Nat
  pc : Nat → Pc
  serial : Nat → Nat
  next : Nat
  exited : List (Nat × Int × Int)
  returned : List Ret

def World.init : World := ⟨.init, none, Function.update (fun _ => .dead) initproc .user, fun _ => 0, 1, [], []⟩

def World.goto (w : World) (p : Nat) (c : Pc) : World := { w with pc := Function.update w.pc p c }

/-- Where a process that slept goes on. -/
def Pc.resumed : Pc → Pc
  | .waitSleep => .waitLock
  | .asleep => .user
  | c => c

variable (NPROC : Nat)

/-- Steps that change nothing but where the process is. -/
inductive Moves (w : World) (p : Nat) : Pc → Pc → Prop where
  | fork : Moves w p .user (.forkScan 0)
  | forkNext (i : Nat) : i < NPROC → (w.s.proc i).state ≠ .UNUSED → Moves w p (.forkScan i) (.forkScan (i + 1))
  | forkNone : Moves w p (.forkScan NPROC) .user
  | reparentNext (status : Int) (i : Nat) : i < NPROC → (w.s.proc i).parent ≠ some p →
      Moves w p (.reparent status i) (.reparent status (i + 1))
  | wakeInitDone (status : Int) (i : Nat) : Moves w p (.wakeInit status i NPROC) (.reparent status (i + 1))
  | reparentDone (status : Int) : Moves w p (.reparent status NPROC) (.wakeParent status 0)
  | wakeParentDone (status : Int) : Moves w p (.wakeParent status NPROC) (.zombie status)
  | wait : Moves w p .user .waitLock
  | waitKid (i : Nat) (k : Bool) : i < NPROC → (w.s.proc i).parent = some p → (w.s.proc i).state ≠ .ZOMBIE →
      Moves w p (.waitScan i k) (.waitScan (i + 1) true)
  | waitNext (i : Nat) (k : Bool) : i < NPROC → (w.s.proc i).parent ≠ some p →
      Moves w p (.waitScan i k) (.waitScan (i + 1) k)
  | waitStay : (w.s.proc p).killed = 0 → Moves w p (.waitScan NPROC true) .waitStay
  | kill (pid : Int) : Moves w p .user (.killScan pid 0)
  | killNext (pid : Int) (i : Nat) : i < NPROC → (w.s.proc i).pid ≠ pid →
      Moves w p (.killScan pid i) (.killScan pid (i + 1))
  | killNone (pid : Int) : Moves w p (.killScan pid NPROC) .user
  | wakeup (a : Nat) : Moves w p .user (.wakeScan a 0)
  | wakeDone (a : Nat) : Moves w p (.wakeScan a NPROC) .user

/-- One round of wakeup. -/
def wakeOther (chan : Option Chan) (p j : Nat) (s : Sys) : Sys := if j ≠ p then wakeAt chan j s else s

inductive WStep (p : Nat) : World → World → Prop where
  | move (w : World) (c : Pc) : (w.s.proc p).state = .RUNNING → Moves NPROC w p (w.pc p) c → WStep p w (w.goto p c)
  | forkFail (w : World) (i : Nat) : (w.s.proc p).state = .RUNNING → w.pc p = .forkScan i → i < NPROC →
      (w.s.proc i).state = .UNUSED →
      WStep p w (World.goto { w with s := freeproc i (alloc i w.s) } p .user)
  | forkAlloc (w : World) (i : Nat) : (w.s.proc p).state = .RUNNING → w.pc p = .forkScan i → i < NPROC →
      (w.s.proc i).state = .UNUSED →
      WStep p w
        (World.goto
        { w with s := alloc i w.s, pc := Function.update w.pc i .user, serial := Function.update w.serial i w.next,
                                     next := w.next + 1 } p (.forkParent i))
  | forkParent (w : World) (np : Nat) : (w.s.proc p).state = .RUNNING → w.pc p = .forkParent np → w.lock = none →
      WStep p w (World.goto { w with s := setParent p np w.s } p (.forkRun np))
  | forkRun (w : World) (np : Nat) : (w.s.proc p).state = .RUNNING → w.pc p = .forkRun np →
      WStep p w (World.goto { w with s := setState .RUNNABLE np w.s } p .user)
  | exit (w : World) (status : Int) : (w.s.proc p).state = .RUNNING → w.pc p = .user → p ≠ initproc →
      WStep p w (World.goto { w with exited := (w.serial p, (w.s.proc p).pid, status) :: w.exited } p
        (.exitLock status))
  | exitLock (w : World) (status : Int) : (w.s.proc p).state = .RUNNING → w.pc p = .exitLock status → w.lock = none →
      WStep p w (World.goto { w with lock := some p } p (.reparent status 0))
  | reparent (w : World) (status : Int) (i : Nat) : (w.s.proc p).state = .RUNNING → w.pc p = .reparent status i →
      i < NPROC →
      (w.s.proc i).parent = some p → WStep p w
        (World.goto { w with s := setParent initproc i w.s } p (.wakeInit status i 0))
  | wakeInit (w : World) (status : Int) (i j : Nat) : (w.s.proc p).state = .RUNNING → w.pc p = .wakeInit status i j →
      j < NPROC →
      WStep p w (World.goto { w with s := wakeOther (some (.proc initproc)) p j w.s } p (.wakeInit status i (j + 1)))
  | wakeParent (w : World) (status : Int) (j : Nat) : (w.s.proc p).state = .RUNNING → w.pc p = .wakeParent status j →
      j < NPROC →
      WStep p w (World.goto { w with s := wakeOther ((w.s.proc p).parent.map .proc) p j w.s } p
        (.wakeParent status (j + 1)))
  | zombie (w : World) (status : Int) : (w.s.proc p).state = .RUNNING → w.pc p = .zombie status →
      WStep p w (World.goto { w with s := zombie status p w.s, lock := none } p .dead)
  | waitLock (w : World) : (w.s.proc p).state = .RUNNING → w.pc p = .waitLock → w.lock = none →
      WStep p w (World.goto { w with lock := some p } p (.waitScan 0 false))
  | waitFree (w : World) (i : Nat) (k : Bool) : (w.s.proc p).state = .RUNNING → w.pc p = .waitScan i k → i < NPROC →
      (w.s.proc i).parent = some p → (w.s.proc i).state = .ZOMBIE →
      WStep p w (World.goto { w with
        s := freeproc i w.s
        lock := none
        returned := ⟨p, (w.s.proc i).parent, w.serial i, (w.s.proc i).pid,
          (w.s.proc i).xstate⟩ :: w.returned } p .user)
  | waitNone (w : World) (k : Bool) : (w.s.proc p).state = .RUNNING → w.pc p = .waitScan NPROC k →
      k = false ∨ (w.s.proc p).killed ≠ 0 → WStep p w (World.goto { w with lock := none } p .user)
  | waitSleep (w : World) : (w.s.proc p).state = .RUNNING → w.pc p = .waitStay →
      WStep p w (World.goto { w with s := sleepOn (.proc p) p w.s, lock := none } p .waitSleep)
  | killHit (w : World) (pid : Int) (i : Nat) : (w.s.proc p).state = .RUNNING → w.pc p = .killScan pid i → i < NPROC →
      (w.s.proc i).pid = pid → WStep p w (World.goto { w with s := killAt i w.s } p .user)
  | wakeNext (w : World) (a i : Nat) : (w.s.proc p).state = .RUNNING → w.pc p = .wakeScan a i → i < NPROC →
      WStep p w (World.goto { w with s := wakeOther (some (.other a)) p i w.s } p (.wakeScan a (i + 1)))
  | sleep (w : World) (a : Nat) : (w.s.proc p).state = .RUNNING → w.pc p = .user →
      WStep p w (World.goto { w with s := sleepOn (.other a) p w.s } p .asleep)
  | resume (w : World) : (w.s.proc p).state = .RUNNABLE →
      WStep p w (World.goto { w with s := resume p w.s } p (w.pc p).resumed)
  | yield (w : World) : (w.s.proc p).state = .RUNNING → w.lock ≠ some p →
      WStep p w { w with s := setState .RUNNABLE p w.s }

inductive WReach : World → Prop where
  | init : WReach .init
  | step {w w' : World} (p : Nat) : WReach w → p < NPROC → WStep NPROC p w w' → WReach w'

/-! ## Who has wait_lock, and who is where -/

def Pc.locks : Pc → Bool
  | .reparent .. | .wakeInit .. | .wakeParent .. | .zombie .. | .waitScan .. | .waitStay => true
  | _ => false

/-- How many slots wait has looked at. -/
def Pc.passed : Pc → Nat
  | .waitScan i _ => i
  | .waitStay => NPROC
  | _ => 0

theorem Pc.locks_of_passed {NPROC : Nat} {c : Pc} (h : 0 < c.passed NPROC) : c.locks = true := by
  cases c with
  | waitScan => rfl
  | waitStay => rfl
  | _ => exact absurd h (Nat.lt_irrefl 0)

/-- The child fork is making. -/
def Pc.child : Pc → Option Nat
  | .forkParent np | .forkRun np => some np
  | _ => none

/-- The status of a process that is exiting. -/
def Pc.status : Pc → Option Int
  | .exitLock st | .reparent st _ | .wakeInit st _ _ | .wakeParent st _ | .zombie st => some st
  | _ => none

/-- The process sleeps in wait. -/
def World.sleeps (w : World) (q : Nat) : Prop := w.pc q = .waitSleep ∧ (w.s.proc q).state = .SLEEPING

/-- Reparenting has given init a child and not woken it yet. -/
def World.waking (w : World) (q : Nat) : Prop := ∃ h st i j, w.pc h = .wakeInit st i j ∧ q = initproc ∧ j ≤ initproc

structure Inv (w : World) : Prop where
  holder : ∀ p, (w.pc p).locks = true ↔ w.lock = some p
  gone : ∀ i, (w.s.proc i).state = .UNUSED ∨ (w.s.proc i).state = .ZOMBIE → w.pc i = .dead
  child : ∀ p np, (w.pc p).child = some np → (w.s.proc np).state = .USED ∧ np < NPROC
  single : ∀ p p' np, (w.pc p).child = some np → (w.pc p').child = some np → p = p'
  parent : ∀ z q, (w.s.proc z).parent = some q → z < NPROC ∧ q < NPROC
  chan : ∀ q, w.sleeps q → (w.s.proc q).chan = some (.proc q)
  lost : ∀ q z, w.sleeps q → (w.s.proc z).parent = some q → (w.s.proc z).state = .ZOMBIE → w.waking q
  woken : ∀ p st j q, w.pc p = .wakeParent st j → (w.s.proc p).parent = some q → q < j → ¬ w.sleeps q
  ready : ∀ p st q, w.pc p = .zombie st → (w.s.proc p).parent = some q → ¬ w.sleeps q
  scanned : ∀ p, ∀ j < (w.pc p).passed NPROC, (w.s.proc j).parent = some p → (w.s.proc j).state ≠ .ZOMBIE
  exiting : ∀ p st, (w.pc p).status = some st → (w.serial p, (w.s.proc p).pid, st) ∈ w.exited
  zombies : ∀ z, (w.s.proc z).state = .ZOMBIE → (w.serial z, (w.s.proc z).pid, (w.s.proc z).xstate) ∈ w.exited
  serials : ∀ i j, (w.s.proc i).state ≠ .UNUSED → (w.s.proc j).state ≠ .UNUSED → w.serial i = w.serial j → i = j
  bound : (∀ i, (w.s.proc i).state ≠ .UNUSED → w.serial i < w.next) ∧ ∀ r ∈ w.returned, r.serial < w.next
  apart : ∀ r ∈ w.returned, ∀ i, (w.s.proc i).state ≠ .UNUSED → w.serial i ≠ r.serial
  once : (w.returned.map Ret.serial).Nodup
  right : ∀ r ∈ w.returned, r.parent = some r.caller ∧ (r.serial, r.pid, r.xstate) ∈ w.exited

section

variable {NPROC} {w w' : World} {p : Nat}

theorem Inv.holds (h : Inv NPROC w) (hl : (w.pc p).locks = true) {u : Nat} (hu : (w.pc u).locks = true) : u = p := by
  have h1 := (h.holder u).mp hu
  rw [(h.holder p).mp hl] at h1
  exact (Option.some.inj h1).symm

/-- While the lock holder is not waking init, nobody who sleeps has a zombie child. -/
theorem Inv.not_lost (h : Inv NPROC w) (hw : ∀ u, (w.pc u).locks = true → ∀ st i j, w.pc u = .wakeInit st i j →
    ¬ j ≤ initproc)
    {q z : Nat} (hs : w.sleeps q) (hp : (w.s.proc z).parent = some q) : (w.s.proc z).state ≠ .ZOMBIE := by
  intro hz
  obtain ⟨u, st, i, j, hu, -, hj⟩ := h.lost q z hs hp hz
  exact hw u (by simp [hu, Pc.locks]) st i j hu hj

/-- What the invariant asks of a process that goes to `c`. -/
structure Arrives (NPROC : Nat) (w : World) (p : Nat) (c : Pc) : Prop where
  alive : c ≠ .dead → (w.s.proc p).state ≠ .UNUSED ∧ (w.s.proc p).state ≠ .ZOMBIE
  asleep : c = .waitSleep → (w.s.proc p).state ≠ .SLEEPING
  child : ∀ np, c.child = some np → ((w.s.proc np).state = .USED ∧ np < NPROC) ∧ ∀ u, u ≠ p → (w.pc u).child ≠ some np
  lost : ∀ q z, w.sleeps q → q ≠ p → (w.s.proc z).parent = some q → (w.s.proc z).state = .ZOMBIE →
    (∃ st i j, c = .wakeInit st i j ∧ q = initproc ∧ j ≤ initproc) ∨ (w.pc p).locks = false
  woken : ∀ st j q, c = .wakeParent st j → (w.s.proc p).parent = some q → q < j → ¬ w.sleeps q
  ready : ∀ st q, c = .zombie st → (w.s.proc p).parent = some q → ¬ w.sleeps q
  scanned : ∀ j < c.passed NPROC, (w.s.proc j).parent = some p → (w.s.proc j).state ≠ .ZOMBIE
  exiting : ∀ st, c.status = some st → (w.serial p, (w.s.proc p).pid, st) ∈ w.exited

/-- A process that is alive goes on to `c`, taking or leaving wait_lock as `c` says. -/
theorem Inv.goto (h : Inv NPROC w) {c : Pc} {l : Option Nat} (hc : Arrives NPROC w p c)
    (hl : ∀ u, (Function.update w.pc p c u).locks = true ↔ l = some u) :
      Inv NPROC (World.goto { w with lock := l } p c) := by
  have ne : ∀ {u}, u ≠ p → Function.update w.pc p c u = w.pc u := fun e => Function.update_of_ne e _ _
  have self : Function.update w.pc p c p = c := Function.update_self ..
  have sleeps : ∀ q, (World.goto { w with lock := l } p c).sleeps q → w.sleeps q ∧ q ≠ p := fun q hq => by
    obtain ⟨h1, h2⟩ := hq
    by_cases e : q = p
    · subst e
      exact absurd h2 (hc.asleep (self.symm.trans h1))
    · exact ⟨⟨(ne e).symm.trans h1, h2⟩, e⟩
  refine ⟨hl, fun i => ?_, fun u np hu => ?_, fun u u' np hu hu' => ?_, h.parent,
    fun q hq => h.chan q (sleeps q hq).1, fun q z hq hz hzz => ?_,
    fun u st j q hu hq hj hs => ?_, fun u st q hu hq hs => ?_, fun u j hj => ?_, fun u st hu => ?_, h.zombies,
      h.serials, h.bound, h.apart,
    h.once, h.right⟩
  · by_cases e : i = p
    · subst e
      simp only [World.goto, self]
      intro hg
      by_contra hd
      rcases hg with hg | hg
      · exact (hc.alive hd).1 hg
      · exact (hc.alive hd).2 hg
    · simp only [World.goto, ne e]
      exact h.gone i
  · by_cases e : u = p
    · subst e
      simp only [World.goto, self] at hu
      exact (hc.child np hu).1
    · simp only [World.goto, ne e] at hu
      exact h.child u np hu
  · by_cases e : u = p <;> by_cases e' : u' = p
    · rw [e, e']
    · subst e
      simp only [World.goto, self, ne e'] at hu hu'
      exact absurd hu' ((hc.child np hu).2 u' e')
    · subst e'
      simp only [World.goto, self, ne e] at hu hu'
      exact absurd hu ((hc.child np hu').2 u e)
    · simp only [World.goto, ne e, ne e'] at hu hu'
      exact h.single u u' np hu hu'
  · obtain ⟨hs, hqp⟩ := sleeps q hq
    obtain ⟨v, st, i, j, hv, hi, hj⟩ := h.lost q z hs hz hzz
    by_cases e : v = p
    · subst e
      rcases hc.lost q z hs hqp hz hzz with ⟨st', i', j', rfl, h1, h2⟩ | h1
      · exact ⟨v, st', i', j', self, h1, h2⟩
      · simp [hv, Pc.locks] at h1
    · exact ⟨v, st, i, j, (ne e).trans hv, hi, hj⟩
  · by_cases e : u = p
    · subst e
      exact hc.woken st j q (self.symm.trans hu) hq hj (sleeps q hs).1
    · exact h.woken u st j q ((ne e).symm.trans hu) hq hj (sleeps q hs).1
  · by_cases e : u = p
    · subst e
      exact hc.ready st q (self.symm.trans hu) hq (sleeps q hs).1
    · exact h.ready u st q ((ne e).symm.trans hu) hq (sleeps q hs).1
  · by_cases e : u = p
    · subst e
      exact hc.scanned j (by simpa only [World.goto, self] using hj)
    · exact h.scanned u j (by simpa only [World.goto, ne e] using hj)
  · by_cases e : u = p
    · subst e
      exact hc.exiting st (by simpa [World.goto, self] using hu)
    · exact h.exiting u st (by simpa [World.goto, ne e] using hu)

/-- Who has the lock after a process that has it goes on with it. -/
theorem Inv.keeps (h : Inv NPROC w) {c : Pc} (hc : c.locks = (w.pc p).locks) (u : Nat) :
    (Function.update w.pc p c u).locks = true ↔ w.lock = some u := by
  by_cases e : u = p
  · subst e
    rw [Function.update_self, hc]
    exact h.holder u
  · rw [Function.update_of_ne e]
    exact h.holder u

theorem Inv.takes (h : Inv NPROC w) {c : Pc} (hl : w.lock = none) (hc : c.locks = true) (u : Nat) :
    (Function.update w.pc p c u).locks = true ↔ some p = some u := by
  by_cases e : u = p
  · subst e
    simp [hc]
  · have h1 := h.holder u
    simp only [hl, reduceCtorEq, iff_false] at h1
    simp [e, h1, Ne.symm e]

theorem Inv.leaves (h : Inv NPROC w) {c : Pc} (hl : (w.pc p).locks = true) (hc : c.locks = false) (u : Nat) :
    (Function.update w.pc p c u).locks = true ↔ none = some u := by
  by_cases e : u = p
  · subst e
    simp [hc]
  · simp only [Function.update_of_ne e, reduceCtorEq, iff_false]
    exact fun hu => e (h.holds hl hu)

/-! ## Sections that leave the table much as it is -/

/-- Processes are woken, run, taken off or put to sleep outside wait, and nothing else. -/
structure Calm (w : World) (s : Sys) : Prop where
  pid : ∀ i, (s.proc i).pid = (w.s.proc i).pid
  parent : ∀ i, (s.proc i).parent = (w.s.proc i).parent
  xstate : ∀ i, (s.proc i).xstate = (w.s.proc i).xstate
  unused : ∀ i, (s.proc i).state = .UNUSED ↔ (w.s.proc i).state = .UNUSED
  used : ∀ i, (w.s.proc i).state = .USED → (s.proc i).state = .USED
  zombie : ∀ i, (s.proc i).state = .ZOMBIE ↔ (w.s.proc i).state = .ZOMBIE
  asleep : ∀ i, w.pc i = .waitSleep → (s.proc i).state = .SLEEPING → (w.s.proc i).state = .SLEEPING ∧
    (s.proc i).chan = (w.s.proc i).chan

theorem Inv.calm (h : Inv NPROC w) {s : Sys} (hs : Calm w s) : Inv NPROC { w with s := s } := by
  have sleeps : ∀ q, World.sleeps { w with s := s } q → w.sleeps q := fun q hq => ⟨hq.1, (hs.asleep q hq.1 hq.2).1⟩
  refine ⟨h.holder, fun i => ?_, fun u np hu => ⟨hs.used np (h.child u np hu).1, (h.child u np hu).2⟩, h.single,
    fun z q hz => ?_, fun q hq => ?_, fun q z hq hz hzz => ?_,
    fun u st j q hu hq hj hsl => ?_, fun u st q hu hq hsl => ?_, fun u j hj hjp => ?_, fun u st hu => ?_,
      fun z hz => ?_, fun i j hi hj => ?_,
    ⟨fun i hi => ?_, h.bound.2⟩, fun r hr i hi => ?_, h.once, h.right⟩
  · intro hg
    rw [hs.unused i, hs.zombie i] at hg
    exact h.gone i hg
  · rw [hs.parent z] at hz
    exact h.parent z q hz
  · rw [(hs.asleep q hq.1 hq.2).2]
    exact h.chan q (sleeps q hq)
  · rw [hs.parent z] at hz
    exact h.lost q z (sleeps q hq) hz ((hs.zombie z).mp hzz)
  · rw [hs.parent u] at hq
    exact h.woken u st j q hu hq hj (sleeps q hsl)
  · rw [hs.parent u] at hq
    exact h.ready u st q hu hq (sleeps q hsl)
  · rw [hs.parent j] at hjp
    exact fun hz => h.scanned u j hj hjp ((hs.zombie j).mp hz)
  · rw [hs.pid u]
    exact h.exiting u st hu
  · rw [hs.pid z, hs.xstate z]
    exact h.zombies z ((hs.zombie z).mp hz)
  · exact h.serials i j (fun e => hi ((hs.unused i).mpr e)) (fun e => hj ((hs.unused j).mpr e))
  · exact h.bound.1 i fun e => hi ((hs.unused i).mpr e)
  · exact h.apart r hr i fun e => hi ((hs.unused i).mpr e)

/-- One slot, alive, to another state in which it is alive. -/
theorem Calm.one (i : Nat) (st : ProcState) (chan : Option Chan) (killed : Int)
    (h0 : (w.s.proc i).state = .SLEEPING ∨ (w.s.proc i).state = .RUNNABLE ∨ (w.s.proc i).state = .RUNNING)
    (h1 : st = .RUNNABLE ∨ st = .RUNNING ∨ st = .SLEEPING ∧ w.pc i ≠ .waitSleep) :
    Calm w (w.s.set i { w.s.proc i with state := st, chan := chan, killed := killed }) := by
  have ne : ∀ j, j ≠ i → (w.s.set i { w.s.proc i with state := st, chan := chan, killed := killed }).proc j =
    w.s.proc j := fun j e => Sys.set_ne _ _ e
  refine ⟨fun j => ?_, fun j => ?_, fun j => ?_, fun j => ?_, fun j => ?_, fun j => ?_, fun j => ?_⟩
  all_goals
    by_cases e : j = i
    · subst e
      rcases h0 with h0 | h0 | h0 <;> rcases h1 with h1 | h1 | ⟨h1, h2⟩ <;> simp [*]
    · simp [e]

theorem Calm.refl (w : World) : Calm w w.s :=
  ⟨fun _ => rfl, fun _ => rfl, fun _ => rfl, fun _ => Iff.rfl, fun _ h => h, fun _ => Iff.rfl, fun _ _ h => ⟨h, rfl⟩⟩

theorem Calm.wakeAt (w : World) (chan : Option Chan) (i : Nat) : Calm w (wakeAt chan i w.s) := by
  simp only [Procs.wakeAt]
  split
  · rename_i hs
    exact .one i .RUNNABLE (w.s.proc i).chan (w.s.proc i).killed (Or.inl hs.1) (Or.inl rfl)
  · exact .refl w

theorem Calm.wakeOther (w : World) (chan : Option Chan) (p i : Nat) : Calm w (wakeOther chan p i w.s) := by
  simp only [Procs.wakeOther]
  split
  · exact .wakeAt w chan i
  · exact .refl w

theorem Calm.killAt (w : World) (i : Nat) : Calm w (killAt i w.s) := by
  refine ⟨fun j => ?_, fun j => ?_, fun j => ?_, fun j => ?_, fun j => ?_, fun j => ?_, fun j _ => ?_⟩
  all_goals
    by_cases e : j = i
    · subst e
      by_cases hs : (w.s.proc j).state = .SLEEPING <;> simp [Procs.killAt, hs]
    · simp [Procs.killAt, e]

/-! ## Sections that change a slot for good -/

/-- What the invariant asks of a new content of slot `i`. -/
structure Slot (NPROC : Nat) (w : World) (i : Nat) (q : Proc) : Prop where
  gone : q.state = .UNUSED ∨ q.state = .ZOMBIE → w.pc i = .dead
  child : ∀ u, (w.pc u).child = some i → q.state = .USED
  parent : ∀ x, q.parent = some x → i < NPROC ∧ x < NPROC
  asleep : w.pc i = .waitSleep → q.state = .SLEEPING → (w.s.proc i).state = .SLEEPING ∧ q.chan = (w.s.proc i).chan ∨
    q.chan = some (.proc i) ∧ w.lock = none ∧ ∀ z, z ≠ i → (w.s.proc z).parent = some i → (w.s.proc z).state ≠ .ZOMBIE
  lost : q.state = .ZOMBIE → ∀ x, q.parent = some x → w.sleeps x → w.waking x
  exits : (∃ st j, w.pc i = .wakeParent st j) ∨ (∃ st, w.pc i = .zombie st) → q.parent = (w.s.proc i).parent
  scanned : q.state = .ZOMBIE → ∀ u, 0 < (w.pc u).passed NPROC → q.parent ≠ some u
  exiting : (w.pc i).status ≠ none → q.pid = (w.s.proc i).pid
  zombies : q.state = .ZOMBIE → (w.serial i, q.pid, q.xstate) ∈ w.exited
  used : q.state ≠ .UNUSED → (w.s.proc i).state ≠ .UNUSED

theorem Inv.slot (h : Inv NPROC w) {i : Nat} {q : Proc} (hq : Slot NPROC w i q) :
    Inv NPROC { w with s := w.s.set i q } := by
  have free : w.lock = none → ∀ u, (w.pc u).locks = false := fun hl u => by
    have h1 := h.holder u
    simpa [hl] using h1
  have sleeps : ∀ x, x ≠ i → World.sleeps { w with s := w.s.set i q } x → w.sleeps x :=
    fun x e hx => ⟨hx.1, by simpa [e] using hx.2⟩
  -- who sleeps in wait anew does so with the lock free
  have anew : World.sleeps { w with s := w.s.set i q } i → w.sleeps i ∨ w.lock = none := fun hx => by
    rcases hq.asleep hx.1 (by simpa using hx.2) with ⟨h1, -⟩ | ⟨-, h1, -⟩
    · exact Or.inl ⟨hx.1, h1⟩
    · exact Or.inr h1
  have used : ∀ j, ((w.s.set i q).proc j).state ≠ .UNUSED → (w.s.proc j).state ≠ .UNUSED := fun j hj => by
    by_cases e : j = i
    · subst e
      exact hq.used (by simpa using hj)
    · simpa [e] using hj
  refine ⟨h.holder, fun j => ?_, fun u np hu => ?_, h.single, fun z x hz => ?_, fun x hx => ?_,
    fun x z hx hz hzz => ?_, fun u st j x hu hx hj hsl => ?_,
    fun u st x hu hx hsl => ?_, fun u j hj hjp => ?_, fun u st hu => ?_, fun z hz => ?_,
      fun j j' hj hj' => h.serials j j' (used j hj) (used j' hj'),
    ⟨fun j hj => h.bound.1 j (used j hj), h.bound.2⟩, fun r hr j hj => h.apart r hr j (used j hj), h.once, h.right⟩
  · by_cases e : j = i
    · subst e
      simpa using hq.gone
    · simpa [e] using h.gone j
  · refine ⟨?_, (h.child u np hu).2⟩
    by_cases e : np = i
    · subst e
      simpa using hq.child u hu
    · simpa [e] using (h.child u np hu).1
  · by_cases e : z = i
    · subst e
      exact hq.parent x (by simpa using hz)
    · exact h.parent z x (by simpa [e] using hz)
  · by_cases e : x = i
    · subst e
      rcases hq.asleep hx.1 (by simpa using hx.2) with ⟨h1, h2⟩ | ⟨h1, -⟩
      · simpa [h2] using h.chan x ⟨hx.1, h1⟩
      · simpa using h1
    · simpa [e] using h.chan x (sleeps x e hx)
  · by_cases ez : z = i
    · subst ez
      simp only [Sys.set_self] at hz hzz
      by_cases e : x = z
      · subst e
        have h1 := hx.2
        simp [hzz] at h1
      · exact hq.lost hzz x hz (sleeps x e hx)
    · simp only [Sys.set_ne _ _ ez] at hz hzz
      by_cases e : x = i
      · subst e
        rcases hq.asleep hx.1 (by simpa using hx.2) with ⟨h1, -⟩ | ⟨-, -, h1⟩
        · exact h.lost x z ⟨hx.1, h1⟩ hz hzz
        · exact absurd hzz (h1 z ez hz)
      · exact h.lost x z (sleeps x e hx) hz hzz
  · have hlock : (w.pc u).locks = true := by simp [show w.pc u = _ from hu, Pc.locks]
    have hpar : (w.s.proc u).parent = some x := by
      by_cases e : u = i
      · subst e
        simp only [Sys.set_self] at hx
        rw [← hq.exits (Or.inl ⟨st, j, hu⟩), hx]
      · simpa [e] using hx
    by_cases e : x = i
    · subst e
      rcases anew hsl with hsl | hl
      · exact h.woken u st j x hu hpar hj hsl
      · rw [free hl u] at hlock
        cases hlock
    · exact h.woken u st j x hu hpar hj (sleeps x e hsl)
  · have hlock : (w.pc u).locks = true := by simp [show w.pc u = _ from hu, Pc.locks]
    have hpar : (w.s.proc u).parent = some x := by
      by_cases e : u = i
      · subst e
        simp only [Sys.set_self] at hx
        rw [← hq.exits (Or.inr ⟨st, hu⟩), hx]
      · simpa [e] using hx
    by_cases e : x = i
    · subst e
      rcases anew hsl with hsl | hl
      · exact h.ready u st x hu hpar hsl
      · rw [free hl u] at hlock
        cases hlock
    · exact h.ready u st x hu hpar (sleeps x e hsl)
  · by_cases e : j = i
    · subst e
      simp only [Sys.set_self] at hjp ⊢
      exact fun hz => hq.scanned hz u (Nat.zero_lt_of_lt hj) hjp
    · simp only [Sys.set_ne _ _ e] at hjp ⊢
      exact h.scanned u j hj hjp
  · by_cases e : u = i
    · subst e
      simp only [Sys.set_self]
      rw [hq.exiting (by simp [hu])]
      exact h.exiting u st hu
    · simpa [e] using h.exiting u st hu
  · by_cases e : z = i
    · subst e
      simpa using hq.zombies (by simpa using hz)
    · simpa [e] using h.zombies z (by simpa [e] using hz)

/-! ## One step -/

theorem Inv.nextpid (h : Inv NPROC w) (n : Int) : Inv NPROC { w with s := { w.s with nextpid := n } } :=
  ⟨h.holder, h.gone, h.child, h.single, h.parent, h.chan, h.lost, h.woken, h.ready, h.scanned, h.exiting, h.zombies,
    h.serials, h.bound,
    h.apart, h.once, h.right⟩

theorem Inv.exited (h : Inv NPROC w) (e : Nat × Int × Int) : Inv NPROC { w with exited := e :: w.exited } :=
  ⟨h.holder, h.gone, h.child, h.single, h.parent, h.chan, h.lost, h.woken, h.ready, h.scanned,
    fun p st hp => List.mem_cons_of_mem _ (h.exiting p st hp), fun z hz => List.mem_cons_of_mem _ (h.zombies z hz),
      h.serials, h.bound,
    h.apart, h.once, fun r hr => ⟨(h.right r hr).1, List.mem_cons_of_mem _ (h.right r hr).2⟩⟩

/-- A new process in an unused slot. -/
theorem Inv.make (h : Inv NPROC w) {i : Nat} (hi : (w.s.proc i).state = .UNUSED) :
    Inv NPROC { w with s := alloc i w.s, serial := Function.update w.serial i w.next, next := w.next + 1 } := by
  have ne : ∀ {j}, j ≠ i → (alloc i w.s).proc j = w.s.proc j := fun e => by simp [alloc, Sys.set, e]
  have self : (alloc i w.s).proc i = { w.s.proc i with pid := w.s.nextpid, state := .USED } := by
    simp [alloc, Sys.set]
  have hdead := h.gone i (Or.inl hi)
  have parent : ∀ j, ((alloc i w.s).proc j).parent = (w.s.proc j).parent := fun j => by
    by_cases e : j = i
    · subst e
      rw [self]
    · rw [ne e]
  have zombie : ∀ j, ((alloc i w.s).proc j).state = .ZOMBIE → j ≠ i ∧ (w.s.proc j).state = .ZOMBIE := fun j hj => by
    by_cases e : j = i
    · subst e
      simp [self] at hj
    · exact ⟨e, by rwa [ne e] at hj⟩
  have sleeps : ∀ q,
    World.sleeps { w with s := alloc i w.s, serial := Function.update w.serial i w.next, next := w.next + 1 } q →
    w.sleeps q :=
    fun q hq => by
      by_cases e : q = i
      · subst e
        have h1 := hq.2
        simp [self] at h1
      · exact ⟨hq.1, by simpa only [ne e] using hq.2⟩
  refine ⟨h.holder, fun j hj => ?_, fun u np hu => ?_, h.single, fun z q hz => ?_, fun q hq => ?_,
    fun q z hq hz hzz => ?_,
    fun u st j q hu hq hj hs => ?_, fun u st q hu hq hs => ?_, fun u j hj hjp => ?_, fun u st hu => ?_,
      fun z hz => ?_, fun j j' hj hj' => ?_,
    ⟨fun j hj => ?_, fun r hr => Nat.lt_succ_of_lt (h.bound.2 r hr)⟩, fun r hr j hj => ?_, h.once, h.right⟩
  · by_cases e : j = i
    · subst e
      exact hdead
    · simp only [ne e] at hj
      exact h.gone j hj
  · refine ⟨?_, (h.child u np hu).2⟩
    by_cases e : np = i
    · subst e
      rw [self]
    · rw [ne e]
      exact (h.child u np hu).1
  · exact h.parent z q (by rwa [parent z] at hz)
  · have hs := sleeps q hq
    have e : q ≠ i := by
      rintro rfl
      have h1 := hs.2
      rw [hi] at h1
      cases h1
    rw [ne e]
    exact h.chan q hs
  · exact h.lost q z (sleeps q hq) (by rwa [parent z] at hz) (zombie z hzz).2
  · exact h.woken u st j q hu (by rwa [parent u] at hq) hj (sleeps q hs)
  · exact h.ready u st q hu (by rwa [parent u] at hq) (sleeps q hs)
  · exact fun hz => h.scanned u j hj (by rwa [parent j] at hjp) (zombie j hz).2
  · have e : u ≠ i := by
      rintro rfl
      simp [hdead, Pc.status] at hu
    simp only [ne e, Function.update_of_ne e]
    exact h.exiting u st hu
  · obtain ⟨e, hz'⟩ := zombie z hz
    simp only [ne e, Function.update_of_ne e]
    exact h.zombies z hz'
  · by_cases e : j = i <;> by_cases e' : j' = i
    · exact fun _ => e.trans e'.symm
    · subst e
      simp only [ne e', Function.update_self, Function.update_of_ne e'] at hj' ⊢
      intro hse
      have := h.bound.1 j' hj'
      omega
    · subst e'
      simp only [ne e, Function.update_self, Function.update_of_ne e] at hj ⊢
      intro hse
      have := h.bound.1 j hj
      omega
    · simp only [ne e, ne e', Function.update_of_ne e, Function.update_of_ne e'] at hj hj' ⊢
      exact h.serials j j' hj hj'
  · by_cases e : j = i
    · subst e
      simp
    · simp only [ne e, Function.update_of_ne e] at hj ⊢
      exact Nat.lt_succ_of_lt (h.bound.1 j hj)
  · by_cases e : j = i
    · subst e
      have := h.bound.2 r hr
      simp only [Function.update_self]
      omega
    · simp only [ne e, Function.update_of_ne e] at hj ⊢
      exact h.apart r hr j hj

/-- Places that ask nothing. -/
def Pc.plain : Pc → Bool
  | .user | .forkScan _ | .waitLock | .killScan .. | .wakeScan .. | .asleep => true
  | _ => false

theorem Arrives.plain {c : Pc} (hc : c.plain = true)
    (ha : (w.s.proc p).state ≠ .UNUSED ∧ (w.s.proc p).state ≠ .ZOMBIE)
    (hl : ∀ q z, w.sleeps q → (w.s.proc z).parent = some q → (w.s.proc z).state = .ZOMBIE → (w.pc p).locks = false) :
      Arrives NPROC w p c := by
  refine ⟨fun _ => ha, ?_, ?_, fun q z hs _ hz hzz => Or.inr (hl q z hs hz hzz), ?_, ?_, ?_, ?_⟩
  all_goals cases c <;> simp [Pc.plain, Pc.child, Pc.passed, Pc.status] at *

/-- Places in the part of exit and wait that has wait_lock, other than those that wake init. -/
theorem Arrives.locked {c : Pc} (h : Inv NPROC w) (ha : (w.s.proc p).state = .RUNNING) (hl : (w.pc p).locks = true)
    (hw : ∀ st i j, w.pc p = .wakeInit st i j → ¬ j ≤ initproc) (hc : c ≠ .dead ∧ c ≠ .waitSleep ∧ c.child = none)
    (h1 : ∀ st j q, c = .wakeParent st j → (w.s.proc p).parent = some q → q < j → ¬ w.sleeps q)
    (h2 : ∀ st q, c = .zombie st → (w.s.proc p).parent = some q → ¬ w.sleeps q)
    (h3 : ∀ j < c.passed NPROC, (w.s.proc j).parent = some p → (w.s.proc j).state ≠ .ZOMBIE)
    (h4 : ∀ st, c.status = some st → (w.pc p).status = some st) : Arrives NPROC w p c := by
  have none_lost : ∀ u, (w.pc u).locks = true → ∀ st i j, w.pc u = .wakeInit st i j → ¬ j ≤ initproc := fun u hu => by
    rw [h.holds hl hu]
    exact hw
  refine ⟨fun _ => by simp [ha], fun e => absurd e hc.2.1, fun np e => by simp [hc.2.2] at e,
    fun q z hs _ hz hzz => absurd hzz (h.not_lost none_lost hs hz), h1, h2, h3, fun st e => h.exiting p st (h4 st e)⟩

theorem Inv.move (h : Inv NPROC w) (hp : p < NPROC) (hr : (w.s.proc p).state = .RUNNING) {a c : Pc} (ha : w.pc p = a)
    (hm : Moves NPROC w p a c) : Inv NPROC (w.goto p c) := by
  have alive : (w.s.proc p).state ≠ .UNUSED ∧ (w.s.proc p).state ≠ .ZOMBIE := by simp [hr]
  -- a place that asks nothing, from one without the lock
  have easy : c.plain = true → c.locks = false → a.locks = false → Inv NPROC (w.goto p c) := fun h1 h2 h3 =>
    h.goto (.plain h1 alive fun _ _ _ _ _ => by rw [ha, h3]) (h.keeps (by rw [ha, h2, h3]))
  -- inside exit, with the lock
  have locked : a.locks = true → c.locks = true → (∀ st i j, a = .wakeInit st i j → ¬ j ≤ initproc) →
      (c ≠ .dead ∧ c ≠ .waitSleep ∧ c.child = none) →
      (∀ st j q, c = .wakeParent st j → (w.s.proc p).parent = some q → q < j → ¬ w.sleeps q) →
      (∀ st q, c = .zombie st → (w.s.proc p).parent = some q → ¬ w.sleeps q) →
      (∀ j < c.passed NPROC, (w.s.proc j).parent = some p → (w.s.proc j).state ≠ .ZOMBIE) →
      (∀ st, c.status = some st → a.status = some st) → Inv NPROC (w.goto p c) := fun h1 h2 h3 h4 h5 h6 h7 h8 =>
    h.goto (.locked h hr (by rw [ha, h1]) (by rw [ha]; exact h3) h4 h5 h6 h7 (by rw [ha]; exact h8))
      (h.keeps (by rw [ha, h1, h2]))
  cases hm with
  | fork => exact easy rfl rfl rfl
  | forkNext i _ _ => exact easy rfl rfl rfl
  | forkNone => exact easy rfl rfl rfl
  | reparentNext st i _ _ =>
    exact locked rfl rfl (by simp) (by simp [Pc.child]) (by simp) (by simp) (by simp [Pc.passed]) (by simp [Pc.status])
  | wakeInitDone st i =>
    refine locked rfl rfl (fun _ _ _ e => ?_) (by simp [Pc.child]) (by simp) (by simp) (by simp [Pc.passed])
      (by simp [Pc.status])
    simp only [Pc.wakeInit.injEq] at e
    simp only [initproc]
    omega
  | reparentDone st =>
    refine locked rfl rfl (by simp) (by simp [Pc.child]) (fun _ j q e _ hlt => ?_) (by simp) (by simp [Pc.passed])
      (by simp [Pc.status])
    obtain ⟨-, rfl⟩ := Pc.wakeParent.inj e
    exact absurd hlt (Nat.not_lt_zero q)
  | wakeParentDone st =>
    refine locked rfl rfl (by simp) (by simp [Pc.child]) (by simp) (fun _ q _ hq => ?_) (by simp [Pc.passed])
      (by simp [Pc.status])
    exact h.woken p st NPROC q ha hq (h.parent p q hq).2
  | wait => exact easy rfl rfl rfl
  | waitKid i k hi hpar hz =>
    refine locked rfl rfl (by simp) (by simp [Pc.child]) (by simp) (by simp) (fun j hj hjp => ?_)
      (by simp [Pc.status])
    rcases Nat.lt_succ_iff_lt_or_eq.mp hj with hj | rfl
    · exact h.scanned p j (by rw [ha]; exact hj) hjp
    · exact hz
  | waitNext i k hi hpar =>
    refine locked rfl rfl (by simp) (by simp [Pc.child]) (by simp) (by simp) (fun j hj hjp => ?_)
      (by simp [Pc.status])
    rcases Nat.lt_succ_iff_lt_or_eq.mp hj with hj | rfl
    · exact h.scanned p j (by rw [ha]; exact hj) hjp
    · exact absurd hjp hpar
  | waitStay _ =>
    exact locked rfl rfl (by simp) (by simp [Pc.child]) (by simp) (by simp)
      (fun j hj => h.scanned p j (by rw [ha]; exact hj)) (by simp [Pc.status])
  | kill pid => exact easy rfl rfl rfl
  | killNext pid i _ _ => exact easy rfl rfl rfl
  | killNone pid => exact easy rfl rfl rfl
  | wakeup a => exact easy rfl rfl rfl
  | wakeDone a => exact easy rfl rfl rfl

/-- After a round of wakeup at slot `j` nobody sleeps there on that channel. -/
theorem wakeOther_awake (h : Inv NPROC w) {j : Nat} (hj : w.pc p ≠ .waitSleep) :
    ¬ World.sleeps { w with s := wakeOther (some (.proc j)) p j w.s } j := by
  intro hs
  have hc := Calm.wakeOther w (some (.proc j)) p j
  have hchan := h.chan j ⟨hs.1, (hc.asleep j hs.1 hs.2).1⟩
  have hne : j ≠ p := by
    rintro rfl
    exact hj hs.1
  have h2 := hs.2
  simp only [wakeOther, hne, ne_eq, not_false_eq_true, if_true, wakeAt, (hc.asleep j hs.1 hs.2).1, hchan, and_self,
    setState, Sys.set_self,
    reduceCtorEq] at h2

theorem Inv.lock_free (h : Inv NPROC w) (hl : w.lock = none) (u : Nat) : (w.pc u).locks = false := by
  have h1 := h.holder u
  simpa [hl] using h1

theorem Inv.forkAlloc (h : Inv NPROC w) (hr : (w.s.proc p).state = .RUNNING) {i : Nat} (hlt : i < NPROC)
    (ha : w.pc p = .forkScan i) (hi : (w.s.proc i).state = .UNUSED) :
    Inv NPROC
      (World.goto
      { w with s := alloc i w.s, pc := Function.update w.pc i .user, serial := Function.update w.serial i w.next,
                                   next := w.next + 1 } p (.forkParent i)) := by
  have hne : p ≠ i := by
    rintro rfl
    simp [hr] at hi
  have hdead := h.gone i (Or.inl hi)
  have h1 := h.make hi
  have self : (alloc i w.s).proc i = { w.s.proc i with pid := w.s.nextpid, state := .USED } := by
    simp [alloc, Sys.set]
  have other : (alloc i w.s).proc p = w.s.proc p := by simp [alloc, Sys.set, hne]
  -- the child's own place first
  have h2 := h1.goto (p := i) (l := w.lock)
    (.plain (c := .user) rfl (by simp [self]) fun _ _ _ _ _ => by simp [hdead, Pc.locks])
    (h1.keeps (by simp [hdead, Pc.locks]))
  refine h2.goto (p := p) (l := w.lock) ⟨fun _ => by simp [World.goto, other, hr], by simp, fun np e => ?_,
    fun _ _ _ _ _ _ => Or.inr ?_, by simp, by simp,
    by simp [Pc.passed], by simp [Pc.status]⟩ (h2.keeps (by simp [World.goto, hne, ha, Pc.locks]))
  · obtain rfl := Option.some.inj e
    refine ⟨⟨by simp [World.goto, self], hlt⟩, fun u _ hu => ?_⟩
    by_cases e : u = i
    · subst e
      simp [World.goto, Pc.child] at hu
    · have h3 := (h.child u i (by simpa [World.goto, e] using hu)).1
      simp [hi] at h3
  · simp [World.goto, hne, ha, Pc.locks]

theorem Inv.forkParent (h : Inv NPROC w) (hp : p < NPROC) (hr : (w.s.proc p).state = .RUNNING) {np : Nat}
    (ha : w.pc p = .forkParent np) (hl : w.lock = none) :
      Inv NPROC (World.goto { w with s := setParent p np w.s } p (.forkRun np)) := by
  obtain ⟨hused, hn⟩ := h.child p np (by rw [ha]; rfl)
  have hne : p ≠ np := by
    rintro rfl
    simp [hr] at hused
  have h1 : Inv NPROC { w with s := setParent p np w.s } := h.slot
    { gone := by simp [hused]
      child := fun _ _ => hused
      parent := fun x e => ⟨hn, by obtain rfl := Option.some.inj e; exact hp⟩
      asleep := fun _ => by simp [hused]
      lost := by simp [hused]
      exits := fun e => by
        rcases e with ⟨st, j, e⟩ | ⟨st, e⟩ <;> simpa [e, Pc.locks] using h.lock_free hl np
      scanned := by simp [hused]
      exiting := fun _ => rfl
      zombies := by simp [hused]
      used := fun _ => by simp [hused] }
  have other : (setParent p np w.s).proc p = w.s.proc p := by simp [setParent, hne]
  refine h1.goto (l := w.lock) ⟨fun _ => by simp [other, hr], by simp, fun np' e => ?_,
    fun _ _ _ _ _ _ => Or.inr (by simp [ha, Pc.locks]), by simp,
    by simp, by simp [Pc.passed], by simp [Pc.status]⟩ (h1.keeps (by simp [ha, Pc.locks]))
  obtain rfl := Option.some.inj e
  exact ⟨⟨by simp [setParent, hused], hn⟩, fun u hu e => hu (h.single u p np e (by rw [ha]; rfl))⟩

theorem Inv.forkRun (h : Inv NPROC w) (hr : (w.s.proc p).state = .RUNNING) {np : Nat} (ha : w.pc p = .forkRun np) :
    Inv NPROC (World.goto { w with s := setState .RUNNABLE np w.s } p .user) := by
  have hused := (h.child p np (by rw [ha]; rfl)).1
  have h1 : Inv NPROC (w.goto p .user) := h.goto (.plain rfl (by simp [hr]) fun _ _ _ _ _ => by simp [ha, Pc.locks])
    (h.keeps (by simp [ha, Pc.locks]))
  refine h1.slot
    { gone := by simp
      child := fun u hu => ?_
      parent := fun x e => h.parent np x e
      asleep := fun _ => by simp
      lost := by simp
      exits := fun _ => rfl
      scanned := by simp
      exiting := fun _ => rfl
      zombies := by simp
      used := fun _ => by simp [World.goto, hused] }
  -- only `p` was making this child
  by_cases e : u = p
  · subst e
    simp [World.goto, Pc.child] at hu
  · exact absurd (h.single u p np (by simpa [World.goto, e] using hu) (by rw [ha]; rfl)) e

theorem Inv.reparent (h : Inv NPROC w) (hr : (w.s.proc p).state = .RUNNING) {st : Int} {i : Nat}
    (ha : w.pc p = .reparent st i)
    (hi : i < NPROC) : Inv NPROC (World.goto { w with s := setParent initproc i w.s } p (.wakeInit st i 0)) := by
  have h1 : Inv NPROC (w.goto p (.wakeInit st i 0)) := h.goto
    (.locked h hr (by simp [ha, Pc.locks]) (by simp [ha]) (by simp [Pc.child]) (by simp) (by simp)
      (by simp [Pc.passed]) (by simp [ha, Pc.status]))
    (h.keeps (by simp [ha, Pc.locks]))
  have hat : (w.goto p (.wakeInit st i 0)).pc p = .wakeInit st i 0 := Function.update_self ..
  have here : ∀ u, ((w.goto p (.wakeInit st i 0)).pc u).locks = true →
    (w.goto p (.wakeInit st i 0)).pc u = .wakeInit st i 0 := fun u hu => by
    rw [h1.holds (by rw [hat]; rfl) hu]
    exact hat
  exact h1.slot
    { gone := h1.gone i
      child := fun u hu => (h1.child u i hu).1
      parent := fun x e => ⟨hi, by obtain rfl := Option.some.inj e; simp only [initproc]; omega⟩
      asleep := fun _ h2 => Or.inl ⟨h2, rfl⟩
      lost := fun _ x e _ => by
        obtain rfl := Option.some.inj e
        exact ⟨p, st, i, 0, hat, rfl, Nat.le_refl _⟩
      exits := fun e => by
        rcases e with ⟨_, _, e⟩ | ⟨_, e⟩
        all_goals
          have h2 := here i (by rw [e]; rfl)
          rw [e] at h2
          cases h2
      scanned := fun _ u hu => by
        have h2 := here u (Pc.locks_of_passed hu)
        rw [h2] at hu
        exact absurd hu (Nat.lt_irrefl 0)
      exiting := fun _ => rfl
      zombies := h1.zombies i
      used := fun h2 => h2 }

theorem Inv.wakeInit (h : Inv NPROC w) (hr : (w.s.proc p).state = .RUNNING) {st : Int} {i j : Nat}
    (ha : w.pc p = .wakeInit st i j) :
    Inv NPROC (World.goto { w with s := wakeOther (some (.proc initproc)) p j w.s } p (.wakeInit st i (j + 1))) := by
  have hc := Calm.wakeOther w (some (.proc initproc)) p j
  have h1 := h.calm hc
  have alive : ((wakeOther (some (.proc initproc)) p j w.s).proc p).state ≠ .UNUSED ∧
      ((wakeOther (some (.proc initproc)) p j w.s).proc p).state ≠ .ZOMBIE := by
    rw [ne_eq, ne_eq, hc.unused, hc.zombie]
    simp [hr]
  refine h1.goto (l := w.lock) ⟨fun _ => alive, by simp, by simp [Pc.child],
    fun q z hs hq hz hzz => Or.inl ?_, by simp, by simp, by simp [Pc.passed], fun s e => ?_⟩
    (h1.keeps (by simp [ha, Pc.locks]))
  · obtain ⟨u, st', i', j', hu, hq', hj⟩ := h1.lost q z hs hz hzz
    have hup : u = p := h1.holds (by simp [ha, Pc.locks]) (by rw [hu]; rfl)
    rw [hup, show World.pc { w with s := wakeOther (some (.proc initproc)) p j w.s } p = _ from ha] at hu
    obtain ⟨-, -, rfl⟩ := Pc.wakeInit.inj hu
    refine ⟨st, i, j + 1, rfl, hq', ?_⟩
    rcases Nat.eq_or_lt_of_le hj with e | hlt
    · -- this round woke init
      rw [hq'] at hs
      rw [e] at hs
      exact absurd hs (wakeOther_awake h (by simp [ha]))
    · exact hlt
  · exact h1.exiting p s (by simpa [ha, Pc.status] using e)

theorem Inv.wakeParent (h : Inv NPROC w) (hr : (w.s.proc p).state = .RUNNING) {st : Int} {j : Nat}
    (ha : w.pc p = .wakeParent st j) :
    Inv NPROC (World.goto { w with s := wakeOther ((w.s.proc p).parent.map .proc) p j w.s } p
      (.wakeParent st (j + 1))) := by
  have hc := Calm.wakeOther w ((w.s.proc p).parent.map .proc) p j
  have h1 := h.calm hc
  have alive : ((wakeOther ((w.s.proc p).parent.map .proc) p j w.s).proc p).state ≠ .UNUSED ∧
      ((wakeOther ((w.s.proc p).parent.map .proc) p j w.s).proc p).state ≠ .ZOMBIE := by
    rw [ne_eq, ne_eq, hc.unused, hc.zombie]
    simp [hr]
  have here : World.pc { w with s := wakeOther ((w.s.proc p).parent.map .proc) p j w.s } p = .wakeParent st j := ha
  have none_lost : ∀ u, (World.pc { w with s := wakeOther ((w.s.proc p).parent.map .proc) p j w.s } u).locks = true →
      ∀ st i j', w.pc u = .wakeInit st i j' → ¬ j' ≤ initproc := fun u hu st' i' j' e => by
    rw [h1.holds (by rw [here]; rfl) hu, ha] at e
    cases e
  refine h1.goto (l := w.lock) ⟨fun _ => alive, by simp, by simp [Pc.child],
    fun q z hs _ hz hzz => absurd hzz (h1.not_lost none_lost hs hz),
    fun st' j' q e hq hlt hs => ?_, by simp, by simp [Pc.passed], fun s e => ?_⟩ (h1.keeps (by simp [ha, Pc.locks]))
  · obtain ⟨-, rfl⟩ := Pc.wakeParent.inj e
    rcases Nat.lt_succ_iff_lt_or_eq.mp hlt with hlt | rfl
    · exact h1.woken p st j q here hq hlt hs
    · -- this round woke the parent
      have hq' : (w.s.proc p).parent = some q := by rw [← hc.parent p]; exact hq
      simp only [hq', Option.map_some] at hs
      exact wakeOther_awake h (by simp [ha]) hs
  · exact h1.exiting p s (by simpa [ha, Pc.status] using e)

/-- The lock holder, not waking init, leaves the lock. -/
theorem Inv.leave (h : Inv NPROC w) {c : Pc} (hl : (w.pc p).locks = true) (hw : ∀ st i j, w.pc p ≠ .wakeInit st i j)
    (hc : c.locks = false)
    (hcc : c.child = none) (ha : c ≠ .dead → (w.s.proc p).state ≠ .UNUSED ∧ (w.s.proc p).state ≠ .ZOMBIE)
    (hs : c = .waitSleep → (w.s.proc p).state ≠ .SLEEPING) (hst : c.status = none) :
      Inv NPROC (World.goto { w with lock := none } p c) := by
  refine h.goto ⟨ha, hs, fun np e => by simp [hcc] at e,
    fun q z hs _ hz hzz => absurd hzz (h.not_lost (fun u hu st i j e => ?_) hs hz), ?_, ?_, ?_,
    fun st e => by simp [hst] at e⟩ (h.leaves hl hc)
  · rw [h.holds hl hu] at e
    exact absurd e (hw st i j)
  all_goals cases c <;> simp [Pc.locks, Pc.passed] at *

theorem Inv.zombie (h : Inv NPROC w) (hr : (w.s.proc p).state = .RUNNING) {st : Int} (ha : w.pc p = .zombie st) :
    Inv NPROC (World.goto { w with s := zombie st p w.s, lock := none } p .dead) := by
  have h1 : Inv NPROC (World.goto { w with lock := none } p .dead) :=
    h.leave (by rw [ha]; rfl) (by simp [ha]) rfl rfl (by simp) (by simp) rfl
  exact h1.slot
    { gone := fun _ => Function.update_self ..
      child := fun u hu => by
        have h2 := (h1.child u p hu).1
        simp [World.goto, hr] at h2
      parent := fun x e => h.parent p x e
      asleep := fun _ => by simp
      lost := fun _ x e hs => by
        -- the parent does not sleep, since `p` woke it
        have hx : x ≠ p := by
          rintro rfl
          have h2 := hs.1
          simp [World.goto] at h2
        exact absurd ⟨by simpa [World.goto, hx] using hs.1, hs.2⟩ (h.ready p st x ha e)
      exits := fun _ => rfl
      scanned := fun _ u hu => by
        have h2 := h1.lock_free rfl u
        rw [Pc.locks_of_passed hu] at h2
        cases h2
      exiting := fun _ => rfl
      zombies := fun _ => h.exiting p st (by simp [ha, Pc.status])
      used := fun _ => by simp [World.goto, hr] }

theorem Inv.waitFree (h : Inv NPROC w) (hr : (w.s.proc p).state = .RUNNING) {i : Nat} {k : Bool}
    (ha : w.pc p = .waitScan i k) (hpar : (w.s.proc i).parent = some p) (hz : (w.s.proc i).state = .ZOMBIE) :
    Inv NPROC (World.goto { w with
      s := freeproc i w.s
      lock := none
      returned := ⟨p, (w.s.proc i).parent, w.serial i, (w.s.proc i).pid,
        (w.s.proc i).xstate⟩ :: w.returned } p .user) := by
  have hne : i ≠ p := by
    rintro rfl
    simp [hr] at hz
  have h1 : Inv NPROC (World.goto { w with lock := none } p .user) :=
    h.leave (by rw [ha]; rfl) (by simp [ha]) rfl rfl (fun _ => by simp [hr]) (by simp) rfl
  have hdead : (World.goto { w with lock := none } p .user).pc i = .dead := h1.gone i (Or.inr hz)
  have h2 : Inv NPROC { World.goto { w with lock := none } p .user with s := freeproc i w.s } := h1.slot
    { gone := fun _ => hdead
      child := fun u hu => by
        have h3 := (h1.child u i hu).1
        simp [World.goto, hz] at h3
      parent := fun x e => by simp [Proc.unused] at e
      asleep := fun _ => by simp [Proc.unused]
      lost := by simp [Proc.unused]
      exits := fun e => by
        rcases e with ⟨_, _, e⟩ | ⟨_, e⟩ <;> simp [hdead] at e
      scanned := by simp [Proc.unused]
      exiting := fun e => by simp [hdead, Pc.status] at e
      zombies := by simp [Proc.unused]
      used := by simp [Proc.unused] }
  have used : ∀ j, ((freeproc i w.s).proc j).state ≠ .UNUSED → j ≠ i ∧ (w.s.proc j).state ≠ .UNUSED := fun j hj => by
    by_cases e : j = i
    · subst e
      simp [freeproc, Proc.unused] at hj
    · exact ⟨e, by simpa [freeproc, e] using hj⟩
  have hiu : (w.s.proc i).state ≠ .UNUSED := by simp [hz]
  refine ⟨h2.holder, h2.gone, h2.child, h2.single, h2.parent, h2.chan, h2.lost, h2.woken, h2.ready, h2.scanned,
    h2.exiting, h2.zombies, h2.serials,
    ⟨h2.bound.1, fun r hm => ?_⟩, fun r hm j hj => ?_, ?_, fun r hm => ?_⟩
  · rcases List.mem_cons.mp hm with rfl | hm
    · exact h.bound.1 i hiu
    · exact h.bound.2 r hm
  · obtain ⟨hji, hju⟩ := used j hj
    rcases List.mem_cons.mp hm with rfl | hm
    · exact fun e => hji (h.serials j i hju hiu e)
    · exact h.apart r hm j hju
  · refine List.nodup_cons.mpr ⟨fun hm => ?_, h.once⟩
    obtain ⟨r, hm, e⟩ := List.mem_map.mp hm
    exact h.apart r hm i hiu e.symm
  · rcases List.mem_cons.mp hm with rfl | hm
    · exact ⟨hpar, h.zombies i hz⟩
    · exact h.right r hm

theorem Inv.waitSleep (h : Inv NPROC w) (hr : (w.s.proc p).state = .RUNNING) (ha : w.pc p = .waitStay) :
    Inv NPROC (World.goto { w with s := sleepOn (.proc p) p w.s, lock := none } p .waitSleep) := by
  have h1 : Inv NPROC (World.goto { w with lock := none } p .waitSleep) :=
    h.leave (by rw [ha]; rfl) (by simp [ha]) rfl rfl (fun _ => by simp [hr]) (fun _ => by simp [hr]) rfl
  have hat : (World.goto { w with lock := none } p .waitSleep).pc p = .waitSleep := Function.update_self ..
  exact h1.slot
    { gone := by simp
      child := fun u hu => by
        have h2 := (h1.child u p hu).1
        simp [World.goto, hr] at h2
      parent := fun x e => h.parent p x e
      asleep := fun _ _ => Or.inr ⟨rfl, rfl, fun z _ hz => h.scanned p z (by rw [ha]; exact (h.parent z p hz).1) hz⟩
      lost := by simp
      exits := fun _ => rfl
      scanned := by simp
      exiting := fun _ => rfl
      zombies := by simp
      used := fun _ => by simp [World.goto, hr] }

theorem Inv.resume (h : Inv NPROC w) (hr : (w.s.proc p).state = .RUNNABLE) :
    Inv NPROC (World.goto { w with s := Procs.resume p w.s } p (w.pc p).resumed) := by
  have h1 : Inv NPROC { w with s := Procs.resume p w.s } := h.calm
    (.one p .RUNNING none (w.s.proc p).killed (Or.inr (Or.inl hr)) (Or.inr (Or.inl rfl)))
  have hr1 : ((Procs.resume p w.s).proc p).state = .RUNNING := by simp [Procs.resume]
  have same : (w.pc p).resumed = w.pc p →
      Inv NPROC (World.goto { w with s := Procs.resume p w.s } p (w.pc p).resumed) := fun e => by
    rw [e]
    simpa [World.goto] using h1
  have slept : (w.pc p).resumed.plain = true → (w.pc p).locks = false → (w.pc p).resumed.locks = false →
      Inv NPROC (World.goto { w with s := Procs.resume p w.s } p (w.pc p).resumed) := fun h2 h3 h4 =>
    h1.goto (l := w.lock) (.plain h2 (by simp [hr1]) fun _ _ _ _ _ => h3) (h1.keeps (by rw [h4, h3]))
  cases e : w.pc p with
  | waitSleep =>
    rw [← e]
    exact slept (by simp [e, Pc.resumed, Pc.plain]) (by simp [e, Pc.locks]) (by simp [e, Pc.resumed, Pc.locks])
  | asleep =>
    rw [← e]
    exact slept (by simp [e, Pc.resumed, Pc.plain]) (by simp [e, Pc.locks]) (by simp [e, Pc.resumed, Pc.locks])
  | _ =>
    rw [← e]
    exact same (by simp [e, Pc.resumed])

theorem Inv.step (h : Inv NPROC w) (hp : p < NPROC) (hs : WStep NPROC p w w') : Inv NPROC w' := by
  -- a calm section, and on to a place that asks nothing
  have section_ : ∀ {s : Sys} {c : Pc}, Calm w s → (w.s.proc p).state = .RUNNING → c.plain = true → c.locks = false →
    (w.pc p).locks = false →
      Inv NPROC (World.goto { w with s := s } p c) := fun {s c} hc hr h2 h3 h4 => by
    have h1 := h.calm hc
    refine h1.goto (l := w.lock) (.plain h2 ?_ fun _ _ _ _ _ => h4) (h1.keeps (by rw [h3, h4]))
    rw [ne_eq, ne_eq, hc.unused, hc.zombie]
    simp [hr]
  cases hs with
  | move c hr hm => exact h.move hp hr rfl hm
  | forkFail i hr ha hi hu =>
    have h1 : Inv NPROC (w.goto p .user) := h.goto (.plain rfl (by simp [hr]) fun _ _ _ _ _ => by simp [ha, Pc.locks])
      (h.keeps (by simp [ha, Pc.locks]))
    have hdead := h1.gone i (Or.inl hu)
    have h2 : Inv NPROC { w.goto p .user with s := w.s.set i .unused } := h1.slot
      { gone := fun _ => hdead
        child := fun u hc => by
          have h3 := (h1.child u i hc).1
          simp [World.goto, hu] at h3
        parent := fun x e => by simp [Proc.unused] at e
        asleep := fun _ => by simp [Proc.unused]
        lost := by simp [Proc.unused]
        exits := fun e => by
          rcases e with ⟨_, _, e⟩ | ⟨_, e⟩ <;> simp [hdead] at e
        scanned := by simp [Proc.unused]
        exiting := fun e => by simp [hdead, Pc.status] at e
        zombies := by simp [Proc.unused]
        used := by simp [Proc.unused] }
    have e : freeproc i (alloc i w.s) = { w.s.set i .unused with nextpid := (alloc i w.s).nextpid } := by
      simp [freeproc, alloc, Sys.set]
    rw [e]
    exact h2.nextpid _
  | forkAlloc i hr ha hi hu => exact h.forkAlloc hr hi ha hu
  | forkParent np hr ha hl => exact h.forkParent hp hr ha hl
  | forkRun np hr ha => exact h.forkRun hr ha
  | exit st hr ha hne =>
    have h1 := h.exited (w.serial p, (w.s.proc p).pid, st)
    refine h1.goto (l := w.lock) ⟨fun _ => by simp [hr], by simp, by simp [Pc.child],
      fun _ _ _ _ _ _ => Or.inr (by simp [ha, Pc.locks]), by simp,
      by simp, by simp [Pc.passed], fun st' e => ?_⟩ (h1.keeps (by simp [ha, Pc.locks]))
    obtain rfl := Option.some.inj e
    exact List.mem_cons_self
  | exitLock st hr ha hl =>
    exact h.goto ⟨fun _ => by simp [hr], by simp, by simp [Pc.child],
      fun _ _ _ _ _ _ => Or.inr (by simp [ha, Pc.locks]), by simp, by simp, by simp [Pc.passed],
      fun s e => h.exiting p s (by simpa [ha, Pc.status] using e)⟩ (h.takes hl rfl)
  | reparent st i hr ha hi hpar => exact h.reparent hr ha hi
  | wakeInit st i j hr ha hj => exact h.wakeInit hr ha
  | wakeParent st j hr ha hj => exact h.wakeParent hr ha
  | zombie st hr ha => exact h.zombie hr ha
  | waitLock hr ha hl =>
    exact h.goto ⟨fun _ => by simp [hr], by simp, by simp [Pc.child],
      fun _ _ _ _ _ _ => Or.inr (by simp [ha, Pc.locks]), by simp, by simp,
      by simp [Pc.passed], by simp [Pc.status]⟩ (h.takes hl rfl)
  | waitFree i k hr ha hi hpar hz => exact h.waitFree hr ha hpar hz
  | waitNone k hr ha _ => exact h.leave (by rw [ha]; rfl) (by simp [ha]) rfl rfl (fun _ => by simp [hr]) (by simp) rfl
  | waitSleep hr ha => exact h.waitSleep hr ha
  | killHit pid i hr ha hi _ => exact section_ (.killAt w i) hr rfl rfl (by simp [ha, Pc.locks])
  | wakeNext a i hr ha hi => exact section_ (.wakeOther w _ p i) hr rfl rfl (by simp [ha, Pc.locks])
  | sleep a hr ha =>
    exact section_ (.one p .SLEEPING _ (w.s.proc p).killed (Or.inr (Or.inr hr))
      (Or.inr (Or.inr ⟨rfl, by simp [ha]⟩))) hr rfl rfl (by simp [ha, Pc.locks])
  | resume hr => exact h.resume hr
  | yield hr _ =>
      exact h.calm (.one p .RUNNABLE (w.s.proc p).chan (w.s.proc p).killed (Or.inr (Or.inr hr)) (Or.inl rfl))

theorem Inv.init : Inv NPROC .init := by
  have hproc : ∀ i, World.init.s.proc i = if i = initproc then ⟨.RUNNABLE, none, 0, 0, 1, none⟩ else .unused :=
    fun i => by
    by_cases e : i = initproc
    · subst e
      simp [World.init, Sys.init]
    · simp [World.init, Sys.init, e]
  have hpc : ∀ i, World.init.pc i = if i = initproc then .user else .dead := fun i => by
    by_cases e : i = initproc
    · subst e
      simp [World.init]
    · simp [World.init, e]
  have hnone : ∀ r, r ∉ World.init.returned := fun _ => List.not_mem_nil
  refine ⟨fun q => ?_, fun i => ?_, fun q np => ?_, fun q q' np => ?_, fun z q => ?_, fun q hq => ?_,
    fun q z hq => ?_, fun q st j x hq => ?_,
    fun q st x hq => ?_, fun q j hj => ?_, fun q st => ?_, fun z => ?_, fun i j => ?_,
      ⟨fun i => ?_, fun r hr => absurd hr (hnone r)⟩,
    fun r hr => absurd hr (hnone r), List.nodup_nil, fun r hr => absurd hr (hnone r)⟩
  · simp only [hpc]
    split <;> simp [Pc.locks, World.init]
  · simp only [hproc, hpc]
    split <;> simp [Proc.unused]
  · simp only [hpc]
    split <;> simp [Pc.child]
  · simp only [hpc]
    split <;> simp [Pc.child]
  · simp only [hproc]
    split <;> simp [Proc.unused]
  · have h1 := hq.1
    simp only [hpc] at h1
    split at h1 <;> cases h1
  · have h1 := hq.1
    simp only [hpc] at h1
    split at h1 <;> cases h1
  · simp only [hpc] at hq
    split at hq <;> cases hq
  · simp only [hpc] at hq
    split at hq <;> cases hq
  · rw [hpc] at hj
    split at hj <;> exact absurd hj (Nat.not_lt_zero j)
  · simp only [hpc]
    split <;> simp [Pc.status]
  · simp only [hproc]
    split <;> simp [Proc.unused]
  · simp only [hproc]
    split <;> split <;> simp_all [Proc.unused]
  · simp [World.init]

theorem WReach.inv (h : WReach NPROC w) : Inv NPROC w := by
  induction h with
  | init => exact .init
  | step p _ hp hs ih => exact ih.step hp hs

/-- For any interleaving: what wait returns is a child of its caller that called exit, with
    its pid and status; no process is returned twice; and while wait_lock is free nobody
    sleeps in wait with a zombie child. -/
theorem exit_wait_exact (h : WReach NPROC w) :
    (∀ r ∈ w.returned, r.parent = some r.caller ∧ (r.serial, r.pid, r.xstate) ∈ w.exited) ∧
    (w.returned.map Ret.serial).Nodup ∧
      (w.lock = none → ∀ q z, w.pc q = .waitSleep → (w.s.proc q).state = .SLEEPING → (w.s.proc z).parent = some q →
        (w.s.proc z).state ≠ .ZOMBIE) := by
  have hi := h.inv
  refine ⟨hi.right, hi.once, fun hl q z hq hs => hi.not_lost (fun u hu => ?_) ⟨hq, hs⟩⟩
  simp [hi.lock_free hl u] at hu

end

/-- The first process forks, the child exits with status 7, and wait returns it. -/
theorem exit_wait_exact_one : ∃ w, WReach 2 w ∧ w.returned = [⟨0, some 0, 1, 2, 7⟩] ∧
    (w.returned.map Ret.serial).Nodup := by
  have h1 : WReach 2 _ := .step 0 .init (by decide) (.resume _ rfl)
  have h2 : WReach 2 _ := .step 0 h1 (by decide) (.move _ _ rfl .fork)
  have h3 : WReach 2 _ := .step 0 h2 (by decide) (.move _ _ rfl (.forkNext 0 (by decide) (by decide)))
  have h4 : WReach 2 _ := .step 0 h3 (by decide) (.forkAlloc _ 1 rfl rfl (by decide) rfl)
  have h5 : WReach 2 _ := .step 0 h4 (by decide) (.forkParent _ 1 rfl rfl rfl)
  have h6 : WReach 2 _ := .step 0 h5 (by decide) (.forkRun _ 1 rfl rfl)
  have h7 : WReach 2 _ := .step 1 h6 (by decide) (.resume _ rfl)
  have h8 : WReach 2 _ := .step 1 h7 (by decide) (.exit _ 7 rfl rfl (by decide))
  have h9 : WReach 2 _ := .step 1 h8 (by decide) (.exitLock _ 7 rfl rfl rfl)
  have h10 : WReach 2 _ := .step 1 h9 (by decide) (.move _ _ rfl (.reparentNext 7 0 (by decide) (by decide)))
  have h11 : WReach 2 _ := .step 1 h10 (by decide) (.move _ _ rfl (.reparentNext 7 1 (by decide) (by decide)))
  have h12 : WReach 2 _ := .step 1 h11 (by decide) (.move _ _ rfl (.reparentDone 7))
  have h13 : WReach 2 _ := .step 1 h12 (by decide) (.wakeParent _ 7 0 rfl rfl (by decide))
  have h14 : WReach 2 _ := .step 1 h13 (by decide) (.wakeParent _ 7 1 rfl rfl (by decide))
  have h15 : WReach 2 _ := .step 1 h14 (by decide) (.move _ _ rfl (.wakeParentDone 7))
  have h16 : WReach 2 _ := .step 1 h15 (by decide) (.zombie _ 7 rfl rfl)
  have h17 : WReach 2 _ := .step 0 h16 (by decide) (.move _ _ rfl .wait)
  have h18 : WReach 2 _ := .step 0 h17 (by decide) (.waitLock _ rfl rfl rfl)
  have h19 : WReach 2 _ := .step 0 h18 (by decide) (.move _ _ rfl (.waitNext 0 false (by decide) (by decide)))
  have h20 : WReach 2 _ := .step 0 h19 (by decide) (.waitFree _ 1 false rfl rfl (by decide) rfl rfl)
  exact ⟨_, h20, rfl, (exit_wait_exact h20).2.1⟩

end Xv6Labs.Procs
