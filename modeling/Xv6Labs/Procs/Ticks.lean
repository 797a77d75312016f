/-
  Xv6Labs.Procs.Ticks — sys_sleep and clockintr, lock by lock.

  sleep takes p->lock before it releases tickslock, so that wakeup, which takes p->lock too, cannot
  come between. A step is what a process, a scheduler or the clock interrupt does between two
  operations on a lock; sections that hold p->lock alone are one step. The interrupt comes when CPU 0
  holds no lock, and then its process `me`, which wakeup passes over, stands still. On which CPU a
  process runs is in Procs.Sched; outside sys_sleep it may do anything but sleep on `ticks`.

  `elapsed`: the ticks there have been, where `ticks` is a uint. `start` and `seen`: when the call
  began and when it last found too few of them. Nothing reads these.

  - `Inv.step`: a step keeps the invariant, and is a run of `Watch`.
  - `sleep_until_time`: nobody sleeps whose time has come, none returns before, and tickslock can always
    be given up.
-/

import Xv6Labs.Lib.Runs
import Xv6Labs.Lib.Waiting
import Xv6Labs.Procs.Table

namespace Xv6Labs.Procs.Ticks

open Lib

/-- Where a process is. -/
inductive Pc where
  | user
  /-- before `acquire(&tickslock)` -/
  | enter
  /-- before the test of the loop -/
  | test
  /-- in sleep, before `acquire(&p->lock)` -/
  | first
  /-- before `release(lk)` -/
  | both
  /-- before it goes to sleep -/
  | alone
  /-- in sched -/
  | asleep
  /-- after sched, before `release(&p->lock)` -/
  | back
  /-- before `acquire(lk)` -/
  | again
  /-- before the last `release(&tickslock)` -/
  | leave (r : Int)
  deriving DecidableEq

/-- Has tickslock. -/
def Pc.locks : Pc → Bool
  | .test | .first | .both | .leave _ => true
  | _ => false

/-- Has no lock, so that interrupts are on. -/
def Pc.enabled : Pc → Bool
  | .user | .enter | .again => true
  | _ => false

structure Thread where
  pc : Pc
  /-- p->lock is taken, by the process or by the scheduler it comes from or goes to -/
  held : Bool
  n : Int
  ticks0 : Nat
  start : Nat
  seen : Option Nat

/-- Where clockintr is, with the process it interrupted. -/
inductive Clock where
  | idle
  /-- before `acquire(&tickslock)` -/
  | enter (me : Option Nat)
  /-- before `ticks++` -/
  | tick (me : Option Nat)
  /-- in wakeup, before slot `i` -/
  | wake (me : Option Nat) (i : Nat)

def Clock.me : Clock → Option Nat
  | .idle => none
  | .enter me | .tick me | .wake me _ => me

def Clock.locks : Clock → Bool
  | .tick _ | .wake .. => true
  | _ => false

/-- The slots wakeup has still to come to. -/
def Clock.todo : Clock → Nat → Prop
  | .wake _ i => fun p => i ≤ p
  | _ => fun _ => False

inductive Who where
  | proc (p : Nat)
  | clock
  deriving DecidableEq

structure St where
  t : Sys
  lk : Option Who
  ticks : Nat
  elapsed : Nat
  th : Nat → Thread
  clock : Clock

/-- `&ticks` -/
abbrev ticksChan : Chan := .other 0

def Thread.user : Thread := ⟨.user, false, 0, 0, 0, none⟩

def St.init : St := ⟨.init, none, 0, 0, fun _ => .user, .idle⟩

/-- `ticks - ticks0 < n`, in unsigned ints. -/
def Short (ticks ticks0 : Nat) (n : Int) : Prop := u32 (ticks + (2 ^ 32 - ticks0)) < u32 (toU64 n)

instance (ticks ticks0 : Nat) (n : Int) : Decidable (Short ticks ticks0 n) := inferInstanceAs (Decidable (_ < _))

section

variable (NPROC : Nat)

/-- Process `p` executes. -/
def St.on (s : St) (p : Nat) : Prop := p < NPROC ∧ (s.t.proc p).state = .RUNNING ∧ s.clock.me ≠ some p

/-- The slot and the thread of `p` after a step, and tickslock. -/
def St.put (s : St) (p : Nat) (x : Proc) (a : Thread) (lk : Option Who) : St :=
  { s with t := s.t.set p x, th := Function.update s.th p a, lk := lk }

/-- `p` goes on. -/
def St.goto (s : St) (p : Nat) (c : Pc) (lk : Option Who) : St := s.put p (s.t.proc p) { s.th p with pc := c } lk

/-- A sleeper that is made RUNNABLE. -/
def Thread.rouse (a : Thread) (x : Proc) : Thread := if x.state = .SLEEPING then { a with seen := none } else a

/-- Who goes on. -/
inductive Act where
  | proc (p : Nat)
  | sched (p : Nat)
  | clock
  | other

inductive Step : Act → St → St → Prop where
  | call (s : St) (p : Nat) (n : Int) : s.on NPROC p → (s.th p).pc = .user →
      Step (.proc p) s (s.put p (s.t.proc p) { s.th p with pc := .enter, n := n } s.lk)
  | enter (s : St) (p : Nat) : s.on NPROC p → (s.th p).pc = .enter → s.lk = none →
      Step (.proc p) s (s.put p (s.t.proc p) { s.th p with pc := .test, ticks0 := s.ticks, start := s.elapsed }
        (some (.proc p)))
  | enough (s : St) (p : Nat) : s.on NPROC p → (s.th p).pc = .test → ¬ Short s.ticks (s.th p).ticks0 (s.th p).n →
      Step (.proc p) s (s.goto p (.leave 0) s.lk)
  | killed (s : St) (p : Nat) : s.on NPROC p → (s.th p).pc = .test → Short s.ticks (s.th p).ticks0 (s.th p).n →
      (s.t.proc p).killed ≠ 0 →
      Step (.proc p) s (s.goto p (.leave (-1)) s.lk)
  | stay (s : St) (p : Nat) : s.on NPROC p → (s.th p).pc = .test → Short s.ticks (s.th p).ticks0 (s.th p).n →
      (s.t.proc p).killed = 0 →
      Step (.proc p) s (s.put p (s.t.proc p) { s.th p with pc := .first, seen := some s.elapsed } s.lk)
  | own (s : St) (p : Nat) : s.on NPROC p → (s.th p).pc = .first → (s.th p).held = false →
      Step (.proc p) s (s.put p (s.t.proc p) { s.th p with pc := .both, held := true } s.lk)
  | release (s : St) (p : Nat) : s.on NPROC p → (s.th p).pc = .both → Step (.proc p) s (s.goto p .alone none)
  | sleep (s : St) (p : Nat) : s.on NPROC p → (s.th p).pc = .alone →
      Step (.proc p) s (s.put p ((sleepOn ticksChan p s.t).proc p) { s.th p with pc := .asleep } s.lk)
  | swtch (s : St) (p : Nat) : (s.th p).pc = .asleep → (s.th p).held = true →
      Step (.sched p) s (s.put p (s.t.proc p) { s.th p with held := false } s.lk)
  | pick (s : St) (p : Nat) : p < NPROC → (s.th p).held = false → (s.t.proc p).state = .RUNNABLE →
      (s.th p).pc ≠ .asleep →
      Step (.sched p) s (s.put p ((setState .RUNNING p s.t).proc p) (s.th p) s.lk)
  | resume (s : St) (p : Nat) : p < NPROC → (s.th p).held = false → (s.t.proc p).state = .RUNNABLE →
      (s.th p).pc = .asleep →
      Step (.sched p) s (s.put p ((setState .RUNNING p s.t).proc p) { s.th p with pc := .back, held := true } s.lk)
  | tidy (s : St) (p : Nat) : s.on NPROC p → (s.th p).pc = .back →
      Step (.proc p) s (s.put p { s.t.proc p with chan := none } { s.th p with pc := .again, held := false } s.lk)
  | again (s : St) (p : Nat) : s.on NPROC p → (s.th p).pc = .again → s.lk = none →
      Step (.proc p) s (s.goto p .test (some (.proc p)))
  | ret (s : St) (p : Nat) (r : Int) : s.on NPROC p → (s.th p).pc = .leave r → Step (.proc p) s (s.goto p .user none)
  | yield (s : St) (p : Nat) : s.on NPROC p → (s.th p).pc.enabled = true →
      Step (.proc p) s (s.put p ((setState .RUNNABLE p s.t).proc p) (s.th p) s.lk)
  | interrupt (s : St) (me : Option Nat) : s.clock = .idle →
      (∀ p, me = some p → s.on NPROC p ∧ (s.th p).pc.enabled = true) →
      Step .clock s { s with clock := .enter me }
  | lock (s : St) (me : Option Nat) : s.clock = .enter me → s.lk = none →
      Step .clock s { s with clock := .tick me, lk := some .clock }
  | tick (s : St) (me : Option Nat) : s.clock = .tick me →
      Step .clock s { s with clock := .wake me 0, ticks := u32 (s.ticks + 1), elapsed := s.elapsed + 1 }
  | skip (s : St) (me : Option Nat) (i : Nat) : s.clock = .wake me i → i < NPROC → me = some i →
      Step .clock s { s with clock := .wake me (i + 1) }
  | wake (s : St) (me : Option Nat) (i : Nat) : s.clock = .wake me i → i < NPROC → me ≠ some i →
      (s.th i).held = false →
      Step .clock s { s.put i ((wakeAt (some ticksChan) i s.t).proc i) ((s.th i).rouse (s.t.proc i)) s.lk with
        clock := .wake me (i + 1) }
  | unlock (s : St) (me : Option Nat) : s.clock = .wake me NPROC → Step .clock s { s with clock := .idle, lk := none }
  | kill (s : St) (q : Nat) : (s.th q).held = false →
      Step .other s (s.put q ((killAt q s.t).proc q) ((s.th q).rouse (s.t.proc q)) s.lk)
  /-- anything outside sys_sleep -/
  | other (s : St) (p : Nat) (x : Proc) : (s.th p).pc = .user → s.clock.me ≠ some p → x.chan ≠ some ticksChan →
      Step .other s (s.put p x (s.th p) s.lk)

inductive Reach : St → Prop where
  | init : Reach .init
  | step {a : Act} {s s' : St} : Reach s → Step NPROC a s s' → Reach s'

end

/-! ## The invariant -/

/-- Asleep in sys_sleep. -/
def Asleep (x : Proc) : Prop := x.state = .SLEEPING ∧ x.chan = some ticksChan

/-- When `ticks0` was read, and that the time had not come when it was last looked at. -/
def Waits (elapsed : Nat) (a : Thread) : Prop :=
  (a.ticks0 = u32 a.start ∧ a.start ≤ elapsed) ∧ ∃ e, a.seen = some e ∧ Short (u32 e) a.ticks0 a.n

/-- What the place of a process asks. -/
def Fits (elapsed : Nat) (x : Proc) (a : Thread) : Prop :=
  match a.pc with
  | .user | .enter => a.held = false ∧ a.seen = none ∧ ¬ Asleep x
  | .test => a.held = false ∧ a.seen = none ∧ x.state = .RUNNING ∧ a.ticks0 = u32 a.start ∧ a.start ≤ elapsed
  | .first => a.held = false ∧ x.state = .RUNNING ∧ Waits elapsed a
  | .both | .alone => a.held = true ∧ x.state = .RUNNING ∧ Waits elapsed a
  | .asleep => (a.ticks0 = u32 a.start ∧ a.start ≤ elapsed) ∧
      (Asleep x ∧ Waits elapsed a ∨ x.state = .RUNNABLE ∧ a.held = false ∧ a.seen = none)
  | .back => a.held = true ∧ a.seen = none ∧ x.state = .RUNNING ∧ a.ticks0 = u32 a.start ∧ a.start ≤ elapsed
  | .again => a.held = false ∧ a.seen = none ∧ ¬ Asleep x ∧ a.ticks0 = u32 a.start ∧ a.start ≤ elapsed
  | .leave r => a.held = false ∧ a.seen = none ∧ x.state = .RUNNING ∧
      (r = 0 ∧ a.start + u32 (toU64 a.n) ≤ elapsed ∨ r = -1 ∧ x.killed ≠ 0)

structure Inv (NPROC : Nat) (s : St) : Prop where
  ticks : s.ticks = u32 s.elapsed
  fits : ∀ p, Fits s.elapsed (s.t.proc p) (s.th p)
  range : ∀ p, (s.th p).pc ≠ .user → p < NPROC
  lk : ∀ p, (s.th p).pc.locks = true ↔ s.lk = some (.proc p)
  clock : s.clock.locks = true ↔ s.lk = some .clock
  me : ∀ p, s.clock.me = some p → (s.t.proc p).state = .RUNNING ∧ (s.th p).pc.enabled = true
  wake : ∀ me i, s.clock = .wake me i → i ≤ NPROC

/-- The processes and the clock interrupt as sleepers and a waker. -/
def St.watch (s : St) : Watch Nat Nat := ⟨s.elapsed, fun p => (s.th p).seen, s.clock.todo⟩

section

variable {NPROC : Nat} {s s' : St} {p : Nat} {x : Proc} {a : Thread} {elapsed elapsed' : Nat} {act : Act}

theorem Waits.mono (h : Waits elapsed a) (hle : elapsed ≤ elapsed') : Waits elapsed' a :=
  ⟨⟨h.1.1, Nat.le_trans h.1.2 hle⟩, h.2⟩

/-- Time goes on. -/
theorem Fits.mono (h : Fits elapsed x a) (hle : elapsed ≤ elapsed') : Fits elapsed' x a := by
  unfold Fits at h ⊢
  cases hp : a.pc with
  | user => simpa only [hp] using h
  | enter => simpa only [hp] using h
  | test =>
    simp only [hp] at h ⊢
    exact ⟨h.1, h.2.1, h.2.2.1, h.2.2.2.1, Nat.le_trans h.2.2.2.2 hle⟩
  | first =>
    simp only [hp] at h ⊢
    exact ⟨h.1, h.2.1, h.2.2.mono hle⟩
  | both =>
    simp only [hp] at h ⊢
    exact ⟨h.1, h.2.1, h.2.2.mono hle⟩
  | alone =>
    simp only [hp] at h ⊢
    exact ⟨h.1, h.2.1, h.2.2.mono hle⟩
  | asleep =>
    simp only [hp] at h ⊢
    exact ⟨⟨h.1.1, Nat.le_trans h.1.2 hle⟩, h.2.imp_left fun h2 => ⟨h2.1, h2.2.mono hle⟩⟩
  | back =>
    simp only [hp] at h ⊢
    exact ⟨h.1, h.2.1, h.2.2.1, h.2.2.2.1, Nat.le_trans h.2.2.2.2 hle⟩
  | again =>
    simp only [hp] at h ⊢
    exact ⟨h.1, h.2.1, h.2.2.1, h.2.2.2.1, Nat.le_trans h.2.2.2.2 hle⟩
  | leave r =>
    simp only [hp] at h ⊢
    exact ⟨h.1, h.2.1, h.2.2.1, h.2.2.2.imp_left fun h2 => ⟨h2.1, Nat.le_trans h2.2 hle⟩⟩

/-- Outside the part with locks. -/
theorem Fits.enabled (h : Fits elapsed x a) (hen : a.pc.enabled = true) : a.held = false ∧ a.seen = none ∧
    ¬ Asleep x := by
  unfold Fits at h
  cases hp : a.pc with
  | user => simpa only [hp] using h
  | enter => simpa only [hp] using h
  | again =>
    simp only [hp] at h
    exact ⟨h.1, h.2.1, h.2.2.1⟩
  | _ => simp [hp, Pc.enabled] at hen

/-- There the slot may change. -/
theorem Fits.slot (h : Fits elapsed x a) (hen : a.pc.enabled = true) {x' : Proc} (hx : ¬ Asleep x') :
    Fits elapsed x' a := by
  unfold Fits at h ⊢
  cases hp : a.pc with
  | user =>
    simp only [hp] at h ⊢
    exact ⟨h.1, h.2.1, hx⟩
  | enter =>
    simp only [hp] at h ⊢
    exact ⟨h.1, h.2.1, hx⟩
  | again =>
    simp only [hp] at h ⊢
    exact ⟨h.1, h.2.1, hx, h.2.2.2⟩
  | _ => simp [hp, Pc.enabled] at hen

/-- Where a process is that is not RUNNING. -/
theorem Fits.idle (h : Fits elapsed x a) (hr : x.state ≠ .RUNNING) : a.pc.enabled = true ∨ a.pc = .asleep := by
  unfold Fits at h
  cases hp : a.pc with
  | user => exact Or.inl rfl
  | enter => exact Or.inl rfl
  | again => exact Or.inl rfl
  | asleep => exact Or.inr rfl
  | test =>
    simp only [hp] at h
    exact absurd h.2.2.1 hr
  | first =>
    simp only [hp] at h
    exact absurd h.2.1 hr
  | both =>
    simp only [hp] at h
    exact absurd h.2.1 hr
  | alone =>
    simp only [hp] at h
    exact absurd h.2.1 hr
  | back =>
    simp only [hp] at h
    exact absurd h.2.2.1 hr
  | leave r =>
    simp only [hp] at h
    exact absurd h.2.2.1 hr

/-- How a step of one process may pass tickslock on. -/
def Passes (s : St) (p : Nat) (c : Pc) (lk : Option Who) : Prop :=
  lk = s.lk ∧ c.locks = (s.th p).pc.locks ∨ s.lk = none ∧ lk = some (.proc p) ∧ c.locks = true ∨
    (s.th p).pc.locks = true ∧ lk = none ∧ c.locks = false

/-- One slot and its process change. -/
theorem Inv.put (h : Inv NPROC s) (lk : Option Who) (hf : Fits s.elapsed x a) (hr : a.pc ≠ .user → p < NPROC)
    (hl : Passes s p a.pc lk) (hm : s.clock.me = some p → x.state = .RUNNING ∧ a.pc.enabled = true)
    (hs : a.seen = (s.th p).seen ∨ a.seen = none ∨ a.seen = some s.elapsed) :
    Inv NPROC (s.put p x a lk) ∧ Relation.ReflTransGen Watch.Step s.watch (s.put p x a lk).watch := by
  have hself : (s.put p x a lk).th p = a := Function.update_self ..
  have hne : ∀ {q}, q ≠ p → (s.put p x a lk).th q = s.th q := fun e => Function.update_of_ne e ..
  have hxself : (s.put p x a lk).t.proc p = x := Sys.set_self ..
  have hxne : ∀ {q}, q ≠ p → (s.put p x a lk).t.proc q = s.t.proc q := fun e => Sys.set_ne _ _ e
  have hlk : (s.put p x a lk).lk = lk := rfl
  refine ⟨⟨h.ticks, fun q => ?_, fun q hq => ?_, fun q => ?_, ?_, fun q hq => ?_, h.wake⟩, ?_⟩
  · by_cases e : q = p
    · subst e
      rw [hself, hxself]
      exact hf
    · rw [hne e, hxne e]
      exact h.fits q
  · by_cases e : q = p
    · subst e
      rw [hself] at hq
      exact hr hq
    · rw [hne e] at hq
      exact h.range q hq
  · rw [hlk]
    by_cases e : q = p
    · subst e
      rw [hself]
      rcases hl with ⟨rfl, hc⟩ | ⟨-, rfl, hc⟩ | ⟨-, rfl, hc⟩
      · rw [hc]
        exact h.lk q
      · exact iff_of_true hc rfl
      · exact iff_of_false (by rw [hc]; decide) (by simp)
    · rw [hne e, h.lk q]
      rcases hl with ⟨rfl, -⟩ | ⟨hn, rfl, -⟩ | ⟨hp, rfl, -⟩
      · rfl
      · rw [hn]
        simp [Ne.symm e]
      · rw [(h.lk p).mp hp]
        simp [Ne.symm e]
  · rw [hlk]
    rcases hl with ⟨rfl, -⟩ | ⟨hn, rfl, -⟩ | ⟨hp, rfl, -⟩
    · exact h.clock
    · refine h.clock.trans ?_
      rw [hn]
      simp
    · refine h.clock.trans ?_
      rw [(h.lk p).mp hp]
      simp
  · by_cases e : q = p
    · subst e
      rw [hself, hxself]
      exact hm hq
    · rw [hne e, hxne e]
      exact h.me q hq
  · have hw : ∀ o, a.seen = o → (s.put p x a lk).watch = { s.watch with seen := Function.update s.watch.seen p o } :=
      fun o ho => by
      have hfun : (fun q => ((s.put p x a lk).th q).seen) = Function.update (fun q => (s.th q).seen) p o := by
        funext q
        by_cases e : q = p
        · subst e
          rw [hself, Function.update_self]
          exact ho
        · rw [hne e, Function.update_of_ne e]
      show (⟨s.elapsed, fun q => ((s.put p x a lk).th q).seen, s.clock.todo⟩ : Watch Nat Nat) = _
      rw [hfun]
      rfl
    rcases hs with hs | hs | hs
    · rw [hw _ hs]
      have hsame : Function.update s.watch.seen p (s.th p).seen = s.watch.seen := Function.update_eq_self ..
      rw [hsame]
    · rw [hw _ hs]
      exact .single (.wake _ p)
    · rw [hw _ hs]
      exact .single (.look _ p)

/-- The difference of the uints is that of the ticks, as far as a uint goes. -/
theorem u32_sub {e start : Nat} (h : start ≤ e) : u32 (u32 e + (2 ^ 32 - u32 start)) = u32 (e - start) := by
  unfold u32
  omega

theorem wakeAt_self (chan : Option Chan) (i : Nat) (t : Sys) :
    (wakeAt chan i t).proc i = if (t.proc i).state = .SLEEPING ∧ (t.proc i).chan = chan then
    { t.proc i with state := .RUNNABLE } else t.proc i := by
  unfold wakeAt setState
  split
  · exact Sys.set_self ..
  · rfl

theorem Thread.rouse_seen (a : Thread) (x : Proc) : (a.rouse x).seen = a.seen ∨ (a.rouse x).seen = none := by
  unfold Thread.rouse
  split
  · exact Or.inr rfl
  · exact Or.inl rfl

theorem Thread.rouse_pc (a : Thread) (x : Proc) : (a.rouse x).pc = a.pc := by
  unfold Thread.rouse
  split <;> rfl

theorem Thread.rouse_same (hs : a.seen = none) (x : Proc) : a.rouse x = a := by
  unfold Thread.rouse
  split
  · rw [← hs]
  · rfl

/-- What makes a sleeper RUNNABLE, whatever it does to the slot's `killed`. -/
theorem Fits.rouse (h : Fits elapsed x a) {x' : Proc} (hheld : a.held = false)
    (hk : x'.killed = x.killed ∨ x'.killed ≠ 0) (hx : x.state ≠ .SLEEPING → x'.state = x.state)
    (hs : x.state = .SLEEPING → x'.state = .RUNNABLE ∨ x'.state = x.state ∧ x'.chan = x.chan ∧ ¬ Asleep x)
    (hc : x'.chan = x.chan) : Fits elapsed x' (a.rouse x) := by
  have awake : ¬ Asleep x → ¬ Asleep x' := fun hno he => by
    by_cases e : x.state = .SLEEPING
    · rcases hs e with hr | hr
      · rw [he.1] at hr
        cases hr
      · exact hno ⟨e, hc ▸ he.2⟩
    · exact e (hx e ▸ he.1)
  have runs : x.state = .RUNNING → x'.state = .RUNNING ∧ a.rouse x = a := fun e => by
    have hno : x.state ≠ .SLEEPING := by rw [e]; decide
    exact ⟨(hx hno).trans e, if_neg hno⟩
  by_cases hen : a.pc.enabled = true
  · obtain ⟨-, hseen, hno⟩ := h.enabled hen
    rw [Thread.rouse_same hseen]
    exact h.slot hen (awake hno)
  unfold Fits at h
  cases hp : a.pc with
  | test =>
    simp only [hp] at h
    obtain ⟨hr, ha⟩ := runs h.2.2.1
    rw [ha]
    unfold Fits
    simp only [hp]
    exact ⟨hheld, h.2.1, hr, h.2.2.2⟩
  | first =>
    simp only [hp] at h
    obtain ⟨hr, ha⟩ := runs h.2.1
    rw [ha]
    unfold Fits
    simp only [hp]
    exact ⟨hheld, hr, h.2.2⟩
  | both =>
    simp only [hp, hheld] at h
    cases h.1
  | alone =>
    simp only [hp, hheld] at h
    cases h.1
  | back =>
    simp only [hp, hheld] at h
    cases h.1
  | leave r =>
    simp only [hp] at h
    obtain ⟨hr, ha⟩ := runs h.2.2.1
    rw [ha]
    unfold Fits
    simp only [hp]
    refine ⟨hheld, h.2.1, hr, h.2.2.2.imp_right fun h2 => ⟨h2.1, ?_⟩⟩
    rcases hk with hk | hk
    · rw [hk]
      exact h2.2
    · exact hk
  | asleep =>
    simp only [hp] at h
    obtain ⟨hsince, ⟨hsl, hw⟩ | ⟨hr, -, hn⟩⟩ := h
    · have hrun : x'.state = .RUNNABLE := (hs hsl.1).resolve_right fun h2 => h2.2.2 hsl
      have ha : a.rouse x = { a with seen := none } := if_pos hsl.1
      rw [ha]
      unfold Fits
      simp only [hp]
      exact ⟨hsince, Or.inr ⟨hrun, hheld, trivial⟩⟩
    · have hno : x.state ≠ .SLEEPING := by rw [hr]; decide
      rw [Thread.rouse_same hn]
      unfold Fits
      simp only [hp]
      exact ⟨hsince, Or.inr ⟨(hx hno).trans hr, hheld, hn⟩⟩
  | _ => simp [hp, Pc.enabled] at hen

/-- Whoever has no lock has seen nothing once it is woken. -/
theorem Fits.roused (h : Fits elapsed x a) (hheld : a.held = false) (hl : a.pc.locks = false) :
    (a.rouse x).seen = none := by
  by_cases hen : a.pc.enabled = true
  · have hseen := (h.enabled hen).2.1
    rw [Thread.rouse_same hseen]
    exact hseen
  unfold Fits at h
  cases hp : a.pc with
  | asleep =>
    simp only [hp] at h
    obtain ⟨-, ⟨hsl, -⟩ | ⟨-, -, hn⟩⟩ := h
    · unfold Thread.rouse
      rw [if_pos hsl.1]
    · rw [Thread.rouse_same hn]
      exact hn
  | alone =>
    simp only [hp, hheld] at h
    cases h.1
  | back =>
    simp only [hp, hheld] at h
    cases h.1
  | _ => simp [hp, Pc.locks, Pc.enabled] at hl hen

/-- The clock interrupt goes on, with or without tickslock. -/
theorem Inv.clockTo (h : Inv NPROC s) (c : Clock) (hm : c.me = s.clock.me) (hl : c.locks = s.clock.locks)
    (hw : ∀ me i, c = .wake me i → i ≤ NPROC) :
    Inv NPROC { s with clock := c } := by
  refine ⟨h.ticks, h.fits, h.range, h.lk, ?_, fun p hp => h.me p (hm ▸ hp), hw⟩
  show c.locks = true ↔ _
  rw [hl]
  exact h.clock

/-- What a process asks for at place `c`. -/
theorem Inv.at (h : Inv NPROC s) {c : Pc} (hp : (s.th p).pc = c) :
    Fits s.elapsed (s.t.proc p) { s.th p with pc := c } := by
  rw [← hp]
  exact h.fits p

/-- A step of a process that executes. -/
theorem Inv.runs (h : Inv NPROC s) (hon : s.on NPROC p) (lk : Option Who) (hf : Fits s.elapsed x a)
    (hl : Passes s p a.pc lk) (hs : a.seen = (s.th p).seen ∨ a.seen = none ∨ a.seen = some s.elapsed) :
    Inv NPROC (s.put p x a lk) ∧ Relation.ReflTransGen Watch.Step s.watch (s.put p x a lk).watch :=
  h.put lk hf (fun _ => hon.1) hl (fun e => absurd e hon.2.2) hs

theorem passes_keep {c : Pc} (hc : c.locks = (s.th p).pc.locks) : Passes s p c s.lk := Or.inl ⟨rfl, hc⟩

theorem Inv.step (h : Inv NPROC s) (hs : Step NPROC act s s') :
    Inv NPROC s' ∧ Relation.ReflTransGen Watch.Step s.watch s'.watch := by
  cases hs with
  | call _ p n hon hp =>
    obtain ⟨hheld, hseen, hno⟩ := h.at hp
    exact h.runs hon _ ⟨hheld, hseen, hno⟩ (passes_keep (by rw [hp]; rfl)) (Or.inl rfl)
  | enter _ p hon hp hfree =>
    obtain ⟨hheld, hseen, -⟩ := h.at hp
    exact h.runs hon _ ⟨hheld, hseen, hon.2.1, h.ticks, Nat.le_refl _⟩ (Or.inr (Or.inl ⟨hfree, rfl, rfl⟩))
      (Or.inl rfl)
  | enough _ p hon hp hlong =>
    obtain ⟨hheld, hseen, hr, h0, hle⟩ := h.at hp
    refine h.runs hon _ ⟨hheld, hseen, hr, Or.inl ⟨rfl, ?_⟩⟩ (passes_keep (by rw [hp]; rfl)) (Or.inl rfl)
    have h0 : (s.th p).ticks0 = u32 (s.th p).start := h0
    have hle : (s.th p).start ≤ s.elapsed := hle
    have hlong : u32 (toU64 (s.th p).n) ≤ u32 (u32 s.elapsed + (2 ^ 32 - u32 (s.th p).start)) := by
      rw [← h.ticks, ← h0]
      exact Nat.le_of_not_lt hlong
    rw [u32_sub hle] at hlong
    have hdiff : u32 (s.elapsed - (s.th p).start) ≤ s.elapsed - (s.th p).start := Nat.mod_le ..
    show (s.th p).start + u32 (toU64 (s.th p).n) ≤ s.elapsed
    omega
  | killed _ p hon hp _ hk =>
    obtain ⟨hheld, hseen, hr, -⟩ := h.at hp
    exact h.runs hon _ ⟨hheld, hseen, hr, Or.inr ⟨rfl, hk⟩⟩ (passes_keep (by rw [hp]; rfl)) (Or.inl rfl)
  | stay _ p hon hp hshort _ =>
    obtain ⟨hheld, -, hr, hsince⟩ := h.at hp
    refine h.runs hon _ ⟨hheld, hr, hsince, s.elapsed, rfl, ?_⟩ (passes_keep (by rw [hp]; rfl)) (Or.inr (Or.inr rfl))
    rw [h.ticks] at hshort
    exact hshort
  | own _ p hon hp _ =>
    obtain ⟨-, hr, hw⟩ := h.at hp
    exact h.runs hon _ ⟨rfl, hr, hw⟩ (passes_keep (by rw [hp]; rfl)) (Or.inl rfl)
  | release _ p hon hp =>
    obtain ⟨hheld, hr, hw⟩ := h.at hp
    exact h.runs hon _ ⟨hheld, hr, hw⟩ (Or.inr (Or.inr ⟨by rw [hp]; rfl, rfl, rfl⟩)) (Or.inl rfl)
  | sleep _ p hon hp =>
    obtain ⟨-, -, hw⟩ := h.at hp
    have hx : (sleepOn ticksChan p s.t).proc p = { s.t.proc p with chan := some ticksChan, state := .SLEEPING } :=
      Sys.set_self ..
    refine h.runs hon _ ⟨hw.1, Or.inl ⟨?_, hw⟩⟩ (passes_keep (by rw [hp]; rfl)) (Or.inl rfl)
    rw [hx]
    exact ⟨rfl, rfl⟩
  | swtch _ p hp hheld =>
    obtain ⟨hsince, hor⟩ := h.at hp
    refine h.put _ (a := { s.th p with held := false }) ?_ (fun hu => h.range p hu) (passes_keep rfl) (fun e => ?_)
      (Or.inl rfl)
    · have hf : Fits s.elapsed (s.t.proc p) { s.th p with pc := .asleep, held := false } :=
        ⟨hsince, hor.imp_right fun h2 => ⟨h2.1, rfl, h2.2.2⟩⟩
      rw [← hp] at hf
      exact hf
    · have hme := (h.me p e).2
      rw [hp] at hme
      cases hme
  | pick _ p hlt hheld hstate hp =>
    have hx : (setState .RUNNING p s.t).proc p = { s.t.proc p with state := .RUNNING } := Sys.set_self ..
    rw [hx]
    have hen : (s.th p).pc.enabled = true := ((h.fits p).idle (by rw [hstate]; decide)).resolve_right hp
    exact h.put _ ((h.fits p).slot hen fun e => by cases e.1) (fun _ => hlt) (passes_keep rfl) (fun _ => ⟨rfl, hen⟩)
      (Or.inl rfl)
  | resume _ p hlt hheld hstate hp =>
    obtain ⟨hsince, hor⟩ := h.at hp
    have hx : (setState .RUNNING p s.t).proc p = { s.t.proc p with state := .RUNNING } := Sys.set_self ..
    have hn : (s.th p).seen = none := by
      rcases hor with ⟨hsl, -⟩ | ⟨-, -, hn⟩
      · have hsl : (s.t.proc p).state = .SLEEPING := hsl.1
        rw [hsl] at hstate
        cases hstate
      · exact hn
    refine h.put _ ⟨rfl, hn, ?_, hsince⟩ (fun _ => hlt) (passes_keep (by rw [hp]; rfl)) (fun e => ?_) (Or.inl rfl)
    · rw [hx]
    · have hme := (h.me p e).2
      rw [hp] at hme
      cases hme
  | tidy _ p hon hp =>
    obtain ⟨-, hseen, -, hsince⟩ := h.at hp
    exact h.runs hon _ ⟨rfl, hseen, (fun e => by cases e.2), hsince⟩ (passes_keep (by rw [hp]; rfl)) (Or.inl rfl)
  | again _ p hon hp hfree =>
    obtain ⟨hheld, hseen, -, hsince⟩ := h.at hp
    exact h.runs hon _ ⟨hheld, hseen, hon.2.1, hsince⟩ (Or.inr (Or.inl ⟨hfree, rfl, rfl⟩)) (Or.inl rfl)
  | ret _ p r hon hp =>
    obtain ⟨hheld, hseen, hr, -⟩ := h.at hp
    refine h.runs hon _ ⟨hheld, hseen, fun e => ?_⟩ (Or.inr (Or.inr ⟨by rw [hp]; rfl, rfl, rfl⟩)) (Or.inl rfl)
    rw [e.1] at hr
    cases hr
  | yield _ p hon hen =>
    have hx : (setState .RUNNABLE p s.t).proc p = { s.t.proc p with state := .RUNNABLE } := Sys.set_self ..
    rw [hx]
    exact h.runs hon _ ((h.fits p).slot hen fun e => by cases e.1) (passes_keep rfl) (Or.inl rfl)
  | interrupt _ me hidle hme =>
    refine ⟨⟨h.ticks, h.fits, h.range, h.lk, ?_, fun p hp => ?_, fun _ _ e => by cases e⟩, ?_⟩
    · have hc := h.clock
      rw [hidle] at hc
      exact hc
    · obtain ⟨hon, hen⟩ := hme p hp
      exact ⟨hon.2.1, hen⟩
    · have hw : ({ s with clock := .enter me } : St).watch = s.watch := by
        unfold St.watch
        rw [hidle]
        rfl
      rw [hw]
  | lock _ me he hfree =>
    refine ⟨⟨h.ticks, h.fits, h.range, fun p => ?_, iff_of_true rfl rfl, fun p hp => h.me p ?_,
      fun _ _ e => by cases e⟩, ?_⟩
    · refine (h.lk p).trans ?_
      rw [hfree]
      simp
    · rw [he]
      exact hp
    · have hw : ({ s with clock := .tick me, lk := some .clock } : St).watch = s.watch := by
        unfold St.watch
        rw [he]
        rfl
      rw [hw]
  | tick _ me ht =>
    refine ⟨⟨?_, fun p => (h.fits p).mono (Nat.le_succ _), h.range, h.lk, ?_, fun p hp => h.me p ?_, fun _ _ e => ?_⟩,
      ?_⟩
    · show u32 (s.ticks + 1) = u32 (s.elapsed + 1)
      rw [h.ticks]
      unfold u32
      omega
    · have hc := h.clock
      rw [ht] at hc
      exact hc
    · rw [ht]
      exact hp
    · cases e
      exact Nat.zero_le _
    · exact .single (.change s.watch (s.elapsed + 1) _ fun p => Nat.zero_le p)
  | skip _ me i hw hlt hme =>
    have hmei := h.me i (by rw [hw]; exact hme)
    have hclock : s.clock.me = (Clock.wake me (i + 1)).me := by rw [hw]; rfl
    refine ⟨h.clockTo _ hclock.symm (by rw [hw]; rfl) (fun _ _ e => by cases e; exact hlt),
      .single (.pass s.watch _ fun p hp => ?_)⟩
    have hp : s.clock.todo p := hp
    rw [hw] at hp
    have hp : i ≤ p := hp
    rcases Nat.lt_or_eq_of_le hp with hp | rfl
    · exact Or.inl hp
    · exact Or.inr ((h.fits i).enabled hmei.2).2.1
  | wake _ me i hw hlt hme hheld =>
    have hclock : s.lk = some .clock := h.clock.mp (by rw [hw]; rfl)
    have hlocks : (s.th i).pc.locks = false := Bool.eq_false_iff.mpr fun e => by
      have hi := (h.lk i).mp e
      rw [hclock] at hi
      cases hi
    have hf : Fits s.elapsed ((wakeAt (some ticksChan) i s.t).proc i) ((s.th i).rouse (s.t.proc i)) := by
      rw [wakeAt_self]
      refine (h.fits i).rouse hheld (Or.inl (by split <;> rfl)) (fun e => ?_) (fun e => ?_) (by split <;> rfl)
      · rw [if_neg fun h2 : _ ∧ _ => e h2.1]
      · split
        · exact Or.inl rfl
        · rename_i hno
          exact Or.inr ⟨rfl, rfl, hno⟩
    have hmei : s.clock.me ≠ some i := by
      rw [hw]
      exact hme
    obtain ⟨h1, w1⟩ := h.put s.lk hf (fun _ => hlt) (passes_keep (by rw [Thread.rouse_pc])) (fun e => absurd e hmei)
      ((Thread.rouse_seen _ _).imp_right Or.inl)
    refine ⟨h1.clockTo (.wake me (i + 1)) ?_ ?_ (fun _ _ e => by cases e; exact hlt),
      w1.tail (.pass (s.put i _ _ s.lk).watch _ fun p hp => ?_)⟩
    · show me = s.clock.me
      rw [hw]
      rfl
    · show true = s.clock.locks
      rw [hw]
      rfl
    · have hp : s.clock.todo p := hp
      rw [hw] at hp
      have hp : i ≤ p := hp
      rcases Nat.lt_or_eq_of_le hp with hp | rfl
      · exact Or.inl hp
      · refine Or.inr ?_
        show (Function.update s.th i _ i).seen = none
        rw [Function.update_self]
        exact (h.fits i).roused hheld hlocks
  | unlock _ me hw =>
    have hclock : s.lk = some .clock := h.clock.mp (by rw [hw]; rfl)
    refine ⟨⟨h.ticks, h.fits, h.range, fun p => ?_, iff_of_false Bool.false_ne_true (by simp),
      (fun p hp => by cases hp),
      fun _ _ e => by cases e⟩, .single (.pass s.watch _ fun p hp => ?_)⟩
    · refine (h.lk p).trans ?_
      rw [hclock]
      simp
    · have hp : s.clock.todo p := hp
      rw [hw] at hp
      have hp : NPROC ≤ p := hp
      refine Or.inr ?_
      have hu : (s.th p).pc = .user := by
        by_contra e
        exact absurd (h.range p e) (by omega)
      exact (h.at hu).2.1
  | kill _ q hheld =>
    have hx : (killAt q s.t).proc q =
        { s.t.proc q with
          killed := 1
          state := if (s.t.proc q).state = .SLEEPING then .RUNNABLE else (s.t.proc q).state } := Sys.set_self ..
    rw [hx]
    refine h.put s.lk ((h.fits q).rouse hheld (Or.inr (by simp)) (fun e => if_neg e) (fun e => Or.inl (if_pos e)) rfl)
      (fun e => h.range q (by rwa [Thread.rouse_pc] at e)) (passes_keep (by rw [Thread.rouse_pc])) (fun e => ?_)
        ((Thread.rouse_seen _ _).imp_right Or.inl)
    obtain ⟨hr, hen⟩ := h.me q e
    refine ⟨?_, by rw [Thread.rouse_pc]; exact hen⟩
    show (if (s.t.proc q).state = .SLEEPING then ProcState.RUNNABLE else (s.t.proc q).state) = .RUNNING
    rw [hr]
    rfl
  | other _ p x hp hme hx =>
    exact h.put s.lk ((h.fits p).slot (by rw [hp]; rfl) fun e => hx e.2) (fun e => absurd hp e) (passes_keep rfl)
      (fun e => absurd e hme) (Or.inl rfl)

theorem Inv.init : Inv NPROC .init := by
  refine ⟨rfl, fun p => ⟨rfl, rfl, fun e => ?_⟩, fun p hp => absurd rfl hp,
    fun p => iff_of_false Bool.false_ne_true (by simp [St.init]),
    iff_of_false Bool.false_ne_true (by simp [St.init]), (fun p hp => by cases hp), fun _ _ e => by cases e⟩
  have hc := e.2
  by_cases hp : p = initproc
  · subst hp
    cases hc
  · simp [St.init, Sys.init, hp, Proc.unused] at hc

theorem Reach.inv (h : Reach NPROC s) : Inv NPROC s := by
  induction h with
  | init => exact .init
  | step _ hs ih => exact (ih.step hs).1

/-- A run is one of `Watch`. -/
theorem Reach.watch (h : Reach NPROC s) : Relation.ReflTransGen Watch.Step St.init.watch s.watch := by
  induction h with
  | init => exact .refl
  | step hr hs ih => exact ih.trans (hr.inv.step hs).2

theorem Reach.fresh (h : Reach NPROC s) : s.watch.Fresh :=
  Watch.Fresh.steps (fun _ _ he => by cases he) h.watch

/-- Whoever sleeps on `ticks` looked at them as they are, and its time had not come, unless the clock
    interrupt is under way and comes to it yet. -/
theorem Reach.asleep (h : Reach NPROC s) (hs : Asleep (s.t.proc p)) :
    s.clock.todo p ∨ Short s.ticks (s.th p).ticks0 (s.th p).n := by
  have hf := h.inv.fits p
  have hp : (s.th p).pc = .asleep := (hf.idle (by rw [hs.1]; decide)).resolve_left fun hen => (hf.enabled hen).2.2 hs
  obtain ⟨-, ⟨-, -, e, he, hshort⟩ | ⟨hr, -⟩⟩ := h.inv.at hp
  · rcases h.fresh p e he with rfl | ht
    · refine Or.inr ?_
      rw [h.inv.ticks]
      exact hshort
    · exact Or.inl ht
  · rw [hs.1] at hr
    cases hr

/-! ## tickslock -/

variable (NPROC) in
/-- A step, but not of anything outside sys_sleep. -/
def Goes (s s' : St) : Prop := ∃ act : Act, act ≠ .other ∧ Step NPROC act s s'

theorem Reach.goes (h : Reach NPROC s) (hs : Relation.ReflTransGen (Goes NPROC) s s') : Reach NPROC s' := by
  induction hs with
  | refl => exact h
  | tail _ hstep ih =>
    obtain ⟨act, -, hstep⟩ := hstep
    exact ih.step hstep

theorem goes_proc (hs : Step NPROC (.proc p) s s') : Goes NPROC s s' := ⟨.proc p, by simp, hs⟩

theorem goes_clock (hs : Step NPROC .clock s s') : Goes NPROC s s' := ⟨.clock, by simp, hs⟩

/-- Where no interrupt can be, a process that is RUNNING executes. -/
theorem Reach.executes (h : Reach NPROC s) (hr : (s.t.proc p).state = .RUNNING) (hp : (s.th p).pc ≠ .user)
    (hen : (s.th p).pc.enabled = false) :
    s.on NPROC p :=
  ⟨h.inv.range p hp, hr, fun e => by
    have hme := (h.inv.me p e).2
    rw [hen] at hme
    cases hme⟩

theorem put_th (x : Proc) (a : Thread) (lk : Option Who) : (s.put p x a lk).th p = a := Function.update_self ..

/-- In sleep the process comes to release tickslock. -/
theorem Reach.releases_both (h : Reach NPROC s) (hp : (s.th p).pc = .both) :
    ∃ s', Relation.ReflTransGen (Goes NPROC) s s' ∧ s'.lk = none := by
  have hf := h.inv.at hp
  exact ⟨_, .single (goes_proc (.release s p (h.executes hf.2.1 (by rw [hp]; decide) (by rw [hp]; rfl)) hp)), rfl⟩

theorem Reach.releases_first (h : Reach NPROC s) (hp : (s.th p).pc = .first) :
    ∃ s', Relation.ReflTransGen (Goes NPROC) s s' ∧ s'.lk = none := by
  have hf := h.inv.at hp
  have hstep := Step.own s p (h.executes hf.2.1 (by rw [hp]; decide) (by rw [hp]; rfl)) hp hf.1
  obtain ⟨s', hrun, hfree⟩ := (h.step hstep).releases_both (by rw [put_th])
  exact ⟨s', .head (goes_proc hstep) hrun, hfree⟩

theorem Reach.releases_leave (h : Reach NPROC s) {r : Int} (hp : (s.th p).pc = .leave r) :
    ∃ s', Relation.ReflTransGen (Goes NPROC) s s' ∧ s'.lk = none := by
  have hf := h.inv.at hp
  exact ⟨_, .single (goes_proc (.ret s p r (h.executes hf.2.2.1 (by rw [hp]; simp) (by rw [hp]; rfl)) hp)), rfl⟩

theorem Reach.releases_test (h : Reach NPROC s) (hp : (s.th p).pc = .test) :
    ∃ s', Relation.ReflTransGen (Goes NPROC) s s' ∧ s'.lk = none := by
  have hf := h.inv.at hp
  have hon := h.executes hf.2.2.1 (by rw [hp]; decide) (by rw [hp]; rfl)
  by_cases hshort : Short s.ticks (s.th p).ticks0 (s.th p).n
  · by_cases hk : (s.t.proc p).killed = 0
    · have hstep := Step.stay s p hon hp hshort hk
      obtain ⟨s', hrun, hfree⟩ := (h.step hstep).releases_first (by rw [put_th])
      exact ⟨s', .head (goes_proc hstep) hrun, hfree⟩
    · have hstep := Step.killed s p hon hp hshort hk
      obtain ⟨s', hrun, hfree⟩ := (h.step hstep).releases_leave (r := -1) (congrArg Thread.pc (put_th ..))
      exact ⟨s', .head (goes_proc hstep) hrun, hfree⟩
  · have hstep := Step.enough s p hon hp hshort
    obtain ⟨s', hrun, hfree⟩ := (h.step hstep).releases_leave (r := 0) (congrArg Thread.pc (put_th ..))
    exact ⟨s', .head (goes_proc hstep) hrun, hfree⟩

/-- While the clock interrupt is at slot `i`, whoever has that p->lock gives it up. -/
theorem Reach.frees (h : Reach NPROC s) {i : Nat} {me : Option Nat} (hw : s.clock = .wake me i) :
    ∃ s', Relation.ReflTransGen (Goes NPROC) s s' ∧ s'.clock = s.clock ∧ (s'.th i).held = false := by
  have swtch : ∀ {s1 : St}, Reach NPROC s1 → (s1.th i).pc = .asleep →
      ∃ s', Relation.ReflTransGen (Goes NPROC) s1 s' ∧ s'.clock = s1.clock ∧ (s'.th i).held = false :=
        fun {s1} h1 hp => by
    by_cases hheld : (s1.th i).held = true
    · exact ⟨_, .single ⟨.sched i, by simp, .swtch s1 i hp hheld⟩, rfl, congrArg Thread.held (put_th ..)⟩
    · exact ⟨s1, .refl, rfl, Bool.eq_false_iff.mpr hheld⟩
  have hf := h.inv.fits i
  unfold Fits at hf
  cases hp : (s.th i).pc with
  | both =>
    have hlk := (h.inv.lk i).mp (by rw [hp]; rfl)
    rw [h.inv.clock.mp (by rw [hw]; rfl)] at hlk
    cases hlk
  | alone =>
    simp only [hp] at hf
    have hstep := Step.sleep s i (h.executes hf.2.1 (by rw [hp]; decide) (by rw [hp]; rfl)) hp
    obtain ⟨s', hrun, hclock, hheld⟩ := swtch (h.step hstep) (by rw [put_th])
    exact ⟨s', .head (goes_proc hstep) hrun, hclock, hheld⟩
  | asleep => exact swtch h hp
  | back =>
    simp only [hp] at hf
    exact ⟨_, .single (goes_proc (.tidy s i (h.executes hf.2.2.1 (by rw [hp]; decide) (by rw [hp]; rfl)) hp)), rfl,
      congrArg Thread.held (put_th ..)⟩
  | _ =>
    simp only [hp] at hf
    exact ⟨s, .refl, rfl, hf.1⟩

theorem Reach.releases_wake : ∀ (k : Nat) {s : St} {me : Option Nat} {i : Nat}, Reach NPROC s → s.clock = .wake me i →
    i + k = NPROC →
    ∃ s', Relation.ReflTransGen (Goes NPROC) s s' ∧ s'.lk = none := by
  intro k
  induction k with
  | zero =>
    intro s me i h hw hk
    obtain rfl : i = NPROC := hk
    exact ⟨_, .single (goes_clock (.unlock s me hw)), rfl⟩
  | succ k ih =>
    intro s me i h hw hk
    have hlt : i < NPROC := by omega
    by_cases hme : me = some i
    · have hstep := Step.skip s me i hw hlt hme
      obtain ⟨s', hrun, hfree⟩ := ih (h.step hstep) rfl (by omega)
      exact ⟨s', .head (goes_clock hstep) hrun, hfree⟩
    · obtain ⟨s1, hrun1, hclock, hheld⟩ := h.frees hw
      have hstep := Step.wake s1 me i (hclock.trans hw) hlt hme hheld
      obtain ⟨s', hrun, hfree⟩ := ih ((h.goes hrun1).step hstep) rfl (by omega)
      exact ⟨s', hrun1.trans (.head (goes_clock hstep) hrun), hfree⟩

theorem Reach.releases (h : Reach NPROC s) : ∃ s', Relation.ReflTransGen (Goes NPROC) s s' ∧ s'.lk = none := by
  cases hl : s.lk with
  | none => exact ⟨s, .refl, hl⟩
  | some w =>
    cases w with
    | proc p =>
      have hlocks := (h.inv.lk p).mpr hl
      cases hp : (s.th p).pc with
      | test => exact h.releases_test hp
      | first => exact h.releases_first hp
      | both => exact h.releases_both hp
      | leave r => exact h.releases_leave hp
      | _ => simp [hp, Pc.locks] at hlocks
    | clock =>
      have hlocks := h.inv.clock.mpr hl
      cases hc : s.clock with
      | tick me =>
        have hstep : Step NPROC .clock s _ := .tick s me hc
        obtain ⟨s', hrun, hfree⟩ := Reach.releases_wake NPROC (h.step hstep) rfl (Nat.zero_add _)
        exact ⟨s', .head (goes_clock hstep) hrun, hfree⟩
      | wake me i => exact Reach.releases_wake (NPROC - i) h hc (Nat.add_sub_cancel' (h.inv.wake me i hc))
      | _ => simp [hc, Clock.locks] at hlocks

/-- Whatever the order: nobody sleeps whose time has come, unless the clock interrupt is under way and
    comes to it yet; sys_sleep returns 0 after as many ticks as were asked for, in an unsigned int, and
    -1 to the killed; and tickslock can always be given up. -/
theorem sleep_until_time (h : Reach NPROC s) :
    (∀ p, Asleep (s.t.proc p) → s.clock.todo p ∨ Short s.ticks (s.th p).ticks0 (s.th p).n) ∧
    (∀ p r, (s.th p).pc = .leave r → r = 0 ∧ (s.th p).start + u32 (toU64 (s.th p).n) ≤ s.elapsed ∨ r = -1 ∧
      (s.t.proc p).killed ≠ 0) ∧
    ∃ s', Relation.ReflTransGen (Goes NPROC) s s' ∧ s'.lk = none :=
  ⟨fun _ hs => h.asleep hs, fun _ _ hp => (h.inv.at hp).2.2.2, h.releases⟩

end

/-- The first process asks for one tick, sleeps, and is woken by it. -/
theorem sleep_until_time_one : ∃ s, Reach 1 s ∧ (s.th 0).pc = .leave 0 ∧ s.elapsed = 1 ∧
    (∀ p, Asleep (s.t.proc p) → s.clock.todo p ∨ Short s.ticks (s.th p).ticks0 (s.th p).n) ∧
    (∀ p r, (s.th p).pc = .leave r → r = 0 ∧ (s.th p).start + u32 (toU64 (s.th p).n) ≤ s.elapsed ∨ r = -1 ∧
      (s.t.proc p).killed ≠ 0) ∧
    ∃ s', Relation.ReflTransGen (Goes 1) s s' ∧ s'.lk = none := by
  have h1 : Reach 1 _ := .step .init (.pick _ 0 (by decide) rfl rfl (by decide))
  have h2 : Reach 1 _ := .step h1 (.call _ 0 1 ⟨by decide, rfl, by decide⟩ rfl)
  have h3 : Reach 1 _ := .step h2 (.enter _ 0 ⟨by decide, rfl, by decide⟩ rfl rfl)
  have h4 : Reach 1 _ := .step h3 (.stay _ 0 ⟨by decide, rfl, by decide⟩ rfl (by decide) rfl)
  have h5 : Reach 1 _ := .step h4 (.own _ 0 ⟨by decide, rfl, by decide⟩ rfl rfl)
  have h6 : Reach 1 _ := .step h5 (.release _ 0 ⟨by decide, rfl, by decide⟩ rfl)
  have h7 : Reach 1 _ := .step h6 (.sleep _ 0 ⟨by decide, rfl, by decide⟩ rfl)
  have h8 : Reach 1 _ := .step h7 (.swtch _ 0 rfl rfl)
  have h9 : Reach 1 _ := .step h8 (.interrupt _ none rfl fun p hp => by cases hp)
  have h10 : Reach 1 _ := .step h9 (.lock _ none rfl rfl)
  have h11 : Reach 1 _ := .step h10 (.tick _ none rfl)
  have h12 : Reach 1 _ := .step h11 (.wake _ none 0 rfl (by decide) (by decide) rfl)
  have h13 : Reach 1 _ := .step h12 (.unlock _ none rfl)
  have h14 : Reach 1 _ := .step h13 (.resume _ 0 (by decide) rfl rfl rfl)
  have h15 : Reach 1 _ := .step h14 (.tidy _ 0 ⟨by decide, rfl, by decide⟩ rfl)
  have h16 : Reach 1 _ := .step h15 (.again _ 0 ⟨by decide, rfl, by decide⟩ rfl rfl)
  have h17 : Reach 1 _ := .step h16 (.enough _ 0 ⟨by decide, rfl, by decide⟩ rfl (by decide))
  exact ⟨_, h17, rfl, rfl, sleep_until_time h17⟩

end Xv6Labs.Procs.Ticks
