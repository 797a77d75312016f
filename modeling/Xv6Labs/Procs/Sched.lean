/-
  Xv6Labs.Procs.Sched — the schedulers of many CPUs and the hand-over of p->lock.

  A step is what a CPU does between two operations on a p->lock or calls of swtch. On a CPU
  runs its scheduler, or the process `cproc` after the scheduler's swtch to it (`away`).
  p->lock is taken by the scheduler and released by the process, then taken by the process in
  yield, sleep or exit and released by the scheduler. swtch saves one context and resumes the
  other; what it saves is arbitrary. wakeup may also come from an interrupt. Parents and
  wait_lock decide nothing here and are left out.

  `log` is the calls of swtch and allocproc, the last one first: nothing reads it.

  - `Inv.step`: where a process is on a CPU, and who has its lock.
  - `one_cpu`: a process is on one CPU at most, its context is the last one saved, and wait
    frees none that is on a CPU.
-/

import Xv6Labs.Procs.Table

namespace Xv6Labs.Procs.Sched

/-- `struct context`. -/
structure Context where
  ra : Nat
  sp : Nat
  s : Fin 12 → Nat

/-- Addresses the linker and procinit chose. -/
structure Image where
  forkret : Nat
  kstack : Nat → Nat

/-- The context allocproc sets up. -/
def Image.start (I : Image) (i : Nat) : Context := ⟨I.forkret, I.kstack i + 4096, fun _ => 0⟩

/-- Where a scheduler is. -/
inductive CPc where
  /-- before `acquire(&proc[i].lock)` -/
  | loop (i : Nat)
  /-- before swtch -/
  | chose (i : Nat)
  /-- in swtch: its context is saved there -/
  | away (i : Nat)
  /-- after swtch -/
  | back (i : Nat)
  /-- before the release -/
  | clear (i : Nat)
  deriving DecidableEq

/-- Where the kernel thread of a process is. -/
inductive Phase where
  | off
  /-- after swtch, before the release -/
  | resumed
  | run
  /-- in sched, before swtch -/
  | sched
  deriving DecidableEq

inductive Ev where
  | made (i : Nat)
  | saved (i : Nat) (r : Context)
  | resumed (c i : Nat) (r : Context)

structure St where
  t : Sys
  lock : Nat → Option Nat
  cproc : Nat → Option Nat
  cpc : Nat → CPc
  phase : Nat → Phase
  context : Nat → Context
  /-- the child a process is making in fork -/
  child : Nat → Option Nat
  log : List Ev

def St.init (I : Image) : St :=
  ⟨.init, fun _ => none, fun _ => none, fun _ => .loop 0, fun _ => .off, I.start, fun _ => none, [.made initproc]⟩

/-- Process `i` executes on CPU `c`. -/
def St.runs (s : St) (c i : Nat) : Prop := s.cproc c = some i ∧ s.cpc c = .away i ∧ s.phase i = .run

section

variable (I : Image) (NPROC : Nat)

/-- The process takes its own lock and leaves RUNNING, for sched. -/
def St.leave (s : St) (c i : Nat) (t : Sys) : St :=
  { s with t := t, lock := Function.update s.lock i (some c), phase := Function.update s.phase i .sched }

/-- CPU `c` goes on. -/
inductive Step (c : Nat) : St → St → Prop where
  | skip (s : St) (i : Nat) : s.cpc c = .loop i → i < NPROC → s.lock i = none → (s.t.proc i).state ≠ .RUNNABLE →
      Step c s { s with cpc := Function.update s.cpc c (.loop (i + 1)) }
  | wrap (s : St) : s.cpc c = .loop NPROC → Step c s { s with cpc := Function.update s.cpc c (.loop 0) }
  | pick (s : St) (i : Nat) : s.cpc c = .loop i → i < NPROC → s.lock i = none → (s.t.proc i).state = .RUNNABLE →
      Step c s { s with
        t := setState .RUNNING i s.t
        lock := Function.update s.lock i (some c)
        cproc := Function.update s.cproc c (some i)
        cpc := Function.update s.cpc c (.chose i) }
  | swtchIn (s : St) (i : Nat) : s.cpc c = .chose i →
      Step c s { s with
        cpc := Function.update s.cpc c (.away i)
        phase := Function.update s.phase i .resumed
        log := .resumed c i (s.context i) :: s.log }
  /-- in forkret, yield or sleep -/
  | release (s : St) (i j : Nat) (chan : Option Chan) : s.cproc c = some i → s.cpc c = .away j →
      s.phase i = .resumed →
      chan = none ∨ chan = (s.t.proc i).chan →
      Step c s { s with
        t := s.t.set i { s.t.proc i with chan := chan }
        lock := Function.update s.lock i none
        phase := Function.update s.phase i .run }
  | yield (s : St) (i : Nat) : s.runs c i → s.lock i = none → Step c s (s.leave c i (setState .RUNNABLE i s.t))
  | sleep (s : St) (i : Nat) (chan : Chan) : s.runs c i → s.lock i = none →
      Step c s (s.leave c i (sleepOn chan i s.t))
  | exit (s : St) (i : Nat) (status : Int) : s.runs c i → s.lock i = none →
      Step c s (s.leave c i (zombie status i s.t))
  | swtchOut (s : St) (i j : Nat) (r : Context) : s.cproc c = some i → s.cpc c = .away j → s.phase i = .sched →
      Step c s { s with
        cpc := Function.update s.cpc c (.back j)
        phase := Function.update s.phase i .off
        context := Function.update s.context i r
        log := .saved i r :: s.log }
  | clear (s : St) (i : Nat) : s.cpc c = .back i →
      Step c s { s with cproc := Function.update s.cproc c none, cpc := Function.update s.cpc c (.clear i) }
  | next (s : St) (i : Nat) : s.cpc c = .clear i →
      Step c s { s with lock := Function.update s.lock i none, cpc := Function.update s.cpc c (.loop (i + 1)) }
  | wakeup (s : St) (q : Nat) (chan : Option Chan) : s.lock q = none → Step c s { s with t := wakeAt chan q s.t }
  | kill (s : St) (i q : Nat) : s.runs c i → s.lock q = none → Step c s { s with t := killAt q s.t }
  | fork (s : St) (i q : Nat) : s.runs c i → s.child i = none → q < NPROC → s.lock q = none →
      (s.t.proc q).state = .UNUSED →
      Step c s { s with
        t := alloc q s.t
        context := Function.update s.context q (I.start q)
        child := Function.update s.child i (some q)
        log := .made q :: s.log }
  | forkFail (s : St) (i q : Nat) : s.runs c i → s.lock q = none → (s.t.proc q).state = .UNUSED →
      Step c s { s with t := freeproc q (alloc q s.t) }
  | forkRun (s : St) (i q : Nat) : s.runs c i → s.child i = some q → s.lock q = none →
      Step c s { s with t := setState .RUNNABLE q s.t, child := Function.update s.child i none }
  | wait (s : St) (i q : Nat) : s.runs c i → s.lock q = none → (s.t.proc q).state = .ZOMBIE →
      Step c s { s with t := freeproc q s.t }

inductive Reach (NCPU : Nat) : St → Prop where
  | init : Reach NCPU (.init I)
  | step {s s' : St} (c : Nat) : Reach NCPU s → c < NCPU → Step I NPROC c s s' → Reach NCPU s'

/-- What the last swtch away from process `i` saved, or allocproc set up. -/
def lastContext (i : Nat) : List Ev → Option Context
  | [] => none
  | .made j :: l => if j = i then some (I.start i) else lastContext i l
  | .saved j r :: l => if j = i then some r else lastContext i l
  | .resumed .. :: l => lastContext i l

/-- Every context a scheduler resumed was the last one of its process. -/
def LogOk : List Ev → Prop
  | [] => True
  | .resumed _ i r :: l => lastContext I i l = some r ∧ LogOk l
  | _ :: l => LogOk l

end

/-! ## The invariant -/

/-- Where a process that is on a CPU is. -/
def OnCpu (s : St) (c i : Nat) : CPc → Prop
  | .chose j => j = i ∧ s.lock i = some c ∧ (s.t.proc i).state = .RUNNING ∧ s.phase i = .off
  | .away j => j = i ∧ (s.phase i = .run ∧ s.lock i = none ∧ (s.t.proc i).state = .RUNNING ∨
      s.phase i = .resumed ∧ s.lock i = some c ∧ (s.t.proc i).state = .RUNNING ∨
      s.phase i = .sched ∧ s.lock i = some c ∧ (s.t.proc i).state ≠ .RUNNING)
  | .back j => j = i ∧ s.lock i = some c ∧ (s.t.proc i).state ≠ .RUNNING ∧ s.phase i = .off
  | _ => False

/-- A CPU without a process. -/
def Idle (s : St) (c : Nat) : CPc → Prop
  | .loop _ => True
  | .clear j => s.lock j = some c
  | _ => False

structure Inv (I : Image) (NCPU : Nat) (s : St) : Prop where
  cpu : ∀ c i, s.cproc c = some i → c < NCPU ∧ OnCpu s c i (s.cpc c)
  idle : ∀ c, s.cproc c = none → Idle s c (s.cpc c)
  one : ∀ c c' i, s.cproc c = some i → s.cproc c' = some i → c = c'
  running : ∀ i, (s.t.proc i).state = .RUNNING → ∃ c, s.cproc c = some i
  off : ∀ i, s.phase i ≠ .off → ∃ c, s.cproc c = some i
  child : ∀ i q, s.child i = some q → (s.t.proc q).state = .USED
  single : ∀ i i' q, s.child i = some q → s.child i' = some q → i = i'
  context : ∀ i, (s.t.proc i).state ≠ .UNUSED → lastContext I i s.log = some (s.context i)
  log : LogOk I s.log

section

variable {I : Image} {NPROC NCPU c : Nat} {s s' : St}

theorem OnCpu.congr {i : Nat} {p : CPc} (h : OnCpu s c i p) (hl : s'.lock i = s.lock i)
    (hs : (s'.t.proc i).state = (s.t.proc i).state) (hp : s'.phase i = s.phase i) : OnCpu s' c i p := by
  cases p <;> simp only [OnCpu, hl, hs, hp] at h ⊢ <;> exact h

theorem Idle.mono {p : CPc} (h : Idle s c p) (hl : ∀ j, s.lock j = some c → s'.lock j = some c) : Idle s' c p := by
  cases p with
  | clear j => exact hl j h
  | loop j => trivial
  | _ => exact h.elim

/-- A process on a CPU whose lock is free executes. -/
theorem OnCpu.free {i : Nat} {p : CPc} (h : OnCpu s c i p) (hl : s.lock i = none) :
    p = .away i ∧ s.phase i = .run ∧ (s.t.proc i).state = .RUNNING := by
  cases p with
  | away j =>
    obtain ⟨rfl, ⟨h, -, h'⟩ | ⟨-, h, -⟩ | ⟨-, h, -⟩⟩ := h
    · exact ⟨rfl, h, h'⟩
    · simp [hl] at h
    · simp [hl] at h
  | chose j => simp [OnCpu, hl] at h
  | back j => simp [OnCpu, hl] at h
  | _ => exact h.elim

/-- A section on one slot whose lock is free. -/
theorem Inv.slot (h : Inv I NCPU s) {q : Nat} {x : Proc} (hl : s.lock q = none)
    (hr : (s.t.proc q).state = .RUNNING ↔ x.state = .RUNNING)
    (hc : ∀ i, s.child i = some q → x.state = .USED) (hu : x.state ≠ .UNUSED → (s.t.proc q).state ≠ .UNUSED) :
    Inv I NCPU { s with t := s.t.set q x } := by
  refine ⟨fun c i hi => ⟨(h.cpu c i hi).1, ?_⟩, h.idle, h.one, fun i hi => ?_, h.off, fun i j hj => ?_, h.single,
    fun i hi => ?_, h.log⟩
  · by_cases e : i = q
    · subst e
      obtain ⟨h1, h2, h3⟩ := (h.cpu c i hi).2.free hl
      rw [h1]
      exact ⟨rfl, Or.inl ⟨h2, hl, by simpa using hr.mp h3⟩⟩
    · exact (h.cpu c i hi).2.congr rfl (by simp [e]) rfl
  · by_cases e : i = q
    · subst e
      exact h.running i (hr.mpr (by simpa using hi))
    · exact h.running i (by simpa [e] using hi)
  · by_cases e : j = q
    · subst e
      simpa using hc i hj
    · simpa [e] using h.child i j hj
  · by_cases e : i = q
    · subst e
      exact h.context i (hu (by simpa using hi))
    · exact h.context i (by simpa [e] using hi)

/-- A slot whose lock is free and that is not RUNNING is on no CPU. -/
theorem Inv.off_cpu (h : Inv I NCPU s) {q : Nat} (hl : s.lock q = none) (hr : (s.t.proc q).state ≠ .RUNNING)
    (c : Nat) : s.cproc c ≠ some q :=
  fun e => hr ((h.cpu c q e).2.free hl).2.2

/-- The lock of a process on a CPU is that CPU's or free. -/
theorem OnCpu.lock {i : Nat} {p : CPc} (h : OnCpu s c i p) : s.lock i = some c ∨ s.lock i = none := by
  cases p with
  | away j =>
    obtain ⟨-, ⟨-, h, -⟩ | ⟨-, h, -⟩ | ⟨-, h, -⟩⟩ := h
    · exact Or.inr h
    · exact Or.inl h
    · exact Or.inl h
  | chose j => exact Or.inl h.2.1
  | back j => exact Or.inl h.2.1
  | _ => exact h.elim

/-- A step of the process on CPU `c`, or of the scheduler that is with it. -/
theorem Inv.own (h : Inv I NCPU s) {i : Nat} (hi : s.cproc c = some i) (x : Proc) (l : Option Nat) (p : CPc)
    (f : Phase) (ctx : Nat → Context) (log : List Ev) (s' : St)
    (he : s' = ⟨s.t.set i x, Function.update s.lock i l, s.cproc, Function.update s.cpc c p,
      Function.update s.phase i f, ctx, s.child, log⟩)
    (hon : OnCpu s' c i p) (hch : ∀ j, s.child j = some i → x.state = .USED)
    (hctx : ∀ j, (s'.t.proc j).state ≠ .UNUSED → lastContext I j log = some (ctx j)) (hlog : LogOk I log) :
      Inv I NCPU s' := by
  subst he
  have other : ∀ {c' i'}, s.cproc c' = some i' → c' ≠ c → i' ≠ i := fun h1 hne e => by
    rw [e] at h1
    exact hne (h.one _ _ _ h1 hi)
  refine ⟨fun c' i' h1 => ⟨(h.cpu c' i' h1).1, ?_⟩, fun c' h1 => ?_, h.one, fun j hj => ?_, fun j hj => ?_,
    fun j q hj => ?_, h.single, hctx, hlog⟩
  · by_cases e : c' = c
    · subst e
      obtain rfl : i' = i := Option.some.inj (h1.symm.trans hi)
      simpa using hon
    · have hne := other h1 e
      simp only [Function.update_of_ne e]
      exact (h.cpu c' i' h1).2.congr (by simp [hne]) (by simp [hne]) (by simp [hne])
  · have e : c' ≠ c := by
      rintro rfl
      simp [hi] at h1
    simp only [Function.update_of_ne e]
    refine (h.idle c' h1).mono fun j h2 => ?_
    have hne : j ≠ i := by
      rintro rfl
      rcases (h.cpu c j hi).2.lock with h3 | h3
      · rw [h2] at h3
        exact e (Option.some.inj h3)
      · simp [h2] at h3
    simpa [hne] using h2
  · by_cases e : j = i
    · subst e
      exact ⟨c, hi⟩
    · exact h.running j (by simpa [e] using hj)
  · by_cases e : j = i
    · subst e
      exact ⟨c, hi⟩
    · exact h.off j (by simpa [e] using hj)
  · by_cases e : q = i
    · subst e
      simpa using hch j hj
    · simpa [e] using h.child j q hj

/-- A scheduler without a process that moves on without a lock. -/
theorem Inv.scan (h : Inv I NCPU s) (hi : s.cproc c = none) (j : Nat) :
    Inv I NCPU { s with cpc := Function.update s.cpc c (.loop j) } := by
  refine ⟨fun c' i' h1 => ⟨(h.cpu c' i' h1).1, ?_⟩, fun c' h1 => ?_, h.one, h.running, h.off, h.child, h.single,
    h.context, h.log⟩
  · have e : c' ≠ c := by
      rintro rfl
      simp [hi] at h1
    simp only [Function.update_of_ne e]
    exact (h.cpu c' i' h1).2.congr rfl rfl rfl
  · by_cases e : c' = c
    · subst e
      simp [Idle]
    · simp only [Function.update_of_ne e]
      exact (h.idle c' h1).mono fun _ h2 => h2

theorem Inv.idle_of_loop (h : Inv I NCPU s) {j : Nat} (hc : s.cpc c = .loop j) : s.cproc c = none := by
  cases e : s.cproc c with
  | none => rfl
  | some i =>
    have h1 := (h.cpu c i e).2
    rw [hc] at h1
    exact h1.elim

/-- A scheduler that is with a process has it as `c->proc`. -/
theorem Inv.proc_of (h : Inv I NCPU s) (hl : ¬ Idle s c (s.cpc c)) : ∃ i, s.cproc c = some i ∧
    OnCpu s c i (s.cpc c) := by
  cases e : s.cproc c with
  | none => exact absurd (h.idle c e) hl
  | some i => exact ⟨i, rfl, (h.cpu c i e).2⟩

theorem Inv.pick (h : Inv I NCPU s) (hc : c < NCPU) {i : Nat} (hp : s.cpc c = .loop i) (hl : s.lock i = none)
    (hr : (s.t.proc i).state = .RUNNABLE) :
    Inv I NCPU { s with
      t := setState .RUNNING i s.t
      lock := Function.update s.lock i (some c)
      cproc := Function.update s.cproc c (some i)
      cpc := Function.update s.cpc c (.chose i) } := by
  have hidle := h.idle_of_loop hp
  -- nobody has `i`, since its lock is free and it is not RUNNING
  have hno := h.off_cpu hl (by simp [hr])
  have hoff : s.phase i = .off := by
    by_contra hne
    obtain ⟨c', h1⟩ := h.off i hne
    exact hno c' h1
  refine ⟨fun c' i' h1 => ?_, fun c' h1 => ?_, fun c1 c2 j h1 h2 => ?_, fun j hj => ?_, fun j hj => ?_,
    fun j q hj => ?_, h.single, fun j hj => ?_, h.log⟩
  · by_cases e : c' = c
    · subst e
      simp only [Function.update_self, Option.some.injEq] at h1
      subst h1
      simp [OnCpu, hc, setState, hoff]
    · simp only [Function.update_of_ne e] at h1 ⊢
      have hne : i' ≠ i := by
        rintro rfl
        exact hno c' h1
      exact ⟨(h.cpu c' i' h1).1, (h.cpu c' i' h1).2.congr (by simp [hne]) (by simp [setState, hne]) rfl⟩
  · have e : c' ≠ c := by
      rintro rfl
      simp at h1
    simp only [Function.update_of_ne e] at h1 ⊢
    refine (h.idle c' h1).mono fun j h2 => ?_
    have hne : j ≠ i := by
      rintro rfl
      simp [hl] at h2
    simpa [hne] using h2
  · by_cases e1 : c1 = c <;> by_cases e2 : c2 = c
    · rw [e1, e2]
    · subst e1
      simp only [Function.update_self, Option.some.injEq, Function.update_of_ne e2] at h1 h2
      rw [← h1] at h2
      exact absurd h2 (hno c2)
    · subst e2
      simp only [Function.update_self, Option.some.injEq, Function.update_of_ne e1] at h1 h2
      rw [← h2] at h1
      exact absurd h1 (hno c1)
    · simp only [Function.update_of_ne e1, Function.update_of_ne e2] at h1 h2
      exact h.one c1 c2 j h1 h2
  · by_cases e : j = i
    · subst e
      exact ⟨c, Function.update_self ..⟩
    · obtain ⟨c', h1⟩ := h.running j (by simpa [setState, e] using hj)
      have hne : c' ≠ c := by
        rintro rfl
        simp [hidle] at h1
      exact ⟨c', by simpa [hne] using h1⟩
  · obtain ⟨c', h1⟩ := h.off j hj
    have hne : c' ≠ c := by
      rintro rfl
      simp [hidle] at h1
    exact ⟨c', by simpa [hne] using h1⟩
  · have hne : q ≠ i := by
      rintro rfl
      have := h.child j q hj
      simp [hr] at this
    simpa [setState, hne] using h.child j q hj
  · refine h.context j fun e => hj ?_
    have hne : j ≠ i := by
      rintro rfl
      simp [hr] at e
    simpa [setState, hne] using e

theorem Inv.clear (h : Inv I NCPU s) {i : Nat} (hp : s.cpc c = .back i) :
    Inv I NCPU { s with cproc := Function.update s.cproc c none, cpc := Function.update s.cpc c (.clear i) } := by
  obtain ⟨j, hj, hon⟩ := h.proc_of (c := c) (by simp [hp, Idle])
  rw [hp] at hon
  obtain ⟨rfl, hl, hr, hoff⟩ := hon
  have back : ∀ {c' j'}, j' ≠ i → s.cproc c' = some j' → Function.update s.cproc c none c' = some j' :=
    fun {c' j'} hne h1 => by
    have e : c' ≠ c := by
      rintro rfl
      rw [hj] at h1
      exact hne (Option.some.inj h1).symm
    rw [Function.update_of_ne e, h1]
  refine ⟨fun c' i' h1 => ?_, fun c' h1 => ?_, fun c1 c2 j h1 h2 => ?_, fun j hjr => ?_, fun j hjo => ?_, h.child,
    h.single, h.context, h.log⟩
  · have e : c' ≠ c := by
      rintro rfl
      simp at h1
    simp only [Function.update_of_ne e] at h1 ⊢
    exact ⟨(h.cpu c' i' h1).1, (h.cpu c' i' h1).2.congr rfl rfl rfl⟩
  · by_cases e : c' = c
    · subst e
      simpa [Idle] using hl
    · simp only [Function.update_of_ne e] at h1 ⊢
      exact (h.idle c' h1).mono fun _ h2 => h2
  · have e1 : c1 ≠ c := by
      rintro rfl
      simp at h1
    have e2 : c2 ≠ c := by
      rintro rfl
      simp at h2
    simp only [Function.update_of_ne e1, Function.update_of_ne e2] at h1 h2
    exact h.one c1 c2 j h1 h2
  · obtain ⟨c', h1⟩ := h.running j hjr
    refine ⟨c', back ?_ h1⟩
    rintro rfl
    exact hr hjr
  · obtain ⟨c', h1⟩ := h.off j hjo
    refine ⟨c', back ?_ h1⟩
    rintro rfl
    exact hjo hoff

theorem Inv.next (h : Inv I NCPU s) {i : Nat} (hp : s.cpc c = .clear i) :
    Inv I NCPU { s with lock := Function.update s.lock i none, cpc := Function.update s.cpc c (.loop (i + 1)) } := by
  have hidle : s.cproc c = none := by
    cases e : s.cproc c with
    | none => rfl
    | some j =>
      have h1 := (h.cpu c j e).2
      rw [hp] at h1
      exact h1.elim
  have hl : s.lock i = some c := by
    have h1 := h.idle c hidle
    rwa [hp] at h1
  refine ⟨fun c' i' h1 => ⟨(h.cpu c' i' h1).1, ?_⟩, fun c' h1 => ?_, h.one, h.running, h.off, h.child, h.single,
    h.context, h.log⟩
  · have e : c' ≠ c := by
      rintro rfl
      simp [hidle] at h1
    simp only [Function.update_of_ne e]
    have hon := (h.cpu c' i' h1).2
    by_cases hii : i' = i
    · subst hii
      -- its lock is CPU c's
      rcases hon.lock with h2 | h2
      · rw [hl] at h2
        exact absurd (Option.some.inj h2).symm e
      · simp [hl] at h2
    · exact hon.congr (by simp [hii]) rfl rfl
  · by_cases e : c' = c
    · subst e
      simp [Idle]
    · simp only [Function.update_of_ne e]
      refine (h.idle c' h1).mono fun j h2 => ?_
      have hne : j ≠ i := by
        rintro rfl
        rw [hl] at h2
        exact e (Option.some.inj h2).symm
      simpa [hne] using h2

/-- A process that executes takes its own lock and leaves RUNNING. -/
theorem Inv.leave (h : Inv I NCPU s) {i : Nat} (hr : s.runs c i) {x : Proc} (hx : x.state ≠ .RUNNING) :
    Inv I NCPU (s.leave c i (s.t.set i x)) := by
  obtain ⟨hi, hp, hf⟩ := hr
  have hon := (h.cpu c i hi).2
  rw [hp] at hon
  have hrun : (s.t.proc i).state = .RUNNING := by
    obtain ⟨-, ⟨-, -, h1⟩ | ⟨h1, -⟩ | ⟨h1, -⟩⟩ := hon
    · exact h1
    · simp [hf] at h1
    · simp [hf] at h1
  have hcpc : Function.update s.cpc c (.away i) = s.cpc := by rw [← hp, Function.update_eq_self]
  refine h.own hi x (some c) (.away i) .sched s.context s.log _ (by simp only [St.leave, hcpc]) ?_ (fun j hj => ?_)
    (fun j hj => ?_) h.log
  · exact ⟨rfl, Or.inr (Or.inr ⟨by simp [St.leave], by simp [St.leave], by simpa [St.leave] using hx⟩)⟩
  · have := h.child j i hj
    simp [hrun] at this
  · by_cases e : j = i
    · subst e
      exact h.context j (by simp [hrun])
    · exact h.context j (by simpa [St.leave, e] using hj)

/-- Changing the context and the log for one slot. -/
theorem lastContext_saved {i : Nat} (r : Context) (l : List Ev) (ctx : Nat → Context) (j : Nat)
    (h : j ≠ i → lastContext I j l = some (ctx j)) :
    lastContext I j (.saved i r :: l) = some (Function.update ctx i r j) := by
  by_cases e : j = i
  · subst e
    simp [lastContext]
  · simpa [lastContext, Ne.symm e, e] using h e

theorem lastContext_made {i : Nat} (l : List Ev) (ctx : Nat → Context) (j : Nat)
    (h : j ≠ i → lastContext I j l = some (ctx j)) :
    lastContext I j (.made i :: l) = some (Function.update ctx i (I.start i) j) := by
  by_cases e : j = i
  · subst e
    simp [lastContext]
  · simpa [lastContext, Ne.symm e, e] using h e

theorem Inv.swtchIn (h : Inv I NCPU s) {i : Nat} (hp : s.cpc c = .chose i) :
    Inv I NCPU { s with
      cpc := Function.update s.cpc c (.away i)
      phase := Function.update s.phase i .resumed
      log := .resumed c i (s.context i) :: s.log } := by
  obtain ⟨j, hj, hon⟩ := h.proc_of (c := c) (by simp [hp, Idle])
  rw [hp] at hon
  obtain ⟨rfl, hl, hr, -⟩ := hon
  have hlock : Function.update s.lock i (some c) = s.lock := by rw [← hl, Function.update_eq_self]
  have ht : s.t.set i (s.t.proc i) = s.t := by simp [Sys.set]
  refine h.own hj (s.t.proc i) (some c) (.away i) .resumed s.context (.resumed c i (s.context i) :: s.log) _
    (by simp only [hlock, ht]) ?_ (fun k hk => h.child k i hk)
    (fun k hk => h.context k hk) ⟨h.context i (by simp [hr]), h.log⟩
  exact ⟨rfl, Or.inr (Or.inl ⟨by simp, hl, hr⟩)⟩

theorem Inv.release (h : Inv I NCPU s) {i j : Nat} {chan : Option Chan} (hi : s.cproc c = some i)
    (hp : s.cpc c = .away j) (hf : s.phase i = .resumed) :
    Inv I NCPU { s with
      t := s.t.set i { s.t.proc i with chan := chan }
      lock := Function.update s.lock i none
      phase := Function.update s.phase i .run } := by
  have hon := (h.cpu c i hi).2
  rw [hp] at hon
  obtain ⟨rfl, ⟨h1, -⟩ | ⟨-, -, hr⟩ | ⟨h1, -⟩⟩ := hon
  · simp [hf] at h1
  · have hcpc : Function.update s.cpc c (.away j) = s.cpc := by rw [← hp, Function.update_eq_self]
    refine h.own hi { s.t.proc j with chan := chan } none (.away j) .run s.context s.log _ (by simp only [hcpc]) ?_
      (fun k hk => h.child k j hk)
      (fun k hk => h.context k ?_) h.log
    · exact ⟨rfl, Or.inl ⟨by simp, by simp, by simpa using hr⟩⟩
    · by_cases e : k = j
      · subst e
        simp [hr]
      · simpa [e] using hk
  · simp [hf] at h1

theorem Inv.swtchOut (h : Inv I NCPU s) {i j : Nat} (r : Context) (hi : s.cproc c = some i) (hp : s.cpc c = .away j)
    (hf : s.phase i = .sched) :
    Inv I NCPU { s with
      cpc := Function.update s.cpc c (.back j)
      phase := Function.update s.phase i .off
      context := Function.update s.context i r
      log := .saved i r :: s.log } := by
  have hon := (h.cpu c i hi).2
  rw [hp] at hon
  obtain ⟨rfl, ⟨h1, -⟩ | ⟨h1, -⟩ | ⟨-, hl, hr⟩⟩ := hon
  · simp [hf] at h1
  · simp [hf] at h1
  · have hlock : Function.update s.lock j (some c) = s.lock := by rw [← hl, Function.update_eq_self]
    have ht : s.t.set j (s.t.proc j) = s.t := by simp [Sys.set]
    refine h.own hi (s.t.proc j) (some c) (.back j) .off (Function.update s.context j r) (.saved j r :: s.log) _
      (by simp only [hlock, ht]) ?_ (fun k hk => h.child k j hk)
      (fun k hk => lastContext_saved r s.log s.context k fun _ => h.context k hk) h.log
    exact ⟨rfl, hl, hr, by simp⟩

/-- A new process, whose maker keeps it. -/
theorem Inv.fork (h : Inv I NCPU s) {i q : Nat} (hl : s.lock q = none) (hu : (s.t.proc q).state = .UNUSED) :
    Inv I NCPU { s with
      t := alloc q s.t
      context := Function.update s.context q (I.start q)
      child := Function.update s.child i (some q)
      log := .made q :: s.log } := by
  have self : ((alloc q s.t).proc q).state = .USED := by simp [alloc, Sys.set]
  have ne : ∀ {j}, j ≠ q → (alloc q s.t).proc j = s.t.proc j := fun e => by simp [alloc, Sys.set, e]
  have hno := h.off_cpu hl (by simp [hu])
  have hchild : ∀ j, s.child j ≠ some q := fun j e => by
    have := h.child j q e
    simp [hu] at this
  refine ⟨fun c' i' h1 => ⟨(h.cpu c' i' h1).1, ?_⟩, h.idle, h.one, fun j hj => ?_, h.off, fun j q' hj => ?_,
    fun j j' q' hj hj' => ?_, fun j hj => ?_, h.log⟩
  · have hne : i' ≠ q := by
      rintro rfl
      exact hno c' h1
    exact (h.cpu c' i' h1).2.congr rfl (by simp [ne hne]) rfl
  · by_cases e : j = q
    · subst e
      simp [self] at hj
    · exact h.running j (by simpa [ne e] using hj)
  · by_cases e : j = i
    · subst e
      obtain rfl : q = q' := by simpa using hj
      exact self
    · have h1 : s.child j = some q' := by simpa [e] using hj
      have hne : q' ≠ q := by
        rintro rfl
        exact hchild j h1
      simpa [ne hne] using h.child j q' h1
  · by_cases e : j = i <;> by_cases e' : j' = i
    · rw [e, e']
    · subst e
      obtain rfl : q = q' := by simpa using hj
      exact absurd (by simpa [e'] using hj') (hchild j')
    · subst e'
      obtain rfl : q = q' := by simpa using hj'
      exact absurd (by simpa [e] using hj) (hchild j)
    · exact h.single j j' q' (by simpa [e] using hj) (by simpa [e'] using hj')
  · refine lastContext_made s.log s.context j fun e => h.context j ?_
    simpa [ne e] using hj

theorem Inv.nextpid (h : Inv I NCPU s) (n : Int) : Inv I NCPU { s with t := { s.t with nextpid := n } } :=
  ⟨fun c i hi => ⟨(h.cpu c i hi).1, (h.cpu c i hi).2.congr rfl rfl rfl⟩, fun c hc => (h.idle c hc).mono fun _ h1 =>
    h1, h.one, h.running, h.off, h.child, h.single, h.context, h.log⟩

theorem Inv.wakeup (h : Inv I NCPU s) {q : Nat} (chan : Option Chan) (hl : s.lock q = none) :
    Inv I NCPU { s with t := wakeAt chan q s.t } := by
  simp only [wakeAt]
  split
  · rename_i hw
    refine h.slot hl (by simp [hw.1]) (fun i hi => ?_) (fun _ => by simp [hw.1])
    have := h.child i q hi
    simp [hw.1] at this
  · exact h

theorem Inv.kill (h : Inv I NCPU s) {q : Nat} (hl : s.lock q = none) : Inv I NCPU { s with t := killAt q s.t } := by
  refine h.slot hl ?_ (fun i hi => ?_) (fun hu => ?_)
  · dsimp only
    split
    · rename_i hq
      simp [hq]
    · exact Iff.rfl
  · simp [h.child i q hi]
  · rintro e
    simp [e] at hu

/-- The maker of a process lets it run. -/
theorem Inv.forkRun (h : Inv I NCPU s) {i q : Nat} (hi : s.child i = some q) (hl : s.lock q = none) :
    Inv I NCPU { s with t := setState .RUNNABLE q s.t, child := Function.update s.child i none } := by
  have hu := h.child i q hi
  have keep : ∀ {j q'}, Function.update s.child i none j = some q' → j ≠ i ∧ s.child j = some q' := fun {j q'} e => by
    have hne : j ≠ i := by
      rintro rfl
      simp at e
    exact ⟨hne, by simpa [hne] using e⟩
  have h1 : Inv I NCPU { s with child := Function.update s.child i none } :=
    ⟨fun c i hc => ⟨(h.cpu c i hc).1, (h.cpu c i hc).2.congr rfl rfl rfl⟩, fun c hc => (h.idle c hc).mono fun _ h1 =>
      h1, h.one, h.running, h.off,
      fun j q' hj => h.child j q' (keep hj).2, fun j j' q' hj hj' => h.single j j' q' (keep hj).2 (keep hj').2,
        h.context, h.log⟩
  refine h1.slot hl (by simp [hu]) (fun j hj => ?_) (fun _ => by simp [hu])
  -- no other process makes it
  exact absurd (h.single j i q (keep hj).2 hi) (keep hj).1

/-- What allocproc or wait gives back: nobody makes a process there and none is on a CPU. -/
theorem Inv.freeproc (h : Inv I NCPU s) {q : Nat} (hl : s.lock q = none) (hr : (s.t.proc q).state ≠ .RUNNING)
    (hu : (s.t.proc q).state ≠ .USED) :
    Inv I NCPU { s with t := freeproc q s.t } := by
  refine h.slot hl ?_ (fun i hi => absurd (h.child i q hi) hu) (fun e => absurd rfl e)
  simp [hr, Proc.unused]

theorem freeproc_alloc (q : Nat) (t : Sys) :
    freeproc q (alloc q t) = { freeproc q t with nextpid := Lib.i32 (t.nextpid + 1) } := by
  simp [freeproc, alloc, Sys.set]

theorem Inv.step (h : Inv I NCPU s) (hc : c < NCPU) (hs : Step I NPROC c s s') : Inv I NCPU s' := by
  cases hs with
  | skip i hp _ _ _ => exact h.scan (h.idle_of_loop hp) (i + 1)
  | wrap hp => exact h.scan (h.idle_of_loop hp) 0
  | pick i hp _ hl hr => exact h.pick hc hp hl hr
  | swtchIn i hp => exact h.swtchIn hp
  | release i j chan hi hp hf _ => exact h.release hi hp hf
  | yield i hr _ => exact h.leave hr (by simp)
  | sleep i chan hr _ => exact h.leave hr (by simp)
  | exit i status hr _ => exact h.leave hr (by simp)
  | swtchOut i j r hi hp hf => exact h.swtchOut r hi hp hf
  | clear i hp => exact h.clear hp
  | next i hp => exact h.next hp
  | wakeup q chan hl => exact h.wakeup chan hl
  | kill i q _ hl => exact h.kill hl
  | fork i q _ hi _ hl hu => exact h.fork hl hu
  | forkFail i q _ hl hu =>
    rw [freeproc_alloc]
    exact (h.freeproc hl (by simp [hu]) (by simp [hu])).nextpid _
  | forkRun i q _ hi hl => exact h.forkRun hi hl
  | wait i q _ hl hz => exact h.freeproc hl (by simp [hz]) (by simp [hz])

theorem Inv.init : Inv I NCPU (.init I) := by
  refine ⟨fun c i h => ?_, fun c _ => trivial, fun c c' i h => ?_, fun i h => ?_, fun i h => absurd rfl h,
    fun i q h => ?_, fun i i' q h => ?_, fun i h => ?_, trivial⟩
  · cases h
  · cases h
  · by_cases e : i = initproc <;> simp [St.init, Sys.init, e, Proc.unused] at h
  · cases h
  · cases h
  · by_cases e : i = initproc
    · subst e
      simp [St.init, lastContext]
    · simp [St.init, Sys.init, e, Proc.unused] at h

theorem Reach.inv (h : Reach I NPROC NCPU s) : Inv I NCPU s := by
  induction h with
  | init => exact .init
  | step c _ hc hs ih => exact ih.step hc hs

/-- On any number of CPUs, whatever the order: a process is on one CPU at most, exactly one
    if it is RUNNING; a scheduler resumes what the last swtch away from the process saved;
    and what wait finds to free is on no CPU. -/
theorem one_cpu (h : Reach I NPROC NCPU s) :
    (∀ i c c', s.cproc c = some i → s.cproc c' = some i → c = c') ∧
      (∀ i, (s.t.proc i).state = .RUNNING → ∃! c, c < NCPU ∧ s.cproc c = some i) ∧
      LogOk I s.log ∧
      ∀ q, s.lock q = none → (s.t.proc q).state = .ZOMBIE → ∀ c, s.cproc c ≠ some q := by
  have hI := h.inv
  refine ⟨fun i c c' => hI.one c c' i, fun i hr => ?_, hI.log, fun q hl hz => hI.off_cpu hl (by simp [hz])⟩
  obtain ⟨c, hc⟩ := hI.running i hr
  exact ⟨c, ⟨(hI.cpu c i hc).1, hc⟩, fun c' h' => hI.one c' c i h'.2 hc⟩

end

/-- With the kernel stacks below the trampoline. -/
def exampleImage : Image := ⟨0x80002000, fun i => 0x3fffffe000 - 8192 * i⟩

/-- The second CPU runs the first process. -/
theorem one_cpu_first : ∃ s, Reach exampleImage 64 2 s ∧ s.runs 1 initproc ∧ (s.t.proc initproc).state = .RUNNING ∧
    ∃! c, c < 2 ∧ s.cproc c = some initproc := by
  have h1 : Reach exampleImage 64 2 _ := .step 1 .init (by decide) (.pick _ 0 rfl (by decide) rfl rfl)
  have h2 : Reach exampleImage 64 2 _ := .step 1 h1 (by decide) (.swtchIn _ 0 rfl)
  have h3 : Reach exampleImage 64 2 _ := .step 1 h2 (by decide) (.release _ 0 0 none rfl rfl rfl (Or.inl rfl))
  exact ⟨_, h3, ⟨rfl, rfl, rfl⟩, rfl, (one_cpu h3).2.1 _ rfl⟩

end Xv6Labs.Procs.Sched
