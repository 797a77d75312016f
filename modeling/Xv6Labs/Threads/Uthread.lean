/-
  Xv6Labs.Threads.Uthread — `uthread.c` and `uthread_switch.S`: user threads.

  The threads are the four `struct thread` of all_thread, in memory: the stack, the state at
  offset 8192, the saved registers from offset 8200, 8312 bytes in all. `thread_switch` is
  its list of instructions. What the compiler does with the registers between a call of
  thread_yield and the call of thread_switch is arbitrary, so the calls take the registers
  there as an argument.

  A run starts with thread_init. The running thread computes, changing registers and memory
  but no thread's state or saved registers; calls thread_create where a slot is free; or
  gives up the processor by thread_yield or by exiting, and main also by thread_schedule.
  `origin` and `live` are what is expected of each slot: nothing reads them.

  - `thread_switch_spec`: the old context is saved, the new one restored.
  - `thread_schedule_some`: when there is somebody to go on.
  - `threads_keep_contexts`: over every run.
-/

import Xv6Labs.Lib.Bytes
import Mathlib.Data.List.Nodup

namespace Xv6Labs.Uthread

open Lib

/-! ## thread_switch -/

abbrev Word := BitVec 64

inductive Reg where
  | ra | sp | s0 | s1 | s2 | s3 | s4 | s5 | s6 | s7 | s8 | s9 | s10 | s11 | a0 | a1
  deriving DecidableEq

structure Cpu where
  regs : Reg → Word
  pc : Word
  mem : Mem

inductive Instr where
  | sd (r : Reg) (off : Nat) (b : Reg)
  | ld (r : Reg) (off : Nat) (b : Reg)
  | ret

def Instr.exec (c : Cpu) : Instr → Cpu
  | .sd r off b => { c with mem := c.mem.storeLE ((c.regs b).toNat + off) 8 (c.regs r).toNat }
  | .ld r off b =>
      { c with regs := Function.update c.regs r (BitVec.ofNat 64 (c.mem.loadLE ((c.regs b).toNat + off) 8)) }
  | .ret => { c with pc := c.regs .ra }

def exec (l : List Instr) (c : Cpu) : Cpu := l.foldl Instr.exec c

open Reg Instr in
def thread_switch : List Instr :=
  [ sd ra 0 a0, sd sp 8 a0, sd s0 16 a0, sd s1 24 a0, sd s2 32 a0, sd s3 40 a0, sd s4 48 a0,
    sd s5 56 a0, sd s6 64 a0, sd s7 72 a0, sd s8 80 a0, sd s9 88 a0, sd s10 96 a0, sd s11 104 a0,
    ld ra 0 a1, ld sp 8 a1, ld s0 16 a1, ld s1 24 a1, ld s2 32 a1, ld s3 40 a1, ld s4 48 a1,
    ld s5 56 a1, ld s6 64 a1, ld s7 72 a1, ld s8 80 a1, ld s9 88 a1, ld s10 96 a1, ld s11 104 a1,
    ret ]

open Reg in
/-- `struct context`: the fields and their offsets. -/
def context : List (Reg × Nat) :=
  [(ra, 0), (sp, 8), (s0, 16), (s1, 24), (s2, 32), (s3, 40), (s4, 48), (s5, 56), (s6, 64), (s7, 72), (s8, 80),
    (s9, 88), (s10, 96),
    (s11, 104)]

/-- The words at `a` are the saved registers `r`. -/
def Saved (m : Mem) (a : Nat) (r : Reg → Word) : Prop := ∀ p ∈ context, m.loadLE (a + p.2) 8 = (r p.1).toNat

theorem thread_switch_eq : thread_switch =
    (context.map fun p => .sd p.1 p.2 .a0) ++ ((context.map fun p => .ld p.1 p.2 .a1) ++ [.ret]) := rfl

/-- Saving registers at offsets that do not overlap. -/
theorem exec_saves (b : Reg) (l : List (Reg × Nat)) (hl : l.Pairwise fun p q => p.2 + 8 ≤ q.2) (c : Cpu) :
    let c' := exec (l.map fun p => .sd p.1 p.2 b) c
    c'.regs = c.regs ∧ c'.pc = c.pc ∧ (∀ p ∈ l, c'.mem.loadLE ((c.regs b).toNat + p.2) 8 = (c.regs p.1).toNat) ∧
      ∀ x, (∀ p ∈ l, x < (c.regs b).toNat + p.2 ∨ (c.regs b).toNat + p.2 + 8 ≤ x) → c'.mem x = c.mem x := by
  induction l generalizing c with
  | nil => simp [exec]
  | cons p l ih =>
    obtain ⟨hp, hl⟩ := List.pairwise_cons.mp hl
    obtain ⟨h1, h2, h3, h4⟩ := ih hl (Instr.exec c (.sd p.1 p.2 b))
    refine ⟨h1, h2, fun q hq => ?_, fun x hx => ?_⟩
    · rcases List.mem_cons.mp hq with rfl | hq
      · -- the later stores are further up
        have hm : Mem.Agree (Instr.exec c (.sd q.1 q.2 b)).mem
          (exec (l.map fun p => .sd p.1 p.2 b) (Instr.exec c (.sd q.1 q.2 b))).mem
            ((c.regs b).toNat + q.2) 8 := fun x h5 h6 => h4 x fun p' hp' => by
          have := hp p' hp'
          simp only [Instr.exec]
          omega
        have h7 : (exec (l.map fun p => .sd p.1 p.2 b) (Instr.exec c (.sd q.1 q.2 b))).mem.loadLE
          ((c.regs b).toNat + q.2) 8 = (c.regs q.1).toNat := by
          rw [Mem.loadLE_agree hm]
          exact Mem.loadLE_storeLE_of_lt _ _ _ _ (BitVec.isLt _)
        exact h7
      · exact h3 q hq
    · have h5 : (exec (l.map fun p => .sd p.1 p.2 b) (Instr.exec c (.sd p.1 p.2 b))).mem x =
        (Instr.exec c (.sd p.1 p.2 b)).mem x :=
        h4 x fun q hq => hx q (by simp [hq])
      exact h5.trans (Mem.storeLE_ne (hx p (by simp)))

/-- Restoring registers, none of them the base and none twice. -/
theorem exec_loads (b : Reg) (l : List (Reg × Nat)) (hb : ∀ p ∈ l, p.1 ≠ b) (hl : l.Pairwise fun p q => p.1 ≠ q.1)
    (c : Cpu) :
    let c' := exec (l.map fun p => .ld p.1 p.2 b) c
    c'.mem = c.mem ∧ (∀ p ∈ l, c'.regs p.1 = BitVec.ofNat 64 (c.mem.loadLE ((c.regs b).toNat + p.2) 8)) ∧
      ∀ r, (∀ p ∈ l, p.1 ≠ r) → c'.regs r = c.regs r := by
  induction l generalizing c with
  | nil => simp [exec]
  | cons p l ih =>
    obtain ⟨hp, hl⟩ := List.pairwise_cons.mp hl
    have hbase : (Instr.exec c (.ld p.1 p.2 b)).regs b = c.regs b := by
      simp [Instr.exec, Function.update_of_ne (Ne.symm (hb p (by simp)))]
    obtain ⟨h1, h2, h3⟩ := ih (fun q hq => hb q (by simp [hq])) hl (Instr.exec c (.ld p.1 p.2 b))
    rw [hbase] at h2
    refine ⟨h1, fun q hq => ?_, fun r hr => ?_⟩
    · rcases List.mem_cons.mp hq with rfl | hq
      · have h4 := h3 q.1 fun q' hq' => (hp q' hq').symm
        exact h4.trans (by simp [Instr.exec])
      · exact h2 q hq
    · have h4 := h3 r fun q hq => hr q (by simp [hq])
      exact h4.trans (by simp [Instr.exec, Function.update_of_ne (Ne.symm (hr p (by simp)))])

/-- Between contexts that do not overlap: the registers are saved at a0 and nothing else is
    written, and they are what had been saved at a1. -/
theorem thread_switch_spec (c : Cpu) (hd : (c.regs .a0).toNat + 112 ≤ (c.regs .a1).toNat ∨
    (c.regs .a1).toNat + 112 ≤ (c.regs .a0).toNat) :
    let c' := exec thread_switch c
    Saved c'.mem (c.regs .a0).toNat c.regs ∧
      (∀ x, x < (c.regs .a0).toNat ∨ (c.regs .a0).toNat + 112 ≤ x → c'.mem x = c.mem x) ∧
      Saved c.mem (c.regs .a1).toNat c'.regs ∧ c'.pc = c'.regs .ra := by
  obtain ⟨hr, -, hs, hm⟩ := exec_saves .a0 context (by decide) c
  have hc : exec thread_switch c = Instr.exec
    (exec (context.map fun p => .ld p.1 p.2 .a1) (exec (context.map fun p => .sd p.1 p.2 .a0) c)) .ret := by
    simp only [thread_switch_eq, exec, List.foldl_append, List.foldl_cons, List.foldl_nil]
  obtain ⟨hm', hl, -⟩ := exec_loads .a1 context (by decide) (by decide)
    (exec (context.map fun p => .sd p.1 p.2 .a0) c)
  rw [hr] at hl
  have hlt : ∀ p ∈ context, p.2 + 8 ≤ 112 := by decide
  have hout : ∀ x, x < (c.regs .a0).toNat ∨ (c.regs .a0).toNat + 112 ≤ x →
    (exec (context.map fun p => .sd p.1 p.2 .a0) c).mem x = c.mem x :=
    fun x hx => hm x fun p hp => by
      have := hlt p hp
      omega
  simp only [hc, Instr.exec]
  refine ⟨fun p hp => ?_, fun x hx => ?_, fun p hp => ?_, trivial⟩
  · rw [hm']
    exact hs p hp
  · rw [hm']
    exact hout x hx
  · have hag : Mem.Agree c.mem (exec (context.map fun p => .sd p.1 p.2 .a0) c).mem ((c.regs .a1).toNat + p.2) 8 :=
      fun x h1 h2 =>
      hout x (by have := hlt p hp; omega)
    rw [hl p hp, Mem.loadLE_agree hag, BitVec.toNat_ofNat, Nat.mod_eq_of_lt]
    exact Mem.loadLE_lt c.mem _ 8

/-! ## uthread.c -/

abbrev FREE : Nat := 0
abbrev RUNNING : Nat := 1
abbrev RUNNABLE : Nat := 2
abbrev STACK_SIZE : Nat := 8192
abbrev MAX_THREAD : Nat := 4

/-- Where the linker put all_thread. -/
structure Image where
  all_thread : Nat
  fits : all_thread + MAX_THREAD * 8312 < 2 ^ 64

structure User where
  cpu : Cpu
  /-- the index of current_thread -/
  cur : Nat

section

variable (I : Image)

/-- `&all_thread[i]` -/
def thread (i : Nat) : Nat := I.all_thread + i * 8312

def stack (i : Nat) : Nat := thread I i

def stateAt (i : Nat) : Nat := thread I i + 8192

def ctx (i : Nat) : Nat := thread I i + 8200

def state (m : Mem) (i : Nat) : Nat := m.loadLE (stateAt I i) 4

def setState (i v : Nat) (m : Mem) : Mem := m.storeLE (stateAt I i) 4 v

def thread_init (c : Cpu) : User := ⟨{ c with mem := setState I 0 RUNNING c.mem }, 0⟩

/-- The search of thread_schedule, with `n` rounds to go. -/
def search (m : Mem) : Nat → Nat → Option Nat
  | 0, _ => none
  | n + 1, t =>
    let t := if t ≥ MAX_THREAD then 0 else t
    if state I m t = RUNNABLE then some t else search m n (t + 1)

/-- `none`: no runnable threads, exit(-1). -/
def thread_schedule (r : Reg → Word) (u : User) : Option User :=
  match search I u.cpu.mem MAX_THREAD (u.cur + 1) with
  | none => none
  | some next =>
    if u.cur ≠ next then
      some ⟨exec thread_switch
        ⟨Function.update (Function.update r .a0 (BitVec.ofNat 64 (ctx I u.cur))) .a1 (BitVec.ofNat 64 (ctx I next)),
          u.cpu.pc, setState I next RUNNING u.cpu.mem⟩, next⟩
    else some ⟨{ u.cpu with regs := r }, u.cur⟩

/-- The search of thread_create. -/
def freeThread (m : Mem) : Nat → Nat → Option Nat
  | 0, _ => none
  | n + 1, t => if state I m t = FREE then some t else freeThread m n (t + 1)

/-- `none`: the slot past the last one is written. -/
def thread_create (func : Word) (u : User) : Option (Nat × User) :=
  match freeThread I u.cpu.mem MAX_THREAD 0 with
  | none => none
  | some t => some (t, { u with cpu := { u.cpu with
      mem := ((setState I t RUNNABLE u.cpu.mem).storeLE (ctx I t) 8 func.toNat).storeLE (ctx I t + 8) 8
        (stack I t + STACK_SIZE) } })

def thread_yield (r : Reg → Word) (u : User) : Option User :=
  thread_schedule I r { u with cpu := { u.cpu with mem := setState I u.cur RUNNABLE u.cpu.mem } }

/-- `current_thread->state = FREE; thread_schedule();` -/
def thread_exit (r : Reg → Word) (u : User) : Option User :=
  thread_schedule I r { u with cpu := { u.cpu with mem := setState I u.cur FREE u.cpu.mem } }

/-! ## Runs -/

/-- How a slot's thread got its saved registers. -/
inductive Origin where
  | none
  | created (func : Word)
  | switched (r : Reg → Word)

structure St where
  u : User
  origin : Nat → Origin
  /-- made by thread_create and not exited -/
  live : Nat → Bool

/-- No thread's state or saved registers differ. -/
def Spares (m m' : Mem) : Prop := ∀ i < MAX_THREAD, Mem.Agree m m' (stateAt I i) 4 ∧ Mem.Agree m m' (ctx I i) 112

/-- The running thread calls thread_schedule, which searches with memory `m`. -/
inductive Gives : St → Mem → St → Prop where
  | yield (s : St) (r : Reg → Word) (u' : User) : thread_yield I r s.u = some u' →
      Gives s (setState I s.u.cur RUNNABLE s.u.cpu.mem) ⟨u', Function.update s.origin s.u.cur (.switched r), s.live⟩
  | exit (s : St) (r : Reg → Word) (u' : User) : thread_exit I r s.u = some u' →
      Gives s (setState I s.u.cur FREE s.u.cpu.mem) ⟨u', Function.update s.origin s.u.cur .none,
        Function.update s.live s.u.cur false⟩
  /-- main, at its end -/
  | schedule (s : St) (r : Reg → Word) (u' : User) : s.live s.u.cur = false → thread_schedule I r s.u = some u' →
      Gives s s.u.cpu.mem ⟨u', Function.update s.origin s.u.cur (.switched r), s.live⟩

inductive Step : St → St → Prop where
  | work (s : St) (c : Cpu) : Spares I s.u.cpu.mem c.mem → Step s { s with u := { s.u with cpu := c } }
  | create (s : St) (func : Word) (t : Nat) (u' : User) : thread_create I func s.u = some (t, u') →
      Step s ⟨u', Function.update s.origin t (.created func), Function.update s.live t true⟩
  | give (s : St) (m : Mem) (s' : St) : Gives I s m s' → Step s s'

inductive Reach : St → Prop where
  | init (c : Cpu) : (∀ i < MAX_THREAD, state I c.mem i = FREE) →
      Reach ⟨thread_init I c, fun _ => .none, fun _ => false⟩
  | step {s s' : St} : Reach s → Step I s s' → Reach s'

/-- `n` is the first runnable thread after `cur`, going round. -/
def Chosen (st : Nat → Nat) (cur n : Nat) : Prop :=
  ∃ d, 1 ≤ d ∧ d ≤ MAX_THREAD ∧ n = (cur + d) % MAX_THREAD ∧ st n = RUNNABLE ∧ ∀ e, 1 ≤ e → e < d →
    st ((cur + e) % MAX_THREAD) ≠ RUNNABLE

/-- What a thread that runs again finds in the processor. -/
def Resumes (i : Nat) (c : Cpu) : Origin → Prop
  | .none => False
  | .created func => c.pc = func ∧ (c.regs .sp).toNat = stack I i + STACK_SIZE
  | .switched r => c.pc = r .ra ∧ ∀ p ∈ context, c.regs p.1 = r p.1

end

/-! ## The search -/

section

variable {I : Image} {m m' : Mem} {u u' : User} {s s' : St}

theorem search_spec {cur n : Nat} : ∀ rounds k t, 1 ≤ k → rounds + k = MAX_THREAD + 1 →
    (if t ≥ MAX_THREAD then 0 else t) = (cur + k) % MAX_THREAD →
    (∀ e, 1 ≤ e → e < k → state I m ((cur + e) % MAX_THREAD) ≠ RUNNABLE) → search I m rounds t = some n →
    Chosen (state I m) cur n := by
  intro rounds
  induction rounds with
  | zero => intro k t _ _ _ _ h; cases h
  | succ rounds ih =>
    intro k t hk hr ht hno h
    simp only [search, ht] at h
    split at h
    · rename_i hrun
      obtain rfl := Option.some.inj h
      exact ⟨k, hk, by omega, rfl, hrun, hno⟩
    · rename_i hrun
      refine ih (k + 1) ((cur + k) % MAX_THREAD + 1) (by omega) (by omega) ?_ (fun e h1 h2 => ?_) h
      · simp only [MAX_THREAD]
        split <;> omega
      · rcases Nat.lt_succ_iff_lt_or_eq.mp h2 with h2 | rfl
        · exact hno e h1 h2
        · exact hrun

/-- A search that finds nothing has seen a slot a round. -/
theorem search_none {cur : Nat} : ∀ rounds k t, (if t ≥ MAX_THREAD then 0 else t) = (cur + k) % MAX_THREAD →
    search I m rounds t = none →
    ∀ e, k ≤ e → e < k + rounds → state I m ((cur + e) % MAX_THREAD) ≠ RUNNABLE := by
  intro rounds
  induction rounds with
  | zero => exact fun k t _ _ e h1 h2 => absurd h2 (by omega)
  | succ rounds ih =>
    intro k t ht h e h1 h2
    simp only [search, ht] at h
    split at h
    · cases h
    · rename_i hrun
      rcases Nat.lt_or_eq_of_le h1 with h1 | rfl
      · refine ih (k + 1) ((cur + k) % MAX_THREAD + 1) ?_ h e h1 (by omega)
        simp only [MAX_THREAD]
        split <;> omega
      · exact hrun

theorem freeThread_spec {t : Nat} : ∀ n i, n + i = MAX_THREAD → freeThread I m n i = some t → t < MAX_THREAD ∧
    state I m t = FREE := by
  intro n
  induction n with
  | zero => intro i _ h; cases h
  | succ n ih =>
    intro i hi h
    simp only [freeThread] at h
    split at h
    · rename_i hf
      obtain rfl := Option.some.inj h
      exact ⟨by omega, hf⟩
    · exact ih (i + 1) (by omega) h

/-! ## Memory -/

theorem state_setState (i v : Nat) (m : Mem) (hv : v < 256 ^ 4) (j : Nat) :
    state I (setState I i v m) j = if j = i then v else state I m j := by
  split
  · rename_i e
    subst e
    exact Mem.loadLE_storeLE_of_lt _ _ _ _ hv
  · exact Mem.loadLE_agree (Mem.agree_storeLE m (by simp only [stateAt, thread]; omega))

theorem ctx_setState (i v : Nat) (m : Mem) (j : Nat) : Mem.Agree m (setState I i v m) (ctx I j) 112 :=
  Mem.agree_storeLE m (by simp only [stateAt, ctx, thread]; omega)

theorem Saved.agree {a : Nat} {r : Reg → Word} (h : Saved m a r) (hm : Mem.Agree m m' a 112) : Saved m' a r :=
  fun p hp => by
  have hlt : ∀ p ∈ context, p.2 + 8 ≤ 112 := by decide
  rw [Mem.loadLE_agree (hm.mono (Nat.le_add_right _ _) (by have := hlt p hp; omega))]
  exact h p hp

theorem ctx_toNat (i : Nat) (hi : i < MAX_THREAD) : (BitVec.ofNat 64 (ctx I i)).toNat = ctx I i := by
  have := I.fits
  rw [BitVec.toNat_ofNat, Nat.mod_eq_of_lt]
  simp only [ctx, thread, MAX_THREAD] at *
  omega

/-- thread_schedule keeps on with the first runnable thread: itself, or another one after
    saving the registers and taking that one's. -/
theorem thread_schedule_spec {r : Reg → Word} (hc : u.cur < MAX_THREAD) (h : thread_schedule I r u = some u') :
    u'.cur < MAX_THREAD ∧ Chosen (state I u.cpu.mem) u.cur u'.cur ∧
      (u'.cur = u.cur ∧ u'.cpu.mem = u.cpu.mem ∨
        u'.cur ≠ u.cur ∧ (∀ i, state I u'.cpu.mem i = if i = u'.cur then RUNNING else state I u.cpu.mem i) ∧
          (∀ i, i ≠ u.cur → Mem.Agree u.cpu.mem u'.cpu.mem (ctx I i) 112) ∧ Saved u'.cpu.mem (ctx I u.cur) r ∧
          Saved u.cpu.mem (ctx I u'.cur) u'.cpu.regs ∧ u'.cpu.pc = u'.cpu.regs .ra) := by
  simp only [thread_schedule] at h
  split at h
  · cases h
  · rename_i next hs
    have hch : Chosen (state I u.cpu.mem) u.cur next := by
      refine search_spec MAX_THREAD 1 (u.cur + 1) (Nat.le_refl _) rfl ?_ (fun e h1 h2 => by omega) hs
      simp only [MAX_THREAD] at hc ⊢
      split <;> omega
    have hn : next < MAX_THREAD := by
      obtain ⟨d, -, -, rfl, -⟩ := hch
      exact Nat.mod_lt _ (by decide)
    split at h
    · rename_i hne
      obtain rfl := Option.some.inj h
      refine ⟨hn, hch, Or.inr ⟨Ne.symm hne, ?_⟩⟩
      have hsw := thread_switch_spec
        ⟨Function.update (Function.update r .a0 (BitVec.ofNat 64 (ctx I u.cur))) .a1 (BitVec.ofNat 64 (ctx I next)),
          u.cpu.pc, setState I next RUNNING u.cpu.mem⟩
      have e0 : Function.update (Function.update r .a0 (BitVec.ofNat 64 (ctx I u.cur))) .a1
        (BitVec.ofNat 64 (ctx I next)) Reg.a0 =
          BitVec.ofNat 64 (ctx I u.cur) := by simp
      have e1 : Function.update (Function.update r .a0 (BitVec.ofNat 64 (ctx I u.cur))) .a1
        (BitVec.ofNat 64 (ctx I next)) Reg.a1 =
          BitVec.ofNat 64 (ctx I next) := by simp
      simp only [e0, e1, ctx_toNat _ hc, ctx_toNat _ hn] at hsw
      obtain ⟨h1, h2, h3, h4⟩ := hsw (by simp only [ctx, thread]; omega)
      refine ⟨fun i => ?_, fun i hi => ?_, fun p hp => ?_, h3.agree fun x hx hy => ?_, h4⟩
      · rw [← state_setState next RUNNING u.cpu.mem (by decide)]
        exact Mem.loadLE_agree fun x hx hy => h2 x (by simp only [ctx, stateAt, thread] at *; omega)
      · refine (ctx_setState next RUNNING u.cpu.mem i).trans fun x hx hy => h2 x ?_
        simp only [ctx, thread] at *
        omega
      · have hr : ∀ p ∈ context, p.1 ≠ Reg.a0 ∧ p.1 ≠ Reg.a1 := by decide
        rw [h1 p hp]
        simp [hr p hp]
      · exact (ctx_setState next RUNNING u.cpu.mem next x hx hy).symm
    · rename_i hne
      obtain rfl := Option.some.inj h
      have e : u.cur = next := by simpa using hne
      subst e
      exact ⟨hc, hch, Or.inl ⟨rfl, rfl⟩⟩

/-- It keeps on with some thread exactly if one is runnable. -/
theorem thread_schedule_some {r : Reg → Word} (hc : u.cur < MAX_THREAD) :
    (∃ u', thread_schedule I r u = some u') ↔ ∃ i < MAX_THREAD, state I u.cpu.mem i = RUNNABLE := by
  constructor
  · intro h
    obtain ⟨u', e⟩ := h
    obtain ⟨hlt, hchosen, -⟩ := thread_schedule_spec hc e
    obtain ⟨-, -, -, -, hrun, -⟩ := hchosen
    exact ⟨u'.cur, hlt, hrun⟩
  · intro h
    obtain ⟨i, hi, hrun⟩ := h
    unfold thread_schedule
    cases hs : search I u.cpu.mem MAX_THREAD (u.cur + 1) with
    | none =>
      -- the slot `i` was seen on the way round
      have hstart : (if u.cur + 1 ≥ MAX_THREAD then 0 else u.cur + 1) = (u.cur + 1) % MAX_THREAD := by
        simp only [MAX_THREAD] at hc ⊢
        split <;> omega
      have hround : (u.cur + (1 + (i + 2 * MAX_THREAD - u.cur - 1) % MAX_THREAD)) % MAX_THREAD = i := by
        simp only [MAX_THREAD] at hc hi ⊢
        omega
      have hseen := search_none MAX_THREAD 1 (u.cur + 1) hstart hs (1 + (i + 2 * MAX_THREAD - u.cur - 1) % MAX_THREAD)
        (Nat.le_add_right _ _)
        (by have := Nat.mod_lt (i + 2 * MAX_THREAD - u.cur - 1) (show 0 < MAX_THREAD by decide); omega)
      rw [hround] at hseen
      exact absurd hrun hseen
    | some next =>
      dsimp only
      split <;> exact ⟨_, rfl⟩

theorem thread_yield_some (r : Reg → Word) (hc : u.cur < MAX_THREAD) : ∃ u', thread_yield I r u = some u' := by
  have hself : state I (setState I u.cur RUNNABLE u.cpu.mem) u.cur = RUNNABLE := by
    rw [state_setState _ _ _ (by decide), if_pos rfl]
  unfold thread_yield
  rw [thread_schedule_some (by exact hc)]
  exact ⟨u.cur, hc, hself⟩

theorem thread_exit_some (r : Reg → Word) (hc : u.cur < MAX_THREAD) :
    (∃ u', thread_exit I r u = some u') ↔ ∃ i < MAX_THREAD, i ≠ u.cur ∧ state I u.cpu.mem i = RUNNABLE := by
  have hst : ∀ i, state I (setState I u.cur FREE u.cpu.mem) i = if i = u.cur then FREE else state I u.cpu.mem i :=
    state_setState _ _ _ (by decide)
  unfold thread_exit
  rw [thread_schedule_some (by exact hc)]
  dsimp only
  refine ⟨fun h => ?_, fun h => ?_⟩
  · obtain ⟨i, hi, hrun⟩ := h
    rw [hst] at hrun
    split at hrun
    · cases hrun
    · exact ⟨i, hi, ‹_›, hrun⟩
  · obtain ⟨i, hi, hne, hrun⟩ := h
    exact ⟨i, hi, (hst i).trans ((if_neg hne).trans hrun)⟩

/-! ## The invariant -/

/-- The saved registers are what the slot's thread is to find. -/
def Origin.Ok (I : Image) (m : Mem) (i : Nat) : Origin → Prop
  | .none => False
  | .created func => m.loadLE (ctx I i) 8 = func.toNat ∧ m.loadLE (ctx I i + 8) 8 = stack I i + STACK_SIZE
  | .switched r => Saved m (ctx I i) r

structure Inv (I : Image) (s : St) : Prop where
  cur : s.u.cur < MAX_THREAD
  busy : state I s.u.cpu.mem s.u.cur ≠ FREE
  live : ∀ i < MAX_THREAD, s.live i = true → i ≠ s.u.cur → state I s.u.cpu.mem i = RUNNABLE
  origin : ∀ i < MAX_THREAD, i ≠ s.u.cur → state I s.u.cpu.mem i = RUNNABLE → (s.origin i).Ok I s.u.cpu.mem i

theorem Origin.Ok.agree {i : Nat} {o : Origin} (h : o.Ok I m i) (hm : Mem.Agree m m' (ctx I i) 112) :
    o.Ok I m' i := by
  cases o with
  | none => exact h
  | created func =>
    have h0 : Mem.Agree m m' (ctx I i) 8 := hm.mono (Nat.le_refl _) (by omega)
    have h8 : Mem.Agree m m' (ctx I i + 8) 8 := hm.mono (by omega) (by omega)
    exact ⟨(Mem.loadLE_agree h0).trans h.1, (Mem.loadLE_agree h8).trans h.2⟩
  | switched r => exact Saved.agree h hm

/-- A thread that finds its registers as saved. -/
theorem Origin.Ok.resumes {i : Nat} {o : Origin} {c : Cpu} (h : o.Ok I m i) (hs : Saved m (ctx I i) c.regs)
    (hp : c.pc = c.regs .ra) :
    Resumes I i c o := by
  cases o with
  | none => exact h
  | created func =>
    have h0 : (c.regs .ra).toNat = func.toNat := (hs (.ra, 0) (by decide)).symm.trans h.1
    have h8 : (c.regs .sp).toNat = stack I i + STACK_SIZE := (hs (.sp, 8) (by decide)).symm.trans h.2
    exact ⟨hp.trans (BitVec.eq_of_toNat_eq h0), h8⟩
  | switched r =>
    have hr : ∀ p ∈ context, c.regs p.1 = r p.1 := fun p hm => BitVec.eq_of_toNat_eq ((hs p hm).symm.trans (h p hm))
    exact ⟨hp.trans (hr (.ra, 0) (by decide)), hr⟩

theorem Inv.init {c : Cpu} (hz : ∀ i < MAX_THREAD, state I c.mem i = FREE) :
    Inv I ⟨thread_init I c, fun _ => .none, fun _ => false⟩ := by
  refine ⟨by simp [thread_init], ?_, by simp, fun i hi hne h => ?_⟩
  · simp only [thread_init]
    rw [state_setState 0 RUNNING c.mem (by decide)]
    simp
  · simp only [thread_init] at hne h
    rw [state_setState 0 RUNNING c.mem (by decide), if_neg hne, hz i hi] at h
    cases h

theorem Inv.work (h : Inv I s) {c : Cpu} (hm : Spares I s.u.cpu.mem c.mem) :
    Inv I { s with u := { s.u with cpu := c } } := by
  have hst : ∀ i < MAX_THREAD, state I c.mem i = state I s.u.cpu.mem i := fun i hi => Mem.loadLE_agree (hm i hi).1
  refine ⟨h.cur, ?_, fun i hi hl hne => ?_, fun i hi hne hr => ?_⟩
  · rw [hst _ h.cur]
    exact h.busy
  · rw [hst i hi]
    exact h.live i hi hl hne
  · rw [hst i hi] at hr
    exact (h.origin i hi hne hr).agree (hm i hi).2

theorem Inv.create (h : Inv I s) {func : Word} {x : Nat} (e : thread_create I func s.u = some (x, u')) :
    Inv I ⟨u', Function.update s.origin x (.created func), Function.update s.live x true⟩ := by
  simp only [thread_create] at e
  split at e
  · cases e
  · rename_i t hx
    obtain ⟨hlt, hfree⟩ := freeThread_spec _ 0 rfl hx
    obtain ⟨ex, eu⟩ := Prod.mk.inj (Option.some.inj e)
    subst ex eu
    have hne : s.u.cur ≠ t := by
      rintro rfl
      exact h.busy hfree
    generalize hm : ((setState I t RUNNABLE s.u.cpu.mem).storeLE (ctx I t) 8 func.toNat).storeLE (ctx I t + 8) 8
      (stack I t + STACK_SIZE) = m
    have hst : ∀ i, state I m i = if i = t then RUNNABLE else state I s.u.cpu.mem i := fun i => by
      rw [← state_setState t RUNNABLE s.u.cpu.mem (by decide) i, ← hm]
      exact Mem.loadLE_agree ((Mem.agree_storeLE _ (by simp only [ctx, stateAt, thread]; omega)).trans
        (Mem.agree_storeLE _ (by simp only [ctx, stateAt, thread]; omega)))
    have hctx : ∀ i, i ≠ t → Mem.Agree s.u.cpu.mem m (ctx I i) 112 := fun i hi => by
      rw [← hm]
      refine ((ctx_setState t RUNNABLE _ i).trans (Mem.agree_storeLE _ ?_)).trans (Mem.agree_storeLE _ ?_)
      all_goals
        simp only [ctx, thread]
        omega
    have hnew : Origin.Ok I m t (.created func) := by
      have hfit : stack I t + STACK_SIZE < 256 ^ 8 := by
        have hf := I.fits
        simp only [MAX_THREAD] at hf hlt
        simp only [stack, thread, STACK_SIZE]
        omega
      rw [← hm]
      refine ⟨?_, Mem.loadLE_storeLE_of_lt _ _ _ _ hfit⟩
      rw [Mem.loadLE_agree (Mem.agree_storeLE _ (by omega))]
      exact Mem.loadLE_storeLE_of_lt _ _ _ _ (BitVec.isLt _)
    refine ⟨h.cur, ?_, fun i hi hl hic => ?_, fun i hi hic hr => ?_⟩
    · simp only [hst, hne, if_false]
      exact h.busy
    · simp only [hst]
      by_cases e : i = t
      · simp [e]
      · simp only [e, if_false]
        exact h.live i hi (by simpa [e] using hl) hic
    · by_cases e : i = t
      · subst e
        simpa using hnew
      · simp only [hst, e, if_false] at hr
        simpa [e] using (h.origin i hi hic hr).agree (hctx i e)

/-- A call of thread_schedule, after the current thread's own state was set or not. -/
theorem Inv.schedule (h : Inv I s) {r : Reg → Word} {o : Origin} {l : Bool}
    (hm : ∀ i, i ≠ s.u.cur → state I m i = state I s.u.cpu.mem i)
    (hc : ∀ i, Mem.Agree s.u.cpu.mem m (ctx I i) 112) (hl : l = true → state I m s.u.cur = RUNNABLE)
    (ho : state I m s.u.cur = RUNNABLE → o = .switched r)
    (e : thread_schedule I r { s.u with cpu := { s.u.cpu with mem := m } } = some u') :
    Inv I ⟨u', Function.update s.origin s.u.cur o, Function.update s.live s.u.cur l⟩ ∧
      Chosen (state I m) s.u.cur u'.cur ∧
      (u'.cur ≠ s.u.cur → Resumes I u'.cur u'.cpu (s.origin u'.cur)) := by
  obtain ⟨h1, h2, h3⟩ := thread_schedule_spec (u := { s.u with cpu := { s.u.cpu with mem := m } }) h.cur e
  have hrun : state I m u'.cur = RUNNABLE := by
    obtain ⟨-, -, -, -, h, -⟩ := h2
    exact h
  refine ⟨?_, h2, fun hne => ?_⟩
  · rcases h3 with ⟨h3, h4⟩ | ⟨h3, h4, h5, h6, -, -⟩
    · -- no other thread is runnable
      refine ⟨h1, ?_, fun i hi hli hne => ?_, fun i hi hne hr => ?_⟩
      · simp only [h4, hrun]
        decide
      · simp only [h3] at hne
        simp only [h4, hm i hne]
        exact h.live i hi (by simpa [hne] using hli) hne
      · simp only [h3] at hne
        simp only [h4, hm i hne] at hr ⊢
        simpa [hne] using (h.origin i hi hne hr).agree (hc i)
    · refine ⟨h1, by simp [h4], fun i hi hli hne => ?_, fun i hi hne hr => ?_⟩
      · simp only [h4, hne, if_false]
        by_cases ei : i = s.u.cur
        · subst ei
          exact hl (by simpa using hli)
        · rw [hm i ei]
          exact h.live i hi (by simpa [ei] using hli) ei
      · simp only [h4, hne, if_false] at hr
        by_cases ei : i = s.u.cur
        · subst ei
          simp only [Function.update_self, ho hr]
          exact h6
        · rw [hm i ei] at hr
          simpa [ei] using ((h.origin i hi ei hr).agree (hc i)).agree (h5 i ei)
  · rcases h3 with ⟨h3, -⟩ | ⟨-, -, -, -, h7, h8⟩
    · exact absurd h3 hne
    · refine Origin.Ok.resumes (m := m) ?_ h7 h8
      rw [hm _ hne] at hrun
      exact (h.origin _ h1 hne hrun).agree (hc _)

theorem Inv.gives (h : Inv I s) (hg : Gives I s m s') :
    Inv I s' ∧ Chosen (state I m) s.u.cur s'.u.cur ∧
      (s'.u.cur ≠ s.u.cur → Resumes I s'.u.cur s'.u.cpu (s.origin s'.u.cur)) := by
  have same : Function.update s.live s.u.cur (s.live s.u.cur) = s.live := Function.update_eq_self ..
  have hset : ∀ v < 256 ^ 4, ∀ i, i ≠ s.u.cur →
    state I (setState I s.u.cur v s.u.cpu.mem) i = state I s.u.cpu.mem i := fun v hv i hi => by
    rw [state_setState _ v _ hv, if_neg hi]
  cases hg with
  | yield r u' e =>
    have h1 := h.schedule (o := .switched r) (l := s.live s.u.cur) (hset RUNNABLE (by decide))
      (ctx_setState s.u.cur RUNNABLE _)
      (fun _ => by rw [state_setState _ _ _ (by decide), if_pos rfl]) (fun _ => rfl) e
    rwa [same] at h1
  | exit r u' e =>
    refine h.schedule (hset FREE (by decide)) (ctx_setState s.u.cur FREE _) (fun hl => by cases hl) (fun hr => ?_) e
    rw [state_setState _ _ _ (by decide), if_pos rfl] at hr
    cases hr
  | schedule r u' hl e =>
    have h1 := h.schedule (o := .switched r) (l := s.live s.u.cur) (fun _ _ => rfl)
      (fun i => Mem.Agree.refl s.u.cpu.mem (ctx I i) 112) (fun hl' => by rw [hl] at hl'; cases hl')
      (fun _ => rfl) e
    rwa [same] at h1

theorem Reach.inv (h : Reach I s) : Inv I s := by
  induction h with
  | init c hz => exact .init hz
  | step _ hs ih =>
    cases hs with
    | work c hm => exact ih.work hm
    | create func t u' e => exact ih.create e
    | give m s' hg => exact (ih.gives hg).1

/-- In every run: no created thread is lost to the scheduler; whoever gives up the processor,
    the first runnable thread after it goes on; and one that goes on finds its registers as
    they were at its call of thread_switch, or starts at its function on its own stack. The
    program exits only where no thread is left to go on, and never at a thread_yield. -/
theorem threads_keep_contexts (h : Reach I s) :
    (∀ i < MAX_THREAD, s.live i = true → i ≠ s.u.cur → state I s.u.cpu.mem i = RUNNABLE) ∧
      (∀ m s', Gives I s m s' → Chosen (state I m) s.u.cur s'.u.cur ∧
        (s'.u.cur ≠ s.u.cur → Resumes I s'.u.cur s'.u.cpu (s.origin s'.u.cur))) ∧
      ∀ r, (∃ u', thread_yield I r s.u = some u') ∧
        ((∃ u', thread_exit I r s.u = some u') ↔ ∃ i < MAX_THREAD, i ≠ s.u.cur ∧ state I s.u.cpu.mem i = RUNNABLE) ∧
        ((∃ u', thread_schedule I r s.u = some u') ↔ ∃ i < MAX_THREAD, state I s.u.cpu.mem i = RUNNABLE) :=
  ⟨h.inv.live, fun _ _ hg => (h.inv.gives hg).2,
    fun r => ⟨thread_yield_some r h.inv.cur, thread_exit_some r h.inv.cur, thread_schedule_some h.inv.cur⟩⟩

end

/-- main makes a thread and leaves to it. -/
theorem threads_keep_contexts_first : ∃ (I : Image) (s : St) (m : Mem) (s' : St), Reach I s ∧ Gives I s m s' ∧
    s'.u.cur = 1 ∧
    s'.u.cpu.pc = 0x100 ∧ (s'.u.cpu.regs .sp).toNat = stack I 1 + STACK_SIZE := by
  let I : Image := ⟨0xd90, by decide⟩
  let c : Cpu := ⟨fun _ => 0, 0, fun _ => 0⟩
  have hz : ∀ i, state I c.mem i = FREE := fun i => Mem.loadLE_zero fun _ _ _ => rfl
  have h0 : Reach I _ := .init c fun i _ => hz i
  have hst : ∀ i, state I (thread_init I c).cpu.mem i = if i = 0 then RUNNING else FREE := fun i => by
    rw [thread_init, state_setState 0 RUNNING c.mem (by decide), hz]
  have h0cur : (thread_init I c).cur = 0 := rfl
  generalize thread_init I c = u0 at h0 hst h0cur
  have e1 : ∃ u, thread_create I 0x100 u0 = some (1, u) ∧ u.cur = 0 := by
    simp [thread_create, freeThread, hst, h0cur]
  obtain ⟨u, e1, hcur⟩ := e1
  have h1 : Reach I _ := .step h0 (.create _ 0x100 1 u e1)
  have hrun : state I u.cpu.mem 1 = RUNNABLE := h1.inv.live 1 (by decide) (by simp) (by simp [hcur])
  have e2 : ∃ u', thread_schedule I (fun _ => 0) u = some u' ∧ u'.cur = 1 := by
    simp [thread_schedule, search, hcur, hrun]
  obtain ⟨u', e2, hcur'⟩ := e2
  have hl : Function.update (fun _ => false) 1 true u.cur = false := by simp [hcur]
  have hg : Gives I _ _ _ := .schedule ⟨u, Function.update (fun _ => .none) 1 (.created 0x100),
    Function.update (fun _ => false) 1 true⟩
    (fun _ => 0) u' hl e2
  have h2 := ((threads_keep_contexts h1).2.1 _ _ hg).2 (by simp [hcur, hcur'])
  simp only [hcur', Function.update_self] at h2
  exact ⟨I, _, _, _, h1, hg, hcur', h2⟩

end Xv6Labs.Uthread
