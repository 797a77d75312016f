/-
  Xv6Labs.Traps.Alarm — sigalarm and sigreturn of the traps lab.

  The trapframe is 288 bytes of physical memory. At a delivery usertrap copies it to
  `p->trapframe + 512`: the pointer arithmetic is scaled by the struct, so the copy is 36
  pages further up and not in the page the process owns. `sys` stands for the system calls
  other than the two here; they may do anything to memory but have no business with the
  alarm fields of `p`.

  - `sigreturn_restores`: what is needed for the interrupted code not to notice.
  - `deliveries_alternate`: when a delivery is followed by a sigreturn before the next.
  - `alarm_stays_in_page`: when nothing outside the trapframe page changes.
-/

import Xv6Labs.Lib.Bytes
import Xv6Labs.Lib.Word
import Mathlib.Data.List.Chain

namespace Xv6Labs.Traps

open Lib

/-! ## The code -/

/-- sizeof(struct trapframe), and the offsets of the fields the code names. -/
abbrev TFSIZE : Nat := 288
abbrev EPC : Nat := 24
abbrev A0 : Nat := 112
abbrev A1 : Nat := 120
abbrev A7 : Nat := 168

/-- epc and the 31 user registers ra .. t6. -/
def saved : List Nat := EPC :: (List.range 31).map fun i => 40 + 8 * i

abbrev SYS_sigalarm : Nat := 22
abbrev SYS_sigreturn : Nat := 23

/-- What alarms use of struct proc; the ints are kept as their 32 bits. -/
structure Proc where
  trapframe : Nat
  trapframecopy : Nat
  alarmticks : Nat
  passedticks : Nat
  handler : Nat

structure State where
  mem : Mem
  p : Proc

/-- A word of the trapframe. -/
def State.get (s : State) (off : Nat) : Nat := s.mem.loadLE (s.p.trapframe + off) 8

def State.put (s : State) (off w : Nat) : State := { s with mem := s.mem.storeLE (s.p.trapframe + off) 8 w }

/-- `p->trapframe + 512`. -/
def copyAddr (trapframe : Nat) : Nat := u64 (512 * TFSIZE + trapframe)

/-- The test usertrap makes at a timer interrupt. -/
def fires (s : State) : Bool := s.p.alarmticks != 0 && u32 (s.p.passedticks + 1) == s.p.alarmticks

/-- usertrap with which_dev = 2, up to the yield. -/
def timer (s : State) : State :=
  if s.p.alarmticks ≠ 0 then
    let p := { s.p with passedticks := u32 (s.p.passedticks + 1) }
    if p.passedticks = p.alarmticks then
      let p := { p with trapframecopy := copyAddr p.trapframe }
      State.put ⟨s.mem.move p.trapframecopy p.trapframe TFSIZE, p⟩ EPC p.handler
    else { s with p := p }
  else s

def sys_sigalarm (s : State) : Nat × State :=
  (0, { s with p := { s.p with alarmticks := u32 (s.get A0), handler := s.get A1 } })

def sys_sigreturn (s : State) : Nat × State :=
  if s.p.trapframecopy ≠ copyAddr s.p.trapframe then (2 ^ 64 - 1, s)
  else
    let s : State := ⟨s.mem.move s.p.trapframe s.p.trapframecopy TFSIZE, { s.p with passedticks := 0 }⟩
    (s.get A0, s)

/-- The number syscall() reads from a7. -/
def sysnum (s : State) : Nat := u32 (s.get A7)

def syscall (sys : Nat → Mem → Nat × Mem) (s : State) : State :=
  if 0 < sysnum s ∧ sysnum s < 24 then
    let (r, s) :=
      if sysnum s = SYS_sigalarm then sys_sigalarm s
      else if sysnum s = SYS_sigreturn then sys_sigreturn s
      else ((sys (sysnum s) s.mem).1, { s with mem := (sys (sysnum s) s.mem).2 })
    s.put A0 r
  else s.put A0 (2 ^ 64 - 1)

/-- `p->trapframe->epc += 4`. -/
def skipEcall (s : State) : State := s.put EPC (u64 (s.get EPC + 4))

/-- usertrap with scause 8. -/
def ecall (sys : Nat → Mem → Nat × Mem) (s : State) : State := syscall sys (skipEcall s)

/-! ## Runs -/

/-- What happens to the process: a timer interrupt, a system call, or anything else that
    runs (user code whose registers a trap has saved, other processes). -/
inductive Ev where
  | tick
  | ecall
  | other (m : Mem)

def step (sys : Nat → Mem → Nat × Mem) (s : State) : Ev → State
  | .tick => timer s
  | .ecall => ecall sys s
  | .other m => { s with mem := m }

/-- A process whose trapframe is a page of its own. -/
def Paged (s : State) : Prop := s.p.trapframe % 4096 = 0 ∧ s.p.trapframe < 2 ^ 64

variable {sys : Nat → Mem → Nat × Mem} {s s' : State}

/-- The kernel's view of a process with the alarm at 1, about to take its first tick at pc
    0x1000. -/
def armed : State :=
  ⟨Mem.storeLE (fun _ => 0) (0x87f00000 + EPC) 8 0x1000, ⟨0x87f00000, 0, 1, 0, 0x2000⟩⟩

theorem saved_bound {off : Nat} (h : off ∈ saved) : off + 8 ≤ TFSIZE ∧ off % 8 = 0 := by
  revert off; decide

/-- The copy and the trapframe page are apart. -/
theorem copyAddr_apart {t : Nat} (_ : t % 4096 = 0) (_ : t < 2 ^ 64) :
    copyAddr t + 4096 ≤ t ∨ t + 4096 ≤ copyAddr t := by
  unfold copyAddr u64 TFSIZE; omega

@[simp] theorem put_p (s : State) (off w : Nat) : (s.put off w).p = s.p := rfl
@[simp] theorem skipEcall_p (s : State) : (skipEcall s).p = s.p := rfl

theorem put_mem_ne {off w x : Nat} (h : x < s.p.trapframe + off ∨ s.p.trapframe + off + 8 ≤ x) :
    (s.put off w).mem x = s.mem x :=
  Mem.storeLE_ne h

theorem put_get_ne {off off' w : Nat} (h : off' + 8 ≤ off ∨ off + 8 ≤ off') : (s.put off w).get off' = s.get off' :=
  Mem.loadLE_agree (Mem.agree_storeLE s.mem (by rw [put_p]; omega))

theorem put_get {off w : Nat} (h : w < 2 ^ 64) : (s.put off w).get off = w :=
  Mem.loadLE_storeLE_of_lt _ _ _ _ (by omega)

theorem get_lt (s : State) (off : Nat) : s.get off < 2 ^ 64 := Mem.loadLE_lt s.mem _ 8

theorem sysnum_skipEcall (s : State) : sysnum (skipEcall s) = sysnum s := by
  unfold sysnum skipEcall
  rw [put_get_ne (by decide)]

theorem timer_fires (h : fires s = true) :
    timer s = State.put ⟨s.mem.move (copyAddr s.p.trapframe) s.p.trapframe TFSIZE,
      { s.p with passedticks := u32 (s.p.passedticks + 1), trapframecopy := copyAddr s.p.trapframe }⟩ EPC s.p.handler := by
  unfold fires at h
  simp only [Bool.and_eq_true, bne_iff_ne, ne_eq, beq_iff_eq] at h
  unfold timer
  rw [if_pos h.1, if_pos h.2]

/-- Without a delivery only the count changes. -/
theorem timer_quiet (h : fires s = false) : (timer s).mem = s.mem ∧ (timer s).p.trapframe = s.p.trapframe ∧
    (timer s).p.trapframecopy = s.p.trapframecopy ∧ (timer s).p.alarmticks = s.p.alarmticks ∧
    (timer s).p.passedticks = if s.p.alarmticks ≠ 0 then u32 (s.p.passedticks + 1) else s.p.passedticks := by
  unfold fires at h
  unfold timer
  by_cases ha : s.p.alarmticks ≠ 0
  · rw [if_pos ha]
    by_cases hp : u32 (s.p.passedticks + 1) = s.p.alarmticks
    · simp [ha, hp] at h
    · simp only [hp, if_false, ha, ne_eq, not_false_eq_true, if_true, and_self]
  · rw [if_neg ha, if_neg ha]
    exact ⟨rfl, rfl, rfl, rfl, rfl⟩

theorem timer_trapframe (s : State) : (timer s).p.trapframe = s.p.trapframe := by
  cases h : fires s with
  | true => rw [timer_fires h, put_p]
  | false => exact (timer_quiet h).2.1

/-- A system call other than the two. -/
theorem syscall_other (sys : Nat → Mem → Nat × Mem) (h1 : sysnum s ≠ SYS_sigalarm) (h2 : sysnum s ≠ SYS_sigreturn) :
    ∃ m r, syscall sys s = State.put { s with mem := m } A0 r ∧ (m = s.mem ∨ m = (sys (sysnum s) s.mem).2) := by
  unfold syscall
  by_cases h : 0 < sysnum s ∧ sysnum s < 24
  · rw [if_pos h, if_neg h1, if_neg h2]
    exact ⟨(sys (sysnum s) s.mem).2, (sys (sysnum s) s.mem).1, rfl, Or.inr rfl⟩
  · rw [if_neg h]
    refine ⟨s.mem, 2 ^ 64 - 1, ?_, Or.inl rfl⟩
    cases s
    rfl

theorem syscall_sigalarm (h : sysnum s = SYS_sigalarm) : syscall sys s = (sys_sigalarm s).2.put A0 0 := by
  unfold syscall
  rw [if_pos (by rw [h]; decide), if_pos h]
  rfl

theorem syscall_sigreturn (h : sysnum s = SYS_sigreturn) :
    syscall sys s = (sys_sigreturn s).2.put A0 (sys_sigreturn s).1 := by
  unfold syscall
  rw [if_pos (by rw [h]; decide), if_neg (by rw [h]; decide), if_pos h]

/-! ## The saved copy -/

/-- The saved words of the copy are the same in both memories. -/
def SameCopy (t : Nat) (m m' : Mem) : Prop := ∀ off ∈ saved, Mem.Agree m m' (copyAddr t + off) 8

/-- The step leaves the place of the copy alone. -/
def Spares (sys : Nat → Mem → Nat × Mem) (s : State) : Ev → Prop
  | .tick => fires s = false
  | .ecall => SameCopy s.p.trapframe (skipEcall s).mem (sys (sysnum s) (skipEcall s).mem).2
  | .other m => SameCopy s.p.trapframe s.mem m

/-- A run of the handler: no sigalarm, no sigreturn, and every step is `ok`. -/
inductive Handler (sys : Nat → Mem → Nat × Mem) (ok : State → Ev → Prop) (s : State) : State → Prop where
  | start : Handler sys ok s s
  | step {s' : State} (e : Ev) : Handler sys ok s s' →
      (e = .ecall → sysnum s' ≠ SYS_sigalarm ∧ sysnum s' ≠ SYS_sigreturn) →
      ok s' e → Handler sys ok s (step sys s' e)

/-- What the handler's run keeps of the delivery `s0` came from. -/
structure Holds (s0 s : State) : Prop where
  trapframe : s.p.trapframe = s0.p.trapframe
  copy : s.p.trapframecopy = copyAddr s0.p.trapframe
  words : ∀ off ∈ saved, s.mem.loadLE (copyAddr s0.p.trapframe + off) 8 = s0.get off

theorem put_sameCopy (hp : Paged s) (off w : Nat) (ho : off + 8 ≤ 4096) :
    SameCopy s.p.trapframe s.mem (s.put off w).mem := by
  intro o hmem x hx hy
  have := copyAddr_apart hp.1 hp.2
  have := saved_bound hmem
  unfold TFSIZE at this
  exact put_mem_ne (by omega)

theorem Holds.mem {s0 : State} (h : Holds s0 s) {m : Mem} (hm : SameCopy s0.p.trapframe s.mem m) :
    Holds s0 { s with mem := m } :=
  ⟨h.trapframe, h.copy, fun off ho => (Mem.loadLE_agree (hm off ho)).trans (h.words off ho)⟩

theorem Holds.put {s0 : State} (h : Holds s0 s) (hp : Paged s0) {off w : Nat} (ho : off + 8 ≤ 4096) :
    Holds s0 (s.put off w) := by
  refine h.mem ?_
  have := put_sameCopy (s := s) (by unfold Paged; rw [h.trapframe]; exact hp) off w ho
  rw [h.trapframe] at this
  exact this

theorem timer_holds (hp : Paged s) (hf : fires s = true) : Holds s (timer s) := by
  rw [timer_fires hf]
  refine Holds.put ?_ hp (by decide)
  refine ⟨rfl, rfl, fun off ho => ?_⟩
  have hb := saved_bound ho
  unfold State.get
  rw [← Mem.loadLE_move (k := 8) s.mem (copyAddr s.p.trapframe) s.p.trapframe hb.1]

theorem Holds.step {s0 : State} (h : Holds s0 s) (hp : Paged s0) (e : Ev)
    (hn : e = .ecall → sysnum s ≠ SYS_sigalarm ∧ sysnum s ≠ SYS_sigreturn) (hs : Spares sys s e) :
      Holds s0 (step sys s e) := by
  cases e with
  | tick =>
    obtain ⟨hm, ht, hc, -, -⟩ := timer_quiet hs
    exact ⟨ht.trans h.trapframe, hc.trans h.copy,
      fun off ho => (congrArg (fun m : Mem => m.loadLE (copyAddr s0.p.trapframe + off) 8) hm).trans (h.words off ho)⟩
  | ecall =>
    obtain ⟨n1, n2⟩ := hn rfl
    have h1 : Holds s0 (skipEcall s) := h.put hp (by decide)
    obtain ⟨m, r, e, hm⟩ := syscall_other sys (s := skipEcall s) (by rw [sysnum_skipEcall]; exact n1)
      (by rw [sysnum_skipEcall]; exact n2)
    show Holds s0 (syscall sys (skipEcall s))
    rw [e]
    refine (h1.mem ?_).put hp (by decide)
    rcases hm with rfl | rfl
    · exact fun off _ => Mem.Agree.refl _ _ _
    · rw [← h.trapframe, sysnum_skipEcall]
      exact hs
  | other m => exact h.mem (by rw [← h.trapframe]; exact hs)

theorem Handler.holds {s0 : State} (hr : Handler sys (Spares sys) s s') (hp : Paged s0) (h : Holds s0 s) :
    Holds s0 s' := by
  induction hr with
  | start => exact h
  | step e _ hn hs ih => exact ih.step hp e hn hs

theorem sigreturn_words {s0 : State} (h : Holds s0 s) :
    sys_sigreturn s =
      (s0.get A0, ⟨s.mem.move s.p.trapframe s.p.trapframecopy TFSIZE, { s.p with passedticks := 0 }⟩) ∧
      ∀ off ∈ saved, (sys_sigreturn s).2.get off = s0.get off := by
  have key : ∀ off ∈ saved, State.get ⟨s.mem.move s.p.trapframe s.p.trapframecopy TFSIZE,
    { s.p with passedticks := 0 }⟩ off = s0.get off := by
    intro off ho
    have hb := saved_bound ho
    rw [← h.words off ho, ← h.copy]
    have := Mem.loadLE_move (k := 8) s.mem s.p.trapframe s.p.trapframecopy hb.1
    exact this
  have hc : s.p.trapframecopy = copyAddr s.p.trapframe := by rw [h.copy, h.trapframe]
  have e : sys_sigreturn s =
    (s0.get A0, ⟨s.mem.move s.p.trapframe s.p.trapframecopy TFSIZE, { s.p with passedticks := 0 }⟩) := by
    unfold sys_sigreturn
    rw [if_neg (by simp [hc])]
    exact Prod.ext (key A0 (by decide)) rfl
  exact ⟨e, fun off ho => by rw [e]; exact key off ho⟩

/-- The sigreturn after a handler that spares the copy: the interrupted code goes on with
    its own pc and registers. -/
theorem sigreturn_restores (hp : Paged s) (hf : fires s = true)
    (hr : Handler sys (Spares sys) (timer s) s') (hn : sysnum s' = SYS_sigreturn) :
    ∀ off ∈ saved, (ecall sys s').get off = s.get off := by
  intro off ho
  have h : Holds s (skipEcall s') := (hr.holds hp (timer_holds hp hf)).put hp (by decide)
  obtain ⟨e, hw⟩ := sigreturn_words h
  rw [ecall, syscall_sigreturn (by rw [sysnum_skipEcall]; exact hn)]
  by_cases ha : off = A0
  · subst ha
    rw [e]
    exact put_get (get_lt s A0)
  · rw [put_get_ne, hw off ho]
    have := saved_bound ho
    unfold A0 at ha ⊢
    omega

/-- A handler that only calls sigreturn. -/
theorem sigreturn_restores_at_once :
    (ecall (fun _ m => (0, m)) (step (fun _ m => (0, m)) (timer armed)
      (.other ((timer armed).mem.storeLE (0x87f00000 + A7) 8 23)))).get EPC =
      armed.get EPC := by
  refine sigreturn_restores (by unfold Paged; decide) (by decide)
    (.step (.other ((timer armed).mem.storeLE (0x87f00000 + A7) 8 23)) .start (fun h => by cases h) ?_)
      (by decide) EPC (by decide)
  exact put_sameCopy (s := timer armed) (by unfold Paged; decide) A7 _ (by decide)

/-- sbrk, with the page of the copy first on the free list: kalloc fills it with 5, and
    uvmalloc with 0. -/
def sbrkCopy (num : Nat) (m : Mem) : Nat × Mem :=
  if num = 12 then (0x3000, (m.set (copyAddr 0x87f00000) 5 4096).set (copyAddr 0x87f00000) 0 4096) else (0, m)

/-- A handler that calls sbrk returns to pc 0. -/
theorem sbrk_handler_returns_to_zero : ¬ ∀ (sys : Nat → Mem → Nat × Mem) (s s' : State), Paged s → fires s = true →
    Handler sys (fun _ _ => True) (timer s) s' → sysnum s' = SYS_sigreturn → ∀ off ∈ saved,
      (ecall sys s').get off = s.get off := by
  intro h
  let s1 := step sbrkCopy (timer armed) (.other ((timer armed).mem.storeLE (0x87f00000 + A7) 8 12))
  let s2 := step sbrkCopy s1 .ecall
  let s3 := step sbrkCopy s2 (.other (s2.mem.storeLE (0x87f00000 + A7) 8 23))
  have h1 : Handler sbrkCopy (fun _ _ => True) (timer armed) s1 := .step _ .start (fun h => by cases h) trivial
  have h2 : Handler sbrkCopy (fun _ _ => True) (timer armed) s2 := .step .ecall h1 (fun _ => by decide) trivial
  have h3 : Handler sbrkCopy (fun _ _ => True) (timer armed) s3 := .step _ h2 (fun h => by cases h) trivial
  have := h sbrkCopy armed s3 (by unfold Paged; decide) (by decide) h3 (by decide) EPC (by decide)
  revert this
  decide

/-! ## Which bytes change -/

/-- Exactly when a delivery and the sigreturn after it leave every byte outside the page of
    the trapframe as it was: the copy was there already. -/
theorem alarm_stays_in_page (hp : Paged s) (hf : fires s = true) :
    (∀ a, ¬ (s.p.trapframe ≤ a ∧ a < s.p.trapframe + 4096) →
        (timer s).mem a = s.mem a ∧ (sys_sigreturn (timer s)).2.mem a = s.mem a) ↔
      ∀ i < TFSIZE, s.mem (copyAddr s.p.trapframe + i) = s.mem (s.p.trapframe + i) := by
  have ha := copyAddr_apart hp.1 hp.2
  -- outside the page the delivery writes the copy and nothing else
  have hd : ∀ a, ¬ (s.p.trapframe ≤ a ∧ a < s.p.trapframe + 4096) →
      (timer s).mem a = s.mem.move (copyAddr s.p.trapframe) s.p.trapframe TFSIZE a := fun a h => by
    rw [timer_fires hf, put_mem_ne]
    dsimp only [EPC]
    omega
  have hr : ∀ a, ¬ (s.p.trapframe ≤ a ∧ a < s.p.trapframe + 4096) →
    (sys_sigreturn (timer s)).2.mem a = (timer s).mem a := fun a h => by
    rw [(sigreturn_words (timer_holds hp hf)).1]
    have ht := timer_trapframe s
    exact Mem.agree_move (b := a) (n := 1) (timer s).mem _ (by rw [ht]; unfold TFSIZE; omega) a (Nat.le_refl _)
      (by omega)
  constructor
  · intro h i hi
    unfold TFSIZE at hi
    have hout : ¬ (s.p.trapframe ≤ copyAddr s.p.trapframe + i ∧
      copyAddr s.p.trapframe + i < s.p.trapframe + 4096) := by omega
    rw [← (h _ hout).1, hd _ hout, Mem.move_in _ _ (by omega) (by unfold TFSIZE; omega), Nat.add_sub_cancel_left]
  · intro h a hout
    have key : (timer s).mem a = s.mem a := by
      rw [hd a hout]
      by_cases hc : copyAddr s.p.trapframe ≤ a ∧ a < copyAddr s.p.trapframe + TFSIZE
      · have hx : copyAddr s.p.trapframe + (a - copyAddr s.p.trapframe) = a := by omega
        rw [Mem.move_in _ _ hc.1 hc.2, ← h (a - copyAddr s.p.trapframe) (by omega), hx]
      · exact Mem.agree_move (b := a) (n := 1) s.mem _ (by omega) a (Nat.le_refl _) (by omega)
    exact ⟨key, (hr a hout).trans key⟩

theorem alarm_stays_in_page_armed : ¬ ∀ a, ¬ (armed.p.trapframe ≤ a ∧ a < armed.p.trapframe + 4096) →
    (timer armed).mem a = armed.mem a ∧ (sys_sigreturn (timer armed)).2.mem a = armed.mem a :=
  fun h => absurd ((alarm_stays_in_page (by unfold Paged; decide) (by decide)).mp h 25 (by decide)) (by decide)

/-- The delivery to `armed` changes a byte 36 pages above its trapframe. -/
theorem delivery_leaves_page : ¬ ∀ s : State, Paged s → fires s = true → ∀ a,
    ¬ (s.p.trapframe ≤ a ∧ a < s.p.trapframe + 4096) →
    (timer s).mem a = s.mem a ∧ (sys_sigreturn (timer s)).2.mem a = s.mem a := by
  intro h
  have := (h armed (by unfold Paged; decide) (by decide) (copyAddr 0x87f00000 + 25) (by decide)).1
  revert this
  decide

/-! ## Deliveries and returns -/

inductive Mark where
  | deliver
  | sigreturn
  deriving DecidableEq

/-- A process with its deliveries and sigreturns so far, newest first. -/
structure Trace where
  s : State
  log : List Mark

/-- A delivery is outstanding. -/
def Trace.outstanding (c : Trace) : Bool := c.log.head? == some .deliver

def Trace.next (sys : Nat → Mem → Nat × Mem) (c : Trace) (e : Ev) : Trace :=
  ⟨step sys c.s e,
    match e with
    | .tick => if fires c.s then .deliver :: c.log else c.log
    | .ecall => if sysnum c.s = SYS_sigreturn then .sigreturn :: c.log else c.log
    | .other _ => c.log⟩

/-- The runs of a process from allocproc on, which leaves trapframecopy as it finds it. -/
inductive Runs (sys : Nat → Mem → Nat × Mem) (ok : Trace → Ev → Prop) : Trace → Prop where
  | fresh (m : Mem) (trapframe trapframecopy : Nat) : Runs sys ok ⟨⟨m, ⟨trapframe, trapframecopy, 0, 0, 0⟩⟩, []⟩
  | next {c : Trace} (e : Ev) : Runs sys ok c → ok c e → Runs sys ok (c.next sys e)

/-- The value of an int. -/
def int32 (n : Nat) : Int := if n < 2 ^ 31 then n else n - 2 ^ 32

/-- While a delivery is outstanding the count does not overflow and sigalarm is not given
    an interval still ahead of it; otherwise sigreturn is not called with a copy around. -/
def Behaves (c : Trace) : Ev → Prop
  | .tick => c.outstanding = true → int32 c.s.p.passedticks < 2 ^ 31 - 1
  | .ecall =>
    (sysnum c.s = SYS_sigalarm → c.outstanding = true → int32 (u32 (c.s.get A0)) ≤ int32 c.s.p.passedticks) ∧
      (sysnum c.s = SYS_sigreturn → c.outstanding = false → c.s.p.trapframecopy ≠ copyAddr c.s.p.trapframe)
  | .other _ => True

/-- No delivery comes right after another. -/
def Alternates (log : List Mark) : Prop := log.IsChain fun a b => ¬ (a = .deliver ∧ b = .deliver)

/-- A sigreturn that is refused: -1, and only a0 changes. -/
def Refused (sys : Nat → Mem → Nat × Mem) (s : State) : Prop :=
  (ecall sys s).get A0 = 2 ^ 64 - 1 ∧ ∀ off ∈ saved, off ≠ A0 → (ecall sys s).get off = (skipEcall s).get off

structure Trace.Inv (c : Trace) : Prop where
  log : Alternates c.log
  small : c.s.p.passedticks < 2 ^ 32 ∧ c.s.p.alarmticks < 2 ^ 32
  /-- The count has passed the interval. -/
  passed : c.outstanding = true → int32 c.s.p.alarmticks ≤ int32 c.s.p.passedticks

theorem Trace.next_s (c : Trace) (e : Ev) : (c.next sys e).s = step sys c.s e := rfl

theorem Trace.ecall_s (sys : Nat → Mem → Nat × Mem) (c : Trace) :
    (c.next sys .ecall).s = syscall sys (skipEcall c.s) := by rw [Trace.next_s, step, ecall]

theorem u32_lt (n : Nat) : u32 n < 2 ^ 32 := Nat.mod_lt _ (by decide)

theorem int32_succ {n : Nat} (h : n < 2 ^ 32) (hn : int32 n < 2 ^ 31 - 1) : int32 (u32 (n + 1)) = int32 n + 1 := by
  unfold int32 u32 at *
  split_ifs at * <;> omega

theorem Trace.Inv.tick {c : Trace} (h : c.Inv) (hb : Behaves c .tick) : (c.next sys .tick).Inv := by
  cases hf : fires c.s with
  | true =>
    -- a delivery: none can be outstanding
    have hfp : u32 (c.s.p.passedticks + 1) = c.s.p.alarmticks := by
      unfold fires at hf
      simp only [Bool.and_eq_true, beq_iff_eq] at hf
      exact hf.2
    have ho : c.outstanding = false := by
      cases ho : c.outstanding with
      | false => rfl
      | true =>
        have h1 := int32_succ h.small.1 (hb ho)
        have h2 := h.passed ho
        rw [hfp] at h1
        omega
    have hlog : (c.next sys .tick).log = .deliver :: c.log := if_pos hf
    have hs : (c.next sys .tick).s = timer c.s := rfl
    refine ⟨?_, ?_, fun _ => ?_⟩
    · rw [hlog]
      refine List.isChain_cons.mpr ⟨fun b hb' e => ?_, h.log⟩
      unfold Trace.outstanding at ho
      rw [hb', e.2] at ho
      cases ho
    · rw [hs, timer_fires hf]
      exact ⟨u32_lt _, h.small.2⟩
    · rw [hs, timer_fires hf]
      exact le_of_eq (congrArg int32 hfp.symm)
  | false =>
    obtain ⟨-, -, -, ha, hp⟩ := timer_quiet hf
    have hlog : (c.next sys .tick).log = c.log := if_neg (by rw [hf]; decide)
    have ho : (c.next sys .tick).outstanding = c.outstanding := by unfold Trace.outstanding; rw [hlog]
    have hs : (c.next sys .tick).s = timer c.s := rfl
    refine ⟨by rw [hlog]; exact h.log, ?_, fun ho' => ?_⟩
    · rw [hs, ha, hp]
      refine ⟨?_, h.small.2⟩
      split
      · exact u32_lt _
      · exact h.small.1
    · rw [ho] at ho'
      have := h.passed ho'
      rw [hs, ha, hp]
      split
      · rw [int32_succ h.small.1 (hb ho')]; omega
      · exact this

theorem Trace.Inv.ecall {c : Trace} (h : c.Inv) (hb : Behaves c .ecall) : (c.next sys .ecall).Inv := by
  have hs := c.ecall_s sys
  by_cases hr : sysnum c.s = SYS_sigreturn
  · have hlog : (c.next sys .ecall).log = .sigreturn :: c.log := by simp only [Trace.next, hr, if_true]
    have ho : (c.next sys .ecall).outstanding = false := by unfold Trace.outstanding; rw [hlog]; rfl
    refine ⟨?_, ?_, fun ho' => ?_⟩
    · rw [hlog]
      exact List.isChain_cons.mpr ⟨fun b _ e => absurd e.1 (by decide), h.log⟩
    · rw [hs, syscall_sigreturn (by rw [sysnum_skipEcall]; exact hr), put_p]
      unfold sys_sigreturn
      split
      · exact h.small
      · exact ⟨by show (0 : Nat) < _; decide, h.small.2⟩
    · rw [ho] at ho'
      cases ho'
  · have hlog : (c.next sys .ecall).log = c.log := by simp only [Trace.next, hr, if_false]
    have ho : (c.next sys .ecall).outstanding = c.outstanding := by unfold Trace.outstanding; rw [hlog]
    by_cases ha : sysnum c.s = SYS_sigalarm
    · have hp : (c.next sys .ecall).s.p = { c.s.p with alarmticks := u32 (c.s.get A0), handler := c.s.get A1 } := by
        rw [hs, syscall_sigalarm (by rw [sysnum_skipEcall]; exact ha), put_p]
        dsimp only [sys_sigalarm]
        rw [skipEcall, put_get_ne (by decide), put_get_ne (by decide), put_p]
      refine ⟨by rw [hlog]; exact h.log, ?_, fun ho' => ?_⟩
      · rw [hp]
        dsimp only
        exact ⟨h.small.1, u32_lt _⟩
      · rw [hp]
        dsimp only
        exact hb.1 ha (ho.symm.trans ho')
    · obtain ⟨m, r, e, -⟩ := syscall_other sys (s := skipEcall c.s) (by rw [sysnum_skipEcall]; exact ha)
        (by rw [sysnum_skipEcall]; exact hr)
      have hp : (c.next sys .ecall).s.p = c.s.p := by rw [hs, e, put_p, skipEcall_p]
      exact ⟨by rw [hlog]; exact h.log, by rw [hp]; exact h.small,
        fun ho' => by rw [hp]; exact h.passed (ho.symm.trans ho')⟩

theorem Runs.inv {c : Trace} (h : Runs sys Behaves c) : c.Inv := by
  induction h with
  | fresh m tf copy => exact ⟨List.isChain_nil, by show (0 : Nat) < _ ∧ (0 : Nat) < _; decide, fun h => by cases h⟩
  | @next c e _ hb ih =>
    cases e with
    | tick => exact ih.tick hb
    | ecall => exact ih.ecall hb
    | other m => exact ⟨ih.log, ih.small, ih.passed⟩

theorem sigreturn_refused (hn : sysnum s = SYS_sigreturn) (hc : s.p.trapframecopy ≠ copyAddr s.p.trapframe) :
    Refused sys s := by
  have e : ecall sys s = (skipEcall s).put A0 (2 ^ 64 - 1) := by
    rw [ecall, syscall_sigreturn (by rw [sysnum_skipEcall]; exact hn)]
    unfold sys_sigreturn
    rw [skipEcall_p, if_pos hc]
  rw [Refused, e]
  refine ⟨put_get (by decide), fun off ho hne => put_get_ne ?_⟩
  have := saved_bound ho
  unfold A0 at hne ⊢
  omega

/-- In a run that behaves, deliveries and sigreturns alternate, and a sigreturn with no
    delivery outstanding is refused. -/
theorem deliveries_alternate {c : Trace} (h : Runs sys Behaves c) : Alternates c.log ∧
    (Behaves c .ecall → sysnum c.s = SYS_sigreturn → c.outstanding = false → Refused sys c.s) :=
  ⟨h.inv.log, fun hb hn ho => sigreturn_refused hn (hb.2 hn ho)⟩

/-- The trapframe of a call of `num` with arguments `a0`, `a1`. -/
def calling (num a0 a1 : Nat) : Mem :=
  (((Mem.storeLE (fun _ => 0) (0x87f00000 + A7) 8 num).storeLE (0x87f00000 + A0) 8 a0).storeLE (0x87f00000 + A1) 8 a1)

/-- sigalarm(1, h), a delivery, the handler's sigreturn, and the next delivery; a sigreturn before all
    this is refused. -/
theorem deliveries_alternate_two : ∃ c, Runs (fun _ m => (0, m)) Behaves c ∧
    c.log = [.deliver, .sigreturn, .deliver] ∧ Alternates c.log ∧
    Refused (fun _ m => (0, m)) ⟨calling SYS_sigreturn 0 0, ⟨0x87f00000, 0, 0, 0, 0⟩⟩ := by
  let sys : Nat → Mem → Nat × Mem := fun _ m => (0, m)
  let c0 : Trace := ⟨⟨calling SYS_sigalarm 1 0x2000, ⟨0x87f00000, 0, 0, 0, 0⟩⟩, []⟩
  let c1 := (c0.next sys .ecall).next sys .tick
  let c2 := (c1.next sys (.other (calling SYS_sigreturn 0 0))).next sys .ecall
  have r0 : Runs sys Behaves c0 := .fresh ..
  have r1 : Runs sys Behaves c1 := .next _ (.next _ r0 ⟨by decide, by decide⟩) fun _ => by decide
  have r2 : Runs sys Behaves c2 := .next _ (.next _ r1 trivial) ⟨by decide, by decide⟩
  have r3 : Runs sys Behaves (c2.next sys .tick) := .next _ r2 fun _ => by decide
  have h0 : Runs sys Behaves _ := .fresh (calling SYS_sigreturn 0 0) 0x87f00000 0
  have hb : Behaves ⟨⟨calling SYS_sigreturn 0 0, ⟨0x87f00000, 0, 0, 0, 0⟩⟩, []⟩ .ecall :=
    ⟨fun h => absurd h (by decide), fun _ _ => by decide⟩
  exact ⟨_, r3, by decide, (deliveries_alternate r3).1, (deliveries_alternate h0).2 hb (by decide) rfl⟩

/-- sigalarm(2, h) from inside the handler of sigalarm(1, h): delivered twice. -/
theorem sigalarm_in_handler_redelivers : ¬ ∀ (sys : Nat → Mem → Nat × Mem) (c : Trace), Runs sys (fun _ _ => True) c →
    Alternates c.log ∧ (sysnum c.s = SYS_sigreturn → c.outstanding = false → Refused sys c.s) := by
  intro h
  let sys : Nat → Mem → Nat × Mem := fun _ m => (0, m)
  let c0 : Trace := ⟨⟨calling SYS_sigalarm 1 0x2000, ⟨0x87f00000, 0, 0, 0, 0⟩⟩, []⟩
  let c1 := (c0.next sys .ecall).next sys .tick
  let c2 := ((c1.next sys (.other (calling SYS_sigalarm 2 0x2000))).next sys .ecall).next sys .tick
  have r0 : Runs sys (fun _ _ => True) c0 := .fresh ..
  have r1 : Runs sys (fun _ _ => True) c1 := .next _ (.next _ r0 trivial) trivial
  have r2 : Runs sys (fun _ _ => True) c2 := .next _ (.next _ (.next _ r1 trivial) trivial) trivial
  have hlog : c2.log = [.deliver, .deliver] := by decide
  have := (h sys c2 r2).1
  rw [hlog, Alternates] at this
  exact absurd (List.isChain_cons.mp this).1 (by simp)

end Xv6Labs.Traps
