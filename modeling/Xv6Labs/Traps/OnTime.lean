/-
  Xv6Labs.Traps.OnTime — when an armed alarm fires.

  sigalarm sets the interval and the handler and leaves `passedticks` as it was; usertrap
  compares the count with the interval for equality. `Watch` counts beside the code: the
  ticks since the sigalarm call or since the last sigreturn from the handler, and whether the
  handler is running. What follows the call is any list of events without another sigalarm.

  sigreturn zeroes the count whenever `trapframecopy` is set, and nobody unsets it, so that a
  sigreturn made outside the handler puts the alarm off; and the count of a running handler
  comes back to the interval after 2^32 ticks.

  - `alarm_on_time`: the alarm fires at every tick it should and at no other exactly when
    sigalarm finds the count at 0, and neither of these two happens.
  - `rearmed_alarm_is_late`: it does not in every history.
-/

import Xv6Labs.Traps.Alarm

namespace Xv6Labs.Traps

open Lib

variable {sys : Nat → Mem → Nat × Mem} {s s' : State}

/-! ## What is counted -/

structure Watch where
  s : State
  /-- Ticks since sigalarm, or since the last sigreturn from the handler. -/
  since : Nat
  running : Bool

def Watch.next (sys : Nat → Mem → Nat × Mem) (w : Watch) (e : Ev) : Watch :=
  match e with
  | .tick => ⟨step sys w.s e, w.since + 1, w.running || fires w.s⟩
  | .ecall =>
    if sysnum w.s = SYS_sigreturn ∧ w.running = true then ⟨step sys w.s e, 0, false⟩
    else ⟨step sys w.s e, w.since, w.running⟩
  | .other _ => ⟨step sys w.s e, w.since, w.running⟩

/-- `k` ticks and nothing else. -/
def Watch.ticks (sys : Nat → Mem → Nat × Mem) (w : Watch) : Nat → Watch
  | 0 => w
  | k + 1 => (w.ticks sys k).next sys .tick

/-- The next tick enters `h` if it is the `n`-th, and no handler otherwise. -/
def Watch.Due (n h : Nat) (w : Watch) : Prop :=
  (fires w.s = true ↔ w.running = false ∧ w.since + 1 = n) ∧ (fires w.s = true → (timer w.s).get EPC = h)

/-- So it is for the next tick and, while no handler runs, for all up to the `n`-th. -/
def Watch.Prompt (sys : Nat → Mem → Nat × Mem) (n h : Nat) (w : Watch) : Prop :=
  w.Due n h ∧ (w.running = false → ∀ k, w.since + k < n → (w.ticks sys k).Due n h)

/-- At every point of a continuation. -/
def OnTime (sys : Nat → Mem → Nat × Mem) (n h : Nat) (w : Watch) : List Ev → Prop
  | [] => w.Prompt sys n h
  | e :: es => w.Prompt sys n h ∧ OnTime sys n h (w.next sys e) es

/-- No further sigalarm. -/
def Unarmed (sys : Nat → Mem → Nat × Mem) (w : Watch) : List Ev → Prop
  | [] => True
  | e :: es => (e = .ecall → sysnum w.s ≠ SYS_sigalarm) ∧ Unarmed sys (w.next sys e) es

/-- A running handler has not taken 2^32 ticks. -/
def Watch.Brief (n : Nat) (w : Watch) : Prop := w.running = true → w.since + 1 < 2 ^ 32 + n

/-- A sigreturn comes from the handler, is refused, or finds no tick counted. -/
def Watch.Returns (w : Watch) (e : Ev) : Prop :=
  e = .ecall → sysnum w.s = SYS_sigreturn → w.running = true ∨ w.s.p.trapframecopy ≠ copyAddr w.s.p.trapframe ∨
    w.s.p.passedticks = 0

def Sound (sys : Nat → Mem → Nat × Mem) (n : Nat) (w : Watch) : List Ev → Prop
  | [] => w.Brief n
  | e :: es => w.Brief n ∧ w.Returns e ∧ Sound sys n (w.next sys e) es

theorem OnTime.prompt {n h : Nat} {w : Watch} {es : List Ev} (ho : OnTime sys n h w es) : w.Prompt sys n h := by
  cases es with
  | nil => exact ho
  | cons e es => exact ho.1

theorem Sound.brief {n : Nat} {w : Watch} {es : List Ev} (hs : Sound sys n w es) : w.Brief n := by
  cases es with
  | nil => exact hs
  | cons e es => exact hs.1

/-! ## The count -/

theorem step_tick : step sys s .tick = timer s := by rw [step]

theorem step_ecall : step sys s .ecall = ecall sys s := by rw [step]

theorem step_other (m : Mem) : step sys s (.other m) = { s with mem := m } := by rw [step]

theorem Watch.next_tick (w : Watch) : w.next sys .tick = ⟨timer w.s, w.since + 1, w.running || fires w.s⟩ := by
  rw [Watch.next, step_tick]

theorem Watch.next_sigreturn {w : Watch} (h : sysnum w.s = SYS_sigreturn) (hr : w.running = true) :
    w.next sys .ecall = ⟨ecall sys w.s, 0, false⟩ := by
  unfold Watch.next
  dsimp only
  rw [if_pos ⟨h, hr⟩, step_ecall]

theorem Watch.next_ecall {w : Watch} (h : ¬ (sysnum w.s = SYS_sigreturn ∧ w.running = true)) :
    w.next sys .ecall = ⟨ecall sys w.s, w.since, w.running⟩ := by
  unfold Watch.next
  dsimp only
  rw [if_neg h, step_ecall]

theorem fires_iff (s : State) : fires s = true ↔ s.p.alarmticks ≠ 0 ∧ u32 (s.p.passedticks + 1) = s.p.alarmticks := by
  simp [fires]

theorem ecall_sigalarm (h : sysnum s = SYS_sigalarm) :
    (ecall sys s).p = { s.p with alarmticks := u32 (s.get A0), handler := s.get A1 } := by
  rw [ecall, syscall_sigalarm (by rw [sysnum_skipEcall]; exact h), put_p]
  dsimp only [sys_sigalarm]
  rw [skipEcall, put_get_ne (by decide), put_get_ne (by decide), put_p]

theorem ecall_sigreturn (h : sysnum s = SYS_sigreturn) (hc : s.p.trapframecopy = copyAddr s.p.trapframe) :
    (ecall sys s).p = { s.p with passedticks := 0 } := by
  rw [ecall, syscall_sigreturn (by rw [sysnum_skipEcall]; exact h), put_p]
  unfold sys_sigreturn
  rw [if_neg (by rw [skipEcall_p]; exact fun hn => hn hc)]
  rfl

/-- Other system calls, and a sigreturn that is refused, leave the alarm alone. -/
theorem ecall_same (h1 : sysnum s ≠ SYS_sigalarm)
    (h2 : sysnum s = SYS_sigreturn → s.p.trapframecopy ≠ copyAddr s.p.trapframe) :
    (ecall sys s).p = s.p := by
  by_cases hr : sysnum s = SYS_sigreturn
  · rw [ecall, syscall_sigreturn (by rw [sysnum_skipEcall]; exact hr), put_p]
    unfold sys_sigreturn
    rw [if_pos (by rw [skipEcall_p]; exact h2 hr), skipEcall_p]
  · obtain ⟨m, r, e, -⟩ := syscall_other sys (s := skipEcall s) (by rw [sysnum_skipEcall]; exact h1)
      (by rw [sysnum_skipEcall]; exact hr)
    rw [ecall, e, put_p, skipEcall_p]

theorem timer_p (h : s.p.alarmticks ≠ 0) : (timer s).p.passedticks = u32 (s.p.passedticks + 1) ∧
    (timer s).p.alarmticks = s.p.alarmticks ∧ (timer s).p.handler = s.p.handler ∧
    (timer s).p.trapframe = s.p.trapframe ∧
    (timer s).p.trapframecopy = if fires s = true then copyAddr s.p.trapframe else s.p.trapframecopy := by
  by_cases hf : u32 (s.p.passedticks + 1) = s.p.alarmticks
  · have hfire : fires s = true := (fires_iff s).mpr ⟨h, hf⟩
    rw [timer_fires hfire, put_p, if_pos hfire]
    exact ⟨rfl, rfl, rfl, rfl, rfl⟩
  · have hquiet : ¬ fires s = true := fun hfire => hf ((fires_iff s).mp hfire).2
    rw [if_neg hquiet]
    unfold timer
    rw [if_pos h]
    dsimp only
    rw [if_neg hf]
    exact ⟨rfl, rfl, rfl, rfl, rfl⟩

theorem fires_handler (h : fires s = true) (hh : s.p.handler < 2 ^ 64) : (timer s).get EPC = s.p.handler := by
  rw [timer_fires h]
  exact put_get hh

/-! ## Armed with the count at 0 -/

/-- While no handler runs the count is below the interval; the handler's ticks take it past. -/
structure Watch.Inv (n h : Nat) (w : Watch) : Prop where
  ticks : w.s.p.alarmticks = n
  handler : w.s.p.handler = h
  count : w.s.p.passedticks = u32 w.since
  before : w.running = false → w.since < n
  past : w.running = true → n ≤ w.since
  copy : w.running = true → w.s.p.trapframecopy = copyAddr w.s.p.trapframe

section

variable {n h : Nat} {w : Watch}

theorem Watch.Inv.fires_iff (hw : w.Inv n h) (hn : 0 < n) : fires w.s = true ↔ u32 (w.since + 1) = n := by
  have hu : u32 (u32 w.since + 1) = u32 (w.since + 1) := by
    unfold u32
    omega
  rw [Traps.fires_iff, hw.ticks, hw.count, hu]
  exact ⟨fun hf => hf.2, fun hf => ⟨by omega, hf⟩⟩

theorem Watch.Inv.due (hw : w.Inv n h) (hn : 0 < n) (hn' : n < 2 ^ 31) (hh : h < 2 ^ 64) (hb : w.Brief n) :
    w.Due n h := by
  refine ⟨(hw.fires_iff hn).trans ?_, fun hf => ?_⟩
  · cases hr : w.running with
    | false =>
      have := hw.before hr
      rw [show u32 (w.since + 1) = w.since + 1 from Nat.mod_eq_of_lt (by omega)]
      exact ⟨fun e => ⟨rfl, e⟩, fun e => e.2⟩
    | true =>
      have h1 := hw.past hr
      have h2 := hb hr
      refine iff_of_false (fun e => ?_) fun e => Bool.false_ne_true e.1.symm
      unfold u32 at e
      omega
  · rw [fires_handler hf (by rw [hw.handler]; exact hh), hw.handler]

/-- After 2^32 ticks of the handler the next one enters it again. -/
theorem Watch.Inv.brief (hw : w.Inv n h) (hn : 0 < n) (hn' : n < 2 ^ 31)
    (hle : w.running = true → w.since + 1 ≤ 2 ^ 32 + n) (hd : w.Due n h) :
    w.Brief n := by
  intro hr
  have h1 := hle hr
  by_contra hge
  have he : w.since + 1 = 2 ^ 32 + n := by omega
  have hf : fires w.s = true := (hw.fires_iff hn).mpr (by rw [he]; unfold u32; omega)
  rw [(hd.1.mp hf).1] at hr
  cases hr

theorem Watch.Inv.tick (hw : w.Inv n h) (hn : 0 < n) (hn' : n < 2 ^ 31) (hh : h < 2 ^ 64) (hb : w.Brief n) :
    (w.next sys .tick).Inv n h := by
  obtain ⟨h1, h2, h3, h4, h5⟩ := timer_p (s := w.s) (by rw [hw.ticks]; omega)
  have hdue := (hw.due hn hn' hh hb).1
  have hrun : (w.running || fires w.s) = true ↔ w.running = true ∨ w.since + 1 = n := by
    rw [Bool.or_eq_true, hdue]
    cases w.running <;> simp
  rw [Watch.next_tick]
  refine ⟨h2.trans hw.ticks, h3.trans hw.handler, ?_, fun hr => ?_, fun hr => ?_, fun hr => ?_⟩
  · dsimp only
    rw [h1, hw.count]
    unfold u32
    omega
  · dsimp only at hr ⊢
    have hno : ¬ (w.running = true ∨ w.since + 1 = n) := fun h => by rw [hrun.mpr h] at hr; cases hr
    have := hw.before (by cases h : w.running <;> simp_all)
    omega
  · dsimp only at hr ⊢
    rcases hrun.mp hr with h | h
    · have := hw.past h
      omega
    · omega
  · dsimp only at hr ⊢
    rw [h5, h4]
    split
    · rfl
    · rename_i hf
      refine hw.copy ?_
      rcases hrun.mp hr with h | h
      · exact h
      · cases hr' : w.running with
        | true => rfl
        | false => exact absurd (hdue.mpr ⟨hr', h⟩) hf

/-- A sigreturn from the handler, or one that changes nothing. -/
theorem Watch.Inv.ecall (hw : w.Inv n h) (hn : 0 < n) (ha : sysnum w.s ≠ SYS_sigalarm) (hret : w.Returns .ecall) :
    (w.next sys .ecall).Inv n h := by
  by_cases hr : sysnum w.s = SYS_sigreturn ∧ w.running = true
  · rw [Watch.next_sigreturn hr.1 hr.2]
    have hp : (Traps.ecall sys w.s).p = { w.s.p with passedticks := 0 } := ecall_sigreturn hr.1 (hw.copy hr.2)
    refine ⟨?_, ?_, ?_, fun _ => hn, fun h => absurd h Bool.false_ne_true, fun h => absurd h Bool.false_ne_true⟩
    · dsimp only
      rw [hp]
      exact hw.ticks
    · dsimp only
      rw [hp]
      exact hw.handler
    · dsimp only
      rw [hp]
      rfl
  · rw [Watch.next_ecall hr]
    have hp : (Traps.ecall sys w.s).p = w.s.p := by
      by_cases hs : sysnum w.s = SYS_sigreturn ∧ w.s.p.trapframecopy = copyAddr w.s.p.trapframe
      · rcases hret rfl hs.1 with h' | h' | h'
        · exact absurd ⟨hs.1, h'⟩ hr
        · exact absurd hs.2 h'
        · rw [ecall_sigreturn hs.1 hs.2, ← h']
      · exact ecall_same ha fun h e => hs ⟨h, e⟩
    refine ⟨?_, ?_, ?_, hw.before, hw.past, ?_⟩
    · dsimp only
      rw [hp]
      exact hw.ticks
    · dsimp only
      rw [hp]
      exact hw.handler
    · dsimp only
      rw [hp]
      exact hw.count
    · dsimp only
      rw [hp]
      exact hw.copy

theorem Watch.Inv.next (hw : w.Inv n h) (hn : 0 < n) (hn' : n < 2 ^ 31) (hh : h < 2 ^ 64) (hb : w.Brief n) (e : Ev)
    (ha : e = .ecall → sysnum w.s ≠ SYS_sigalarm) (hret : w.Returns e) : (w.next sys e).Inv n h := by
  cases e with
  | tick => exact hw.tick hn hn' hh hb
  | ecall => exact hw.ecall hn (ha rfl) hret
  | other m =>
    rw [Watch.next, step_other]
    exact ⟨hw.ticks, hw.handler, hw.count, hw.before, hw.past, hw.copy⟩

/-- A step takes the ticks of a running handler up by one at most. -/
theorem Watch.Brief.next (hw : w.Inv n h) (hb : w.Brief n) (e : Ev) :
    (w.next sys e).running = true → (w.next sys e).since + 1 ≤ 2 ^ 32 + n := by
  have hle : w.since + 1 < 2 ^ 32 + n := by
    cases hr : w.running with
    | false =>
      have := hw.before hr
      omega
    | true => exact hb hr
  intro hr
  cases e with
  | tick => exact hle
  | ecall =>
    by_cases hs : sysnum w.s = SYS_sigreturn ∧ w.running = true
    · rw [Watch.next_sigreturn hs.1 hs.2] at hr
      cases hr
    · rw [Watch.next_ecall hs]
      exact Nat.le_of_lt hle
  | other m => exact Nat.le_of_lt hle

/-- Ticks alone, up to the `n`-th. -/
theorem Watch.Inv.prompt (hw : w.Inv n h) (hn : 0 < n) (hn' : n < 2 ^ 31) (hh : h < 2 ^ 64) (hb : w.Brief n) :
    w.Prompt sys n h := by
  refine ⟨hw.due hn hn' hh hb, fun hr k hk => ?_⟩
  have hrun : ∀ j, w.since + j < n → (w.ticks sys j).Inv n h ∧ (w.ticks sys j).running = false ∧
    (w.ticks sys j).since = w.since + j := by
    intro j
    induction j with
    | zero => exact fun _ => ⟨hw, hr, rfl⟩
    | succ j ih =>
      intro hj
      obtain ⟨hi, hr', hs⟩ := ih (by omega)
      have hbj : (w.ticks sys j).Brief n := fun h => by
        rw [hr'] at h
        cases h
      have hq : fires (w.ticks sys j).s = false := by
        cases hf : fires (w.ticks sys j).s with
        | false => rfl
        | true =>
          have := ((hi.due hn hn' hh hbj).1.mp hf).2
          omega
      refine ⟨hi.tick hn hn' hh hbj, ?_, ?_⟩
      · rw [Watch.ticks, Watch.next_tick, hr', hq]
        rfl
      · rw [Watch.ticks, Watch.next_tick, hs]
        rfl
  obtain ⟨hi, hr', -⟩ := hrun k hk
  exact hi.due hn hn' hh fun h => by
    rw [hr'] at h
    cases h

/-! ## Armed with any count -/

/-- Ticks alone, up to the one that should fire: the count and the interval are apart by what
    is left. -/
theorem Watch.Prompt.count (hn : 0 < n) (hn' : n < 2 ^ 31) (ha : w.s.p.alarmticks = n) (hr : w.running = false)
    (hlt : w.since < n) (hp : w.Prompt sys n h) : u32 (w.s.p.passedticks + (n - w.since)) = n := by
  have hrun : ∀ j, w.since + j < n → (w.ticks sys j).running = false ∧ (w.ticks sys j).since = w.since + j ∧
    (w.ticks sys j).s.p.alarmticks = n ∧
      u32 (w.ticks sys j).s.p.passedticks = u32 (w.s.p.passedticks + j) := by
    intro j
    induction j with
    | zero => exact fun _ => ⟨hr, rfl, ha, rfl⟩
    | succ j ih =>
      intro hj
      obtain ⟨hr', hs, ha', hc⟩ := ih (by omega)
      have hq : fires (w.ticks sys j).s = false := by
        cases hf : fires (w.ticks sys j).s with
        | false => rfl
        | true =>
          have := ((hp.2 hr j (by omega)).1.mp hf).2
          omega
      obtain ⟨h1, h2, -⟩ := timer_p (s := (w.ticks sys j).s) (by rw [ha']; omega)
      rw [Watch.ticks, Watch.next_tick]
      refine ⟨?_, ?_, h2.trans ha', ?_⟩
      · dsimp only
        rw [hr', hq]
        rfl
      · dsimp only
        rw [hs]
        rfl
      · dsimp only
        rw [h1]
        unfold u32 at hc ⊢
        omega
  obtain ⟨hr', hs, ha', hc⟩ := hrun (n - w.since - 1) (by omega)
  have hf := ((Traps.fires_iff _).mp ((hp.2 hr (n - w.since - 1) (by omega)).1.mpr ⟨hr', by rw [hs]; omega⟩)).2
  rw [ha'] at hf
  unfold u32 at hf hc ⊢
  omega

/-- Not with the count at 0 after some ticks. -/
theorem not_prompt (hn : 0 < n) (hn' : n < 2 ^ 31) (ha : w.s.p.alarmticks = n) (hz : w.s.p.passedticks = 0)
    (hr : w.running = false) (hlt : w.since < n) (h0 : 0 < w.since) : ¬ w.Prompt sys n h := by
  intro hp
  have hc := hp.count hn hn' ha hr hlt
  rw [hz, Nat.zero_add, show u32 (n - w.since) = n - w.since from Nat.mod_eq_of_lt (by omega)] at hc
  omega

/-- A sigreturn that is none of the handler's puts the alarm off. -/
theorem Watch.Inv.stray (hw : w.Inv n h) (hn : 0 < n) (hn' : n < 2 ^ 31) {e : Ev} (hret : ¬ w.Returns e) :
    ¬ (w.next sys e).Prompt sys n h := by
  unfold Watch.Returns at hret
  push Not at hret
  obtain ⟨rfl, hs, hr, hcopy, hcount⟩ := hret
  have hr : w.running = false := by simpa using hr
  have hp0 : (Traps.ecall sys w.s).p = { w.s.p with passedticks := 0 } := ecall_sigreturn hs hcopy
  have hpos : 0 < w.since := by
    by_contra hge
    refine hcount ?_
    rw [hw.count, Nat.eq_zero_of_not_pos hge, u32, Nat.zero_mod]
  rw [Watch.next_ecall fun h' => by rw [hr] at h'; cases h'.2]
  exact not_prompt hn hn' (by dsimp only; rw [hp0]; exact hw.ticks) (by dsimp only; rw [hp0]) hr (hw.before hr) hpos

theorem Watch.Inv.on_time_iff (hn : 0 < n) (hn' : n < 2 ^ 31) (hh : h < 2 ^ 64) {es : List Ev} :
    ∀ {w : Watch}, w.Inv n h → w.Brief n →
    Unarmed sys w es → (OnTime sys n h w es ↔ Sound sys n w es) := by
  induction es with
  | nil => exact fun hw hb _ => iff_of_true (hw.prompt hn hn' hh hb) hb
  | cons e es ih =>
    intro w hw hb hes
    by_cases hret : w.Returns e
    · have hw' : (w.next sys e).Inv n h := hw.next hn hn' hh hb e hes.1 hret
      by_cases hb' : (w.next sys e).Brief n
      · exact ⟨fun ho => ⟨hb, hret, (ih hw' hb' hes.2).mp ho.2⟩,
          fun hs => ⟨hw.prompt hn hn' hh hb, (ih hw' hb' hes.2).mpr hs.2.2⟩⟩
      · exact iff_of_false (fun ho => hb' (hw'.brief hn hn' (hb.next hw e) ho.2.prompt.1)) fun hs => hb' hs.2.2.brief
    · exact iff_of_false (fun ho => hw.stray hn hn' hret ho.2.prompt) fun hs => hret hs.2.1

end

/-- The count stays an int in every history. -/
theorem Runs.small {ok : Trace → Ev → Prop} {c : Trace} (h : Runs sys ok c) : c.s.p.passedticks < 2 ^ 32 := by
  induction h with
  | fresh => exact Nat.two_pow_pos 32
  | @next c e _ _ ih =>
    rw [Trace.next_s]
    cases e with
    | tick =>
      rw [step_tick]
      cases hf : fires c.s with
      | true =>
        rw [timer_fires hf]
        exact u32_lt _
      | false =>
        rw [(timer_quiet hf).2.2.2.2]
        split
        · exact u32_lt _
        · exact ih
    | ecall =>
      rw [step_ecall]
      by_cases ha : sysnum c.s = SYS_sigalarm
      · rw [ecall_sigalarm ha]
        exact ih
      · by_cases hr : sysnum c.s = SYS_sigreturn ∧ c.s.p.trapframecopy = copyAddr c.s.p.trapframe
        · rw [ecall_sigreturn hr.1 hr.2]
          exact Nat.two_pow_pos 32
        · rw [ecall_same ha fun h e => hr ⟨h, e⟩]
          exact ih
    | other m =>
      rw [step_other]
      exact ih

/-- After any history: in what follows `sigalarm(n, h)` without another sigalarm, the alarm is on
    time at every point exactly if the call finds the count at 0, no sigreturn is accepted
    outside the handler once a tick is counted, and no handler takes 2^32 ticks. -/
theorem alarm_on_time {c : Trace} (hc : Runs sys (fun _ _ => True) c) (ha : sysnum c.s = SYS_sigalarm)
    (hn : 0 < int32 (u32 (c.s.get A0))) {es : List Ev} (hes : Unarmed sys ⟨ecall sys c.s, 0, false⟩ es) :
    OnTime sys (u32 (c.s.get A0)) (c.s.get A1) ⟨ecall sys c.s, 0, false⟩ es ↔
      c.s.p.passedticks = 0 ∧ Sound sys (u32 (c.s.get A0)) ⟨ecall sys c.s, 0, false⟩ es := by
  have hp : (ecall sys c.s).p = _ := ecall_sigalarm ha
  have hlt := u32_lt (c.s.get A0)
  have hn1 : 0 < u32 (c.s.get A0) ∧ u32 (c.s.get A0) < 2 ^ 31 := by
    unfold int32 at hn
    split at hn <;> omega
  have hinv : c.s.p.passedticks = 0 → Watch.Inv (u32 (c.s.get A0)) (c.s.get A1) ⟨ecall sys c.s, 0, false⟩ :=
    fun h0 => by
    refine ⟨?_, ?_, ?_, fun _ => hn1.1, fun h => absurd h Bool.false_ne_true, fun h => absurd h Bool.false_ne_true⟩
    · rw [hp]
    · rw [hp]
    · rw [hp]
      exact h0
  have hbrief : Watch.Brief (u32 (c.s.get A0)) ⟨ecall sys c.s, 0, false⟩ := fun h => absurd h Bool.false_ne_true
  have hiff : c.s.p.passedticks = 0 → (OnTime sys (u32 (c.s.get A0)) (c.s.get A1) ⟨ecall sys c.s, 0, false⟩ es ↔
      Sound sys (u32 (c.s.get A0)) ⟨ecall sys c.s, 0, false⟩ es) :=
        fun h0 => (hinv h0).on_time_iff hn1.1 hn1.2 (get_lt c.s A1) hbrief hes
  constructor
  · intro ho
    have hcount := ho.prompt.count hn1.1 hn1.2 (by dsimp only; rw [hp]) rfl hn1.1
    have h0 : c.s.p.passedticks = 0 := by
      have hsmall := hc.small
      dsimp only at hcount
      rw [hp] at hcount
      dsimp only at hcount
      generalize u32 (c.s.get A0) = n at *
      unfold u32 at hcount
      omega
    exact ⟨h0, (hiff h0).mp ho⟩
  · intro hs
    exact (hiff hs.1).mpr hs.2

/-- sigalarm(2, 0x2000) as the first call of a process, and two ticks. -/
theorem alarm_on_time_first : OnTime (fun _ m => (0, m)) 2 0x2000
    ⟨ecall (fun _ m => (0, m)) ⟨calling SYS_sigalarm 2 0x2000, ⟨0x87f00000, 0, 0, 0, 0⟩⟩, 0, false⟩
      [.tick, .tick] := by
  have h : Runs (fun _ m => (0, m)) (fun _ _ => True) _ := .fresh (calling SYS_sigalarm 2 0x2000) 0x87f00000 0
  have h2 : u32 (State.get ⟨calling SYS_sigalarm 2 0x2000, ⟨0x87f00000, 0, 0, 0, 0⟩⟩ A0) = 2 := by decide
  have h3 : State.get ⟨calling SYS_sigalarm 2 0x2000, ⟨0x87f00000, 0, 0, 0, 0⟩⟩ A1 = 0x2000 := by decide
  have hno : ∀ {p : Prop}, Ev.tick = Ev.ecall → p := fun e => by cases e
  have hes : Unarmed (fun _ m => (0, m)) ⟨ecall (fun _ m => (0, m)) ⟨calling SYS_sigalarm 2 0x2000,
    ⟨0x87f00000, 0, 0, 0, 0⟩⟩, 0, false⟩ [.tick, .tick] :=
    ⟨hno, hno, trivial⟩
  have := (alarm_on_time h (by decide) (by decide) hes).mpr ⟨rfl, fun _ => by decide, hno, fun _ => by decide, hno,
    fun _ => by decide⟩
  rw [h2, h3] at this
  exact this

/-- sigalarm(2, h), a tick, sigalarm(1, h): the next tick does not enter the handler. -/
theorem rearmed_alarm_is_late : ¬ ∀ (sys : Nat → Mem → Nat × Mem) (c : Trace) (es : List Ev),
    Runs sys (fun _ _ => True) c → c.outstanding = false →
    sysnum c.s = SYS_sigalarm → 0 < int32 (u32 (c.s.get A0)) → Unarmed sys ⟨ecall sys c.s, 0, false⟩ es →
    OnTime sys (u32 (c.s.get A0)) (c.s.get A1) ⟨ecall sys c.s, 0, false⟩ es := by
  intro h
  let sys : Nat → Mem → Nat × Mem := fun _ m => (0, m)
  let c0 : Trace := ⟨⟨calling SYS_sigalarm 2 0x2000, ⟨0x87f00000, 0, 0, 0, 0⟩⟩, []⟩
  let c1 := ((c0.next sys .ecall).next sys .tick).next sys (.other (calling SYS_sigalarm 1 0x2000))
  have r0 : Runs sys (fun _ _ => True) c0 := .fresh ..
  have r1 : Runs sys (fun _ _ => True) c1 := .next _ (.next _ (.next _ r0 trivial) trivial) trivial
  have := (h sys c1 [] r1 (by decide) (by decide) (by decide) trivial).1.1.mpr (by decide)
  revert this
  decide

end Xv6Labs.Traps
