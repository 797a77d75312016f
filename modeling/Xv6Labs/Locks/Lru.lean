/-
  Xv6Labs.Locks.Lru — which buffer bget reuses.

  `released` is the tick at which the count of a buffer was last brought to 0, by brelse or by
  bunpin; nothing reads it. The victim scan goes by `lastuse_time`, which brelse sets and bunpin
  does not.

  - `evicts_oldest`: as long as no bunpin brings a count to 0, and the clock does not wrap, bget
    reuses the buffer that was released first.
  - `bunpin_unstamped`: a buffer released by bunpin is reused before one released earlier.
-/

import Xv6Labs.Locks.Bio

namespace Xv6Labs.Bio

variable {Data : Type}

/-- The cache with the clock. A buffer that was never in use was released at boot. -/
structure Timed (Data : Type) where
  s : Cache Data
  now : Nat
  released : Nat → Nat

inductive Ev (Data : Type) where
  | tick
  | bread (dev blockno : Nat)
  | write (b : Nat) (d : Data)
  | brelse (b : Nat)
  | bpin (b : Nat)
  | bunpin (b : Nat)

/-- The count of `b` went down: if it is 0 now, the buffer is released now. -/
def Timed.drop (x : Timed Data) (b : Nat) (s : Cache Data) : Timed Data :=
  { x with s := s, released := if (s.c.buf b).refcnt = 0 then Function.update x.released b x.now else x.released }

/-- `ticks` is a uint. -/
def Timed.step (x : Timed Data) : Ev Data → Except String (Timed Data)
  | .tick => .ok { x with now := x.now + 1 }
  | .bread dev blockno =>
    match bread dev blockno x.s with
    | .ok (_, s) => .ok { x with s := s }
    | .error e => .error e
  | .write b d =>
    match bwrite b { x.s with data := Function.update x.s.data b d } with
    | .ok s => .ok { x with s := s }
    | .error e => .error e
  | .brelse b =>
    match brelse (Lib.u32 x.now) b x.s with
    | .ok s => .ok (x.drop b s)
    | .error e => .error e
  | .bpin b => .ok { x with s := bpin b x.s }
  | .bunpin b => .ok (x.drop b (bunpin b x.s))

def Timed.start (data : Nat → Data) (disk : Nat × Nat → Data) : Timed Data :=
  ⟨⟨binit, data, fun _ => none, disk⟩, 0, fun _ => 0⟩

/-- The events that the time stamps can stand: a bunpin that leaves a reference, a tick that does
    not wrap. -/
def Calm (x : Timed Data) : Ev Data → Prop
  | .tick => x.now + 1 < 2 ^ 32
  | .bunpin b => ((decref b x.s.c).buf b).refcnt ≠ 0
  | _ => True

/-- The states of runs whose steps are all calm. -/
inductive Reached (data : Nat → Data) (disk : Nat × Nat → Data) : Timed Data → Prop where
  | start : Reached data disk (.start data disk)
  | step {x x' : Timed Data} (e : Ev Data) : Reached data disk x → Calm x e → x.step e = .ok x' → Reached data disk x'

/-- What bget does for a block that is not cached. -/
structure Evicts (x : Timed Data) (dev blockno : Nat) : Prop where
  free : ∀ b c, bget dev blockno x.s.c = .ok (b, c) → b < NBUF ∧ (x.s.c.buf b).refcnt = 0
  oldest : ∀ b c, bget dev blockno x.s.c = .ok (b, c) → ∀ b' < NBUF, (x.s.c.buf b').refcnt = 0 →
    x.released b ≤ x.released b'
  others : ∀ b c, bget dev blockno x.s.c = .ok (b, c) → ∀ b', b' ≠ b → c.buf b' = x.s.c.buf b' ∧ ∀ k,
    b' ∈ c.bucket k ↔ b' ∈ x.s.c.bucket k
  panics : bget dev blockno x.s.c = .error "bget: No buffer." ↔ ∀ b < NBUF, (x.s.c.buf b).refcnt ≠ 0

/-! ## The scan -/

variable {c c' : Bcache} {x x' : Timed Data} {b dev blockno : Nat}

/-- The scan has the first of the free buffers it has passed with the smallest time. -/
structure Scan.Oldest (c : Bcache) (seen : Nat → Prop) (sc : Scan) : Prop where
  time : ∀ b, sc.ans = some b → (c.buf b).lastuse_time = sc.min_lastuse_time
  least : ∀ b, seen b → (c.buf b).refcnt = 0 → sc.ans ≠ none ∧ sc.min_lastuse_time ≤ (c.buf b).lastuse_time

theorem scanLoop_oldest {i : Nat} {seen : Nat → Prop} (l : List Nat) {sc : Scan} (h : sc.Oldest c seen) :
    (scanLoop c i l sc).Oldest c fun b => seen b ∨ b ∈ l := by
  induction l generalizing seen sc with
  | nil => simpa [scanLoop] using h
  | cons b l ih =>
    have hmem : (fun x => (seen x ∨ x = b) ∨ x ∈ l) = fun x => seen x ∨ x ∈ b :: l := by
      funext x
      rw [List.mem_cons, or_assoc]
    rw [← hmem]
    unfold scanLoop
    split
    next h0 =>
      refine ih ⟨fun x e => by rw [← Option.some.inj e], fun x hx hfree => ⟨Option.some_ne_none b, ?_⟩⟩
      rcases hx with hx | rfl
      · exact absurd h0.2 (h.least x hx hfree).1
      · exact Nat.le_refl _
    next h0 =>
      split
      next h1 =>
        refine ih ⟨fun x e => by rw [← Option.some.inj e], fun x hx hfree => ⟨Option.some_ne_none b, ?_⟩⟩
        rcases hx with hx | rfl
        · exact Nat.le_of_lt (Nat.lt_of_lt_of_le h1.2 (h.least x hx hfree).2)
        · exact Nat.le_refl _
      next h1 =>
        refine ih ⟨h.time, fun x hx hfree => ?_⟩
        rcases hx with hx | rfl
        · exact h.least x hx hfree
        · exact ⟨fun e => h0 ⟨hfree, e⟩, Nat.not_lt.mp fun hlt => h1 ⟨hfree, hlt⟩⟩

theorem scan_oldest (n i : Nat) {seen : Nat → Prop} {sc : Scan} (h : sc.Oldest c seen) :
    (scan c n i sc).Oldest c fun b => seen b ∨ ∃ k, i ≤ k ∧ k < i + n ∧ b ∈ c.bucket k := by
  induction n generalizing i seen sc with
  | zero =>
    unfold scan
    refine ⟨h.time, fun b hb => h.least b (hb.resolve_right fun hk => ?_)⟩
    obtain ⟨k, h1, h2, -⟩ := hk
    exact absurd h2 (Nat.not_lt.mpr h1)
  | succ n ih =>
    have h1 := ih (i + 1) (scanLoop_oldest (i := i) (c.bucket i) h)
    refine ⟨h1.time, fun b hb => h1.least b ?_⟩
    rcases hb with hb | ⟨k, hk1, hk2, hb⟩
    · exact Or.inl (Or.inl hb)
    · by_cases e : k = i
      · exact Or.inl (Or.inr (e ▸ hb))
      · exact Or.inr ⟨k, by omega, by omega, hb⟩

/-- A miss reuses what the scan found. -/
theorem bget_miss (hl : lookup c dev blockno = none) (h : bget dev blockno c = .ok (b, c')) :
    (scan c NBUCKET 0 .start).ans = some b := by
  unfold bget at h
  simp only [hl] at h
  split at h
  next ans t owner hs =>
    rw [hs]
    split at h <;>
    · obtain ⟨rfl, -⟩ := Prod.mk.inj (Except.ok.inj h)
      rfl
  next => cases h

/-! ## The time stamps -/

/-- Time stamps are the ticks of the releases, and every buffer is on a bucket. -/
structure Stamped (x : Timed Data) : Prop where
  time : ∀ b, (x.s.c.buf b).lastuse_time = x.released b
  now : x.now < 2 ^ 32
  placed : ∀ b, b < NBUF ↔ ∃ k < NBUCKET, b ∈ x.s.c.bucket k

/-- What keeps the stamps where they are. -/
theorem Stamped.congr (h : Stamped x) {s : Cache Data}
    (ht : ∀ b, (s.c.buf b).lastuse_time = (x.s.c.buf b).lastuse_time)
    (hp : ∀ b, (∃ k < NBUCKET, b ∈ s.c.bucket k) ↔ ∃ k < NBUCKET, b ∈ x.s.c.bucket k) : Stamped { x with s := s } :=
  ⟨fun b => (ht b).trans (h.time b), h.now, fun b => (h.placed b).trans (hp b).symm⟩

theorem lastuse_set {y : Buf} (hy : y.lastuse_time = (c.buf b).lastuse_time) (a : Nat) :
    ((c.set b y).buf a).lastuse_time = (c.buf a).lastuse_time := by
  by_cases e : a = b
  · subst e
    rw [set_buf_self, hy]
  · rw [set_buf_ne c y e]

theorem bget_lastuse (h : bget dev blockno c = .ok (b, c')) (a : Nat) :
    (c'.buf a).lastuse_time = (c.buf a).lastuse_time := by
  unfold bget at h
  split at h
  next =>
    obtain ⟨-, rfl⟩ := Prod.mk.inj (Except.ok.inj h)
    exact lastuse_set (by rfl) a
  next =>
    split at h
    next =>
      obtain ⟨-, rfl⟩ := Prod.mk.inj (Except.ok.inj h)
      exact lastuse_set (by rfl) a
    next =>
      split at h
      next =>
        split at h <;>
        · obtain ⟨-, rfl⟩ := Prod.mk.inj (Except.ok.inj h)
          exact lastuse_set (by rfl) a
      next => cases h

theorem bget_placed (h : bget dev blockno c = .ok (b, c')) (a : Nat) : (∃ k < NBUCKET, a ∈ c'.bucket k) ↔
    ∃ k < NBUCKET, a ∈ c.bucket k := by
  rcases bget_cases dev blockno c with ⟨b1, -, e⟩ | ⟨-, b1, c1, e, hr⟩ | ⟨-, e, -⟩
  · rw [e] at h
    obtain ⟨-, rfl⟩ := Prod.mk.inj (Except.ok.inj h)
    exact Iff.rfl
  · rw [e] at h
    obtain ⟨rfl, rfl⟩ := Prod.mk.inj (Except.ok.inj h)
    by_cases ea : a = b1
    · subst ea
      exact ⟨fun _ => hr.was, fun _ => ⟨_, Nat.mod_lt _ (by decide), hr.home⟩⟩
    · exact exists_congr fun k => and_congr_right fun _ => hr.lists a ea k
  · rw [e] at h
    cases h

/-- bread is bget, and marks the buffer. -/
theorem bread_bget {s s' : Cache Data} (h : bread dev blockno s = .ok (b, s')) :
    ∃ c, bget dev blockno s.c = .ok (b, c) ∧ s'.c.bucket = c.bucket ∧
    ∀ a, (s'.c.buf a).lastuse_time = (c.buf a).lastuse_time := by
  unfold bread at h
  split at h
  next => cases h
  next b1 c hg =>
    split at h
    next => cases h
    next =>
      simp only at h
      split at h
      next =>
        obtain ⟨rfl, rfl⟩ := Prod.mk.inj (Except.ok.inj h)
        exact ⟨c, hg, rfl, fun _ => rfl⟩
      next =>
        obtain ⟨rfl, rfl⟩ := Prod.mk.inj (Except.ok.inj h)
        exact ⟨c, hg, rfl, fun a => lastuse_set (c := c) (by rfl) a⟩

theorem unref_spec (ticks b : Nat) (c : Bcache) (a : Nat) : ((unref ticks b c).buf a).lastuse_time =
    if a = b ∧ ((unref ticks b c).buf b).refcnt = 0 then ticks else (c.buf a).lastuse_time := by
  unfold unref
  simp only
  by_cases h0 : ((decref b c).buf b).refcnt = 0
  · rw [if_pos h0]
    by_cases e : a = b
    · subst e
      simp [h0]
    · rw [set_buf_ne _ _ e, if_neg fun h => e h.1]
      exact lastuse_set (by rfl) a
  · rw [if_neg h0, if_neg fun h => h0 h.2]
    exact lastuse_set (by rfl) a

theorem Stamped.step (h : Stamped x) {e : Ev Data} (hcalm : Calm x e) (hs : x.step e = .ok x') : Stamped x' := by
  cases e with
  | tick =>
    obtain rfl := Except.ok.inj hs
    exact ⟨h.time, hcalm, h.placed⟩
  | bread dev blockno =>
    unfold Timed.step at hs
    simp only at hs
    split at hs
    next b s' hb =>
      obtain rfl := Except.ok.inj hs
      obtain ⟨c, hg, hbk, ht⟩ := bread_bget hb
      refine h.congr (fun a => (ht a).trans (bget_lastuse hg a)) fun a => ?_
      rw [hbk]
      exact bget_placed hg a
    next => cases hs
  | write b d =>
    unfold Timed.step at hs
    simp only at hs
    split at hs
    next s' hw =>
      obtain rfl := Except.ok.inj hs
      unfold bwrite at hw
      split at hw
      next => cases hw
      next =>
        obtain rfl := Except.ok.inj hw
        exact h.congr (fun _ => rfl) fun _ => Iff.rfl
    next => cases hs
  | brelse b =>
    unfold Timed.step at hs
    simp only at hs
    split at hs
    next s' hb =>
      obtain rfl := Except.ok.inj hs
      unfold brelse at hb
      split at hb
      next => cases hb
      next =>
        obtain rfl := Except.ok.inj hb
        have hnow : Lib.u32 x.now = x.now := Nat.mod_eq_of_lt h.now
        refine ⟨fun a => ?_, h.now, fun a => ?_⟩
        · simp only [Timed.drop, unref_spec, hnow]
          by_cases h0 : ((unref x.now b x.s.c).buf b).refcnt = 0
          · by_cases e : a = b
            · subst e
              simp [h0]
            · simp [h0, e, h.time a]
          · simp [h0, h.time a]
        · simp only [Timed.drop, unref_bucket]
          exact h.placed a
    next => cases hs
  | bpin b =>
    obtain rfl := Except.ok.inj hs
    exact h.congr (fun a => lastuse_set (by rfl) a) fun _ => Iff.rfl
  | bunpin b =>
    obtain rfl := Except.ok.inj hs
    have hne : ¬ ((bunpin b x.s).c.buf b).refcnt = 0 := hcalm
    unfold Timed.drop
    rw [if_neg hne]
    exact h.congr (fun a => lastuse_set (by rfl) a) fun _ => Iff.rfl

theorem Reached.stamped {data : Nat → Data} {disk : Nat × Nat → Data} (hr : Reached data disk x) : Stamped x := by
  induction hr with
  | start =>
    refine ⟨fun b => rfl, Nat.two_pow_pos 32, fun b => ?_⟩
    simp only [Timed.start, binit]
    constructor
    · exact fun hb => ⟨0, by decide, by rw [if_pos rfl]; exact (mem_binitLoop NBUF b).mpr hb⟩
    · intro h
      obtain ⟨k, -, hm⟩ := h
      split at hm
      · exact (mem_binitLoop NBUF b).mp hm
      · cases hm
  | step e _ hcalm hs ih => exact ih.step hcalm hs

/-- In every run whose steps are calm, bget reuses the buffer with no reference that was released
    first, panics exactly when there is none, and leaves the other buffers alone. -/
theorem evicts_oldest {data : Nat → Data} {disk : Nat × Nat → Data} (hr : Reached data disk x)
    (hl : lookup x.s.c dev blockno = none) : Evicts x dev blockno := by
  have h := hr.stamped
  have hstart : Scan.start.Oldest x.s.c fun _ => False :=
    ⟨fun b e => (Option.some_ne_none b e.symm).elim, fun b hb => hb.elim⟩
  have hscan := scan_oldest NBUCKET 0 hstart
  rcases bget_cases dev blockno x.s.c with ⟨b1, e, -⟩ | ⟨-, b1, c1, e, hrec⟩ | ⟨-, e, hbusy⟩
  · rw [hl] at e
    cases e
  · have hb1 := (h.placed b1).mpr hrec.was
    have hmiss := bget_miss hl e
    have hof : ∀ {b c}, bget dev blockno x.s.c = .ok (b, c) → b = b1 ∧ c = c1 := fun hg => by
      rw [e] at hg
      obtain ⟨rfl, rfl⟩ := Prod.mk.inj (Except.ok.inj hg)
      exact ⟨rfl, rfl⟩
    refine ⟨fun b c hg => ?_, fun b c hg b' hb' hfree => ?_, fun b c hg b' hb' => ?_, ?_⟩
    · obtain ⟨rfl, -⟩ := hof hg
      exact ⟨hb1, hrec.free⟩
    · obtain ⟨rfl, -⟩ := hof hg
      obtain ⟨k, hk, hm⟩ := (h.placed b').mp hb'
      have h1 := hscan.time b hmiss
      have h2 := (hscan.least b' (Or.inr ⟨k, Nat.zero_le _, by omega, hm⟩) hfree).2
      rw [h.time] at h1 h2
      omega
    · obtain ⟨rfl, rfl⟩ := hof hg
      exact ⟨hrec.other b' hb', hrec.lists b' hb'⟩
    · rw [e]
      exact ⟨fun e' => (by cases e'), fun hall => absurd hrec.free (hall b1 hb1)⟩
  · have hno : ∀ {b c}, bget dev blockno x.s.c ≠ .ok (b, c) := fun hg => by
      rw [e] at hg
      cases hg
    refine ⟨fun b c hg => absurd hg hno, fun b c hg => absurd hg hno, fun b c hg => absurd hg hno, ?_⟩
    rw [e]
    refine ⟨fun _ b hb => ?_, fun _ => rfl⟩
    obtain ⟨k, hk, hm⟩ := (h.placed b).mp hb
    exact hbusy k hk b hm

theorem evicts_oldest_second : ∃ x : Timed Nat, Reached (fun _ => 0) (fun _ => 5) x ∧ lookup x.s.c 1 8 = none ∧
    Evicts x 1 8 := by
  have h0 : Reached (fun _ => 0) (fun _ => 5) (Timed.start (fun _ => 0) fun _ => 5) := .start
  have h1 := h0.step (.bread 1 7) trivial rfl
  obtain ⟨x, hx, hl⟩ : ∃ x, Reached (fun _ => 0) (fun _ => 5) x ∧ lookup x.s.c 1 8 = none :=
    ⟨_, (h1.step .tick (show 0 + 1 < 2 ^ 32 by decide) rfl).step (.brelse 29) trivial rfl, by decide +kernel⟩
  exact ⟨x, hx, hl, evicts_oldest hx hl⟩

def Timed.run (x : Timed Data) : List (Ev Data) → Except String (Timed Data)
  | [] => .ok x
  | e :: es =>
    match x.step e with
    | .ok x => x.run es
    | .error m => .error m

/-- All buffers are in use, and then two are released: 28 by brelse at tick 3, and 29, which is
    pinned and unlocked before, by bunpin at tick 5. -/
def unpinned : List (Ev Nat) :=
  (List.range NBUF).map (fun k => .bread 1 k) ++ [.bpin 29, .brelse 29, .tick, .tick, .tick, .brelse 28, .tick, .tick,
    .bunpin 29]

def reuses29 (x : Timed Nat) : Bool :=
  lookup x.s.c 1 100 == none && (match bget 1 100 x.s.c with | .ok (b, _) => b == 29 | .error _ => false) &&
    decide ((x.s.c.buf 28).refcnt = 0 ∧ x.released 28 = 3 ∧ x.released 29 = 5)

/-- bget reuses 29, whose stamp is still that of the boot. -/
theorem bunpin_unstamped : ∃ x : Timed Nat, (Timed.start (fun _ => 0) fun _ => 5).run unpinned = .ok x ∧
    lookup x.s.c 1 100 = none ∧ ¬ Evicts x 1 100 := by
  have h : (((Timed.start (fun _ => 0) fun _ => 5).run unpinned).toOption.any reuses29) = true := by decide +kernel
  cases hx : (Timed.start (fun _ => 0) fun _ => 5).run unpinned with
  | error e =>
    rw [hx] at h
    cases h
  | ok x =>
    rw [hx] at h
    simp only [Except.toOption, Option.any_some, reuses29, Bool.and_eq_true, beq_iff_eq, decide_eq_true_eq] at h
    obtain ⟨⟨hl, hb⟩, h28, hr28, hr29⟩ := h
    refine ⟨x, rfl, hl, fun hev => ?_⟩
    split at hb
    next b c hg =>
      obtain rfl := beq_iff_eq.mp hb
      have := hev.oldest 29 c hg 28 (by decide) h28
      omega
    next => cases hb

end Xv6Labs.Bio
