/-
  Xv6Labs.Locks.Bget — the buffer cache used by any number of processes.

  A step is a section of bget (the first search; the second, under bcache.lock; one bucket
  of the victim scan; taking the victim off its bucket; giving it its new place and
  identity), acquiresleep, brelse, bpin or bunpin. The scanner keeps the lock of the bucket
  it has its victim from (`kept`); a step that needs this lock has to wait. `refs` and `pins`
  are the references bget and bpin have taken: nothing reads them.

  - `bget_alone`: a process that runs alone does what `bget` does.
  - `panic_saw_all_busy`: a scan that ends in the panic has seen every buffer in use, each
    at the moment its bucket was scanned.
  - `panic_with_a_free_buffer`: not all at one moment.
-/

import Xv6Labs.Locks.Bio
import Mathlib.Logic.Relation

namespace Xv6Labs.Bio

/-! ## Steps -/

/-- Where a process is in bget. -/
inductive Pc where
  | idle
  | look (dev blockno : Nat)
  | big (dev blockno : Nat)
  | scan (dev blockno i : Nat) (sc : Scan)
  | move (dev blockno ans : Nat)
  | panic
  | sleep (b : Nat)
  deriving DecidableEq

structure St where
  c : Bcache
  /-- who has bcache.lock -/
  lock : Option Nat
  kept : Option Nat
  pc : Nat → Pc
  /-- who has the sleep lock of a buffer -/
  locked : Nat → Option Nat
  refs : List (Nat × Nat)
  pins : List Nat

def St.init : St := ⟨binit, none, none, fun _ => .idle, fun _ => none, [], []⟩

def St.goto (s : St) (t : Nat) (p : Pc) : St := { s with pc := Function.update s.pc t p }

/-- bget has a buffer. -/
def St.got (s : St) (t b : Nat) (c : Bcache) : St :=
  { s with c := c, refs := (t, b) :: s.refs, pc := Function.update s.pc t (.sleep b) }

/-- Nobody keeps the lock of the bucket. -/
def St.unkept (s : St) (blockno : Nat) : Prop := s.kept ≠ some (BUCKET_HASH blockno)

instance (s : St) (blockno : Nat) : Decidable (s.unkept blockno) := inferInstanceAs (Decidable (¬ _))

/-- Requests are for devices from `d` on. -/
inductive Step (d : Nat) (t : Nat) : St → St → Prop where
  | call (s : St) (dev blockno : Nat) : s.pc t = .idle → d ≤ dev → Step d t s (s.goto t (.look dev blockno))
  | hit (s : St) (dev blockno b : Nat) : s.pc t = .look dev blockno → s.unkept blockno →
      lookup s.c dev blockno = some b →
      Step d t s (s.got t b (incref b s.c))
  | miss (s : St) (dev blockno : Nat) : s.pc t = .look dev blockno → s.unkept blockno →
      lookup s.c dev blockno = none →
      Step d t s (s.goto t (.big dev blockno))
  | hitAgain (s : St) (dev blockno b : Nat) : s.pc t = .big dev blockno → s.lock = none →
      lookup s.c dev blockno = some b →
      Step d t s (s.got t b (incref b s.c))
  | missAgain (s : St) (dev blockno : Nat) : s.pc t = .big dev blockno → s.lock = none →
      lookup s.c dev blockno = none →
      Step d t s (St.goto { s with lock := some t } t (.scan dev blockno 0 .start))
  | scan (s : St) (dev blockno i : Nat) (sc : Scan) : s.pc t = .scan dev blockno i sc → i < NBUCKET →
      Step d t s (St.goto { s with kept := (scanBucket s.c i sc).owner } t
        (.scan dev blockno (i + 1) (scanBucket s.c i sc)))
  | panic (s : St) (dev blockno : Nat) (sc : Scan) : s.pc t = .scan dev blockno NBUCKET sc → sc.ans = none →
      Step d t s (s.goto t .panic)
  | reuse (s : St) (dev blockno b : Nat) (sc : Scan) : s.pc t = .scan dev blockno NBUCKET sc → sc.ans = some b →
      sc.owner = some (BUCKET_HASH blockno) →
      Step d t s (St.got { s with lock := none, kept := none } t b (reset dev blockno b s.c))
  | unlink (s : St) (dev blockno b k : Nat) (sc : Scan) : s.pc t = .scan dev blockno NBUCKET sc → sc.ans = some b →
      sc.owner = some k → k ≠ BUCKET_HASH blockno →
      Step d t s (St.goto { s with c := unlink k b s.c, kept := none } t (.move dev blockno b))
  | insert (s : St) (dev blockno b : Nat) : s.pc t = .move dev blockno b →
      Step d t s (St.got { s with lock := none } t b (reset dev blockno b (link (BUCKET_HASH blockno) b s.c)))
  | acquiresleep (s : St) (b : Nat) : s.pc t = .sleep b → s.locked b = none →
      Step d t s (St.goto { s with locked := Function.update s.locked b (some t) } t .idle)
  | brelse (s : St) (b ticks : Nat) : s.pc t = .idle → s.locked b = some t → s.unkept (s.c.buf b).blockno →
      Step d t s
        { s with c := unref ticks b s.c, locked := Function.update s.locked b none, refs := s.refs.erase (t, b) }
  | bpin (s : St) (b : Nat) : s.pc t = .idle → s.locked b = some t → s.unkept (s.c.buf b).blockno →
      Step d t s { s with c := incref b s.c, pins := b :: s.pins }
  | bunpin (s : St) (b : Nat) : s.pc t = .idle → b ∈ s.pins → s.unkept (s.c.buf b).blockno →
      Step d t s { s with c := decref b s.c, pins := s.pins.erase b }

inductive Reach (d : Nat) : St → Prop where
  | init : Reach d .init
  | step {s s' : St} (t : Nat) : Reach d s → Step d t s s' → Reach d s'

/-- A run with the states it goes through. -/
inductive Path (d : Nat) : St → List St → St → Prop where
  | refl (s : St) : Path d s [s] s
  | step {s s' s'' : St} {l : List St} (t : Nat) : Path d s l s' → Step d t s' s'' → Path d s (s'' :: l) s''

/-- The process is in its victim scan, or at its panic. -/
def Pc.scanning : Pc → Bool
  | .scan .. => true
  | .panic => true
  | _ => false

/-- The process has bcache.lock. -/
def Pc.locks : Pc → Bool
  | .scan .. => true
  | .move .. => true
  | .panic => true
  | _ => false

/-! ## Every buffer is on a bucket -/

structure Placed (s : St) : Prop where
  lock : ∀ t, (s.pc t).locks = true ↔ s.lock = some t
  every : ∀ b < NBUF, (∃ k < NBUCKET, b ∈ s.c.bucket k) ∨ ∃ t dev blockno, s.pc t = .move dev blockno b

section

variable {d t : Nat} {s s' : St}

/-- Only a process that has bcache.lock changes the buckets. -/
theorem Step.bucket (hs : Step d t s s') (ht : (s.pc t).locks = false) : s'.c.bucket = s.c.bucket := by
  cases hs with
  | reuse dev blockno b sc h => simp [h, Pc.locks] at ht
  | unlink dev blockno b k sc h => simp [h, Pc.locks] at ht
  | insert dev blockno b h => simp [h, Pc.locks] at ht
  | brelse b ticks => exact unref_bucket ticks b s.c
  | _ => rfl

/-- A step of one process leaves the others where they are. -/
theorem Step.pc_ne (hs : Step d t s s') {u : Nat} (hu : u ≠ t) : s'.pc u = s.pc u := by
  cases hs <;> simp [St.goto, St.got, hu]

/-- What a step does to bcache.lock. -/
theorem Step.lock (hs : Step d t s s') (h : ∀ t, (s.pc t).locks = true ↔ s.lock = some t) (u : Nat) :
    (s'.pc u).locks = true ↔ s'.lock = some u := by
  have keep : ∀ p : Pc, p.locks = (s.pc t).locks → ((Function.update s.pc t p u).locks = true ↔ s.lock = some u) :=
    fun p hp => by
    by_cases e : u = t
    · subst e
      rw [Function.update_self, hp]
      exact h u
    · rw [Function.update_of_ne e]
      exact h u
  have drop : ∀ p : Pc, p.locks = false → (s.pc t).locks = true →
    ((Function.update s.pc t p u).locks = true ↔ none = some u) := fun p hp ht => by
    by_cases e : u = t
    · subst e
      simp [hp]
    · have h1 := h u
      have h2 := (h t).mp ht
      rw [Function.update_of_ne e]
      rw [h2] at h1
      simp [h1, Ne.symm e]
  cases hs with
  | call dev blockno h0 => exact keep _ (by simp [h0, Pc.locks])
  | hit dev blockno b h0 => exact keep _ (by simp [h0, Pc.locks])
  | miss dev blockno h0 => exact keep _ (by simp [h0, Pc.locks])
  | hitAgain dev blockno b h0 => exact keep _ (by simp [h0, Pc.locks])
  | missAgain dev blockno h0 hl =>
    by_cases e : u = t
    · subst e
      simp [St.goto, Pc.locks]
    · have h1 := h u
      simp only [hl, reduceCtorEq, iff_false] at h1
      simp [St.goto, e, h1, Ne.symm e]
  | scan dev blockno i sc h0 => exact keep _ (by simp [h0, Pc.locks])
  | panic dev blockno sc h0 => exact keep _ (by simp [h0, Pc.locks])
  | reuse dev blockno b sc h0 => exact drop _ rfl (by simp [h0, Pc.locks])
  | unlink dev blockno b k sc h0 => exact keep _ (by simp [h0, Pc.locks])
  | insert dev blockno b h0 => exact drop _ rfl (by simp [h0, Pc.locks])
  | acquiresleep b h0 => exact keep _ (by simp [h0, Pc.locks])
  | brelse b ticks => exact h u
  | bpin b => exact h u
  | bunpin b => exact h u

theorem Placed.step (h : Placed s) (hs : Step d t s s') : Placed s' := by
  refine ⟨hs.lock h.lock, fun b hb => ?_⟩
  -- a buffer in transit stays so unless its own process puts it on a bucket
  have carry : (∀ k, b ∈ s.c.bucket k → b ∈ s'.c.bucket k) → (∀ dev blockno, s.pc t ≠ .move dev blockno b) →
      (∃ k < NBUCKET, b ∈ s'.c.bucket k) ∨ ∃ u dev blockno, s'.pc u = .move dev blockno b := fun hk ht => by
    rcases h.every b hb with ⟨k, hlt, hm⟩ | ⟨u, dev, blockno, e⟩
    · exact Or.inl ⟨k, hlt, hk k hm⟩
    · by_cases eu : u = t
      · subst eu
        exact absurd e (ht dev blockno)
      · exact Or.inr ⟨u, dev, blockno, by rw [hs.pc_ne eu, e]⟩
  by_cases ht : (s.pc t).locks = true
  · cases hs with
    | reuse dev blockno a sc h0 => exact carry (fun _ hm => hm) (by simp [h0])
    | scan dev blockno i sc h0 => exact carry (fun _ hm => hm) (by simp [h0])
    | panic dev blockno sc h0 => exact carry (fun _ hm => hm) (by simp [h0])
    | unlink dev blockno a k sc h0 =>
      by_cases ea : b = a
      · subst ea
        exact Or.inr ⟨t, dev, blockno, by simp [St.goto]⟩
      · refine carry (fun k' hm => ?_) (by simp [h0])
        by_cases ek : k' = k
        · subst ek
          simpa [St.goto, Bio.unlink, List.mem_erase_of_ne ea] using hm
        · simpa [St.goto, Bio.unlink, ek] using hm
    | insert dev blockno a h0 =>
      by_cases ea : b = a
      · subst ea
        exact Or.inl ⟨BUCKET_HASH blockno, Nat.mod_lt _ (by decide), by simp [St.got, reset, link]⟩
      · refine carry (fun k hm => ?_) (by simp [h0, Ne.symm ea])
        simp only [St.got, reset, set_bucket, link]
        by_cases ek : k = BUCKET_HASH blockno
        · subst ek
          simp [hm]
        · simp [ek, hm]
    | _ => simp_all [Pc.locks]
  · have hbk := hs.bucket (by simpa using ht)
    exact carry (fun k hm => by rw [hbk]; exact hm) fun dev blockno e => ht (by simp [e, Pc.locks])

theorem Reach.placed (hr : Reach d s) : Placed s := by
  induction hr with
  | init =>
    refine ⟨by simp [St.init, Pc.locks], fun b hb => Or.inl ⟨0, by decide, ?_⟩⟩
    simpa [St.init, binit] using (mem_binitLoop NBUF b).mpr hb
  | step t _ hs ih => exact ih.step hs

/-! ## What a failed scan has seen -/

theorem Path.reach {s0 : St} {l : List St} (hp : Path d s0 l s) (hr : Reach d s0) : Reach d s := by
  induction hp with
  | refl => exact hr
  | step t _ hs ih => exact ih.step t hs

theorem Path.last {s0 : St} {l : List St} (hp : Path d s0 l s) : ∃ r, l = s :: r := by
  cases hp with
  | refl => exact ⟨[], rfl⟩
  | step t => exact ⟨_, rfl⟩

/-- Between `x` and the next state `t` scans the bucket of the buffer, which is in use. -/
structure ScannedBusy (t : Nat) (x x' : St) (b : Nat) : Prop where
  bucket : ∃ dev blockno i sc, x.pc t = .scan dev blockno i sc ∧
    x'.pc t = .scan dev blockno (i + 1) (scanBucket x.c i sc) ∧ b ∈ x.c.bucket i
  inUse : (x.c.buf b).refcnt ≠ 0

/-- The states, from the last one on, are of a run in which this happens. -/
def Busy (t : Nat) (l : List St) (b : Nat) : Prop := ∃ x x', [x', x] <:+: l ∧ ScannedBusy t x x' b

/-- What the scan of `t` knows, `l` being the states since it began. -/
structure Seen (t : Nat) (s0 s : St) (l : List St) : Prop where
  bucket : s.c.bucket = s0.c.bucket
  scan : ∀ dev blockno i sc, s.pc t = .scan dev blockno i sc → i ≤ NBUCKET ∧
    (sc.ans = none → ∀ k < i, ∀ b ∈ s0.c.bucket k, Busy t l b)
  panic : s.pc t = .panic → ∀ k < NBUCKET, ∀ b ∈ s0.c.bucket k, Busy t l b

theorem Busy.cons {l : List St} {b : Nat} (h : Busy t l b) (x : St) : Busy t (x :: l) b := by
  obtain ⟨y, y', hy, hb⟩ := h
  exact ⟨y, y', List.infix_cons hy, hb⟩

theorem Seen.step {s0 s'' : St} {l : List St} {u : Nat} (h : Seen t s0 s' l) (hm : ∃ r, l = s' :: r) (hpl : Placed s')
    (hs : Step d u s' s'')
    (hscan : (s'.pc t).scanning = true) (hscan' : (s''.pc t).scanning = true) : Seen t s0 s'' (s'' :: l) := by
  have hlock : (s'.pc t).locks = true := by
    revert hscan
    cases s'.pc t <;> simp [Pc.scanning, Pc.locks]
  by_cases eu : u = t
  · subst eu
    cases hs with
    | scan dev blockno i sc h0 hi =>
      obtain ⟨-, hseen⟩ := h.scan dev blockno i sc h0
      refine ⟨h.bucket, fun dev' blockno' i' sc' e => ?_, fun e => by simp [St.goto] at e⟩
      obtain ⟨-, -, rfl, rfl⟩ : dev = dev' ∧ blockno = blockno' ∧ i + 1 = i' ∧ scanBucket s'.c i sc = sc' := by
        simpa [St.goto] using e
      refine ⟨by omega, fun hn k hk b hb => ?_⟩
      obtain ⟨h1, h2⟩ := (scanLoop_none i _ sc).mp hn
      by_cases ek : k = i
      · subst ek
        obtain ⟨r, rfl⟩ := hm
        rw [← h.bucket] at hb
        exact ⟨s', _, ⟨[], r, rfl⟩, ⟨dev, blockno, k, sc, h0, by simp [St.goto], hb⟩, h2 b hb⟩
      · exact (hseen h1 k (by omega) b hb).cons _
    | panic dev blockno sc h0 hn =>
      obtain ⟨-, hseen⟩ := h.scan dev blockno NBUCKET sc h0
      exact ⟨h.bucket, fun _ _ _ _ e => by simp [St.goto] at e, fun _ k hk b hb => (hseen hn k hk b hb).cons _⟩
    | reuse dev blockno b sc h0 => simp [St.got, Pc.scanning] at hscan'
    | unlink dev blockno b k sc h0 => simp [St.goto, Pc.scanning] at hscan'
    | insert dev blockno b h0 => simp [h0, Pc.scanning] at hscan
    | call dev blockno h0 => simp [h0, Pc.scanning] at hscan
    | hit dev blockno b h0 => simp [h0, Pc.scanning] at hscan
    | miss dev blockno h0 => simp [h0, Pc.scanning] at hscan
    | hitAgain dev blockno b h0 => simp [h0, Pc.scanning] at hscan
    | missAgain dev blockno h0 => simp [h0, Pc.scanning] at hscan
    | acquiresleep b h0 => simp [h0, Pc.scanning] at hscan
    | brelse b ticks h0 => simp [h0, Pc.scanning] at hscan
    | bpin b h0 => simp [h0, Pc.scanning] at hscan
    | bunpin b h0 => simp [h0, Pc.scanning] at hscan
  · -- the lock is with the scanner, so the others leave the buckets alone
    have hu : (s'.pc u).locks = false := by
      cases hl : (s'.pc u).locks with
      | false => rfl
      | true =>
        have h1 := (hpl.lock u).mp hl
        rw [(hpl.lock t).mp hlock, Option.some.injEq] at h1
        exact absurd h1.symm eu
    have hpc : s''.pc t = s'.pc t := hs.pc_ne (Ne.symm eu)
    refine ⟨by rw [hs.bucket hu, h.bucket], fun dev blockno i sc e => ?_,
      fun e k hk b hb => (h.panic (hpc ▸ e) k hk b hb).cons _⟩
    obtain ⟨h1, h2⟩ := h.scan dev blockno i sc (hpc ▸ e)
    exact ⟨h1, fun hn k hk b hb => (h2 hn k hk b hb).cons _⟩

theorem Path.seen {s0 : St} {l : List St} {dev blockno : Nat} (hp : Path d s0 l s) (hr : Reach d s0)
    (h0 : s0.pc t = .scan dev blockno 0 .start) (hscan : ∀ x ∈ l, (x.pc t).scanning = true) : Seen t s0 s l := by
  induction hp with
  | refl =>
    refine ⟨rfl, fun dev' blockno' i sc e => ?_, fun e => by simp [h0] at e⟩
    obtain ⟨-, -, rfl, -⟩ : dev = dev' ∧ blockno = blockno' ∧ 0 = i ∧ Scan.start = sc := by simpa [h0] using e
    exact ⟨Nat.zero_le _, fun _ k hk => by omega⟩
  | step u hp hs ih =>
    obtain ⟨hlast, hl⟩ := List.forall_mem_cons.mp hscan
    obtain ⟨r, e⟩ := hp.last
    exact (ih hl).step ⟨r, e⟩ (hp.reach hr).placed hs (hl _ (by rw [e]; exact List.mem_cons_self ..)) hlast

/-- A scan that ends in the panic has seen every buffer in use, each when its bucket was scanned. -/
theorem panic_saw_all_busy {s0 : St} {l : List St} {dev blockno : Nat} (hr : Reach d s0)
    (h0 : s0.pc t = .scan dev blockno 0 .start)
    (hp : Path d s0 l s) (hscan : ∀ x ∈ l, (x.pc t).scanning = true) (hend : s.pc t = .panic) :
    ∀ b < NBUF, ∃ x x', [x', x] <:+: l ∧ ScannedBusy t x x' b := by
  intro b hb
  have hpl := hr.placed
  rcases hpl.every b hb with ⟨k, hk, hm⟩ | ⟨u, dev', blockno', e⟩
  · exact (hp.seen hr h0 hscan).panic hend k hk b hm
  · -- nothing is in transit while the scanner has the lock
    have h1 := (hpl.lock u).mp (by simp [e, Pc.locks])
    rw [(hpl.lock t).mp (by simp [h0, Pc.locks]), Option.some.injEq] at h1
    rw [← h1, h0] at e
    cases e

end

/-! ## bget of a process that runs alone -/

section

open Relation

variable {d t : Nat} {s : St}

@[simp] theorem goto_goto (s : St) (t : Nat) (p p' : Pc) : (s.goto t p).goto t p' = s.goto t p' := by simp [St.goto]

theorem scan_alone (d t dev blockno : Nat) : ∀ n i sc (s : St), i + n = NBUCKET → s.pc t = .scan dev blockno i sc →
    s.kept = sc.owner →
    ReflTransGen (Step d t) s (St.goto { s with kept := (scan s.c n i sc).owner } t
      (.scan dev blockno NBUCKET (scan s.c n i sc))) := by
  intro n
  induction n with
  | zero =>
    intro i sc s hn hp hk
    obtain rfl : i = NBUCKET := by omega
    have e : St.goto { s with kept := sc.owner } t (.scan dev blockno NBUCKET sc) = s := by simp [St.goto, ← hk, ← hp]
    simp only [scan, e]
    exact .refl
  | succ n ih =>
    intro i sc s hn hp hk
    have h1 := Step.scan (d := d) s dev blockno i sc hp (by omega)
    have h2 := ih (i + 1) (scanBucket s.c i sc)
      (St.goto { s with kept := (scanBucket s.c i sc).owner } t (.scan dev blockno (i + 1) (scanBucket s.c i sc)))
      (by omega) (by simp [St.goto]) rfl
    simp only [St.goto, Function.update_idem] at h1 h2 ⊢
    exact .head h1 h2

/-- A process that runs alone does what `bget` does. -/
theorem bget_alone {dev blockno b : Nat} {c : Bcache} (h0 : s.pc t = .idle) (hdev : d ≤ dev) (hl : s.lock = none)
    (hk : s.kept = none) (e : bget dev blockno s.c = .ok (b, c)) : ReflTransGen (Step d t) s (s.got t b c) := by
  have hun : ∀ p, (s.goto t p).unkept blockno := fun p => by simp [St.unkept, St.goto, hk]
  have h1 := Step.call s dev blockno h0 hdev
  cases hf : lookup s.c dev blockno with
  | some b' =>
    simp only [bget, hf, Except.ok.injEq, Prod.mk.injEq] at e
    obtain ⟨rfl, rfl⟩ := e
    have h2 := Step.hit (d := d) (t := t) (s.goto t (.look dev blockno)) dev blockno b' (by simp [St.goto]) (hun _) hf
    simp only [St.goto, St.got, Function.update_idem] at h1 h2 ⊢
    exact .head h1 (.single h2)
  | none =>
    have h2 := Step.miss (d := d) (t := t) (s.goto t (.look dev blockno)) dev blockno (by simp [St.goto]) (hun _) hf
    have h3 := Step.missAgain (d := d) (t := t) (s.goto t (.big dev blockno)) dev blockno (by simp [St.goto]) hl hf
    have h4 := scan_alone d t dev blockno NBUCKET 0 .start
      (St.goto { s with lock := some t } t (.scan dev blockno 0 .start)) rfl
      (by simp [St.goto]) hk
    simp only [St.goto, Function.update_idem] at h1 h2 h3 h4
    have h5 := ReflTransGen.head h1 (.head h2 (.head h3 h4))
    rcases hs : scan s.c NBUCKET 0 .start with ⟨_ | b', m, owner⟩
    · simp [bget, hf, hs] at e
    · have hg : (scan s.c NBUCKET 0 .start).Good s.c := scan_good NBUCKET 0 _ rfl (by simp [Scan.Good, Scan.start])
      rw [hs] at hg h5
      obtain ⟨k, -, rfl, -⟩ := hg b' rfl
      by_cases ek : k = BUCKET_HASH blockno
      · subst ek
        simp only [bget, hf, hs, ne_eq, not_true_eq_false, if_false, Except.ok.injEq, Prod.mk.injEq] at e
        obtain ⟨rfl, rfl⟩ := e
        have h6 :=
          Step.reuse (d := d) (t := t) (St.goto { s with lock := some t, kept := some (BUCKET_HASH blockno) } t
          (.scan dev blockno NBUCKET ⟨some b', m, some (BUCKET_HASH blockno)⟩)) dev blockno b' _
            (by simp [St.goto]; rfl) rfl rfl
        simp only [St.goto, St.got, Function.update_idem] at h6 ⊢
        simp only [hl, hk]
        exact h5.tail h6
      · simp only [bget, hf, hs, ne_eq, Option.some.injEq, ek, not_false_eq_true, if_true, Option.getD_some,
          Except.ok.injEq, Prod.mk.injEq] at e
        obtain ⟨rfl, rfl⟩ := e
        have h6 := Step.unlink (d := d) (t := t) (St.goto { s with lock := some t, kept := some k } t
          (.scan dev blockno NBUCKET ⟨some b', m, some k⟩)) dev blockno b' k _ (by simp [St.goto]; rfl) rfl rfl ek
        have h7 := Step.insert (d := d) (t := t)
          (St.goto { s with c := unlink k b' s.c, lock := some t, kept := none } t (.move dev blockno b'))
          dev blockno b' (by simp [St.goto])
        simp only [St.goto, St.got, Function.update_idem] at h6 h7 ⊢
        simp only [hl, hk]
        exact (h5.tail h6).tail h7

end

/-! ## The panic with a free buffer at every moment -/

/-- The cache after bgets of blocks `0 .. n` of device 1. -/
def grab : Nat → Bcache
  | 0 => binit
  | n + 1 => match bget 1 n (grab n) with
    | .ok (_, c) => c
    | .error _ => grab n

def grabs (n : Nat) : Bool :=
  match bget 1 n (grab n) with
  | .ok (b, _) => b == NBUF - 1 - n
  | .error _ => false

theorem grabs_all : ∀ n < NBUF, grabs n = true := by decide +kernel

/-- The cache when the scan begins: all buffers in use but the one of block 1. -/
def oneFree : Bcache := unref 0 28 (grab 30)

/-- Then the buffer of block 0, whose bucket the scan has passed, is released. -/
def twoFree : Bcache := unref 0 29 oneFree

/-- Then another process takes the buffer of block 1. -/
def otherFree : Bcache := incref 28 twoFree

theorem Reach.trans {d t : Nat} {s s' : St} (hr : Reach d s) (h : Relation.ReflTransGen (Step d t) s s') :
    Reach d s' := by
  induction h with
  | refl => exact hr
  | tail _ hs ih => exact ih.step t hs

/-- Process 0 can have blocks `0 .. n`. -/
theorem grab_reach : ∀ n ≤ NBUF, ∃ s, Reach 1 s ∧ s.c = grab n ∧ s.lock = none ∧ s.kept = none ∧
    (∀ t, s.pc t = .idle) ∧
    ∀ b, s.locked b = if NBUF - n ≤ b ∧ b < NBUF then some 0 else none := by
  intro n
  induction n with
  | zero =>
    refine fun _ => ⟨.init, .init, rfl, rfl, rfl, fun _ => rfl, fun b => ?_⟩
    have hno : ¬ (NBUF - 0 ≤ b ∧ b < NBUF) := by omega
    simp only [hno, if_false]
    rfl
  | succ n ih =>
    intro hn
    obtain ⟨s, hr, hc, hl, hk, hpc, hlk⟩ := ih (by omega)
    have hg := grabs_all n (by omega)
    simp only [grabs] at hg
    cases e : bget 1 n (grab n) with
    | error m => simp [e] at hg
    | ok r =>
      obtain ⟨b, c⟩ := r
      simp only [e, beq_iff_eq] at hg
      have h1 := hr.trans (bget_alone (t := 0) (hpc 0) (Nat.le_refl 1) hl hk (hc ▸ e))
      have hfree : s.locked b = none := by
        rw [hlk b]
        simp only [NBUF] at *
        simp only [ite_eq_right_iff, reduceCtorEq, imp_false]
        omega
      have h2 := h1.step 0 (Step.acquiresleep (s.got 0 b c) b (by simp [St.got]) hfree)
      refine ⟨_, h2, ?_, hl, hk, fun t => ?_, fun b' => ?_⟩
      · simp [St.goto, St.got, grab, e]
      · by_cases et : t = 0
        · subst et
          simp [St.goto]
        · simp [St.goto, St.got, et, hpc t]
      · by_cases eb : b' = b
        · subst eb
          have hin : NBUF - (n + 1) ≤ b' ∧ b' < NBUF := by simp only [NBUF] at *; omega
          simp [St.goto, hin]
        · have hiff : (NBUF - (n + 1) ≤ b' ∧ b' < NBUF) ↔ NBUF - n ≤ b' ∧ b' < NBUF := by simp only [NBUF] at *; omega
          simp only [St.goto, St.got, Function.update_of_ne eb, hlk b', hiff]

theorem scanLoop_busy {c : Bcache} (i : Nat) (sc : Scan) : ∀ l, (∀ b ∈ l, (c.buf b).refcnt ≠ 0) →
    scanLoop c i l sc = sc := by
  intro l
  induction l with
  | nil => exact fun _ => rfl
  | cons b l ih =>
    intro h
    simp [scanLoop, h b (by simp), ih fun x hx => h x (by simp [hx])]

/-- The buckets from `i` on are passed when all their buffers are in use. -/
theorem scan_busy {c : Bcache} : ∀ n i, i + n = NBUCKET →
    (∀ k, i ≤ k → k < NBUCKET → ∀ b ∈ c.bucket k, (c.buf b).refcnt ≠ 0) → scan c n i .start = .start := by
  intro n
  induction n with
  | zero => exact fun _ _ _ => rfl
  | succ n ih =>
    intro i hn hbusy
    unfold scan
    rw [show scanBucket c i .start = .start from scanLoop_busy i _ _ (hbusy i (Nat.le_refl _) (by omega))]
    exact ih (i + 1) (by omega) fun k h1 h2 => hbusy k (by omega) h2

/-- A scan, with what holds in all states of it. -/
theorem scan_path {d t dev blockno : Nat} {Q : St → Prop} {s0 : St} : ∀ n i sc (s : St) l, i + n = NBUCKET →
    s.pc t = .scan dev blockno i sc →
    s.kept = sc.owner → (∀ k i sc, Q (St.goto { s with kept := k } t (.scan dev blockno i sc))) → Path d s0 l s →
      (∀ x ∈ l, Q x) →
    ∃ l', Path d s0 l' (St.goto { s with kept := (scan s.c n i sc).owner } t
      (.scan dev blockno NBUCKET (scan s.c n i sc))) ∧ ∀ x ∈ l', Q x := by
  intro n
  induction n with
  | zero =>
    intro i sc s l hn hp hk _ hl hQ
    obtain rfl : i = NBUCKET := by omega
    have e : St.goto { s with kept := sc.owner } t (.scan dev blockno NBUCKET sc) = s := by simp [St.goto, ← hk, ← hp]
    exact ⟨l, by simpa only [scan, e] using hl, hQ⟩
  | succ n ih =>
    intro i sc s l hn hp hk hq hl hQ
    have h1 := Step.scan (d := d) s dev blockno i sc hp (by omega)
    obtain ⟨l', h2, h3⟩ := ih (i + 1) (scanBucket s.c i sc)
      (St.goto { s with kept := (scanBucket s.c i sc).owner } t (.scan dev blockno (i + 1) (scanBucket s.c i sc)))
      _ (by omega) (by simp [St.goto]) rfl (fun k i sc => by simpa [St.goto] using hq k i sc) (Path.step t hl h1) (by
        intro x hx
        rcases List.mem_cons.mp hx with rfl | hx
        · exact hq _ _ _
        · exact hQ x hx)
    refine ⟨l', ?_, h3⟩
    simp only [St.goto, Function.update_idem] at h2 ⊢
    exact h2

/-- The process is scanning and a buffer is free. -/
def FreeScan (c : Bcache) (p : Pc) : Prop := p.scanning = true ∧ ∃ b < NBUF, (c.buf b).refcnt = 0

/-- When the scan begins block 100 is in no buffer and the first bucket has no free one; block 1
    is found again once block 0 is released; then the other buckets have no free one either. -/
theorem race_caches : (lookup oneFree 1 100 = none ∧ scanBucket oneFree 0 .start = .start ∧
    (oneFree.buf 28).refcnt = 0) ∧
    (lookup twoFree 1 1 = some 28 ∧ (twoFree.buf 29).refcnt = 0) ∧
    (∀ k < NBUCKET, 1 ≤ k → ∀ b ∈ otherFree.bucket k, (otherFree.buf b).refcnt ≠ 0) ∧
    (otherFree.buf 29).refcnt = 0 := by
  decide +kernel

/-- Block 1 is released and process 1 asks for block 100. -/
theorem oneFree_reach : ∃ s, Reach 1 s ∧ s.c = oneFree ∧ s.kept = none ∧ s.pc 1 = .scan 1 100 0 .start ∧
    s.pc 0 = .idle ∧ s.pc 2 = .idle ∧
    s.locked 29 = some 0 := by
  obtain ⟨s, hr, hc, hl, hk, hpc, hlk⟩ := grab_reach 30 (Nat.le_refl _)
  have hlock : ∀ b < NBUF, s.locked b = some 0 := fun b hb => by
    rw [hlk b]
    simp [hb]
  have r1 := hr.step 0 (Step.brelse s 28 0 (hpc 0) (hlock 28 (by decide)) (by simp [St.unkept, hk]))
  rw [hc] at r1
  generalize hs1 :
    ({ s with c := unref 0 28 (grab 30), locked := Function.update s.locked 28 none, refs := s.refs.erase (0, 28) } :
    St) = s1 at r1
  have hc1 : s1.c = oneFree := by rw [← hs1]; rfl
  have hl1 : s1.lock = none := by rw [← hs1]; exact hl
  have hk1 : s1.kept = none := by rw [← hs1]; exact hk
  have hpc1 : ∀ t, s1.pc t = .idle := by rw [← hs1]; exact hpc
  have hlk1 : s1.locked 29 = some 0 := by
    rw [← hs1]
    simpa using hlock 29 (by decide)
  have hmiss : lookup s1.c 1 100 = none := by rw [hc1]; exact race_caches.1.1
  have r2 := r1.step 1 (Step.call s1 1 100 (hpc1 1) (Nat.le_refl 1))
  have r3 := r2.step 1 (Step.miss _ 1 100 (by simp [St.goto]) (by simp [St.unkept, St.goto, hk1]) hmiss)
  have r4 := r3.step 1 (Step.missAgain _ 1 100 (by simp [St.goto]) hl1 hmiss)
  exact ⟨_, r4, hc1, hk1, by simp [St.goto], by simp [St.goto, hpc1], by simp [St.goto, hpc1], hlk1⟩

/-- A run in which the scan panics although at every moment of it a buffer is free: the
    scan passes bucket 0, then block 0 is released there, then block 1, which was free all
    the time, is taken before the scan comes to bucket 1. -/
theorem scan_panics : ∃ s0 s l, Reach 1 s0 ∧ s0.pc 1 = .scan 1 100 0 .start ∧ Path 1 s0 l s ∧ s.pc 1 = .panic ∧
    ∀ x ∈ l, FreeScan x.c (x.pc 1) := by
  obtain ⟨s0, hr, hc, hk, hpc, hpc0, hpc2', hlk⟩ := oneFree_reach
  obtain ⟨⟨-, hpass, hfree1⟩, ⟨hhit, hfree2⟩, hbusy, hfree3⟩ := race_caches
  have h1 : Step 1 1 s0 (s0.goto 1 (.scan 1 100 1 .start)) := by
    have := Step.scan (d := 1) s0 1 100 0 .start hpc (by decide)
    rw [hc, hpass] at this
    simpa only [St.goto, hc, show Scan.start.owner = s0.kept from hk.symm] using this
  obtain ⟨s2, h2, hc2, hk2, hpc2⟩ : ∃ s2, Step 1 0 (s0.goto 1 (.scan 1 100 1 .start)) s2 ∧ s2.c = twoFree ∧
    s2.kept = none ∧
      s2.pc = (s0.goto 1 (.scan 1 100 1 .start)).pc := by
    refine ⟨_, Step.brelse _ 29 0 (by simp [St.goto, hpc0]) hlk (by simp [St.unkept, St.goto, hk]), ?_, hk, rfl⟩
    simp only [St.goto, hc]
    rfl
  have h3 := Step.call (d := 1) (t := 2) s2 1 1 (by simp [hpc2, St.goto, hpc2']) (Nat.le_refl 1)
  have h4 := Step.hit (d := 1) (t := 2) (s2.goto 2 (.look 1 1)) 1 1 28 (by simp [St.goto])
    (by simp [St.unkept, St.goto, hk2])
    (by simp only [St.goto, hc2]; exact hhit)
  generalize hs4 : (s2.goto 2 (.look 1 1)).got 2 28 (incref 28 (s2.goto 2 (.look 1 1)).c) = s4 at h4
  have hc4 : s4.c = otherFree := by
    rw [← hs4]
    simp only [St.got, St.goto, hc2]
    rfl
  have hpc4 : s4.pc 1 = .scan 1 100 1 .start := by simp [← hs4, St.got, St.goto, hpc2]
  -- the states so far
  have f0 : FreeScan s0.c (s0.pc 1) := ⟨by simp [hpc, Pc.scanning], 28, by decide, by rw [hc]; exact hfree1⟩
  have f1 : FreeScan s0.c ((s0.goto 1 (.scan 1 100 1 .start)).pc 1) := ⟨by simp [St.goto, Pc.scanning], f0.2⟩
  have f2 : FreeScan s2.c (s2.pc 1) :=
    ⟨by simp [hpc2, St.goto, Pc.scanning], 29, by decide, by rw [hc2]; exact hfree2⟩
  have f3 : FreeScan s2.c ((s2.goto 2 (.look 1 1)).pc 1) := ⟨by simp [hpc2, St.goto, Pc.scanning], f2.2⟩
  have f4 : ∀ i sc, FreeScan s4.c (.scan 1 100 i sc) := fun i sc => ⟨rfl, 29, by decide, by rw [hc4]; exact hfree3⟩
  have p4 := Path.step 2 (Path.step 2 (Path.step 0 (Path.step 1 (Path.refl s0) h1) h2) h3) h4
  obtain ⟨l, p, hl⟩ := scan_path (Q := fun x => FreeScan x.c (x.pc 1)) 12 1 .start s4 _ rfl hpc4
    (by rw [← hs4]; exact hk2)
    (fun k i sc => by simpa [St.goto] using f4 i sc) p4 (by
      intro x hx
      simp only [List.mem_cons, List.not_mem_nil, or_false] at hx
      rcases hx with rfl | rfl | rfl | rfl | rfl
      · rw [hpc4]
        exact f4 1 _
      · exact f3
      · exact f2
      · exact f1
      · exact f0)
  have hnone : scan s4.c 12 1 .start = .start := scan_busy 12 1 rfl fun k h5 h6 => by rw [hc4]; exact hbusy k h6 h5
  refine ⟨s0, _, _, hr, hpc, Path.step 1 p
    (Step.panic _ 1 100 _ (by simp [St.goto]; rfl) (by rw [hnone]; rfl)), by simp [St.goto], fun x hx => ?_⟩
  rcases List.mem_cons.mp hx with rfl | hx
  · exact ⟨by simp [St.goto, Pc.scanning], (f4 0 .start).2⟩
  · exact hl x hx

/-- Not at one moment: the scan is no snapshot. -/
theorem panic_with_a_free_buffer : ¬ ∀ (d t dev blockno : Nat) (s0 s : St) (l : List St), Reach d s0 →
    s0.pc t = .scan dev blockno 0 .start →
    Path d s0 l s → (∀ x ∈ l, (x.pc t).scanning = true) → s.pc t = .panic → ∃ x ∈ l, ∀ b < NBUF,
      (x.c.buf b).refcnt ≠ 0 := by
  intro H
  obtain ⟨s0, s, l, hr, h0, hp, hend, hl⟩ := scan_panics
  obtain ⟨x, hx, hbusy⟩ := H 1 1 1 100 s0 s l hr h0 hp (fun x hx => (hl x hx).1) hend
  obtain ⟨-, b, hb, hfree⟩ := hl x hx
  exact hbusy b hb hfree

theorem panic_saw_all_busy_run : ∃ (s0 s : St) (l : List St), Reach 1 s0 ∧ Path 1 s0 l s ∧ s.pc 1 = .panic ∧
    ∀ b < NBUF, ∃ x x', [x', x] <:+: l ∧ ScannedBusy 1 x x' b := by
  obtain ⟨s0, s, l, hr, h0, hp, hend, hl⟩ := scan_panics
  exact ⟨s0, s, l, hr, hp, hend, panic_saw_all_busy hr h0 hp (fun x hx => (hl x hx).1) hend⟩

end Xv6Labs.Bio
