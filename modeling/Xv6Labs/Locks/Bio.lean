/-
  Xv6Labs.Locks.Bio — `bio.c` of the locks lab: the buffer cache.

  A buffer is a number below NBUF, a bucket the list of the buffers linked from it, in
  order. The reference count is a `uint`. What the sleep lock protects (the contents) is
  kept beside the cache, and `disk` is what virtio_disk_rw copies to and from.

  `bget` runs without interleaving; the sections it is made of are named, so that the
  concurrent model runs the same ones.

  - `scan_none`: the victim scan fails when no buffer on a bucket is free, and only then.
  - `cache_transparent`: in every run a bread returns what was last written to the block.
-/

import Xv6Labs.Lib.Word
import Mathlib.Logic.Function.Basic
import Mathlib.Data.List.Basic

namespace Xv6Labs.Bio

/-! ## The code -/

abbrev NBUF : Nat := 30
abbrev NBUCKET : Nat := 13

structure Buf where
  dev : Nat
  blockno : Nat
  refcnt : Nat
  valid : Bool
  lastuse_time : Nat
  owner : Nat

structure Bcache where
  buf : Nat → Buf
  bucket : Nat → List Nat

def BUCKET_HASH (blockno : Nat) : Nat := blockno % NBUCKET

/-- The loop of binit: buffers `0 .. n` linked into bucket 0, the last one first. -/
def binitLoop : Nat → List Nat
  | 0 => []
  | n + 1 => n :: binitLoop n

def binit : Bcache := ⟨fun _ => ⟨0, 0, 0, false, 0, 0⟩, fun k => if k = 0 then binitLoop NBUF else []⟩

def Bcache.set (c : Bcache) (b : Nat) (x : Buf) : Bcache := { c with buf := Function.update c.buf b x }

/-- The search of a bucket. -/
def lookup (c : Bcache) (dev blockno : Nat) : Option Nat :=
  (c.bucket (BUCKET_HASH blockno)).find? fun b => (c.buf b).dev == dev && (c.buf b).blockno == blockno

/-- `b->refcnt++` -/
def incref (b : Nat) (c : Bcache) : Bcache := c.set b { c.buf b with refcnt := ((c.buf b).refcnt + 1) % 2 ^ 32 }

/-- `b->refcnt--` -/
def decref (b : Nat) (c : Bcache) : Bcache :=
  c.set b { c.buf b with refcnt := ((c.buf b).refcnt + (2 ^ 32 - 1)) % 2 ^ 32 }

/-- `ans` is the buffer after `before_ans`; `owner` is -1 before the first one is found. -/
structure Scan where
  ans : Option Nat
  min_lastuse_time : Nat
  owner : Option Nat
  deriving DecidableEq

def Scan.start : Scan := ⟨none, 0xffffffff, none⟩

/-- One bucket of the victim scan. -/
def scanLoop (c : Bcache) (i : Nat) : List Nat → Scan → Scan
  | [], sc => sc
  | b :: l, sc =>
    if (c.buf b).refcnt = 0 ∧ sc.ans = none then scanLoop c i l ⟨some b, (c.buf b).lastuse_time, some i⟩
    else if (c.buf b).refcnt = 0 ∧ (c.buf b).lastuse_time < sc.min_lastuse_time then
      scanLoop c i l ⟨some b, (c.buf b).lastuse_time, some i⟩
    else scanLoop c i l sc

def scanBucket (c : Bcache) (i : Nat) (sc : Scan) : Scan := scanLoop c i (c.bucket i) sc

/-- The scan with `n` buckets to go. -/
def scan (c : Bcache) : Nat → Nat → Scan → Scan
  | 0, _, sc => sc
  | n + 1, i, sc => scan c n (i + 1) (scanBucket c i sc)

def unlink (owner ans : Nat) (c : Bcache) : Bcache :=
  { c with bucket := Function.update c.bucket owner ((c.bucket owner).erase ans) }

def link (index ans : Nat) (c : Bcache) : Bcache :=
  { c with bucket := Function.update c.bucket index (ans :: c.bucket index) }

def reset (dev blockno ans : Nat) (c : Bcache) : Bcache :=
  c.set ans
    { c.buf ans with dev := dev, blockno := blockno, refcnt := 1, valid := false, owner := BUCKET_HASH blockno }

/-- bget up to acquiresleep. -/
def bget (dev blockno : Nat) (c : Bcache) : Except String (Nat × Bcache) :=
  match lookup c dev blockno with
  | some b => .ok (b, incref b c)
  | none =>
    match lookup c dev blockno with
    | some b => .ok (b, incref b c)
    | none =>
      match scan c NBUCKET 0 .start with
      | ⟨some ans, _, owner⟩ =>
        if owner ≠ some (BUCKET_HASH blockno) then
          .ok (ans, reset dev blockno ans (link (BUCKET_HASH blockno) ans (unlink (owner.getD 0) ans c)))
        else .ok (ans, reset dev blockno ans c)
      | ⟨none, _, _⟩ => .error "bget: No buffer."

/-- brelse after releasesleep. -/
def unref (ticks b : Nat) (c : Bcache) : Bcache :=
  let c := decref b c
  if (c.buf b).refcnt = 0 then c.set b { c.buf b with lastuse_time := ticks } else c

theorem unref_bucket (ticks b : Nat) (c : Bcache) : (unref ticks b c).bucket = c.bucket := by
  unfold unref
  dsimp only
  split <;> rfl

/-! ## Buffers with contents -/

/-- `held b`: the block for which the caller that has the buffer locked asked. -/
structure Cache (Data : Type) where
  c : Bcache
  data : Nat → Data
  held : Nat → Option (Nat × Nat)
  disk : Nat × Nat → Data

variable {Data : Type}

def virtio_disk_rw (b : Nat) (write : Bool) (s : Cache Data) : Cache Data :=
  let k := ((s.c.buf b).dev, (s.c.buf b).blockno)
  if write then { s with disk := Function.update s.disk k (s.data b) } else
    { s with data := Function.update s.data b (s.disk k) }

/-- A buffer that is locked is waited for; without interleaving, for ever. -/
def bread (dev blockno : Nat) (s : Cache Data) : Except String (Nat × Cache Data) :=
  match bget dev blockno s.c with
  | .error e => .error e
  | .ok (b, c) =>
    if s.held b ≠ none then .error "acquiresleep"
    else
      let s := { s with c := c, held := Function.update s.held b (some (dev, blockno)) }
      if (s.c.buf b).valid then .ok (b, s)
      else
        let s := virtio_disk_rw b false s
        .ok (b, { s with c := s.c.set b { s.c.buf b with valid := true } })

def bwrite (b : Nat) (s : Cache Data) : Except String (Cache Data) :=
  if s.held b = none then .error "bwrite" else .ok (virtio_disk_rw b true s)

def brelse (ticks b : Nat) (s : Cache Data) : Except String (Cache Data) :=
  if s.held b = none then .error "brelse"
  else .ok { s with c := unref ticks b s.c, held := Function.update s.held b none }

def bpin (b : Nat) (s : Cache Data) : Cache Data := { s with c := incref b s.c }

def bunpin (b : Nat) (s : Cache Data) : Cache Data := { s with c := decref b s.c }

/-! ## The sections -/

section

variable {c c' : Bcache}

@[simp] theorem set_bucket (c : Bcache) (b : Nat) (x : Buf) : (c.set b x).bucket = c.bucket := rfl

@[simp] theorem set_buf_self (c : Bcache) (b : Nat) (x : Buf) : (c.set b x).buf b = x := Function.update_self ..

theorem set_buf_ne (c : Bcache) {a b : Nat} (x : Buf) (h : a ≠ b) : (c.set b x).buf a = c.buf a :=
  Function.update_of_ne h ..

theorem lookup_some {dev blockno b : Nat} (h : lookup c dev blockno = some b) :
    b ∈ c.bucket (BUCKET_HASH blockno) ∧ (c.buf b).dev = dev ∧ (c.buf b).blockno = blockno := by
  have h1 := List.find?_some h
  simp only [Bool.and_eq_true, beq_iff_eq] at h1
  exact ⟨List.mem_of_find?_eq_some h, h1⟩

theorem lookup_none {dev blockno : Nat} (h : lookup c dev blockno = none) {b : Nat}
    (hb : b ∈ c.bucket (BUCKET_HASH blockno)) :
    ¬ ((c.buf b).dev = dev ∧ (c.buf b).blockno = blockno) := by
  have := List.find?_eq_none.mp h b hb
  simpa using this

/-- What the scan has is a free buffer, and the bucket it is on. -/
def Scan.Good (c : Bcache) (sc : Scan) : Prop :=
  ∀ b, sc.ans = some b → ∃ k < NBUCKET, sc.owner = some k ∧ b ∈ c.bucket k ∧ (c.buf b).refcnt = 0

theorem scanLoop_good {i : Nat} (hi : i < NBUCKET) : ∀ l sc, (∀ b ∈ l, b ∈ c.bucket i) → sc.Good c →
    (scanLoop c i l sc).Good c := by
  intro l
  induction l with
  | nil => exact fun sc _ h => h
  | cons b l ih =>
    intro sc hl h
    have hb : (c.buf b).refcnt = 0 → Scan.Good c ⟨some b, (c.buf b).lastuse_time, some i⟩ := by
      rintro h0 _ ⟨⟩
      exact ⟨i, hi, rfl, hl b (by simp), h0⟩
    have hl' : ∀ x ∈ l, x ∈ c.bucket i := fun x hx => hl x (by simp [hx])
    simp only [scanLoop]
    split
    · rename_i h0
      exact ih _ hl' (hb h0.1)
    · split
      · rename_i h0
        exact ih _ hl' (hb h0.1)
      · exact ih _ hl' h

theorem scanLoop_none (i : Nat) : ∀ l sc, (scanLoop c i l sc).ans = none ↔ sc.ans = none ∧ ∀ b ∈ l,
    (c.buf b).refcnt ≠ 0 := by
  intro l
  induction l with
  | nil => simp [scanLoop]
  | cons b l ih =>
    intro sc
    by_cases h0 : (c.buf b).refcnt = 0
    · simp only [scanLoop, h0, true_and]
      split
      · simp [ih, h0]
      · rename_i hs
        split
        · simp [ih, h0]
        · simp [ih, h0, hs]
    · simp [scanLoop, h0, ih]

theorem scanBucket_good {i : Nat} (hi : i < NBUCKET) {sc : Scan} (h : sc.Good c) : (scanBucket c i sc).Good c :=
  scanLoop_good hi _ sc (fun _ hb => hb) h

theorem scan_good : ∀ n i sc, i + n = NBUCKET → sc.Good c → (scan c n i sc).Good c := by
  intro n
  induction n with
  | zero => exact fun i sc _ h => h
  | succ n ih => exact fun i sc hn h => ih (i + 1) _ (by omega) (scanBucket_good (by omega) h)

theorem scan_none : ∀ n i sc, (scan c n i sc).ans = none ↔ sc.ans = none ∧ ∀ k, i ≤ k → k < i + n → ∀ b ∈ c.bucket k,
    (c.buf b).refcnt ≠ 0 := by
  intro n
  induction n with
  | zero =>
    intro i sc
    simp only [scan]
    exact ⟨fun h => ⟨h, fun k h1 h2 => by omega⟩, fun h => h.1⟩
  | succ n ih =>
    intro i sc
    rw [scan, ih, scanBucket, scanLoop_none]
    constructor
    · rintro ⟨⟨h1, h2⟩, h3⟩
      refine ⟨h1, fun k hk hk' => ?_⟩
      by_cases e : k = i
      · subst e
        exact h2
      · exact h3 k (by omega) (by omega)
    · rintro ⟨h1, h2⟩
      exact ⟨⟨h1, h2 i (Nat.le_refl _) (by omega)⟩, fun k hk hk' => h2 k (by omega) (by omega)⟩

/-- A free buffer gets a new identity, and its bucket; no other buffer is touched. -/
structure Recycled (dev blockno b : Nat) (c c' : Bcache) : Prop where
  free : (c.buf b).refcnt = 0
  was : ∃ k < NBUCKET, b ∈ c.bucket k
  self : (c'.buf b).dev = dev ∧ (c'.buf b).blockno = blockno ∧ (c'.buf b).refcnt = 1 ∧ (c'.buf b).valid = false
  other : ∀ x, x ≠ b → c'.buf x = c.buf x
  home : b ∈ c'.bucket (BUCKET_HASH blockno)
  lists : ∀ x, x ≠ b → ∀ k, x ∈ c'.bucket k ↔ x ∈ c.bucket k

theorem recycled_in_place {dev blockno b : Nat} (h0 : (c.buf b).refcnt = 0)
    (hb : b ∈ c.bucket (BUCKET_HASH blockno)) :
    Recycled dev blockno b c (reset dev blockno b c) := by
  refine ⟨h0, ⟨_, Nat.mod_lt _ (by decide), hb⟩, by simp [reset], fun x hx => set_buf_ne c _ hx, hb,
    fun x _ k => Iff.rfl⟩

theorem recycled_moved {dev blockno b k : Nat} (h0 : (c.buf b).refcnt = 0) (hk : k < NBUCKET) (hb : b ∈ c.bucket k)
    (hne : k ≠ BUCKET_HASH blockno) :
    Recycled dev blockno b c (reset dev blockno b (link (BUCKET_HASH blockno) b (unlink k b c))) := by
  refine ⟨h0, ⟨k, hk, hb⟩, by simp [reset], fun x hx => set_buf_ne _ _ hx, by simp [reset, link], fun x hx k' => ?_⟩
  simp only [reset, set_bucket, link, unlink]
  by_cases e1 : k' = BUCKET_HASH blockno
  · subst e1
    simp [Ne.symm hne, hx]
  · by_cases e2 : k' = k
    · subst e2
      simp [e1, List.mem_erase_of_ne hx]
    · simp [e1, e2]

/-- bget finds the block, or recycles a free buffer for it, or there is none. -/
theorem bget_cases (dev blockno : Nat) (c : Bcache) :
    (∃ b, lookup c dev blockno = some b ∧ bget dev blockno c = .ok (b, incref b c)) ∨
      (lookup c dev blockno = none ∧ ∃ b c', bget dev blockno c = .ok (b, c') ∧ Recycled dev blockno b c c') ∨
      (lookup c dev blockno = none ∧ bget dev blockno c = .error "bget: No buffer." ∧ ∀ k < NBUCKET, ∀ b ∈ c.bucket k,
        (c.buf b).refcnt ≠ 0) := by
  cases hl : lookup c dev blockno with
  | some b => exact Or.inl ⟨b, rfl, by simp only [bget, hl]⟩
  | none =>
    have hg : (scan c NBUCKET 0 .start).Good c := scan_good NBUCKET 0 _ rfl (by simp [Scan.Good, Scan.start])
    have hn := scan_none (c := c) NBUCKET 0 .start
    rcases hs : scan c NBUCKET 0 .start with ⟨_ | b, t, owner⟩
    · rw [hs] at hn
      refine Or.inr (Or.inr ⟨rfl, by simp only [bget, hl, hs], fun k hk => ?_⟩)
      exact (hn.mp rfl).2 k (Nat.zero_le _) (by omega)
    · rw [hs] at hg
      obtain ⟨k, hk, rfl, hb, h0⟩ := hg b rfl
      refine Or.inr (Or.inl ⟨rfl, ?_⟩)
      by_cases e : k = BUCKET_HASH blockno
      · subst e
        exact ⟨b, _, by simp only [bget, hl, hs, ne_eq, not_true_eq_false, if_false], recycled_in_place h0 hb⟩
      · exact ⟨b, _, by simp [bget, hl, hs, e], recycled_moved h0 hk hb e⟩

end

/-! ## Transparency -/

/-- The block a buffer has. -/
def Bcache.key (c : Bcache) (b : Nat) : Nat × Nat := ((c.buf b).dev, (c.buf b).blockno)

structure Clean (content : Nat × Nat → Data) (s : Cache Data) : Prop where
  every : ∀ b < NBUF, ∃ k < NBUCKET, b ∈ s.c.bucket k
  home : ∀ b, 1 ≤ (s.c.key b).1 → b ∈ s.c.bucket (BUCKET_HASH (s.c.key b).2)
  unique : ∀ b b', 1 ≤ (s.c.key b).1 → s.c.key b = s.c.key b' → b = b'
  data : ∀ b, 1 ≤ (s.c.key b).1 → (s.c.buf b).valid = true → s.data b = content (s.c.key b)
  disk : ∀ k : Nat × Nat, 1 ≤ k.1 → s.disk k = content k
  held : ∀ b k, s.held b = some k → s.c.key b = k ∧ (s.c.buf b).valid = true

section

variable {content : Nat × Nat → Data} {s s' : Cache Data}

/-- Counts and time stamps are nothing to the contents. -/
theorem Clean.congr (h : Clean content s) {c : Bcache} (hb : c.bucket = s.c.bucket)
    (hk : ∀ b, c.key b = s.c.key b ∧ (c.buf b).valid = (s.c.buf b).valid) : Clean content { s with c := c } := by
  refine ⟨?_, fun b => ?_, fun b b' => ?_, fun b => ?_, h.disk, fun b k e => ?_⟩
  · simp only [hb]
    exact h.every
  · simp only [(hk b).1, hb]
    exact h.home b
  · simp only [(hk b).1, (hk b').1]
    exact h.unique b b'
  · simp only [(hk b).1, (hk b).2]
    exact h.data b
  · simp only [(hk b).1, (hk b).2]
    exact h.held b k e

theorem key_set {c : Bcache} {b : Nat} {x : Buf} (h1 : x.dev = (c.buf b).dev) (h2 : x.blockno = (c.buf b).blockno)
    (h3 : x.valid = (c.buf b).valid) (a : Nat) : (c.set b x).key a = c.key a ∧
    ((c.set b x).buf a).valid = (c.buf a).valid := by
  by_cases e : a = b
  · subst e
    simp [Bcache.key, h1, h2, h3]
  · simp [Bcache.key, set_buf_ne c x e]

theorem Clean.incref (h : Clean content s) (b : Nat) : Clean content { s with c := incref b s.c } :=
  h.congr rfl (key_set rfl rfl rfl)

theorem Clean.decref (h : Clean content s) (b : Nat) : Clean content { s with c := decref b s.c } :=
  h.congr rfl (key_set rfl rfl rfl)

theorem Clean.unref (h : Clean content s) (ticks b : Nat) : Clean content { s with c := unref ticks b s.c } := by
  simp only [Bio.unref]
  split
  · exact (h.decref b).congr rfl (key_set rfl rfl rfl)
  · exact h.decref b

/-- A buffer nobody has locked takes a new block. -/
theorem Clean.recycled (h : Clean content s) {dev blockno b : Nat} {c : Bcache} (hl : lookup s.c dev blockno = none)
    (hr : Recycled dev blockno b s.c c) (hh : s.held b = none) : Clean content { s with c := c } := by
  have hself : c.key b = (dev, blockno) := by simp [Bcache.key, hr.self.1, hr.self.2.1]
  have hother : ∀ x, x ≠ b → c.key x = s.c.key x := fun x hx => by simp [Bcache.key, hr.other x hx]
  -- the block was in no other buffer
  have hnew : ∀ x, x ≠ b → 1 ≤ dev → s.c.key x ≠ (dev, blockno) := fun x _ hdev e => by
    have h1 := h.home x (by rw [e]; exact hdev)
    rw [e] at h1
    simp only [Bcache.key, Prod.mk.injEq] at e
    exact lookup_none hl h1 e
  refine ⟨fun x hx => ?_, fun x hx => ?_, fun x y hx e => ?_, fun x hx hv => ?_, h.disk, fun x k hk => ?_⟩
  · by_cases e : x = b
    · subst e
      exact ⟨_, Nat.mod_lt _ (by decide), hr.home⟩
    · obtain ⟨k, hk, hm⟩ := h.every x hx
      exact ⟨k, hk, (hr.lists x e k).mpr hm⟩
  · by_cases e : x = b
    · subst e
      simp only [hself]
      exact hr.home
    · simp only [hother x e] at hx ⊢
      exact (hr.lists x e _).mpr (h.home x hx)
  · by_cases ex : x = b <;> by_cases ey : y = b
    · rw [ex, ey]
    · subst ex
      simp only [hself, hother y ey] at e hx
      exact absurd e.symm (hnew y ey hx)
    · subst ey
      simp only [hself, hother x ex] at e hx
      exact absurd e (hnew x ex (by rw [e] at hx; exact hx))
    · simp only [hother x ex, hother y ey] at e hx
      exact h.unique x y hx e
  · by_cases ex : x = b
    · subst ex
      have := hr.self.2.2.2
      simp [this] at hv
    · simp only [hother x ex, hr.other x ex] at hx hv ⊢
      exact h.data x hx hv
  · have ex : x ≠ b := by
      rintro rfl
      rw [hh] at hk
      cases hk
    simp only [hother x ex, hr.other x ex]
    exact h.held x k hk

/-- A buffer that is handed out is valid. -/
theorem Clean.fetch (h : Clean content s) {b : Nat} : Clean content
    { s with data := Function.update s.data b (s.disk (s.c.key b)), c := s.c.set b { s.c.buf b with valid := true } } := by
  have hk : ∀ x, (s.c.set b { s.c.buf b with valid := true }).key x = s.c.key x := fun x => by
    by_cases e : x = b
    · subst e
      simp [Bcache.key]
    · simp [Bcache.key, set_buf_ne _ _ e]
  refine ⟨h.every, fun x => ?_, fun x y => ?_, fun x hx hv => ?_, h.disk, fun x k e => ?_⟩
  · simp only [hk]
    exact h.home x
  · simp only [hk]
    exact h.unique x y
  · simp only [hk] at hx ⊢
    by_cases e : x = b
    · subst e
      simp [h.disk _ hx]
    · simp only [set_buf_ne _ _ e] at hv
      simp [e, h.data x hx hv]
  · obtain ⟨h1, h2⟩ := h.held x k e
    refine ⟨by simp only [hk]; exact h1, ?_⟩
    by_cases e : x = b
    · subst e
      simp
    · simp only [set_buf_ne _ _ e]
      exact h2

theorem Clean.hold (h : Clean content s) {b : Nat} {k : Nat × Nat} (hk : s.c.key b = k)
    (hv : (s.c.buf b).valid = true) :
    Clean content { s with held := Function.update s.held b (some k) } := by
  refine ⟨h.every, h.home, h.unique, h.data, h.disk, fun x k' e => ?_⟩
  by_cases ex : x = b
  · subst ex
    simp only [Function.update_self, Option.some.injEq] at e
    exact ⟨e ▸ hk, hv⟩
  · simp only [Function.update_of_ne ex] at e
    exact h.held x k' e

theorem Clean.release (h : Clean content s) (b : Nat) :
    Clean content { s with held := Function.update s.held b none } := by
  refine ⟨h.every, h.home, h.unique, h.data, h.disk, fun x k e => ?_⟩
  by_cases ex : x = b
  · subst ex
    simp at e
  · simp only [Function.update_of_ne ex] at e
    exact h.held x k e

/-- The holder writes its block. -/
theorem Clean.write (h : Clean content s) {b : Nat} {k : Nat × Nat} (hk : s.held b = some k) (d : Data) :
    Clean (Function.update content k d)
      { s with data := Function.update s.data b d, disk := Function.update s.disk (s.c.key b) d } := by
  obtain ⟨rfl, -⟩ := h.held b k hk
  refine ⟨h.every, h.home, h.unique, fun x hx hv => ?_, fun k' hk' => ?_, h.held⟩
  · by_cases e : x = b
    · subst e
      simp
    · have hne : s.c.key x ≠ s.c.key b := fun e' => e (h.unique x b hx e')
      simp [e, hne, h.data x hx hv]
  · by_cases e : k' = s.c.key b
    · subst e
      simp
    · simp [e, h.disk k' hk']

/-- bget hands out a buffer that has the block. -/
theorem Clean.bget (h : Clean content s) {dev blockno b : Nat} {c : Bcache}
    (e : Bio.bget dev blockno s.c = .ok (b, c)) (hh : s.held b = none) :
    Clean content { s with c := c } ∧ c.key b = (dev, blockno) := by
  rcases bget_cases dev blockno s.c with ⟨b', hl, e'⟩ | ⟨hl, b', c', e', hr⟩ | ⟨-, e', -⟩
  · rw [e] at e'
    simp only [Except.ok.injEq, Prod.mk.injEq] at e'
    obtain ⟨rfl, rfl⟩ := e'
    obtain ⟨-, h1, h2⟩ := lookup_some hl
    exact ⟨h.incref b, by simp [Bcache.key, Bio.incref, h1, h2]⟩
  · rw [e] at e'
    simp only [Except.ok.injEq, Prod.mk.injEq] at e'
    obtain ⟨rfl, rfl⟩ := e'
    exact ⟨h.recycled hl hr hh, by simp [Bcache.key, hr.self.1, hr.self.2.1]⟩
  · rw [e] at e'
    cases e'

theorem Clean.bread (h : Clean content s) {dev blockno b : Nat} (e : Bio.bread dev blockno s = .ok (b, s')) :
    Clean content s' ∧ s'.held b = some (dev, blockno) ∧ (1 ≤ dev → s'.data b = content (dev, blockno)) := by
  simp only [Bio.bread] at e
  cases hg : Bio.bget dev blockno s.c with
  | error e' => simp [hg] at e
  | ok r =>
    obtain ⟨b', c⟩ := r
    simp only [hg] at e
    by_cases hh : s.held b' = none
    · simp only [hh, ne_eq, not_true_eq_false, if_false] at e
      obtain ⟨h1, hk⟩ := h.bget hg hh
      by_cases hv : (c.buf b').valid = true
      · simp only [hv, if_true, Except.ok.injEq, Prod.mk.injEq] at e
        obtain ⟨rfl, rfl⟩ := e
        refine ⟨h1.hold hk hv, by simp, fun hdev => ?_⟩
        have := h1.data b' (by simp only [hk]; exact hdev) hv
        simpa only [hk] using this
      · simp only [hv, if_false, Bool.false_eq_true, virtio_disk_rw, Except.ok.injEq, Prod.mk.injEq] at e
        obtain ⟨rfl, rfl⟩ := e
        obtain ⟨hk1, hk2⟩ := Prod.mk.inj hk
        have h2 := (h1.fetch (b := b')).hold (b := b') (k := (dev, blockno)) (by simpa [Bcache.key] using hk)
          (by simp)
        refine ⟨h2, by simp, fun hdev => ?_⟩
        have := h2.data b' (by simpa [Bcache.key, hk1] using hdev) (by simp)
        simpa [Bcache.key, hk1, hk2] using this
    · simp [hh] at e

end

/-- The calls of any number of callers, one after the other, with the writes newest first. -/
inductive Run (disk : Nat × Nat → Data) : Cache Data → List ((Nat × Nat) × Data) → Prop where
  | start (data : Nat → Data) : Run disk ⟨binit, data, fun _ => none, disk⟩ []
  | bread {s s' ws} (dev blockno b : Nat) : Run disk s ws → bread dev blockno s = .ok (b, s') → Run disk s' ws
  | write {s s' ws} (b : Nat) (k : Nat × Nat) (d : Data) : Run disk s ws → s.held b = some k →
      bwrite b { s with data := Function.update s.data b d } = .ok s' → Run disk s' ((k, d) :: ws)
  | brelse {s s' ws} (ticks b : Nat) : Run disk s ws → brelse ticks b s = .ok s' → Run disk s' ws
  | bpin {s ws} (b : Nat) : Run disk s ws → Run disk (bpin b s) ws
  | bunpin {s ws} (b : Nat) : Run disk s ws → Run disk (bunpin b s) ws

/-- What was last written to the block, or what the disk had. -/
def lastWritten (disk : Nat × Nat → Data) (ws : List ((Nat × Nat) × Data)) (k : Nat × Nat) : Data :=
  ((ws.find? fun w => w.1 == k).map Prod.snd).getD (disk k)

theorem lastWritten_cons (disk : Nat × Nat → Data) (k : Nat × Nat) (d : Data) (ws : List ((Nat × Nat) × Data)) :
    lastWritten disk ((k, d) :: ws) = Function.update (lastWritten disk ws) k d := by
  funext k'
  by_cases e : k' = k
  · subst e
    simp [lastWritten]
  · simp [lastWritten, e, Ne.symm e]

theorem mem_binitLoop (n b : Nat) : b ∈ binitLoop n ↔ b < n := by
  induction n with
  | zero => simp [binitLoop]
  | succ n ih =>
    rw [binitLoop, List.mem_cons, ih]
    omega

theorem Run.clean {disk : Nat × Nat → Data} {s : Cache Data} {ws : List ((Nat × Nat) × Data)} (hr : Run disk s ws) :
    Clean (lastWritten disk ws) s := by
  induction hr with
  | start data =>
    refine ⟨fun b hb => ⟨0, by decide, ?_⟩, ?_, ?_, ?_, ?_, ?_⟩ <;> simp [binit, Bcache.key, lastWritten]
    exact (mem_binitLoop NBUF b).mpr hb
  | bread dev blockno b _ e ih => exact (ih.bread e).1
  | write b k d _ hk e ih =>
    rw [lastWritten_cons]
    simp only [bwrite, hk, reduceCtorEq, if_false, virtio_disk_rw, if_true, Except.ok.injEq,
      Function.update_self] at e
    rw [← e]
    exact ih.write hk d
  | brelse ticks b _ e ih =>
    simp only [Bio.brelse] at e
    split at e
    · cases e
    · simp only [Except.ok.injEq] at e
      rw [← e]
      exact (ih.unref ticks b).release b
  | bpin b _ ih => exact ih.incref b
  | bunpin b _ ih => exact ih.decref b

/-- After every sequence of calls, bread of a block returns what was last written to it. A
    block that is cached needs no free buffer; at a miss one has to be free, and the buffers
    that are locked have to be counted, so that the one taken is not locked. -/
theorem cache_transparent {disk : Nat × Nat → Data} {s : Cache Data} {ws : List ((Nat × Nat) × Data)}
    (hr : Run disk s ws) {dev blockno : Nat} (hdev : 1 ≤ dev) :
    (∀ b s', bread dev blockno s = .ok (b, s') → s'.data b = lastWritten disk ws (dev, blockno)) ∧
      ((lookup s.c dev blockno = none → ∃ b < NBUF, (s.c.buf b).refcnt = 0) →
        bread dev blockno s ≠ .error "bget: No buffer.") ∧
      ((lookup s.c dev blockno = none → (∃ b < NBUF, (s.c.buf b).refcnt = 0) ∧ ∀ b, s.held b ≠ none →
        (s.c.buf b).refcnt ≠ 0) →
        (∀ b, s.held b ≠ some (dev, blockno)) → ∃ b s', bread dev blockno s = .ok (b, s')) := by
  have h := hr.clean
  have hfree : (∃ b < NBUF, (s.c.buf b).refcnt = 0) → ¬ ∀ k < NBUCKET, ∀ b ∈ s.c.bucket k,
    (s.c.buf b).refcnt ≠ 0 := by
    rintro ⟨b, hb, h0⟩ hall
    obtain ⟨k, hk, hm⟩ := h.every b hb
    exact hall k hk b hm h0
  have hgo : ∀ b c, bget dev blockno s.c = .ok (b, c) → s.held b = none → ∃ b s', bread dev blockno s = .ok (b, s') :=
    fun b c e hh => by
    by_cases hv : (c.buf b).valid = true
    · exact ⟨b, _, by simp only [bread, e, hh, ne_eq, not_true_eq_false, if_false, hv, if_true]; rfl⟩
    · exact ⟨b, _, by simp only [bread, e, hh, ne_eq, not_true_eq_false, if_false, hv]; rfl⟩
  refine ⟨fun b s' e => (h.bread e).2.2 hdev, fun hf e => ?_, fun hf hno => ?_⟩
  · rcases bget_cases dev blockno s.c with ⟨b, -, e'⟩ | ⟨-, b, c', e', -⟩ | ⟨hl, -, hall⟩
    · simp only [bread, e'] at e
      split at e
      · simp at e
      · split at e <;> cases e
    · simp only [bread, e'] at e
      split at e
      · simp at e
      · split at e <;> cases e
    · exact hfree (hf hl) hall
  · rcases bget_cases dev blockno s.c with ⟨b, hl, e⟩ | ⟨hl, b, c', e, hrec⟩ | ⟨hl, -, hall⟩
    · refine hgo b _ e ?_
      cases hh : s.held b with
      | none => rfl
      | some k =>
        obtain ⟨-, h1, h2⟩ := lookup_some hl
        have h3 := (h.held b k hh).1
        simp only [Bcache.key, h1, h2] at h3
        exact absurd (h3 ▸ hh) (hno b)
    · refine hgo b _ e ?_
      cases hh : s.held b with
      | none => rfl
      | some k => exact absurd hrec.free ((hf hl).2 b (by simp [hh]))
    · exact absurd hall (hfree (hf hl).1)

theorem cache_transparent_after_write : ∃ (s s' : Cache Nat) (b : Nat), Run (fun _ => 5) s [((1, 7), 99)] ∧
    bread 1 7 s = .ok (b, s') ∧ s'.data b = 99 := by
  obtain ⟨s, hr, s', e⟩ : ∃ s, Run (fun _ => 5) s [((1, 7), 99)] ∧ ∃ s', bread 1 7 s = .ok (29, s') := by
    have h1 := Run.bread 1 7 29 (show Run (fun _ => 5) _ [] from .start fun _ => 0) rfl
    have h2 := Run.write 29 (1, 7) 99 h1 rfl rfl
    exact ⟨_, Run.brelse 1 29 h2 rfl, _, rfl⟩
  have := (cache_transparent hr (Nat.le_refl 1)).1 29 s' e
  exact ⟨s, s', 29, hr, e, this⟩

end Xv6Labs.Bio
