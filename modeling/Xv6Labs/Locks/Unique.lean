/-
  Xv6Labs.Locks.Unique — a block is cached once.

  The process that found a block missing under bcache.lock keeps that lock until it has
  given the block a buffer, and nobody else moves or renames one. The bucket lock it keeps
  shuts the first search out of the victim's bucket, so that its count stays 0.

  - `Places`, `Counts`: where the buffers are, and who uses them; each step keeps both.
  - `blocks_cached_once`: in every interleaving, as long as no count has to pass 2^32.
  - `count_wraps`: a buffer that is pinned so often that its count is 2^32 too small.
-/

import Xv6Labs.Locks.Bget
import Mathlib.Data.List.Count
import Mathlib.Data.List.Nodup

namespace Xv6Labs.Bio

/-! ## What holds -/

/-- The references and pins of the buffer that were not given back. -/
def St.users (s : St) (b : Nat) : Nat := s.refs.countP (·.2 == b) + s.pins.count b

/-- The block for which the process looks for a buffer, or puts one in place. -/
def Pc.seeks : Pc → Option (Nat × Nat)
  | .scan dev blockno _ _ => some (dev, blockno)
  | .move dev blockno _ => some (dev, blockno)
  | _ => none

/-- The buffer it has chosen. -/
def Pc.victim : Pc → Option Nat
  | .scan _ _ _ sc => sc.ans
  | .move _ _ b => some b
  | _ => none

/-- The buffer is off its old bucket and not yet on its new one. -/
def InTransit (s : St) (b : Nat) : Prop := ∃ t dev blockno, s.pc t = .move dev blockno b

structure Places (s : St) : Prop where
  lock : ∀ t, (s.pc t).locks = true ↔ s.lock = some t
  home : ∀ k b, b ∈ s.c.bucket k → b < NBUF ∧ k = BUCKET_HASH (s.c.key b).2
  nodup : ∀ k, (s.c.bucket k).Nodup
  every : ∀ b < NBUF, b ∈ s.c.bucket (BUCKET_HASH (s.c.key b).2) ∨ InTransit s b
  off : ∀ b, InTransit s b → b < NBUF ∧ ∀ k, b ∉ s.c.bucket k
  unique : ∀ b < NBUF, ∀ b' < NBUF, 1 ≤ (s.c.key b).1 → s.c.key b = s.c.key b' → b = b'
  absent : ∀ t k, (s.pc t).seeks = some k → ∀ b < NBUF, s.c.key b ≠ k

structure Counts (s : St) : Prop where
  count : ∀ b, (s.c.buf b).refcnt = s.users b
  owed : ∀ t b, s.locked b = some t ∨ s.pc t = .sleep b → (t, b) ∈ s.refs
  spare : ∀ t b, (s.pc t).victim = some b → (s.c.buf b).refcnt = 0
  kept : ∀ t dev blockno i sc, s.pc t = .scan dev blockno i sc →
    s.kept = sc.owner ∧ ∀ b, sc.ans = some b → ∃ k, sc.owner = some k ∧ b ∈ s.c.bucket k
  loose : (s.lock = none ∨ ∃ b, InTransit s b) → s.kept = none

section

variable {d t : Nat} {s s' : St} {b dev blockno : Nat}

/-! ## The parts of a step -/

theorem key_keep (c : Bcache) {b : Nat} {x : Buf} (h : (x.dev, x.blockno) = c.key b) (a : Nat) :
    (c.set b x).key a = c.key a := by
  unfold Bcache.key at h ⊢
  by_cases e : a = b
  · subst e
    rw [set_buf_self, h]
  · rw [set_buf_ne c x e]

theorem key_incref (b : Nat) (c : Bcache) (a : Nat) : (incref b c).key a = c.key a := key_keep c (by rfl) a

theorem key_decref (b : Nat) (c : Bcache) (a : Nat) : (decref b c).key a = c.key a := key_keep c (by rfl) a

theorem key_unref (ticks b : Nat) (c : Bcache) (a : Nat) : (unref ticks b c).key a = c.key a := by
  unfold unref
  dsimp only
  split
  · exact (key_keep (decref b c) (by rfl) a).trans (key_decref b c a)
  · exact key_decref b c a

theorem key_reset (dev blockno ans : Nat) (c : Bcache) (a : Nat) :
    (reset dev blockno ans c).key a = if a = ans then (dev, blockno) else c.key a := by
  unfold reset Bcache.key
  by_cases e : a = ans
  · subst e
    simp
  · rw [set_buf_ne c _ e, if_neg e]

theorem refcnt_incref (b : Nat) (c : Bcache) (a : Nat) :
    ((incref b c).buf a).refcnt = if a = b then ((c.buf b).refcnt + 1) % 2 ^ 32 else (c.buf a).refcnt := by
  unfold incref
  by_cases e : a = b
  · subst e
    simp
  · rw [set_buf_ne c _ e, if_neg e]

theorem refcnt_decref (b : Nat) (c : Bcache) (a : Nat) :
    ((decref b c).buf a).refcnt = if a = b then ((c.buf b).refcnt + (2 ^ 32 - 1)) % 2 ^ 32 else (c.buf a).refcnt := by
  unfold decref
  by_cases e : a = b
  · subst e
    simp
  · rw [set_buf_ne c _ e, if_neg e]

theorem refcnt_unref (ticks b : Nat) (c : Bcache) (a : Nat) :
    ((unref ticks b c).buf a).refcnt = ((decref b c).buf a).refcnt := by
  unfold unref
  dsimp only
  split
  · by_cases e : a = b
    · subst e
      simp
    · rw [set_buf_ne _ _ e]
  · rfl

theorem refcnt_reset (dev blockno ans : Nat) (c : Bcache) (a : Nat) :
    ((reset dev blockno ans c).buf a).refcnt = if a = ans then 1 else (c.buf a).refcnt := by
  unfold reset
  by_cases e : a = ans
  · subst e
    simp
  · rw [set_buf_ne c _ e, if_neg e]

theorem users_got (s : St) (t b : Nat) (c : Bcache) (a : Nat) :
    (s.got t b c).users a = s.users a + if a = b then 1 else 0 := by
  unfold St.users St.got
  rw [List.countP_cons]
  by_cases e : a = b
  · subst e
    simp
    omega
  · simp [e, Ne.symm e]

theorem users_pos (h : (t, b) ∈ s.refs) : 0 < s.users b := by
  have : 0 < s.refs.countP (·.2 == b) := List.countP_pos_iff.mpr ⟨_, h, by simp⟩
  unfold St.users
  omega

/-! ## Where the buffers are -/

theorem locks_of_seeks {p : Pc} {k : Nat × Nat} (h : p.seeks = some k) : p.locks = true := by
  cases p <;> simp_all [Pc.seeks, Pc.locks]

theorem Places.one (h : Places s) {u : Nat} (h1 : (s.pc t).locks = true) (h2 : (s.pc u).locks = true) : u = t := by
  rw [h.lock] at h1 h2
  rw [h1, Option.some.injEq] at h2
  exact h2.symm

/-- Only the process with bcache.lock has a buffer in transit. -/
theorem Places.mover (h : Places s) (h1 : (s.pc t).locks = true) (hb : InTransit s b) :
    ∃ dev blockno, s.pc t = .move dev blockno b := by
  obtain ⟨u, dev, blockno, e⟩ := hb
  obtain rfl : u = t := h.one h1 (by rw [e]; rfl)
  exact ⟨dev, blockno, e⟩

/-- While it scans, there is none. -/
theorem Places.still (h : Places s) {i : Nat} {sc : Scan} (h0 : s.pc t = .scan dev blockno i sc) (a : Nat) :
    ¬ InTransit s a := fun hin => by
  obtain ⟨dev', blockno', e⟩ := h.mover (by rw [h0]; rfl) hin
  rw [h0] at e
  cases e

/-- The second search is right: with bcache.lock free, every buffer is on its bucket. -/
theorem Places.missing (h : Places s) (hl : s.lock = none) (hf : lookup s.c dev blockno = none) :
    ∀ b < NBUF, s.c.key b ≠ (dev, blockno) := by
  intro b hb e
  rcases h.every b hb with hm | ⟨u, dev', blockno', hu⟩
  · rw [e] at hm
    exact lookup_none hf hm ⟨congrArg Prod.fst e, congrArg Prod.snd e⟩
  · have h1 := (h.lock u).mp (by rw [hu]; rfl)
    rw [hl] at h1
    cases h1

/-- A step that leaves buckets and blocks alone. -/
theorem Places.same (h : Places s) (hs : Step d t s s') (hb : s'.c.bucket = s.c.bucket)
    (hk : ∀ b, s'.c.key b = s.c.key b)
    (hm : ∀ dev blockno b, s'.pc t = .move dev blockno b ↔ s.pc t = .move dev blockno b)
    (hseek : ∀ k, (s'.pc t).seeks = some k → (s.pc t).seeks = some k ∨ ∀ b < NBUF, s.c.key b ≠ k) : Places s' := by
  have htr : ∀ b, InTransit s' b ↔ InTransit s b := fun b => by
    refine exists_congr fun u => exists_congr fun dev => exists_congr fun blockno => ?_
    by_cases e : u = t
    · subst e
      exact hm dev blockno b
    · rw [hs.pc_ne e]
  refine ⟨hs.lock h.lock, fun k b hkb => ?_, fun k => ?_, fun b hlt => ?_, fun b hin => ?_, fun b hlt b' hlt' => ?_,
    fun u k hu b hlt => ?_⟩
  · rw [hb] at hkb
    rw [hk]
    exact h.home k b hkb
  · rw [hb]
    exact h.nodup k
  · rw [hb, hk, htr]
    exact h.every b hlt
  · rw [hb]
    exact h.off b ((htr b).mp hin)
  · rw [hk, hk]
    exact h.unique b hlt b' hlt'
  · rw [hk]
    by_cases e : u = t
    · subst e
      exact (hseek k hu).elim (fun hu => h.absent u k hu b hlt) fun hn => hn b hlt
    · rw [hs.pc_ne e] at hu
      exact h.absent u k hu b hlt

/-- The buffer of the process that seeks a block is put in its place, with the block. -/
theorem Places.put (h : Places s) (hs : Step d t s s') (hseek : (s.pc t).seeks = some (dev, blockno)) (hb : b < NBUF)
    (hpc : s'.pc t = .sleep b) (hk : ∀ a, s'.c.key a = if a = b then (dev, blockno) else s.c.key a)
    (hl : ∀ a k, a ∈ s'.c.bucket k ↔ if a = b then k = BUCKET_HASH blockno else a ∈ s.c.bucket k)
    (hnd : ∀ k, (s'.c.bucket k).Nodup) (htr : ∀ a, InTransit s a → a = b) : Places s' := by
  have hlocks := locks_of_seeks hseek
  have hno : ∀ a, ¬ InTransit s' a := fun a hin => by
    obtain ⟨u, dev', blockno', e⟩ := hin
    by_cases eu : u = t
    · subst eu
      rw [hpc] at e
      cases e
    · rw [hs.pc_ne eu] at e
      exact eu (h.one hlocks (by rw [e]; rfl))
  refine ⟨hs.lock h.lock, fun k a ha => ?_, hnd, fun a ha => Or.inl ?_, fun a ha => absurd ha (hno a),
    fun a ha a' ha' hdev e => ?_, fun u k hu => ?_⟩
  · rw [hl] at ha
    rw [hk]
    by_cases e : a = b
    · rw [if_pos e] at ha ⊢
      exact ⟨e ▸ hb, ha⟩
    · rw [if_neg e] at ha ⊢
      exact h.home k a ha
  · rw [hl, hk]
    by_cases e : a = b
    · rw [if_pos e, if_pos e]
    · rw [if_neg e, if_neg e]
      exact (h.every a ha).resolve_right fun hin => e (htr a hin)
  · rw [hk, hk] at e
    rw [hk] at hdev
    by_cases e1 : a = b <;> by_cases e2 : a' = b
    · rw [e1, e2]
    · rw [if_pos e1, if_neg e2] at e
      exact absurd e.symm (h.absent t _ hseek a' ha')
    · rw [if_neg e1, if_pos e2] at e
      exact absurd e (h.absent t _ hseek a ha)
    · rw [if_neg e1] at hdev
      rw [if_neg e1, if_neg e2] at e
      exact h.unique a ha a' ha' hdev e
  · by_cases eu : u = t
    · subst eu
      rw [hpc] at hu
      cases hu
    · rw [hs.pc_ne eu] at hu
      exact absurd (h.one hlocks (locks_of_seeks hu)) eu

/-- The victim of a scan is on the bucket of its owner. -/
theorem Places.take (h : Places s) (hs : Step d t s s') (hseek : (s.pc t).seeks = some (dev, blockno))
    (hno : ∀ a, ¬ InTransit s a) {k : Nat}
    (hb : b ∈ s.c.bucket k) (hpc : s'.pc t = .move dev blockno b) (hc : s'.c = unlink k b s.c) : Places s' := by
  have hlocks := locks_of_seeks hseek
  have hk : ∀ a, s'.c.key a = s.c.key a := fun a => by rw [hc]; rfl
  have hl : ∀ a k', a ∈ s'.c.bucket k' ↔ a ≠ b ∧ a ∈ s.c.bucket k' := fun a k' => by
    rw [hc]
    unfold unlink
    dsimp only
    by_cases ek : k' = k
    · subst ek
      rw [Function.update_self, (h.nodup k').mem_erase_iff]
    · rw [Function.update_of_ne ek]
      refine ⟨fun ha => ⟨fun e => ?_, ha⟩, fun ha => ha.2⟩
      subst e
      exact ek ((h.home k' a ha).2.trans (h.home k a hb).2.symm)
  have htr : ∀ a, InTransit s' a ↔ a = b := fun a => by
    constructor
    · intro hin
      obtain ⟨u, dev', blockno', e⟩ := hin
      by_cases eu : u = t
      · subst eu
        rw [hpc] at e
        cases e
        rfl
      · rw [hs.pc_ne eu] at e
        exact absurd ⟨u, dev', blockno', e⟩ (hno a)
    · intro e
      exact ⟨t, dev, blockno, e ▸ hpc⟩
  refine ⟨hs.lock h.lock, fun k' a ha => ?_, fun k' => ?_, fun a ha => ?_, fun a ha => ?_, fun a ha a' ha' => ?_,
    fun u x hu a ha => ?_⟩
  · rw [hk]
    exact h.home k' a ((hl a k').mp ha).2
  · rw [hc]
    unfold unlink
    dsimp only
    by_cases ek : k' = k
    · subst ek
      rw [Function.update_self]
      exact (h.nodup k').erase b
    · rw [Function.update_of_ne ek]
      exact h.nodup k'
  · rw [hk, hl, htr]
    by_cases e : a = b
    · exact Or.inr e
    · exact Or.inl ⟨e, (h.every a ha).resolve_right (hno a)⟩
  · obtain rfl := (htr a).mp ha
    exact ⟨(h.home k a hb).1, fun k' ha' => ((hl a k').mp ha').1 rfl⟩
  · rw [hk, hk]
    exact h.unique a ha a' ha'
  · rw [hk]
    by_cases eu : u = t
    · subst eu
      rw [hpc] at hu
      cases hu
      exact h.absent u _ hseek a ha
    · rw [hs.pc_ne eu] at hu
      exact h.absent u x hu a ha

/-! ## Who uses them -/

theorem Counts.not_victim (h : Counts s) (hb : 0 < (s.c.buf b).refcnt) (u : Nat) : (s.pc u).victim ≠ some b :=
  fun e => by
  rw [h.spare u b e] at hb
  exact absurd hb (Nat.lt_irrefl 0)

theorem InTransit.back (h : InTransit s' b) (hs : Step d t s s')
    (hpc : ∀ dev blockno, s'.pc t = .move dev blockno b → s.pc t = .move dev blockno b) :
    InTransit s b := by
  obtain ⟨u, dev, blockno, e⟩ := h
  by_cases eu : u = t
  · subst eu
    exact ⟨u, dev, blockno, hpc dev blockno e⟩
  · exact ⟨u, dev, blockno, hs.pc_ne eu ▸ e⟩

/-- What a step of `t` must give. -/
theorem Counts.after (h : Counts s) (hs : Step d t s s') (hcount : ∀ b, (s'.c.buf b).refcnt = s'.users b)
    (howed : ∀ u b, s'.locked b = some u ∨ s'.pc u = .sleep b → (u, b) ∈ s'.refs)
    (hother : ∀ u, u ≠ t → ∀ b, (s.pc u).victim = some b → (s'.c.buf b).refcnt = (s.c.buf b).refcnt)
    (hself : ∀ b, (s'.pc t).victim = some b → (s'.c.buf b).refcnt = 0)
    (hlock : ∀ u, u ≠ t → (s.pc u).locks = true → s'.kept = s.kept ∧ s'.c.bucket = s.c.bucket)
    (hscan : ∀ dev blockno i sc, s'.pc t = .scan dev blockno i sc → s'.kept = sc.owner ∧ ∀ b, sc.ans = some b → ∃ k,
      sc.owner = some k ∧ b ∈ s'.c.bucket k)
    (hloose : (s'.lock = none ∨ ∃ b, InTransit s' b) → s'.kept = none) : Counts s' := by
  refine ⟨hcount, howed, fun u b hu => ?_, fun u dev blockno i sc hu => ?_, hloose⟩
  · by_cases e : u = t
    · subst e
      exact hself b hu
    · rw [hs.pc_ne e] at hu
      rw [hother u e b hu]
      exact h.spare u b hu
  · by_cases e : u = t
    · subst e
      exact hscan dev blockno i sc hu
    · rw [hs.pc_ne e] at hu
      obtain ⟨h1, h2⟩ := hlock u e (by rw [hu]; rfl)
      rw [h1, h2]
      exact h.kept u dev blockno i sc hu

/-- A buffer that is found is nobody's victim: the first search is shut out of the bucket that a
    scan keeps, the second one runs when there is no scan. -/
theorem Counts.found (hp : Places s) (h : Counts s) (hf : lookup s.c dev blockno = some b)
    (hk : s.unkept blockno ∨ s.lock = none) (u : Nat) :
    (s.pc u).victim ≠ some b := by
  intro e
  obtain ⟨hm, -, hbn⟩ := lookup_some hf
  have hlocks : (s.pc u).locks = true := by
    cases hpc : s.pc u <;> simp_all [Pc.victim, Pc.locks]
  rcases hk with hk | hl
  · cases hpc : s.pc u with
    | scan dev' blockno' i sc =>
      rw [hpc] at e
      obtain ⟨h1, h2⟩ := h.kept u dev' blockno' i sc hpc
      obtain ⟨k, h3, h4⟩ := h2 b e
      have h5 : k = BUCKET_HASH (s.c.buf b).blockno := (hp.home k b h4).2
      exact hk (by rw [h1, h3, h5, hbn])
    | move dev' blockno' a =>
      rw [hpc] at e
      cases e
      exact (hp.off b ⟨u, dev', blockno', hpc⟩).2 _ hm
    | _ =>
      rw [hpc] at e
      cases e
  · rw [(hp.lock u).mp hlocks] at hl
    cases hl

/-- bget has the buffer, with one user more. -/
theorem Counts.got (h : Counts s) {c : Bcache} (lock kept : Option Nat)
    (hs : Step d t s (St.got { s with lock := lock, kept := kept } t b c))
    (hcount : ∀ a, (c.buf a).refcnt = s.users a + if a = b then 1 else 0) (hv : ∀ u, u ≠ t → (s.pc u).victim ≠ some b)
    (hlock : ∀ u, u ≠ t → (s.pc u).locks = true → kept = s.kept ∧ c.bucket = s.c.bucket)
    (hloose : (lock = none ∨ ∃ a, InTransit s a) → kept = none) :
      Counts (St.got { s with lock := lock, kept := kept } t b c) := by
  have hpc : (St.got { s with lock := lock, kept := kept } t b c).pc t = .sleep b := Function.update_self ..
  refine h.after hs (fun a => ?_) (fun u a hu => ?_) (fun u hu a ha => ?_) (fun a ha => ?_) hlock
    (fun dev blockno i sc e => ?_)
    fun hl => hloose (hl.imp id fun hin => hin.imp fun a ha => ha.back hs (by simp [hpc]))
  · rw [users_got]
    exact hcount a
  · by_cases e : u = t
    · subst e
      rcases hu with hu | hu
      · exact List.mem_cons_of_mem _ (h.owed u a (Or.inl hu))
      · rw [hpc] at hu
        cases hu
        exact List.mem_cons_self
    · rw [hs.pc_ne e] at hu
      exact List.mem_cons_of_mem _ (h.owed u a hu)
  · have hne : a ≠ b := fun e => hv u hu (e ▸ ha)
    show (c.buf a).refcnt = _
    rw [hcount a, if_neg hne, h.count a]
    rfl
  · rw [hpc] at ha
    cases ha
  · rw [hpc] at e
    cases e

/-- A step of a process in which no count changes and no buffer changes hands. -/
theorem Counts.same (h : Counts s) (hs : Step d t s s') (hb : ∀ b, (s'.c.buf b).refcnt = (s.c.buf b).refcnt)
    (hr : s'.refs = s.refs) (hn : s'.pins = s.pins) (hl : s'.locked = s.locked) (hsleep : ∀ b, s'.pc t ≠ .sleep b)
    (hself : ∀ b, (s'.pc t).victim = some b → (s.c.buf b).refcnt = 0)
    (hlock : ∀ u, u ≠ t → (s.pc u).locks = true → s'.kept = s.kept ∧ s'.c.bucket = s.c.bucket)
    (hscan : ∀ dev blockno i sc, s'.pc t = .scan dev blockno i sc → s'.kept = sc.owner ∧ ∀ b, sc.ans = some b → ∃ k,
      sc.owner = some k ∧ b ∈ s'.c.bucket k)
    (hloose : (s'.lock = none ∨ ∃ b, InTransit s' b) → s'.kept = none) : Counts s' := by
  refine h.after hs (fun b => ?_) (fun u b hu => ?_) (fun u _ b _ => hb b) (fun b hv => ?_) hlock hscan hloose
  · rw [hb, h.count b]
    unfold St.users
    rw [hr, hn]
  · rw [hl] at hu
    rw [hr]
    by_cases e : u = t
    · subst e
      exact h.owed u b (Or.inl (hu.resolve_right (hsleep b)))
    · rw [hs.pc_ne e] at hu
      exact h.owed u b hu
  · rw [hb]
    exact hself b hv

/-- brelse, bpin and bunpin, of a process that has the buffer or its pin. -/
theorem Counts.settle (h : Counts s) (hs : Step d t s s') (h0 : s.pc t = .idle) (hpc : s'.pc = s.pc)
    (hpos : 0 < (s.c.buf b).refcnt)
    (hcount : ∀ a, (s'.c.buf a).refcnt = s'.users a) (hother : ∀ a, a ≠ b → (s'.c.buf a).refcnt = (s.c.buf a).refcnt)
    (howed : ∀ u a, s'.locked a = some u ∨ s.pc u = .sleep a → (u, a) ∈ s'.refs) (hk : s'.kept = s.kept)
    (hb : s'.c.bucket = s.c.bucket) (hl : s'.lock = s.lock) : Counts s' := by
  refine h.after hs hcount (fun u a hu => howed u a (hpc ▸ hu)) (fun u _ a ha => ?_) (fun a ha => ?_)
    (fun _ _ _ => ⟨hk, hb⟩) (fun dev blockno i sc e => ?_)
    fun hin => ?_
  · exact hother a fun e => h.not_victim hpos u (e ▸ ha)
  · rw [hpc, h0] at ha
    cases ha
  · rw [hpc, h0] at e
    cases e
  · unfold InTransit at hin
    rw [hl, hpc] at hin
    rw [hk]
    exact h.loose hin

/-! ## Each step -/

theorem users_erase_ref (h : (t, b) ∈ s.refs) (c : Bcache) (locked : Nat → Option Nat) (a : Nat) :
    St.users { s with c := c, locked := locked, refs := s.refs.erase (t, b) } a + (if a = b then 1 else 0) =
      s.users a := by
  unfold St.users
  dsimp only
  rw [List.countP_erase]
  by_cases e : a = b
  · subst e
    have : 0 < s.refs.countP (·.2 == a) := List.countP_pos_iff.mpr ⟨_, h, by simp⟩
    rw [if_pos ⟨h, by simp⟩, if_pos rfl]
    omega
  · rw [if_neg fun hc => e (beq_iff_eq.mp hc.2).symm, if_neg e]
    omega

theorem locks_of_victim {p : Pc} (h : p.victim = some b) : p.locks = true := by
  cases p <;> simp_all [Pc.victim, Pc.locks]

theorem Counts.good (h : Counts s) (hp : Places s) {i : Nat} {sc : Scan} (h0 : s.pc t = .scan dev blockno i sc) :
    sc.Good s.c := by
  intro b hb
  obtain ⟨k, hk, hm⟩ := (h.kept t dev blockno i sc h0).2 b hb
  exact ⟨k, by rw [(hp.home k b hm).2]; exact Nat.mod_lt _ (by decide), hk, hm, h.spare t b (by rw [h0]; exact hb)⟩

theorem Counts.count_reset (h : Counts s) {c : Bcache} (hc : c.buf = s.c.buf) (hz : (c.buf b).refcnt = 0) (a : Nat) :
    ((reset dev blockno b c).buf a).refcnt = s.users a + if a = b then 1 else 0 := by
  rw [hc] at hz
  rw [refcnt_reset, hc]
  by_cases e : a = b
  · rw [if_pos e, if_pos e, e, ← h.count b, hz]
  · rw [if_neg e, if_neg e, h.count a, Nat.add_zero]

/-- A user less. -/
theorem Counts.count_decref (h : Counts s) (hpos : 0 < (s.c.buf b).refcnt) {a n : Nat}
    (hn : n + (if a = b then 1 else 0) = s.users a) (hlt : n < 2 ^ 32) :
    ((decref b s.c).buf a).refcnt = n := by
  rw [refcnt_decref]
  by_cases e : a = b
  · subst e
    rw [if_pos rfl] at hn ⊢
    rw [h.count a] at hpos ⊢
    rw [← hn, show n + 1 + (2 ^ 32 - 1) = n + 2 ^ 32 by omega, Nat.add_mod_right, Nat.mod_eq_of_lt hlt]
  · rw [if_neg e] at hn ⊢
    rw [h.count a, ← hn, Nat.add_zero]

theorem scan_inv (hp : Places s) (h : Counts s) {i : Nat} {sc : Scan} (h0 : s.pc t = .scan dev blockno i sc)
    (hi : i < NBUCKET) (hs : Step d t s s') (e : s' = St.goto { s with kept := (scanBucket s.c i sc).owner } t
      (.scan dev blockno (i + 1) (scanBucket s.c i sc))) : Places s' ∧ Counts s' := by
  subst e
  have hlk : (s.pc t).locks = true := by rw [h0]; rfl
  have hg := scanBucket_good hi (h.good hp h0)
  refine ⟨hp.same hs rfl (fun _ => rfl) (by simp [St.goto, h0]) (by simp [St.goto, h0, Pc.seeks]), ?_⟩
  refine h.same hs (fun _ => rfl) rfl rfl rfl (by simp [St.goto]) (fun b hv => ?_)
    (fun u hu hl => absurd (hp.one hlk hl) hu) (fun dev' blockno' i' sc' e => ?_)
    fun hin => ?_
  · have hv : (scanBucket s.c i sc).ans = some b := by simpa [St.goto, Pc.victim] using hv
    obtain ⟨-, -, -, -, hz⟩ := hg b hv
    exact hz
  · obtain ⟨-, -, -, rfl⟩ : dev = dev' ∧ blockno = blockno' ∧ i + 1 = i' ∧ scanBucket s.c i sc = sc' := by
      simpa [St.goto] using e
    refine ⟨rfl, fun b hb => ?_⟩
    obtain ⟨k, -, ho, hm, -⟩ := hg b hb
    exact ⟨k, ho, hm⟩
  · rcases hin with hl | ⟨b, hin⟩
    · rw [show _ = s.lock from rfl, (hp.lock t).mp hlk] at hl
      cases hl
    · exact absurd (hin.back hs (by simp [St.goto])) (hp.still h0 b)

theorem reuse_inv (hp : Places s) (h : Counts s) {sc : Scan} (h0 : s.pc t = .scan dev blockno NBUCKET sc)
    (ha : sc.ans = some b) (ho : sc.owner = some (BUCKET_HASH blockno)) (hs : Step d t s s')
    (e : s' = St.got { s with lock := none, kept := none } t b (reset dev blockno b s.c)) :
    Places s' ∧ Counts s' := by
  subst e
  have hlk : (s.pc t).locks = true := by rw [h0]; rfl
  obtain ⟨k, -, hk, hm, hz⟩ := h.good hp h0 b ha
  obtain rfl : k = BUCKET_HASH blockno := Option.some.inj (hk.symm.trans ho)
  refine ⟨hp.put hs (by rw [h0]; rfl) (hp.home _ b hm).1 (Function.update_self ..) (key_reset dev blockno b s.c)
    (fun a k => ?_) hp.nodup fun a hin =>
    absurd hin (hp.still h0 a), ?_⟩
  · by_cases e : a = b
    · subst e
      rw [if_pos rfl]
      exact ⟨fun hk => (hp.home k a hk).2.trans (hp.home _ a hm).2.symm, fun hk => hk ▸ hm⟩
    · rw [if_neg e]
      exact Iff.rfl
  · refine h.got none none hs (fun a => ?_) (fun u hu hv => absurd (hp.one hlk (locks_of_victim hv)) hu)
      (fun u hu hl => absurd (hp.one hlk hl) hu) fun _ => rfl
    exact h.count_reset rfl hz a

theorem unlink_inv (hp : Places s) (h : Counts s) {k : Nat} {sc : Scan} (h0 : s.pc t = .scan dev blockno NBUCKET sc)
    (ha : sc.ans = some b) (ho : sc.owner = some k)
    (hs : Step d t s s') (e : s' = St.goto { s with c := Bio.unlink k b s.c, kept := none } t (.move dev blockno b)) :
      Places s' ∧ Counts s' := by
  subst e
  have hlk : (s.pc t).locks = true := by rw [h0]; rfl
  obtain ⟨k', -, hk, hm, hz⟩ := h.good hp h0 b ha
  obtain rfl : k' = k := Option.some.inj (hk.symm.trans ho)
  refine ⟨hp.take hs (by rw [h0]; rfl) (hp.still h0) hm (Function.update_self ..) rfl, ?_⟩
  refine h.same hs (fun _ => rfl) rfl rfl rfl (by simp [St.goto]) (fun a hv => ?_)
    (fun u hu hl => absurd (hp.one hlk hl) hu) (by simp [St.goto]) fun _ => rfl
  obtain rfl : b = a := by simpa [St.goto, Pc.victim] using hv
  exact hz

theorem insert_inv (hp : Places s) (h : Counts s) (h0 : s.pc t = .move dev blockno b) (hs : Step d t s s')
    (e : s' = St.got { s with lock := none } t b (reset dev blockno b (link (BUCKET_HASH blockno) b s.c))) :
      Places s' ∧ Counts s' := by
  subst e
  have hlk : (s.pc t).locks = true := by rw [h0]; rfl
  have hin : InTransit s b := ⟨t, dev, blockno, h0⟩
  obtain ⟨hb, hoff⟩ := hp.off b hin
  refine ⟨hp.put hs (by rw [h0]; rfl) hb (Function.update_self ..) (key_reset dev blockno b _) (fun a k => ?_)
    (fun k => ?_) fun a hin' => ?_, ?_⟩
  · show a ∈ Function.update s.c.bucket _ (b :: s.c.bucket (BUCKET_HASH blockno)) k ↔ _
    by_cases ek : k = BUCKET_HASH blockno
    · subst ek
      rw [Function.update_self, List.mem_cons]
      by_cases e : a = b
      · simp [e]
      · simp [e]
    · rw [Function.update_of_ne ek]
      by_cases e : a = b
      · rw [if_pos e, e]
        exact ⟨fun hk => absurd hk (hoff k), fun hk => absurd hk ek⟩
      · rw [if_neg e]
  · show (Function.update s.c.bucket _ (b :: s.c.bucket (BUCKET_HASH blockno)) k).Nodup
    by_cases ek : k = BUCKET_HASH blockno
    · subst ek
      rw [Function.update_self]
      exact List.nodup_cons.mpr ⟨hoff _, hp.nodup _⟩
    · rw [Function.update_of_ne ek]
      exact hp.nodup k
  · obtain ⟨dev', blockno', e⟩ := hp.mover hlk hin'
    rw [h0] at e
    cases e
    rfl
  · refine h.got none s.kept hs (fun a => ?_) (fun u hu hv => absurd (hp.one hlk (locks_of_victim hv)) hu)
      (fun u hu hl => absurd (hp.one hlk hl) hu) fun _ => h.loose (Or.inr ⟨b, hin⟩)
    exact h.count_reset (c := link (BUCKET_HASH blockno) b s.c) rfl (h.spare t b (by rw [h0]; rfl)) a

theorem brelse_inv (hp : Places s) (h : Counts s) {ticks : Nat} (h0 : s.pc t = .idle) (hl : s.locked b = some t)
    (hs : Step d t s s') (e : s' =
      { s with c := unref ticks b s.c, locked := Function.update s.locked b none, refs := s.refs.erase (t, b) })
    (hlt : ∀ b, s'.users b < 2 ^ 32) :
    Places s' ∧ Counts s' := by
  subst e
  have hr := h.owed t b (Or.inl hl)
  have hpos : 0 < (s.c.buf b).refcnt := by
    rw [h.count]
    exact users_pos hr
  refine ⟨hp.same hs (unref_bucket ticks b s.c) (key_unref ticks b s.c) (by simp) (fun k hk => Or.inl hk), ?_⟩
  refine h.settle hs h0 rfl hpos (fun a => ?_) (fun a ha => ?_) (fun u a hu => ?_) rfl (unref_bucket ticks b s.c) rfl
  · have h1 := users_erase_ref hr (unref ticks b s.c) (Function.update s.locked b none) a
    have h2 := hlt a
    rw [refcnt_unref]
    exact h.count_decref hpos h1 h2
  · rw [refcnt_unref, refcnt_decref, if_neg ha]
  · dsimp only at hu
    have hne : (u, a) ≠ (t, b) := fun e => by
      obtain ⟨rfl, rfl⟩ := Prod.mk.inj e
      rcases hu with hu | hu
      · rw [Function.update_self] at hu
        cases hu
      · rw [h0] at hu
        cases hu
    refine (List.mem_erase_of_ne hne).mpr (h.owed u a (hu.imp (fun hu => ?_) id))
    by_cases e : a = b
    · rw [e, Function.update_self] at hu
      cases hu
    · rwa [Function.update_of_ne e] at hu

theorem bunpin_inv (hp : Places s) (h : Counts s) (h0 : s.pc t = .idle) (hm : b ∈ s.pins) (hs : Step d t s s')
    (e : s' = { s with c := decref b s.c, pins := s.pins.erase b }) (hlt : ∀ b, s'.users b < 2 ^ 32) :
      Places s' ∧ Counts s' := by
  subst e
  have hcnt : 0 < s.pins.count b := List.count_pos_iff.mpr hm
  have hpos : 0 < (s.c.buf b).refcnt := by
    rw [h.count]
    unfold St.users
    omega
  refine ⟨hp.same hs rfl (key_decref b s.c) (by simp) (fun k hk => Or.inl hk), ?_⟩
  refine h.settle hs h0 rfl hpos (fun a => ?_) (fun a ha => ?_) h.owed rfl rfl rfl
  · refine h.count_decref hpos ?_ (hlt a)
    unfold St.users
    dsimp only
    by_cases e : a = b
    · rw [e, List.count_erase_self, if_pos rfl]
      omega
    · rw [List.count_erase_of_ne e, if_neg e]
      omega
  · rw [refcnt_decref, if_neg ha]

theorem users_pin (s : St) (b : Nat) (c : Bcache) (a : Nat) :
    St.users { s with c := c, pins := b :: s.pins } a = s.users a + if a = b then 1 else 0 := by
  unfold St.users
  by_cases e : a = b
  · simp [e, Nat.add_assoc]
  · simp [e, List.count_cons_of_ne (Ne.symm e)]

theorem Counts.count_incref (h : Counts s) (hlt : ∀ a, (s.users a + if a = b then 1 else 0) < 2 ^ 32) (a : Nat) :
    ((incref b s.c).buf a).refcnt = s.users a + if a = b then 1 else 0 := by
  have := hlt a
  rw [refcnt_incref]
  by_cases e : a = b
  · subst e
    rw [if_pos rfl] at this ⊢
    rw [if_pos rfl, h.count a, Nat.mod_eq_of_lt this]
  · rw [if_neg e, if_neg e, h.count a, Nat.add_zero]

theorem step_inv (hp : Places s) (h : Counts s) (hs : Step d t s s') (hlt : ∀ b, s'.users b < 2 ^ 32) :
    Places s' ∧ Counts s' := by
  have hs0 := hs
  -- a process that goes where it has no victim
  have hself : ∀ {p : Pc}, p.victim = none → ∀ b, (Function.update s.pc t p t).victim = some b →
    (s.c.buf b).refcnt = 0 := by
    intro p hn b hv
    rw [Function.update_self, hn] at hv
    cases hv
  have hloose : ∀ {p : Pc}, p.seeks = none → ∀ x : St, x.pc = Function.update s.pc t p → Step d t s x →
    x.lock = s.lock → x.kept = s.kept →
      (x.lock = none ∨ ∃ b, InTransit x b) → x.kept = none := by
    intro p hp x hx hsx hl hk hin
    rw [hk]
    rw [hl] at hin
    refine h.loose (hin.imp id fun hin => hin.imp fun b hb => hb.back hsx fun dev blockno e => ?_)
    rw [hx, Function.update_self] at e
    rw [e] at hp
    cases hp
  have hinc : ∀ {b : Nat} {c : Bcache}, (∀ a, (s.got t b c).users a < 2 ^ 32) → ∀ a,
    ((incref b s.c).buf a).refcnt = s.users a + if a = b then 1 else 0 :=
    fun hlt => h.count_incref fun a => by rw [← users_got]; exact hlt a
  cases hs with
  | call dev blockno h0 =>
    refine ⟨hp.same hs0 rfl (fun _ => rfl) (by simp [St.goto, h0]) (by simp [St.goto, Pc.seeks]), ?_⟩
    exact h.same hs0 (fun _ => rfl) rfl rfl rfl (by simp [St.goto]) (hself rfl) (fun _ _ _ => ⟨rfl, rfl⟩)
      (by simp [St.goto]) (hloose rfl _ rfl hs0 rfl rfl)
  | hit dev blockno b h0 hk hf =>
    refine ⟨hp.same hs0 rfl (key_incref b s.c) (by simp [St.got, h0]) (by simp [St.got, Pc.seeks]), ?_⟩
    exact h.got s.lock s.kept hs0 (hinc hlt) (fun u _ => h.found hp hf (Or.inl hk) u)
      (fun _ _ _ => ⟨rfl, rfl⟩) h.loose
  | miss dev blockno h0 hk hf =>
    refine ⟨hp.same hs0 rfl (fun _ => rfl) (by simp [St.goto, h0]) (by simp [St.goto, Pc.seeks]), ?_⟩
    exact h.same hs0 (fun _ => rfl) rfl rfl rfl (by simp [St.goto]) (hself rfl) (fun _ _ _ => ⟨rfl, rfl⟩)
      (by simp [St.goto]) (hloose rfl _ rfl hs0 rfl rfl)
  | hitAgain dev blockno b h0 hl hf =>
    refine ⟨hp.same hs0 rfl (key_incref b s.c) (by simp [St.got, h0]) (by simp [St.got, Pc.seeks]), ?_⟩
    exact h.got s.lock s.kept hs0 (hinc hlt) (fun u _ => h.found hp hf (Or.inr hl) u)
      (fun _ _ _ => ⟨rfl, rfl⟩) h.loose
  | missAgain dev blockno h0 hl hf =>
    refine ⟨hp.same hs0 rfl (fun _ => rfl) (by simp [St.goto, h0]) fun k hk => Or.inr ?_, ?_⟩
    · have hk : some (dev, blockno) = some k := by simpa [St.goto, Pc.seeks] using hk
      cases hk
      exact hp.missing hl hf
    · refine h.same hs0 (fun _ => rfl) rfl rfl rfl (by simp [St.goto]) (hself rfl) (fun _ _ _ => ⟨rfl, rfl⟩)
        (fun dev' blockno' i sc e => ?_) fun _ => h.loose (Or.inl hl)
      obtain ⟨-, -, -, rfl⟩ : dev = dev' ∧ blockno = blockno' ∧ 0 = i ∧ Scan.start = sc := by simpa [St.goto] using e
      exact ⟨h.loose (Or.inl hl), by simp [Scan.start]⟩
  | scan dev blockno i sc h0 hi => exact scan_inv hp h h0 hi hs0 rfl
  | panic dev blockno sc h0 hn =>
    refine ⟨hp.same hs0 rfl (fun _ => rfl) (by simp [St.goto, h0]) (by simp [St.goto, Pc.seeks]), ?_⟩
    exact h.same hs0 (fun _ => rfl) rfl rfl rfl (by simp [St.goto]) (hself rfl) (fun _ _ _ => ⟨rfl, rfl⟩)
      (by simp [St.goto]) (hloose rfl _ rfl hs0 rfl rfl)
  | reuse dev blockno b sc h0 ha ho => exact reuse_inv hp h h0 ha ho hs0 rfl
  | unlink dev blockno b k sc h0 ha ho hne => exact unlink_inv hp h h0 ha ho hs0 rfl
  | insert dev blockno b h0 => exact insert_inv hp h h0 hs0 rfl
  | acquiresleep b h0 hl =>
    refine ⟨hp.same hs0 rfl (fun _ => rfl) (by simp [St.goto, h0]) (by simp [St.goto, Pc.seeks]), ?_⟩
    refine h.after hs0 h.count (fun u a hu => ?_) (fun _ _ _ _ => rfl) (hself rfl) (fun _ _ _ => ⟨rfl, rfl⟩)
      (by simp [St.goto]) (hloose rfl _ rfl hs0 rfl rfl)
    rcases hu with hu | hu
    · have hu : Function.update s.locked b (some t) a = some u := hu
      by_cases e : a = b
      · subst e
        rw [Function.update_self, Option.some.injEq] at hu
        exact hu ▸ h.owed t a (Or.inr h0)
      · rw [Function.update_of_ne e] at hu
        exact h.owed u a (Or.inl hu)
    · by_cases e : u = t
      · subst e
        simp [St.goto] at hu
      · rw [hs0.pc_ne e] at hu
        exact h.owed u a (Or.inr hu)
  | brelse b ticks h0 hl hk => exact brelse_inv hp h h0 hl hs0 rfl hlt
  | bpin b h0 hl hk =>
    have hpos : 0 < (s.c.buf b).refcnt := by
      rw [h.count]
      exact users_pos (h.owed t b (Or.inl hl))
    refine ⟨hp.same hs0 rfl (key_incref b s.c) (by simp) (fun k hk => Or.inl hk), ?_⟩
    refine h.settle hs0 h0 rfl hpos (fun a => ?_) (fun a ha => ?_) h.owed rfl rfl rfl
    · rw [users_pin]
      exact h.count_incref (fun a => by rw [← users_pin s b (incref b s.c)]; exact hlt a) a
    · rw [refcnt_incref, if_neg ha]
  | bunpin b h0 hm hk => exact bunpin_inv hp h h0 hm hs0 rfl hlt

theorem nodup_binitLoop (n : Nat) : (binitLoop n).Nodup := by
  induction n with
  | zero => exact List.nodup_nil
  | succ n ih => exact List.nodup_cons.mpr ⟨fun h => Nat.lt_irrefl n ((mem_binitLoop n n).mp h), ih⟩

theorem inv_init : Places .init ∧ Counts .init := by
  have hin : ∀ b, ¬ InTransit .init b := fun b hin => by
    obtain ⟨t, dev, blockno, e⟩ := hin
    cases e
  refine ⟨⟨by simp [St.init, Pc.locks], fun k b hb => ?_, fun k => ?_, fun b hb => Or.inl ?_,
    fun b h => absurd h (hin b), fun b _ b' _ h => ?_, fun t k e => ?_⟩,
    ⟨fun b => rfl, fun t b h => ?_, fun t b e => ?_, fun t dev blockno i sc e => ?_, fun _ => rfl⟩⟩
  · by_cases e : k = 0
    · subst e
      exact ⟨(mem_binitLoop NBUF b).mp hb, rfl⟩
    · exact absurd hb (by simp [St.init, binit, e])
  · by_cases e : k = 0
    · subst e
      exact nodup_binitLoop NBUF
    · simp [St.init, binit, e]
  · exact (mem_binitLoop NBUF b).mpr hb
  · exact absurd h (Nat.not_succ_le_zero 0)
  · cases e
  · rcases h with h | h <;> cases h
  · cases e
  · cases e

/-! ## Every interleaving -/

/-- A block is in one buffer, a buffer on one bucket, and in use exactly as often as it was taken. -/
structure CachedOnce (s : St) : Prop where
  unique : ∀ b < NBUF, ∀ b' < NBUF, 1 ≤ (s.c.buf b).dev → s.c.key b = s.c.key b' → b = b'
  listed : ∀ b < NBUF, ¬ InTransit s b → ∃ k < NBUCKET, ∀ k', (s.c.bucket k').count b = if k' = k then 1 else 0
  home : ∀ b < NBUF, ¬ InTransit s b → 1 ≤ (s.c.buf b).dev → b ∈ s.c.bucket ((s.c.buf b).blockno % NBUCKET)
  transit : ∀ b, InTransit s b → (s.c.buf b).refcnt = 0 ∧ (∀ k, b ∉ s.c.bucket k) ∧ ∀ b', InTransit s b' → b' = b
  count : ∀ b, (s.c.buf b).refcnt = s.users b
  /-- a buffer in use keeps its block -/
  keeps : ∀ t s', Step 1 t s s' → ∀ b, 0 < (s.c.buf b).refcnt → s'.c.key b = s.c.key b

theorem Path.inv {l : List St} (hpath : Path d .init l s) (hlt : ∀ x ∈ l, ∀ b, x.users b < 2 ^ 32) :
    Places s ∧ Counts s := by
  generalize h0 : St.init = s0 at hpath
  induction hpath with
  | refl => exact h0 ▸ inv_init
  | step t _ hs ih =>
    obtain ⟨hlast, hl⟩ := List.forall_mem_cons.mp hlt
    obtain ⟨hp, h⟩ := ih hl
    exact step_inv hp h hs hlast

/-- Only a buffer without users is given another block. -/
theorem Counts.keeps (h : Counts s) (hs : Step d t s s') (hb : 0 < (s.c.buf b).refcnt) : s'.c.key b = s.c.key b := by
  have hne := h.not_victim hb t
  cases hs with
  | hit dev blockno a => exact key_incref a s.c b
  | hitAgain dev blockno a => exact key_incref a s.c b
  | reuse dev blockno a sc h0 ha =>
    refine (key_reset dev blockno a s.c b).trans (if_neg fun e => hne ?_)
    rw [h0, e]
    exact ha
  | insert dev blockno a h0 =>
    refine (key_reset dev blockno a _ b).trans (if_neg fun e => hne ?_)
    rw [h0, e]
    rfl
  | brelse a ticks => exact key_unref ticks a s.c b
  | bpin a => exact key_incref a s.c b
  | bunpin a => exact key_decref a s.c b
  | _ => rfl

/-- In every interleaving in which no buffer has 2^32 users at a time. -/
theorem blocks_cached_once {l : List St} (hpath : Path 1 .init l s) (hlt : ∀ x ∈ l, ∀ b, x.users b < 2 ^ 32) :
    CachedOnce s := by
  obtain ⟨hp, h⟩ := hpath.inv hlt
  refine ⟨hp.unique, fun b hb hin => ?_, fun b hb hin _ => (hp.every b hb).resolve_right hin, fun b hin => ?_,
    h.count, fun t s' hs b => h.keeps hs⟩
  · have hm := (hp.every b hb).resolve_right hin
    refine ⟨_, Nat.mod_lt (s.c.key b).2 (by decide), fun k' => ?_⟩
    by_cases e : k' = (s.c.key b).2 % NBUCKET
    · rw [if_pos e, e]
      exact List.count_eq_one_of_mem (hp.nodup _) hm
    · rw [if_neg e]
      exact List.count_eq_zero.mpr fun hk => e (hp.home k' b hk).2
  · obtain ⟨t, dev, blockno, e⟩ := id hin
    refine ⟨h.spare t b (by rw [e]; rfl), (hp.off b hin).2, fun b' hin' => ?_⟩
    obtain ⟨dev', blockno', e'⟩ := hp.mover (by rw [e]; rfl) hin'
    rw [e] at e'
    cases e'
    rfl

/-- A process has block 0, which is in buffer 29, and pins it. -/
theorem blocks_cached_once_pinned : ∃ s l, Path 1 .init l s ∧ (∀ x ∈ l, ∀ b, x.users b < 2 ^ 32) ∧
    s.refs = [(0, 29)] ∧ s.pins = [29] ∧ (s.c.buf 29).dev = 1 ∧
    (s.c.buf 29).refcnt = 2 ∧ CachedOnce s := by
  have hscan : lookup binit 1 0 = none ∧ (scan binit NBUCKET 0 .start).ans = some 29 ∧
    (scan binit NBUCKET 0 .start).owner = some (BUCKET_HASH 0) := by decide +kernel
  obtain ⟨hmiss, hans, howner⟩ := hscan
  have p1 := (Path.refl (d := 1) .init).step 0 (Step.call .init 1 0 rfl (by decide))
  have p2 := p1.step 0 (Step.miss _ 1 0 rfl (by decide) hmiss)
  have p3 := p2.step 0 (Step.missAgain _ 1 0 rfl rfl hmiss)
  obtain ⟨l, p4, hl⟩ := @scan_path 1 0 1 0 (fun x => x.refs = [] ∧ x.pins = []) .init NBUCKET 0 .start _ _ rfl rfl rfl
    (fun _ _ _ => ⟨rfl, rfl⟩) p3 (by
    intro x hx
    simp only [List.mem_cons, List.not_mem_nil, or_false] at hx
    rcases hx with rfl | rfl | rfl | rfl <;> exact ⟨rfl, rfl⟩)
  have p5 := p4.step 0 (Step.reuse _ 1 0 29 _ rfl hans howner)
  have p6 := p5.step 0 (Step.acquiresleep _ 29 rfl rfl)
  have p7 := p6.step 0 (Step.bpin _ 29 rfl rfl (by decide))
  refine ⟨_, _, p7, ?hlt, rfl, rfl, rfl, by decide +kernel, blocks_cached_once p7 ?hlt⟩
  intro x hx b
  have hle : x.refs.length + x.pins.length ≤ 2 := by
    simp only [List.mem_cons] at hx
    rcases hx with rfl | rfl | rfl | hx
    · exact Nat.le_refl 2
    · exact Nat.le_succ 1
    · exact Nat.le_succ 1
    · rw [(hl x hx).1, (hl x hx).2]
      exact Nat.zero_le 2
  have h1 : x.refs.countP (·.2 == b) ≤ x.refs.length := List.countP_le_length
  have h2 : x.pins.count b ≤ x.pins.length := List.count_le_length
  unfold St.users
  omega

/-- The process that has a buffer pins it `n` times. -/
theorem pin_many (hr : Reach 1 s) (h0 : s.pc t = .idle) (hl : s.locked b = some t) (hk : s.kept = none) (n : Nat) :
    ∃ s', Reach 1 s' ∧ s'.pc t = .idle ∧ s'.locked b = some t ∧ s'.kept = none ∧ s'.users b = s.users b + n ∧
      (0 < n → (s'.c.buf b).refcnt < 2 ^ 32) := by
  induction n with
  | zero => exact ⟨s, hr, h0, hl, hk, rfl, fun h => absurd h (Nat.lt_irrefl 0)⟩
  | succ n ih =>
    obtain ⟨s1, hr1, h1, hl1, hk1, hu1, -⟩ := ih
    have hs := Step.bpin (d := 1) s1 b h1 hl1 (by simp [St.unkept, hk1])
    refine ⟨_, hr1.step t hs, h1, hl1, hk1, ?_, fun _ => ?_⟩
    · rw [users_pin, if_pos rfl, hu1]
      omega
    · show ((incref b s1.c).buf b).refcnt < _
      rw [refcnt_incref, if_pos rfl]
      exact Nat.mod_lt _ (by decide)

/-- Not in every one: a buffer pinned 2^32 times. -/
theorem count_wraps : ¬ ∀ s, Reach 1 s → CachedOnce s := by
  intro h
  obtain ⟨s, hr, -, -, hk, hpc, hl⟩ := grab_reach 1 (by decide)
  obtain ⟨s', hr', -, -, -, hu, hlt⟩ := pin_many hr (hpc 0) (hl 29) hk (2 ^ 32)
  have h1 := (h s' hr').count 29
  have h2 := hlt (by decide)
  omega

end

end Xv6Labs.Bio
