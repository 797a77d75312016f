/-
  Xv6Labs.Locks.Discipline — the spinlocks of the buffer cache, acquire by acquire.

  A process is at a point of bget, brelse, bpin or bunpin; the points carry the local variables.
  Between two points lies an acquire, a release, or code that touches no spinlock. `St.holder` says
  who has a lock. A process that wants a lock that another one has stays where it is.

  - `locks_in_order`: a process takes bcache.lock first and the buckets upwards, and sleeps with
    none; so no cycle of processes waits for itself.
-/

import Xv6Labs.Lib.Waiting
import Xv6Labs.Locks.Bio

namespace Xv6Labs.Bio.Spin

open Lib

inductive Lock where
  | big
  | bucket (i : Nat)
  deriving DecidableEq

/-- What brelse (after releasesleep), bpin and bunpin do under the lock of the bucket. -/
inductive Op where
  | unref
  | incref
  | decref

/-- Where a process is. The first ones are those of bget, in the order of the code. -/
inductive Pc where
  | idle
  | lockIndex (dev blockno : Nat)
  | look (dev blockno : Nat)
  | unlockHit (blockno b : Nat)
  | unlockMiss (dev blockno : Nat)
  | lockBig (dev blockno : Nat)
  | lookAgain (dev blockno : Nat)
  | lockHit (blockno b : Nat)
  | count (blockno b : Nat)
  | unlockHitAgain (blockno b : Nat)
  | lockBucket (dev blockno i : Nat) (sc : Scan)
  | scanBucket (dev blockno i : Nat) (sc : Scan)
  | unlockOwner (dev blockno i owner : Nat) (sc : Scan)
  | unlockBucket (dev blockno i : Nat) (sc : Scan)
  | scanned (dev blockno : Nat) (sc : Scan)
  | panic (sc : Scan)
  | unlockFrom (dev blockno ans owner : Nat)
  | lockTo (dev blockno ans : Nat)
  | move (dev blockno ans : Nat)
  | unlockTo (blockno ans : Nat)
  | unlockBig (b : Nat)
  | acquiresleep (b : Nat)
  | find (op : Op) (b : Nat)
  | lockOp (op : Op) (b index : Nat)
  | runOp (op : Op) (b index : Nat)
  | unlockOp (index : Nat)

structure St where
  c : Bcache
  ticks : Nat
  holder : Lock → Option Nat
  pc : Nat → Pc
  /-- who has the sleep lock of a buffer -/
  locked : Nat → Option Nat

def St.init : St := ⟨binit, 0, fun _ => none, fun _ => .idle, fun _ => none⟩

/-- `i++` of the scan. -/
def nextBucket (dev blockno i : Nat) (sc : Scan) : Pc :=
  if i + 1 < NBUCKET then .lockBucket dev blockno (i + 1) sc else .scanned dev blockno sc

/-- The acquire at a point: the lock, and the point behind it. -/
def Pc.acquires : Pc → Option (Lock × Pc)
  | .lockIndex dev blockno => some (.bucket (BUCKET_HASH blockno), .look dev blockno)
  | .lockBig dev blockno => some (.big, .lookAgain dev blockno)
  | .lockHit blockno b => some (.bucket (BUCKET_HASH blockno), .count blockno b)
  | .lockBucket dev blockno i sc => some (.bucket i, .scanBucket dev blockno i sc)
  | .lockTo dev blockno ans => some (.bucket (BUCKET_HASH blockno), .move dev blockno ans)
  | .lockOp op b index => some (.bucket index, .runOp op b index)
  | _ => none

/-- The release at a point. -/
def Pc.releases : Pc → Option (Lock × Pc)
  | .unlockHit blockno b => some (.bucket (BUCKET_HASH blockno), .acquiresleep b)
  | .unlockMiss dev blockno => some (.bucket (BUCKET_HASH blockno), .lockBig dev blockno)
  | .unlockHitAgain blockno b => some (.bucket (BUCKET_HASH blockno), .unlockBig b)
  | .unlockOwner dev blockno i owner sc => some (.bucket owner, nextBucket dev blockno i sc)
  | .unlockBucket dev blockno i sc => some (.bucket i, nextBucket dev blockno i sc)
  | .unlockFrom dev blockno ans owner => some (.bucket owner, .lockTo dev blockno ans)
  | .unlockTo blockno ans => some (.bucket (BUCKET_HASH blockno), .unlockBig ans)
  | .unlockBig b => some (.big, .acquiresleep b)
  | .unlockOp index => some (.bucket index, .idle)
  | _ => none

/-- The code between two lock operations. -/
def Pc.runs (ticks : Nat) (c : Bcache) : Pc → Option (Bcache × Pc)
  | .look dev blockno =>
    match lookup c dev blockno with
    | some b => some (incref b c, .unlockHit blockno b)
    | none => some (c, .unlockMiss dev blockno)
  | .lookAgain dev blockno =>
    match lookup c dev blockno with
    | some b => some (c, .lockHit blockno b)
    | none => some (c, .lockBucket dev blockno 0 .start)
  | .count blockno b => some (incref b c, .unlockHitAgain blockno b)
  | .scanBucket dev blockno i sc =>
    let sc' := Bio.scanBucket c i sc
    -- `flag`: the best buffer so far is in this bucket
    if sc'.owner = some i then
      match sc.owner with
      | some owner => some (c, .unlockOwner dev blockno i owner sc')
      | none => some (c, nextBucket dev blockno i sc')
    else some (c, .unlockBucket dev blockno i sc')
  | .scanned dev blockno sc =>
    match sc.ans, sc.owner with
    | none, _ => some (c, .panic sc)
    | some ans, some owner =>
      if owner ≠ BUCKET_HASH blockno then some (unlink owner ans c, .unlockFrom dev blockno ans owner)
      else some (reset dev blockno ans c, .unlockTo blockno ans)
    -- a buffer is found together with its owner
    | some _, none => none
  | .move dev blockno ans => some (reset dev blockno ans (link (BUCKET_HASH blockno) ans c), .unlockTo blockno ans)
  | .find op b => some (c, .lockOp op b (BUCKET_HASH (c.buf b).blockno))
  | .runOp op b index =>
    match op with
    | .unref => some (Bio.unref ticks b c, .unlockOp index)
    | .incref => some (Bio.incref b c, .unlockOp index)
    | .decref => some (Bio.decref b c, .unlockOp index)
  | _ => none

def St.goto (s : St) (t : Nat) (p : Pc) : St := { s with pc := Function.update s.pc t p }

inductive Step (t : Nat) : St → St → Prop where
  | acquire (s : St) (l : Lock) (p : Pc) : (s.pc t).acquires = some (l, p) → s.holder l = none →
      Step t s (St.goto { s with holder := Function.update s.holder l (some t) } t p)
  | release (s : St) (l : Lock) (p : Pc) : (s.pc t).releases = some (l, p) →
      Step t s (St.goto { s with holder := Function.update s.holder l none } t p)
  | run (s : St) (c : Bcache) (p : Pc) : (s.pc t).runs s.ticks s.c = some (c, p) →
      Step t s (St.goto { s with c := c } t p)
  | bget (s : St) (dev blockno : Nat) : s.pc t = .idle → Step t s (s.goto t (.lockIndex dev blockno))
  | acquiresleep (s : St) (b : Nat) : s.pc t = .acquiresleep b → s.locked b = none →
      Step t s (St.goto { s with locked := Function.update s.locked b (some t) } t .idle)
  | brelse (s : St) (b : Nat) : s.pc t = .idle → s.locked b = some t →
      Step t s (St.goto { s with locked := Function.update s.locked b none } t (.find .unref b))
  | bpin (s : St) (b : Nat) : s.pc t = .idle → Step t s (s.goto t (.find .incref b))
  | bunpin (s : St) (b : Nat) : s.pc t = .idle → Step t s (s.goto t (.find .decref b))
  | tick (s : St) : Step t s { s with ticks := (s.ticks + 1) % 2 ^ 32 }

inductive Reach : St → Prop where
  | init : Reach .init
  | step {s s' : St} (t : Nat) : Reach s → Step t s s' → Reach s'

/-! ## What a process holds -/

/-- The owner's lock is kept during the scan. -/
def Scan.kept (sc : Scan) : List Lock := sc.owner.toList.map Lock.bucket

/-- The spinlocks a process has at each point. -/
def Pc.held : Pc → List Lock
  | .look _ blockno => [.bucket (BUCKET_HASH blockno)]
  | .unlockHit blockno _ => [.bucket (BUCKET_HASH blockno)]
  | .unlockMiss _ blockno => [.bucket (BUCKET_HASH blockno)]
  | .lookAgain .. => [.big]
  | .lockHit .. => [.big]
  | .count blockno _ => [.bucket (BUCKET_HASH blockno), .big]
  | .unlockHitAgain blockno _ => [.bucket (BUCKET_HASH blockno), .big]
  | .lockBucket _ _ _ sc => .big :: Scan.kept sc
  | .scanBucket _ _ i sc => .bucket i :: .big :: Scan.kept sc
  | .unlockOwner _ _ _ owner sc => .bucket owner :: .big :: Scan.kept sc
  | .unlockBucket _ _ i sc => .bucket i :: .big :: Scan.kept sc
  | .scanned _ _ sc => .big :: Scan.kept sc
  | .panic sc => .big :: Scan.kept sc
  | .unlockFrom _ _ _ owner => [.bucket owner, .big]
  | .lockTo .. => [.big]
  | .move _ blockno _ => [.bucket (BUCKET_HASH blockno), .big]
  | .unlockTo blockno _ => [.bucket (BUCKET_HASH blockno), .big]
  | .unlockBig _ => [.big]
  | .runOp _ _ index => [.bucket index]
  | .unlockOp index => [.bucket index]
  | _ => []

/-- The scan has its buffer from a bucket it has passed. -/
def Pc.ok : Pc → Prop
  | .lockBucket _ _ i sc => ∀ k, sc.owner = some k → k < i
  | .scanBucket _ _ i sc => ∀ k, sc.owner = some k → k < i
  | .unlockOwner _ _ i owner sc => owner < i ∧ sc.owner = some i
  | .unlockBucket _ _ i sc => ∀ k, sc.owner = some k → k < i
  | _ => True

structure Inv (s : St) : Prop where
  holder : ∀ t l, s.holder l = some t ↔ l ∈ (s.pc t).held
  ok : ∀ t, (s.pc t).ok

variable {s s' : St} {t u i dev blockno ticks : Nat} {l l' : Lock} {p q : Pc} {sc : Scan} {c c' : Bcache}

theorem mem_kept : l ∈ Scan.kept sc ↔ ∃ k, sc.owner = some k ∧ l = .bucket k := by
  cases h : sc.owner <;> simp [Scan.kept, h]

/-- The bucket under the scan becomes the owner, or the owner stays. -/
theorem scanLoop_owner (c : Bcache) (i : Nat) (bs : List Nat) (sc : Scan) : (scanLoop c i bs sc).owner = some i ∨
    scanLoop c i bs sc = sc := by
  induction bs generalizing sc with
  | nil => exact Or.inr rfl
  | cons b bs ih =>
    unfold scanLoop
    split
    · exact Or.inl ((ih _).elim id fun e => by rw [e])
    · split
      · exact Or.inl ((ih _).elim id fun e => by rw [e])
      · exact ih sc

theorem nextBucket_held : (nextBucket dev blockno i sc).held = .big :: Scan.kept sc := by
  unfold nextBucket
  split <;> rfl

theorem nextBucket_ok (h : ∀ k, sc.owner = some k → k ≤ i) : (nextBucket dev blockno i sc).ok := by
  unfold nextBucket
  split
  · exact fun k hk => Nat.lt_succ_of_le (h k hk)
  · trivial

/-- What a lock is worth in the order: bcache.lock comes first. -/
def Lock.rank : Lock → Nat
  | .big => 0
  | .bucket i => i + 1

/-- A process takes a lock that is above all it has. -/
theorem acquires_above (hok : p.ok) (h : p.acquires = some (l, q)) (hl : l' ∈ p.held) : l'.rank < l.rank := by
  cases p with
  | lockBucket dev blockno i sc =>
    obtain ⟨rfl, -⟩ := Prod.mk.inj (Option.some.inj h)
    simp only [Pc.held, List.mem_cons, mem_kept] at hl
    rcases hl with rfl | ⟨k, hk, rfl⟩
    · exact Nat.succ_pos i
    · exact Nat.succ_lt_succ (hok k hk)
  | lockHit blockno b =>
    obtain ⟨rfl, -⟩ := Prod.mk.inj (Option.some.inj h)
    obtain rfl := List.mem_singleton.mp hl
    exact Nat.succ_pos _
  | lockTo dev blockno ans =>
    obtain ⟨rfl, -⟩ := Prod.mk.inj (Option.some.inj h)
    obtain rfl := List.mem_singleton.mp hl
    exact Nat.succ_pos _
  | lockIndex => cases hl
  | lockBig => cases hl
  | lockOp => cases hl
  | _ => cases h

/-! ## The steps -/

theorem acquires_held (h : p.acquires = some (l, q)) (hok : p.ok) : (∀ l', l' ∈ q.held ↔ l' = l ∨ l' ∈ p.held) ∧
    q.ok := by
  cases p with
  | lockBucket dev blockno i sc =>
    obtain ⟨rfl, rfl⟩ := Prod.mk.inj (Option.some.inj h)
    exact ⟨fun l' => List.mem_cons, hok⟩
  | lockHit blockno b =>
    obtain ⟨rfl, rfl⟩ := Prod.mk.inj (Option.some.inj h)
    exact ⟨fun l' => List.mem_cons, trivial⟩
  | lockTo dev blockno ans =>
    obtain ⟨rfl, rfl⟩ := Prod.mk.inj (Option.some.inj h)
    exact ⟨fun l' => List.mem_cons, trivial⟩
  | lockIndex dev blockno =>
    obtain ⟨rfl, rfl⟩ := Prod.mk.inj (Option.some.inj h)
    exact ⟨fun l' => List.mem_cons, trivial⟩
  | lockBig dev blockno =>
    obtain ⟨rfl, rfl⟩ := Prod.mk.inj (Option.some.inj h)
    exact ⟨fun l' => List.mem_cons, trivial⟩
  | lockOp op b index =>
    obtain ⟨rfl, rfl⟩ := Prod.mk.inj (Option.some.inj h)
    exact ⟨fun l' => List.mem_cons, trivial⟩
  | _ => cases h

/-- A lock at the head of what is held is dropped, and is nowhere else in it. -/
theorem drop_head {ls ms : List Lock} (hq : q.held = ms) (hm : ∀ l', l' ∈ ms ↔ l' ∈ ls) (hl : l ∉ ls) (l' : Lock) :
    l' ∈ q.held ↔ l' ∈ l :: ls ∧ l' ≠ l := by
  rw [hq, hm, List.mem_cons]
  constructor
  · intro h
    refine ⟨Or.inr h, ?_⟩
    rintro rfl
    exact hl h
  · exact fun ⟨h1, h2⟩ => h1.resolve_left h2

theorem releases_held (h : p.releases = some (l, q)) (hok : p.ok) :
    l ∈ p.held ∧ (∀ l', l' ∈ q.held ↔ l' ∈ p.held ∧ l' ≠ l) ∧ q.ok := by
  have hbig : ∀ {k : Nat}, Lock.bucket k ∉ [Lock.big] := by simp
  cases p with
  | unlockHit blockno b =>
    obtain ⟨rfl, rfl⟩ := Prod.mk.inj (Option.some.inj h)
    exact ⟨List.mem_cons_self .., drop_head rfl (fun _ => Iff.rfl) List.not_mem_nil, trivial⟩
  | unlockMiss dev blockno =>
    obtain ⟨rfl, rfl⟩ := Prod.mk.inj (Option.some.inj h)
    exact ⟨List.mem_cons_self .., drop_head rfl (fun _ => Iff.rfl) List.not_mem_nil, trivial⟩
  | unlockHitAgain blockno b =>
    obtain ⟨rfl, rfl⟩ := Prod.mk.inj (Option.some.inj h)
    exact ⟨List.mem_cons_self .., drop_head rfl (fun _ => Iff.rfl) hbig, trivial⟩
  | unlockOwner dev blockno i owner sc =>
    obtain ⟨rfl, rfl⟩ := Prod.mk.inj (Option.some.inj h)
    obtain ⟨hlt, howner⟩ := hok
    refine ⟨List.mem_cons_self .., drop_head nextBucket_held (fun _ => Iff.rfl) ?_, nextBucket_ok fun k hk => ?_⟩
    · simp only [List.mem_cons, mem_kept, reduceCtorEq, false_or, not_exists, not_and, Lock.bucket.injEq]
      rintro k hk rfl
      rw [howner] at hk
      obtain rfl := Option.some.inj hk
      exact Nat.lt_irrefl _ hlt
    · rw [howner] at hk
      exact Nat.le_of_eq (Option.some.inj hk).symm
  | unlockBucket dev blockno i sc =>
    obtain ⟨rfl, rfl⟩ := Prod.mk.inj (Option.some.inj h)
    refine ⟨List.mem_cons_self .., drop_head nextBucket_held (fun _ => Iff.rfl) ?_, nextBucket_ok fun k hk =>
      Nat.le_of_lt (hok k hk)⟩
    simp only [List.mem_cons, mem_kept, reduceCtorEq, false_or, not_exists, not_and, Lock.bucket.injEq]
    rintro k hk rfl
    exact Nat.lt_irrefl _ (hok _ hk)
  | unlockFrom dev blockno ans owner =>
    obtain ⟨rfl, rfl⟩ := Prod.mk.inj (Option.some.inj h)
    exact ⟨List.mem_cons_self .., drop_head rfl (fun _ => Iff.rfl) hbig, trivial⟩
  | unlockTo blockno ans =>
    obtain ⟨rfl, rfl⟩ := Prod.mk.inj (Option.some.inj h)
    exact ⟨List.mem_cons_self .., drop_head rfl (fun _ => Iff.rfl) hbig, trivial⟩
  | unlockBig b =>
    obtain ⟨rfl, rfl⟩ := Prod.mk.inj (Option.some.inj h)
    exact ⟨List.mem_cons_self .., drop_head rfl (fun _ => Iff.rfl) List.not_mem_nil, trivial⟩
  | unlockOp index =>
    obtain ⟨rfl, rfl⟩ := Prod.mk.inj (Option.some.inj h)
    exact ⟨List.mem_cons_self .., drop_head rfl (fun _ => Iff.rfl) List.not_mem_nil, trivial⟩
  | _ => cases h

/-- Code that touches no spinlock, with the new owner of the scan where there is one. -/
theorem runs_held (h : p.runs ticks c = some (c', q)) (hok : p.ok) : (∀ l, l ∈ q.held ↔ l ∈ p.held) ∧ q.ok := by
  cases p with
  | look dev blockno =>
    simp only [Pc.runs] at h
    split at h <;>
    · obtain ⟨-, rfl⟩ := Prod.mk.inj (Option.some.inj h)
      exact ⟨fun _ => Iff.rfl, trivial⟩
  | lookAgain dev blockno =>
    simp only [Pc.runs] at h
    split at h
    · obtain ⟨-, rfl⟩ := Prod.mk.inj (Option.some.inj h)
      exact ⟨fun _ => Iff.rfl, trivial⟩
    · obtain ⟨-, rfl⟩ := Prod.mk.inj (Option.some.inj h)
      exact ⟨fun _ => Iff.rfl, fun k hk => absurd hk (by simp [Scan.start])⟩
  | count blockno b =>
    obtain ⟨-, rfl⟩ := Prod.mk.inj (Option.some.inj h)
    exact ⟨fun _ => Iff.rfl, trivial⟩
  | scanBucket dev blockno i sc =>
    simp only [Pc.runs] at h
    split at h
    next hflag =>
      have hkept : Scan.kept (Bio.scanBucket c i sc) = [.bucket i] := by
        unfold Scan.kept
        rw [hflag]
        rfl
      split at h
      next owner howner =>
        obtain ⟨-, rfl⟩ := Prod.mk.inj (Option.some.inj h)
        refine ⟨fun l => ?_, hok owner howner, hflag⟩
        simp only [Pc.held, hkept, List.mem_cons, List.not_mem_nil, or_false, mem_kept, howner, Option.some.injEq,
          exists_eq_left']
        tauto
      next howner =>
        obtain ⟨-, rfl⟩ := Prod.mk.inj (Option.some.inj h)
        refine ⟨fun l => ?_, nextBucket_ok fun k hk => ?_⟩
        · rw [nextBucket_held, hkept]
          simp only [Pc.held, List.mem_cons, List.not_mem_nil, or_false, mem_kept, howner, reduceCtorEq, false_and,
            exists_false]
          tauto
        · rw [hflag] at hk
          exact Nat.le_of_eq (Option.some.inj hk).symm
    next hflag =>
      have e : Bio.scanBucket c i sc = sc := (scanLoop_owner c i (c.bucket i) sc).resolve_left hflag
      obtain ⟨-, rfl⟩ := Prod.mk.inj (Option.some.inj h)
      rw [e]
      exact ⟨fun _ => Iff.rfl, hok⟩
  | scanned dev blockno sc =>
    simp only [Pc.runs] at h
    split at h
    next =>
      obtain ⟨-, rfl⟩ := Prod.mk.inj (Option.some.inj h)
      exact ⟨fun _ => Iff.rfl, trivial⟩
    next ans owner _ howner =>
      have hkept : Scan.kept sc = [.bucket owner] := by
        unfold Scan.kept
        rw [howner]
        rfl
      split at h
      next =>
        obtain ⟨-, rfl⟩ := Prod.mk.inj (Option.some.inj h)
        refine ⟨fun l => ?_, trivial⟩
        simp only [Pc.held, hkept, List.mem_cons, List.not_mem_nil, or_false]
        tauto
      next hindex =>
        obtain ⟨-, rfl⟩ := Prod.mk.inj (Option.some.inj h)
        obtain rfl := not_not.mp hindex
        refine ⟨fun l => ?_, trivial⟩
        simp only [Pc.held, hkept, List.mem_cons, List.not_mem_nil, or_false]
        tauto
    next => cases h
  | move dev blockno ans =>
    obtain ⟨-, rfl⟩ := Prod.mk.inj (Option.some.inj h)
    exact ⟨fun _ => Iff.rfl, trivial⟩
  | find op b =>
    obtain ⟨-, rfl⟩ := Prod.mk.inj (Option.some.inj h)
    exact ⟨fun _ => Iff.rfl, trivial⟩
  | runOp op b index =>
    cases op <;>
    · obtain ⟨-, rfl⟩ := Prod.mk.inj (Option.some.inj h)
      exact ⟨fun _ => Iff.rfl, trivial⟩
  | _ => cases h

theorem init_inv : Inv .init := ⟨fun t l => by simp [St.init, Pc.held], fun t => trivial⟩

theorem Inv.move (h : Inv s) (t : Nat) {q : Pc} {holder : Lock → Option Nat} (hok : q.ok)
    (hself : ∀ l, holder l = some t ↔ l ∈ q.held)
    (hother : ∀ u, u ≠ t → ∀ l, holder l = some u ↔ s.holder l = some u) {c : Bcache} {locked : Nat → Option Nat} :
    Inv { s with c := c, holder := holder, pc := Function.update s.pc t q, locked := locked } := by
  refine ⟨fun u l => ?_, fun u => ?_⟩
  · by_cases e : u = t
    · subst e
      simp only [Function.update_self]
      exact hself l
    · simp only [Function.update_of_ne e]
      rw [hother u e]
      exact h.holder u l
  · by_cases e : u = t
    · subst e
      simp only [Function.update_self]
      exact hok
    · simp only [Function.update_of_ne e]
      exact h.ok u

theorem Step.inv (h : Inv s) (hs : Step t s s') : Inv s' := by
  have idle : s.pc t = .idle → ∀ q : Pc, q.held = [] → ∀ l, s.holder l = some t ↔ l ∈ q.held := fun e q hq l => by
    rw [h.holder, e, hq]
    rfl
  cases hs with
  | acquire l p hp hl =>
    obtain ⟨hmem, hok⟩ := acquires_held hp (h.ok t)
    refine h.move t hok (fun l' => ?_) fun u hu l' => ?_
    · rw [hmem]
      by_cases e : l' = l
      · subst e
        simp
      · simp only [Function.update_of_ne e, h.holder, e, false_or]
    · by_cases e : l' = l
      · subst e
        simp [hl, Ne.symm hu]
      · simp only [Function.update_of_ne e]
  | release l p hp =>
    obtain ⟨hheld, hmem, hok⟩ := releases_held hp (h.ok t)
    refine h.move t hok (fun l' => ?_) fun u hu l' => ?_
    · rw [hmem]
      by_cases e : l' = l
      · subst e
        simp
      · simp only [Function.update_of_ne e, h.holder, ne_eq, e, not_false_eq_true, and_true]
    · by_cases e : l' = l
      · subst e
        simp [(h.holder t l').mpr hheld, Ne.symm hu]
      · simp only [Function.update_of_ne e]
  | run c p hp =>
    obtain ⟨hmem, hok⟩ := runs_held hp (h.ok t)
    exact h.move t hok (fun l => by rw [hmem, h.holder]) fun _ _ _ => Iff.rfl
  | bget dev blockno hp => exact h.move t (q := .lockIndex dev blockno) trivial (idle hp _ rfl) fun _ _ _ => Iff.rfl
  | acquiresleep b hp hl => exact h.move t (q := .idle) trivial (fun l => by rw [h.holder, hp]; rfl) fun _ _ _ =>
      Iff.rfl
  | brelse b hp hl => exact h.move t (q := .find .unref b) trivial (idle hp _ rfl) fun _ _ _ => Iff.rfl
  | bpin b hp => exact h.move t (q := .find .incref b) trivial (idle hp _ rfl) fun _ _ _ => Iff.rfl
  | bunpin b hp => exact h.move t (q := .find .decref b) trivial (idle hp _ rfl) fun _ _ _ => Iff.rfl
  | tick => exact ⟨h.holder, h.ok⟩

theorem Reach.inv (hr : Reach s) : Inv s := by
  induction hr with
  | init => exact init_inv
  | step t _ hs ih => exact hs.inv ih

/-- The lock that a process is about to take, or waits for. -/
def St.wants (s : St) (t : Nat) : Option Lock := (s.pc t).acquires.map Prod.fst

theorem wants_above (h : Inv s) (hw : s.wants t = some l) (hl : s.holder l' = some t) : l'.rank < l.rank := by
  obtain ⟨⟨m, q⟩, hq, rfl⟩ := Option.map_eq_some_iff.mp hw
  exact acquires_above (h.ok t) hq ((h.holder t l').mp hl)

/-- Of two buckets, a process takes the second one under bcache.lock. -/
theorem under_big (hok : p.ok) (h : p.acquires = some (.bucket i, q)) (hl : .bucket u ∈ p.held) : .big ∈ p.held := by
  cases p with
  | lockBucket => exact List.mem_cons_self ..
  | lockHit => exact List.mem_cons_self ..
  | lockTo => exact List.mem_cons_self ..
  | lockIndex => cases hl
  | lockBig => cases hl
  | lockOp => cases hl
  | _ => cases h

/-- In every interleaving nobody takes a lock again, a bucket is taken on top of another one only
    upwards and under bcache.lock, no cycle of processes waits for itself, and bget sleeps with no
    spinlock. -/
theorem locks_in_order (hr : Reach s) :
    (∀ t l, s.wants t = some l → s.holder l ≠ some t) ∧
    (∀ t i j, s.wants t = some (.bucket j) → s.holder (.bucket i) = some t → s.holder .big = some t ∧ i < j) ∧
    (∀ t, ¬ Relation.TransGen (WaitsFor s.holder s.wants) t t) ∧
    ∀ t b, s.pc t = .acquiresleep b → ∀ l, s.holder l ≠ some t := by
  have h := hr.inv
  refine ⟨fun t l hw hl => ?_, fun t i j hw hl => ?_, fun t => ?_, fun t b hp l hl => ?_⟩
  · exact Nat.lt_irrefl _ (wants_above h hw hl)
  · refine ⟨?_, Nat.lt_of_succ_lt_succ (wants_above h hw hl)⟩
    obtain ⟨⟨m, q⟩, hq, rfl⟩ := Option.map_eq_some_iff.mp hw
    exact (h.holder t .big).mpr (under_big (h.ok t) hq ((h.holder t _).mp hl))
  · have ho : Ordered s.holder s.wants Lock.rank := fun _ _ _ hl hw => wants_above h hw hl
    exact ho.no_cycle t
  · rw [h.holder, hp] at hl
    cases hl

theorem locks_in_order_taken : ∃ s, Reach s ∧ s.holder (.bucket 7) = some 0 ∧
    (∀ t l, s.wants t = some l → s.holder l ≠ some t) ∧
    (∀ t i j, s.wants t = some (.bucket j) → s.holder (.bucket i) = some t → s.holder .big = some t ∧ i < j) ∧
    (∀ t, ¬ Relation.TransGen (WaitsFor s.holder s.wants) t t) ∧
    ∀ t b, s.pc t = .acquiresleep b → ∀ l, s.holder l ≠ some t := by
  have r1 := Reach.init.step 0 (.bget _ 1 20 rfl)
  have r2 := r1.step 0 (.acquire _ (.bucket 7) (.look 1 20) rfl rfl)
  exact ⟨_, r2, by simp [St.goto], locks_in_order r2⟩

end Xv6Labs.Bio.Spin
