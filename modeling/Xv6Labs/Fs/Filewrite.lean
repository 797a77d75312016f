/-
  Xv6Labs.Fs.Filewrite — filewrite's transactions and the log.

  file.c writes a file in pieces, each in a transaction of its own; the log has room for
  MAXOPBLOCKS blocks of one (log.c is not here: begin_op makes `log` empty, and a block that
  log_write is passed twice counts once). The piece was chosen for one indirect block and one
  bitmap block.

  - `ops_fit`: the blocks that a transaction logs, counted before it: data blocks, index
    blocks, the bitmap blocks of the first free blocks, and the inode's.
  - `op_overflows`: a write of one piece, on the disk of the filesystem lab, that logs eleven.
-/

import Xv6Labs.Fs.Log
import Xv6Labs.Fs.Write
import Mathlib.Order.Interval.Finset.Nat

namespace Xv6Labs.Fs.Disk

open Lib

abbrev MAXOPBLOCKS : Nat := 10

/-- What one transaction of filewrite writes at most. -/
abbrev maxPiece : Nat := (MAXOPBLOCKS - 1 - 1 - 2) / 2 * BSIZE

/-- A call of writei between begin_op and end_op. -/
structure Op where
  src : Nat
  off : Nat
  n : Nat
  before : St
  after : St

section

variable (sb : Superblock) (copyin : Nat → Nat → Int × List UInt8) (ip addr n : Nat)

/-- The loop of filewrite, with the rounds left, `i` and the file's offset. It returns these, and
    its transactions. -/
def filewriteLoop : Nat → Nat → Nat → St → Except String (Nat × Nat × List Op × St)
  | 0, i, off, s => .ok (i, off, [], s)
  | k + 1, i, off, s =>
    if i < n then do
      let n1 := min (n - i) maxPiece
      let s ← ilock sb ip { s with log := [] }
      let (r, t) ← writei sb copyin ip (u64 (addr + i)) off n1 s
      let off' := if 0 < r then u32 (off + r.toNat) else off
      let u ← iunlock ip t
      if r ≠ n1 then .ok (i, off', [⟨u64 (addr + i), off, n1, s, t⟩], u)
      else do
        let (i', off', ops, s') ← filewriteLoop k (i + n1) off' u
        .ok (i', off', ⟨u64 (addr + i), off, n1, s, t⟩ :: ops, s')
    else .ok (i, off, [], s)

/-- filewrite of a file that is an inode. -/
def filewrite (writable : Bool) (n : Int) (off : Nat) (s : St) : Except String (Int × Nat × List Op × St) :=
  if writable = false then .ok (-1, off, [], s)
  else do
    let (i, off, ops, s) ← filewriteLoop sb copyin ip addr n.toNat n.toNat 0 off s
    .ok (if (i : Int) = n then n else -1, off, ops, s)

end

/-! ## The count -/

/-- The blocks that a write goes to when `r` of its `n` bytes can be read. -/
def visitedBlocks (off r n : Nat) : Finset Nat := Finset.Icc (off / BSIZE) ((off + min r (n - 1)) / BSIZE)

def visitedSlots (off r n : Nat) : Finset Slot := (visitedBlocks off r n).biUnion fun bn => (path bn).toFinset

/-- Those of the blocks that it stores: not the block in which the source ends. -/
def storedSlots (off r n : Nat) : Finset Slot :=
  ((visitedBlocks off r n).filter fun bn => r = n ∨ bn ≠ (off + r) / BSIZE).image slotOf

/-- The data and index blocks that are logged, the bitmap blocks of the first free blocks, as many
    as are taken, and the block of the inode. -/
def opBlocks (sb : Superblock) (ip : Nat) (s : St) (off r n : Nat) : Nat :=
  (loggedSlots ip s (visitedSlots off r n) (storedSlots off r n)).card +
    (bitmapBlocks sb s (newSlots ip s (visitedSlots off r n)).card).card + 1

/-- writei returns -1 at once. -/
def Refused (ip : Nat) (s : St) (off n : Nat) : Prop :=
  off > (s.inode ip).d.size ∨ u32 (off + n) < off ∨ u32 (off + n) > MAXFILE * BSIZE

section

variable {sb : Superblock} {ip : Nat} {s s' : St} {off r n src : Nat} {copyin : Nat → Nat → Int × List UInt8}
    {f : Nat → UInt8}

theorem opBlocks_ge {a b k : Nat} (h1 : (loggedSlots ip s (visitedSlots off r n) (storedSlots off r n)).card = a)
    (h2 : (newSlots ip s (visitedSlots off r n)).card = k) (h3 : b ≤ (bitmapBlocks sb s k).card) :
      a + b + 1 ≤ opBlocks sb ip s off r n := by
  unfold opBlocks
  rw [h1, h2]
  omega

theorem opBlocks_congr (hat : ∀ q, s'.at ip q = s.at ip q) (hd : s'.disk = s.disk) :
    opBlocks sb ip s' off r n = opBlocks sb ip s off r n := by
  have hnew : ∀ V, newSlots ip s' V = newSlots ip s V := fun V => Finset.filter_congr fun q _ => by rw [hat]
  unfold opBlocks loggedSlots bitmapBlocks
  simp only [hnew, hd]

theorem visitedSlots_eq : (↑(visitedSlots off r n) : Set Slot) = ∅ ∪ pathsOf (off + 0) (off + min r (n - 1)) := by
  refine Set.ext fun q => ?_
  rw [Set.empty_union, Nat.add_zero, Finset.mem_coe]
  unfold visitedSlots visitedBlocks
  rw [Finset.mem_biUnion]
  constructor
  · intro h
    obtain ⟨bn, hbn, hq⟩ := h
    obtain ⟨h1, h2⟩ := Finset.mem_Icc.mp hbn
    refine ⟨max off (bn * BSIZE), by omega, by unfold BSIZE at *; omega, ?_⟩
    rw [show max off (bn * BSIZE) / BSIZE = bn by unfold BSIZE at *; omega]
    exact List.mem_toFinset.mp hq
  · intro h
    obtain ⟨k, h1, h2, hq⟩ := h
    exact ⟨k / BSIZE, Finset.mem_Icc.mpr ⟨Nat.div_le_div_right h1, Nat.div_le_div_right h2⟩, List.mem_toFinset.mpr hq⟩

theorem storedSlots_eq (hn : 0 < n) (hr : r ≤ n) :
    (↑(storedSlots off r n) : Set Slot) = ∅ ∪ storedOf off r n (off + 0) := by
  refine Set.ext fun q => ?_
  rw [Set.empty_union, Nat.add_zero, Finset.mem_coe]
  unfold storedSlots visitedBlocks
  rw [Finset.mem_image]
  constructor
  · intro h
    obtain ⟨bn, hbn, hq⟩ := h
    obtain ⟨hbn, h3⟩ := Finset.mem_filter.mp hbn
    obtain ⟨h1, h2⟩ := Finset.mem_Icc.mp hbn
    have hdiv : max off (bn * BSIZE) / BSIZE = bn := by unfold BSIZE at *; omega
    refine ⟨max off (bn * BSIZE), by omega, ?_, by rw [hdiv]; exact h3, by rw [hdiv]; exact hq.symm⟩
    rcases h3 with h3 | h3
    · unfold BSIZE at *
      omega
    · unfold BSIZE at *
      omega
  · intro h
    obtain ⟨k, h1, h2, h3, hq⟩ := h
    exact ⟨k / BSIZE,
      Finset.mem_filter.mpr ⟨Finset.mem_Icc.mpr ⟨Nat.div_le_div_right h1, Nat.div_le_div_right (by omega)⟩, h3⟩,
      hq.symm⟩

/-- A well-formed file, in a slot of the inode table that holds its inode. -/
structure Good (sb : Superblock) (ip : Nat) (s : St) : Prop where
  whole : Whole sb s.disk (s.inode ip).d
  reserved : Reserved sb s.disk
  inum : (s.inode ip).inum < sb.ninodes
  valid : (s.inode ip).valid = true

theorem writei_log (hl : Layout sb) (h : Good sb ip s) (hlog : s.log = []) (hc : Source copyin src r n f)
    (hsrc : src < 2 ^ 64) (h0 : 0 < n) (hn : n < 2 ^ 32)
    (hoff : off < 2 ^ 32) (hrn : r ≤ n) {tot : Int} (e : writei sb copyin ip src off n s = .ok (tot, s')) :
    s'.log.toFinset.card ≤ MAXOPBLOCKS ↔ Refused ip s off n ∨ opBlocks sb ip s off r n ≤ MAXOPBLOCKS := by
  by_cases hr : Refused ip s off n
  · refine iff_of_true ?_ (Or.inl hr)
    have hs : s' = s := by
      unfold writei at e
      unfold Refused at hr
      split at e
      · cases e
        rfl
      · rename_i h1
        rw [if_pos (by omega)] at e
        cases e
        rfl
    rw [hs, hlog]
    exact Nat.zero_le _
  · have htot : 0 ≤ tot := by
      unfold writei at e
      unfold Refused at hr
      rw [if_neg (by omega), if_neg (by omega)] at e
      obtain ⟨⟨t, s1⟩, -, e⟩ := bind_ok e
      cases e
      exact Int.natCast_nonneg t
    obtain ⟨t, s1, -, e1, -, -, rfl⟩ := writei_ok hn hoff e htot
    have hsrc0 : u64 (src + 0) = src := Nat.mod_eq_of_lt hsrc
    have e2 : writeiLoop sb copyin ip n (u64 (src + 0)) (off + 0) n s = .ok (t, s1) := by rw [hsrc0]; exact e1
    have tally := writeiLoop_tally hl h.reserved hc h0 hrn (Nat.le_refl n) (Nat.zero_le r) (Nat.zero_add n)
      (.start h.whole) e2
    rw [← visitedSlots_eq, ← storedSlots_eq h0 hrn] at tally
    have hcard := tally.card hlog hl h.inum
    have hi :
      ((if off + t > (s1.inode ip).d.size then s1.setD ip
      { (s1.inode ip).d with size := off + t } else s1).inode ip).inum = (s.inode ip).inum := by
      rw [← tally.ext.inum]
      split
      · unfold St.setD
        rw [setInode_self]
      · rfl
    have hlog' :
      (iupdate sb ip (if off + t > (s1.inode ip).d.size then s1.setD ip
      { (s1.inode ip).d with size := off + t } else s1)).log =
        IBLOCK sb (s.inode ip).inum :: s1.log := by
      unfold iupdate St.log_write
      rw [hi]
      dsimp only
      congr 1
      split <;> rfl
    rw [hlog', hcard]
    exact ⟨Or.inr, fun h => h.resolve_left hr⟩

/-! ## The transactions of a run -/

theorem Good.congr (h : Good sb ip s) (hd : s'.disk = s.disk) (hi : (s'.inode ip).d = (s.inode ip).d)
    (hn : (s'.inode ip).inum = (s.inode ip).inum)
    (hv : (s'.inode ip).valid = (s.inode ip).valid) : Good sb ip s' := by
  refine ⟨?_, ?_, hn ▸ h.inum, hv.trans h.valid⟩
  · rw [hd, hi]
    exact h.whole
  · rw [hd]
    exact h.reserved

theorem Good.ilock (h : Good sb ip s) (e : ilock sb ip s = .ok s') : Good sb ip s' ∧ s'.log = s.log := by
  unfold Disk.ilock at e
  dsimp only at e
  rw [if_pos h.valid] at e
  split at e
  · cases e
  split at e
  · cases e
  cases e
  exact ⟨h.congr rfl (by rw [setInode_self]) (by rw [setInode_self]) (by rw [setInode_self]), rfl⟩

theorem iunlock_disk (e : iunlock ip s = .ok s') : s'.disk = s.disk := by
  unfold Disk.iunlock at e
  dsimp only at e
  split at e
  · cases e
  · cases e
    rfl

theorem Good.iunlock (h : Good sb ip s) (e : iunlock ip s = .ok s') : Good sb ip s' := by
  unfold Disk.iunlock at e
  dsimp only at e
  split at e
  · cases e
  cases e
  exact h.congr rfl (by rw [setInode_self]) (by rw [setInode_self]) (by rw [setInode_self])

theorem Good.writei (h : Good sb ip s) (hl : Layout sb) (hc : Source copyin src r n f) (hsrc : src < 2 ^ 64)
    (hn : n < 2 ^ 32) (hoff : off < 2 ^ 32)
    (hrn : r ≤ n) {tot : Int} (e : writei sb copyin ip src off n s = .ok (tot, s')) : Good sb ip s' := by
  by_cases h0 : 0 ≤ tot
  · obtain ⟨t, -, w⟩ := writei_spec hl h.whole h.reserved h.inum hc hsrc hn hoff hrn e h0
    have hself := congrFun w.inode ip
    rw [Function.update_self] at hself
    refine ⟨w.whole, w.reserved, ?_, ?_⟩
    · rw [hself]
      exact h.inum
    · rw [hself]
      exact h.valid
  · unfold Disk.writei at e
    split at e
    · cases e
      exact h
    split at e
    · cases e
      exact h
    obtain ⟨⟨t, s1⟩, -, e⟩ := bind_ok e
    cases e
    exact absurd (Int.natCast_nonneg t) h0

/-- What is known of a transaction of filewrite. -/
structure Op.Opened (sb : Superblock) (copyin : Nat → Nat → Int × List UInt8) (ip : Nat) (c : Op) : Prop where
  src : c.src < 2 ^ 64
  off : c.off < 2 ^ 32
  pos : 0 < c.n
  le : c.n ≤ maxPiece
  good : Good sb ip c.before
  log : c.before.log = []
  ran : ∃ tot, Disk.writei sb copyin ip c.src c.off c.n c.before = .ok (tot, c.after)

theorem filewriteLoop_opened (hl : Layout sb) {addr N : Nat} (hc : ∀ src n, ∃ r f, r ≤ n ∧ Source copyin src r n f) :
    ∀ {k i off s i' off' ops s'}, Good sb ip s → off < 2 ^ 32 →
    filewriteLoop sb copyin ip addr N k i off s = .ok (i', off', ops, s') → ∀ c ∈ ops, c.Opened sb copyin ip := by
  intro k
  induction k with
  | zero =>
    intro i off s i' off' ops s' h hoff e
    cases e
    exact fun c hc => absurd hc List.not_mem_nil
  | succ k ih =>
    intro i off s i' off' ops s' h hoff e
    unfold filewriteLoop at e
    split at e
    · rename_i hi
      dsimp only at e
      generalize hn1 : min (N - i) maxPiece = n1 at e
      obtain ⟨s1, e1, e⟩ := bind_ok e
      obtain ⟨⟨tot, t⟩, e2, e⟩ := bind_ok e
      obtain ⟨u, e3, e⟩ := bind_ok e
      have hmax : maxPiece = 3072 := rfl
      have hpos : 0 < n1 := by omega
      have hle : n1 ≤ maxPiece := by omega
      have hlt : n1 < 2 ^ 32 := Nat.lt_of_le_of_lt hle (by decide)
      have hsrc : u64 (addr + i) < 2 ^ 64 := Nat.mod_lt _ (by decide)
      obtain ⟨h1, hlog⟩ := Good.ilock (s := { s with log := [] }) (h.congr rfl rfl rfl rfl) e1
      obtain ⟨r, f, hrn, hsource⟩ := hc (u64 (addr + i)) n1
      have h2 := h1.writei hl hsource hsrc hlt hoff hrn e2
      have hop : Op.Opened sb copyin ip ⟨u64 (addr + i), off, n1, s1, t⟩ := ⟨hsrc, hoff, hpos, hle, h1, hlog, tot, e2⟩
      split at e
      · cases e
        intro c hc
        rw [List.mem_singleton.mp hc]
        exact hop
      · obtain ⟨⟨i1, off1, ops1, s2⟩, e4, e⟩ := bind_ok e
        cases e
        have hoff' : (if 0 < tot then u32 (off + tot.toNat) else off) < 2 ^ 32 := by
          split
          · exact Nat.mod_lt _ (by decide)
          · exact hoff
        intro c hc
        rcases List.mem_cons.mp hc with rfl | hc
        · exact hop
        · exact ih (h2.iunlock e3) hoff' e4 c hc
    · cases e
      exact fun c hc => absurd hc List.not_mem_nil

theorem iupdate_free (hl : Layout sb) (hin : (s.inode ip).inum < sb.ninodes) :
    freeCount sb (iupdate sb ip s) = freeCount sb s :=
  freeCount_congr fun _ hc => used_congr (iupdate_high hl hin (byteOf_bounds hc).1)

/-- With three free blocks for each byte writei returns, and takes no more. -/
theorem writei_total (hl : Layout sb) (hw : Whole sb s.disk (s.inode ip).d) (hr : Reserved sb s.disk)
    (hin : (s.inode ip).inum < sb.ninodes)
    (hc : Source copyin src r n f) (hsrc : src < 2 ^ 64) (hoff : off < 2 ^ 32) (hn : n < 2 ^ 32) (hrn : r ≤ n)
    (hfree : 3 * n ≤ freeCount sb s) :
    ∃ tot s', Disk.writei sb copyin ip src off n s = .ok (tot, s') ∧ freeCount sb s ≤ freeCount sb s' + 3 * n := by
  unfold Disk.writei
  split
  · exact ⟨_, _, rfl, Nat.le_add_right _ _⟩
  rename_i h1
  split
  · exact ⟨_, _, rfl, Nat.le_add_right _ _⟩
  rename_i h2
  have hsum : u32 (off + n) = off + n := Nat.mod_eq_of_lt (by unfold u32 at h1; omega)
  have hsrc0 : u64 (src + 0) = src := Nat.mod_eq_of_lt hsrc
  rw [hsum] at h2
  obtain ⟨tot, s1, e, g, hf⟩ := writeiLoop_total hl hr hc hrn (Nat.not_lt.mp h2) (Nat.le_refl n) (Nat.zero_le r)
    (Nat.zero_add n) (.refl hw) hfree
  rw [hsrc0, Nat.add_zero] at e
  rw [e, ok_bind]
  refine ⟨_, _, rfl, ?_⟩
  have hin1 : (s1.inode ip).inum < sb.ninodes := by rwa [g.inum]
  have hsized : ∀ d, ((s1.setD ip d).inode ip).inum < sb.ninodes := fun d => by
    unfold St.setD
    rwa [setInode_self]
  split
  · rw [iupdate_free hl (hsized _)]
    exact hf
  · rw [iupdate_free hl hin1]
    exact hf

/-- As many it takes in any case. -/
theorem writei_free (hl : Layout sb) (hw : Whole sb s.disk (s.inode ip).d) (hr : Reserved sb s.disk)
    (hin : (s.inode ip).inum < sb.ninodes)
    (hc : Source copyin src r n f) (hsrc : src < 2 ^ 64) (hoff : off < 2 ^ 32) (hn : n < 2 ^ 32) (hrn : r ≤ n)
    {tot : Int}
    (e : Disk.writei sb copyin ip src off n s = .ok (tot, s')) : freeCount sb s ≤ freeCount sb s' + 3 * n := by
  by_cases hfree : 3 * n ≤ freeCount sb s
  · obtain ⟨tot', t, e', h⟩ := writei_total hl hw hr hin hc hsrc hoff hn hrn hfree
    rw [e] at e'
    cases e'
    exact h
  · omega

/-- Where it does not return there were fewer. -/
theorem writei_short (hl : Layout sb) (hw : Whole sb s.disk (s.inode ip).d) (hr : Reserved sb s.disk)
    (hin : (s.inode ip).inum < sb.ninodes)
    (hc : Source copyin src r n f) (hsrc : src < 2 ^ 64) (hoff : off < 2 ^ 32) (hn : n < 2 ^ 32) (hrn : r ≤ n)
    {m : String} (e : Disk.writei sb copyin ip src off n s = .error m) : freeCount sb s < 3 * n := by
  by_contra hfree
  obtain ⟨tot, t, e', -⟩ := writei_total hl hw hr hin hc hsrc hoff hn hrn (Nat.not_lt.mp hfree)
  rw [e] at e'
  cases e'

/-- A run of one transaction. -/
theorem filewrite_piece {addr : Nat} {s1 t u : St} {tot : Int} (h0 : 0 < n) (hle : n ≤ maxPiece)
    (e1 : Disk.ilock sb ip { s with log := [] } = .ok s1)
    (e2 : Disk.writei sb copyin ip (u64 addr) off n s1 = .ok (tot, t)) (e3 : Disk.iunlock ip t = .ok u) :
    ∃ r off' s', filewrite sb copyin ip addr true (n : Int) off s =
      .ok (r, off', [⟨u64 addr, off, n, s1, t⟩], s') := by
  obtain ⟨k, rfl⟩ := Nat.exists_eq_succ_of_ne_zero (Nat.ne_of_gt h0)
  have hmin : min (k.succ - 0) maxPiece = k.succ := Nat.min_eq_left hle
  unfold filewrite
  rw [if_neg (by decide), Int.toNat_natCast]
  unfold filewriteLoop
  rw [if_pos h0]
  dsimp only
  rw [hmin, e1, ok_bind, Nat.add_zero, e2, ok_bind]
  dsimp only
  rw [e3, ok_bind]
  split
  · exact ⟨_, _, _, rfl⟩
  · -- the whole piece was written
    have hdone : ∀ off s, filewriteLoop sb copyin ip addr k.succ k (0 + k.succ) off s =
      .ok (0 + k.succ, off, [], s) := fun off s => by
      cases k with
      | zero => rfl
      | succ k =>
        unfold filewriteLoop
        rw [if_neg (by omega)]
    rw [hdone, ok_bind]
    exact ⟨_, _, _, rfl⟩

variable {κ : Type} {A : Lab κ} {t : Nat} {m : Mach κ}

/-- The transaction is refused, or its blocks are few enough. -/
def Op.Fits (sb : Superblock) (t : Nat) (m : Mach κ) (ip : Nat) (c : Op) : Prop :=
  Refused ip c.before c.off c.n ∨ opBlocks sb ip c.before c.off (Vm.readable m.mem t c.src c.n) c.n ≤ MAXOPBLOCKS

/-- In a run of filewrite on a well-formed file each transaction logs at most MAXOPBLOCKS blocks
    exactly if the slots on the way to its blocks, and the first free blocks, make it fit. -/
theorem ops_fit (hl : Layout sb) (h : Good sb ip s) {addr off off' : Nat} {writable : Bool} {n r : Int}
    {ops : List Op} (hoff : off < 2 ^ 32)
    (e : filewrite sb (either_copyin A t m) ip addr writable n off s = .ok (r, off', ops, s')) :
    ∀ c ∈ ops, c.after.log.toFinset.card ≤ MAXOPBLOCKS ↔ c.Fits sb t m ip := by
  unfold filewrite at e
  split at e
  · cases e
    exact fun c hc => absurd hc List.not_mem_nil
  obtain ⟨⟨i1, off1, ops1, s1⟩, e1, e⟩ := bind_ok e
  cases e
  intro c hc
  have ho :=
    filewriteLoop_opened hl (fun src n => ⟨_, _, Vm.readable_le m.mem t src n,
      source_user A t m src n⟩) h hoff e1 c hc
  obtain ⟨tot, e2⟩ := ho.ran
  exact writei_log hl ho.good ho.log (source_user A t m c.src c.n) ho.src ho.pos
    (Nat.lt_of_le_of_lt ho.le (by decide)) ho.off (Vm.readable_le m.mem t c.src c.n) e2

end

/-- How many transactions a call has. -/
def opCount (x : Except String (Int × Nat × List Op × St)) : Option Nat :=
  match x with
  | .ok (_, _, ops, _) => some ops.length
  | .error _ => none

theorem opCount_some {x : Except String (Int × Nat × List Op × St)} {k : Nat} (h : opCount x = some k) :
    ∃ r off' ops s', x = .ok (r, off', ops, s') ∧ ops.length = k := by
  cases x with
  | error e => cases h
  | ok a =>
    obtain ⟨r, off', ops, s'⟩ := a
    exact ⟨r, off', ops, s', rfl, Option.some.inj h⟩

/-- Four bytes into a block that is there. -/
theorem ops_fit_small : ∃ r off' ops s',
    filewrite smallDisk (either_copyin (Plain.lab image false) 4096 onePage) 0 0 true 4 8
      (oneBlock.setInode 0 { oneBlock.inode 0 with lock := false }) = .ok (r, off', ops, s') ∧ ops.length = 1 ∧
    ∀ c ∈ ops, c.after.log.toFinset.card ≤ MAXOPBLOCKS ↔ c.Fits smallDisk 4096 onePage 0 := by
  have hrun : opCount (filewrite smallDisk (either_copyin (Plain.lab image false) 4096 onePage) 0 0 true 4 8
      (oneBlock.setInode 0 { oneBlock.inode 0 with lock := false })) = some 1 := by decide +kernel
  obtain ⟨r, off', ops, s', e, hlen⟩ := opCount_some hrun
  have hgood : Good smallDisk 0 (oneBlock.setInode 0 { oneBlock.inode 0 with lock := false }) :=
    ⟨oneBlock_whole, oneBlock_reserved, by decide, rfl⟩
  exact ⟨r, off', ops, s', e, hlen, ops_fit smallDisk_layout hgood (by decide : 8 < 2 ^ 32) e⟩

/-! ## A piece that does not fit -/

/-- The disk of the filesystem lab: FSSIZE blocks, 25 of them the bitmap. -/
def labFs : Superblock := ⟨200000, 200, 32, 45⟩

theorem labFs_layout : Layout labFs := ⟨by decide, by decide, by decide⟩

/-- A byte of the bitmap: blocks 366, 367, 368, 8192 and 16384 are free, and all from 24576 on. -/
def scatteredBits (o : Nat) : UInt8 :=
  if o = 45 then 63 else if o = 46 ∨ o = 1024 ∨ o = 2048 then 254 else if o < 3072 then 255 else 0

/-- With that bitmap; block 99 names blocks 111 to 365. -/
def scattered : Mem :=
  Mem.storeWords (fun x => if 46080 ≤ x ∧ x < 71680 then scatteredBits (x - 46080) else 0) (99 * BSIZE) 255 fun j =>
    111 + j

/-- A file of 265 and a half blocks, the blocks from 100 on; one more fits in its indirect block. -/
def longFile : St :=
  ⟨scattered, [], fun _ => ⟨1, 2, 1, false, true,
    ⟨T_FILE, 0, 0, 1, 265 * BSIZE + 512, fun i => if i.val < 11 then 100 + i else if i.val = 11 then 99 else 0⟩⟩⟩

theorem scattered_bit {c : Nat} (h : c < 200000) :
    used labFs scattered c = (scatteredBits (c / 8)).toNat.testBit (c % 8) := by
  have hbyte : scattered (byteOf labFs c) = scatteredBits (c / 8) := by
    have e : byteOf labFs c = 46080 + c / 8 := rfl
    unfold scattered
    rw [e, Mem.agree_storeWords (b := 46080 + c / 8) (k := 1) _ _ (Or.inl (by unfold BSIZE; omega)) _ (Nat.le_refl _)
      (Nat.lt_succ_self _)]
    rw [if_pos (by omega), Nat.add_sub_cancel_left]
  rw [used_eq, hbyte]

theorem scattered_low : ∀ c < 366, used labFs scattered c = true := by decide +kernel

theorem scattered_high {c : Nat} (h1 : 24576 ≤ c) (h2 : c < 200000) : used labFs scattered c = false := by
  have e : scatteredBits (c / 8) = 0 := by
    unfold scatteredBits
    rw [if_neg (by omega), if_neg (by omega), if_neg (by omega)]
  rw [scattered_bit h2, e]
  exact Nat.zero_testBit _

theorem scattered_free {c : Nat} (h : c < 24576) (hf : used labFs scattered c = false) :
    c ∈ ({366, 367, 368, 8192, 16384} : Finset Nat) := by
  rw [scattered_bit (by omega)] at hf
  have hmod := Nat.mod_lt c (by decide : 0 < 8)
  have h63 : ∀ i < 8, Nat.testBit 63 i = false → i = 6 ∨ i = 7 := by decide
  have h254 : ∀ i < 8, Nat.testBit 254 i = false → i = 0 := by decide
  have h255 : ∀ i < 8, Nat.testBit 255 i = true := by decide
  simp only [Finset.mem_insert, Finset.mem_singleton]
  unfold scatteredBits at hf
  split at hf
  · have := h63 _ hmod hf
    omega
  split at hf
  · have := h254 _ hmod hf
    omega
  split at hf
  · have := h255 _ hmod
    rw [show (255 : UInt8).toNat = 255 from rfl, this] at hf
    cases hf
  · omega

theorem scattered_word (j : Nat) : word scattered 99 j = if j < 255 then 111 + j else 0 := by
  unfold word scattered
  split
  · rename_i h
    exact (Mem.loadLE_storeWords _ _ _ h).trans (Nat.mod_eq_of_lt (by omega))
  · rename_i h
    have hagree := Mem.agree_storeWords (b := 99 * BSIZE + 4 * j) (k := 4) (a := 99 * BSIZE) (n := 255)
      (fun x => if 46080 ≤ x ∧ x < 71680 then scatteredBits (x - 46080) else 0) (fun j => 111 + j) (Or.inr (by omega))
    refine (Mem.loadLE_agree hagree).trans (Mem.loadLE_zero fun x h1 _ => if_neg ?_)
    unfold BSIZE at h1
    omega

/-- The blocks of the file. -/
def longMap : Slot → Nat
  | .addr i => if i.val < 11 then 100 + i else if i.val = 11 then 99 else 0
  | .ind j => if j.val < 255 then 111 + j else 0
  | _ => 0

theorem longFile_at (p : Slot) : longFile.at 0 p = longMap p := by
  cases p with
  | addr i => rfl
  | ind j =>
    have haddr : (longFile.inode 0).d.addrs 11 = 99 := rfl
    show entry longFile.disk ((longFile.inode 0).d.addrs 11) j = _
    rw [haddr]
    unfold entry
    rw [if_neg (by decide)]
    exact scattered_word j
  | mid i => rfl
  | leaf i j => rfl

theorem longFile_bounds {p : Slot} (h : longFile.at 0 p ≠ 0) : 99 ≤ longFile.at 0 p ∧ longFile.at 0 p < 366 := by
  rw [longFile_at] at h ⊢
  unfold longMap at h ⊢
  cases p with
  | addr i =>
    dsimp only at h ⊢
    split
    · omega
    · rename_i h1
      rw [if_neg h1] at h
      split
      · omega
      · rename_i h2
        rw [if_neg h2] at h
        exact absurd rfl h
  | ind j =>
    dsimp only at h ⊢
    split
    · omega
    · rename_i h1
      rw [if_neg h1] at h
      exact absurd rfl h
  | mid i => exact absurd rfl h
  | leaf i j => exact absurd rfl h

theorem longFile_apart {p q : Slot} (h : longFile.at 0 p ≠ 0) (e : longFile.at 0 p = longFile.at 0 q) : p = q := by
  have hq : longFile.at 0 q ≠ 0 := fun h0 => h (e.trans h0)
  rw [longFile_at] at h e
  rw [longFile_at] at hq e
  unfold longMap at h hq e
  cases p with
  | mid i => exact absurd rfl h
  | leaf i j => exact absurd rfl h
  | addr i =>
    cases q with
    | mid i => exact absurd rfl hq
    | leaf i j => exact absurd rfl hq
    | addr k =>
      dsimp only at h hq e
      refine congrArg Slot.addr (Fin.ext ?_)
      split at e <;> split at e <;> split_ifs at h hq e <;> omega
    | ind j =>
      dsimp only at h hq e
      split_ifs at h hq e <;> omega
  | ind j =>
    cases q with
    | mid i => exact absurd rfl hq
    | leaf i j => exact absurd rfl hq
    | addr k =>
      dsimp only at h hq e
      split_ifs at h hq e <;> omega
    | ind j' =>
      dsimp only at h hq e
      refine congrArg Slot.ind (Fin.ext ?_)
      split_ifs at h hq e <;> omega

theorem longFile_good : Good labFs 0 longFile := by
  have hused : ∀ {p}, longFile.at 0 p ≠ 0 → used labFs scattered (longFile.at 0 p) = true :=
    fun h => scattered_low _ (longFile_bounds h).2
  refine ⟨⟨fun p h => ⟨?_, ?_, hused h⟩, fun p q h e => longFile_apart h e⟩, fun c hc => scattered_low c ?_,
    (by decide), rfl⟩
  · exact Nat.le_trans (by decide : 70 ≤ 99) (longFile_bounds h).1
  · exact Nat.lt_trans (longFile_bounds h).2 (by decide : 366 < 200000)
  · exact Nat.lt_trans hc (by decide : dataStart labFs < 366)

/-- The user's page can be read. -/
theorem onePage_readable {n : Nat} (h : n ≤ 4096) : Vm.readable onePage.mem 4096 0 n = n := by
  have hpage : Vm.upage onePage.mem 4096 (PGROUNDDOWN 0) ≠ 0 := by decide +kernel
  by_contra hne
  have hlt := Nat.lt_of_le_of_ne (Vm.readable_le onePage.mem 4096 0 n) hne
  have hnone := Vm.readable_none hlt
  rw [Vm.userByte_page (by decide) (Nat.lt_of_lt_of_le hlt h), if_neg hpage] at hnone
  cases hnone

theorem longFile_slots : visitedSlots (265 * BSIZE + 512) 3072 3072 =
    {.addr 11, .ind 254, .ind 255, .addr 12, .mid 0, .leaf 0 0, .leaf 0 1} ∧
    storedSlots (265 * BSIZE + 512) 3072 3072 = {.ind 254, .ind 255, .leaf 0 0, .leaf 0 1} := by
  decide +kernel

theorem longFile_new : newSlots 0 longFile (visitedSlots (265 * BSIZE + 512) 3072 3072) =
    {.ind 255, .addr 12, .mid 0, .leaf 0 0, .leaf 0 1} := by
  have h : newSlots 0 longFile (visitedSlots (265 * BSIZE + 512) 3072 3072) =
    (visitedSlots (265 * BSIZE + 512) 3072 3072).filter fun q => longMap q = 0 :=
    Finset.filter_congr fun q _ => by rw [longFile_at]
  rw [h, longFile_slots.1]
  rfl

/-- The first five free blocks lie in three bitmap blocks. -/
theorem longFile_bitmap : ({45, 46, 47} : Finset Nat) ⊆ bitmapBlocks labFs longFile 5 := by
  have hused : ∀ c ∈ ({366, 8192, 16384} : Finset Nat), used labFs scattered c = false := fun c hc => by
    simp only [Finset.mem_insert, Finset.mem_singleton] at hc
    rw [scattered_bit (by omega)]
    rcases hc with rfl | rfl | rfl <;> rfl
  have hfirst : ∀ c ∈ ({366, 8192, 16384} : Finset Nat),
    c ∈ Lib.first (fun c => used labFs longFile.disk c = false) 5 labFs.size := fun c hc => by
    have hle : c ≤ 16384 := by
      simp only [Finset.mem_insert, Finset.mem_singleton] at hc
      omega
    refine Finset.mem_filter.mpr ⟨Finset.mem_range.mpr (Nat.lt_of_le_of_lt hle (by decide)), hused c hc, ?_⟩
    rw [Nat.count_eq_card_filter_range]
    refine Nat.lt_of_le_of_lt (Finset.card_le_card fun d hd => ?_)
      (by decide : ({366, 367, 368, 8192} : Finset Nat).card < 5)
    obtain ⟨h1, h2⟩ := Finset.mem_filter.mp hd
    have h1 := Finset.mem_range.mp h1
    have := scattered_free (by omega) h2
    simp only [Finset.mem_insert, Finset.mem_singleton] at this ⊢
    omega
  intro x hx
  simp only [Finset.mem_insert, Finset.mem_singleton] at hx
  rcases hx with rfl | rfl | rfl
  · exact Finset.mem_image.mpr ⟨366, hfirst 366 (by decide), by decide⟩
  · exact Finset.mem_image.mpr ⟨8192, hfirst 8192 (by decide), by decide⟩
  · exact Finset.mem_image.mpr ⟨16384, hfirst 16384 (by decide), by decide⟩

/-- Four data blocks, three index blocks, three bitmap blocks and the inode's. -/
theorem longFile_blocks : 11 ≤ opBlocks labFs 0 longFile (265 * BSIZE + 512) 3072 3072 := by
  have h1 : (loggedSlots 0 longFile (visitedSlots (265 * BSIZE + 512) 3072 3072)
    (storedSlots (265 * BSIZE + 512) 3072 3072)).card = 7 := by
    unfold loggedSlots
    rw [longFile_new, longFile_slots.2]
    rfl
  have h2 : (newSlots 0 longFile (visitedSlots (265 * BSIZE + 512) 3072 3072)).card = 5 := by
    rw [longFile_new]
    rfl
  have h3 : 3 ≤ (bitmapBlocks labFs longFile 5).card := Finset.card_le_card longFile_bitmap
  exact opBlocks_ge h1 h2 h3

theorem longFile_space : 9216 ≤ freeCount labFs longFile := by
  have h : (Finset.range 9216).image (fun i => 24576 + i) ⊆ (Finset.range labFs.size).filter fun c =>
    used labFs longFile.disk c = false := fun c hc => by
    obtain ⟨i, hi, rfl⟩ := Finset.mem_image.mp hc
    have hi := Finset.mem_range.mp hi
    have hlt : 24576 + i < 200000 := by omega
    exact Finset.mem_filter.mpr ⟨Finset.mem_range.mpr hlt, scattered_high (Nat.le_add_right _ _) hlt⟩
  have hle := Finset.card_le_card h
  rw [Finset.card_image_of_injective _ (add_right_injective 24576), Finset.card_range] at hle
  exact hle

/-- One piece of a write at the end of that file passes eleven blocks to log_write. -/
theorem op_overflows : ¬ ∀ (κ : Type) (A : Lab κ) (t : Nat) (m : Mach κ) (sb : Superblock) (ip addr off off' : Nat)
    (writable : Bool) (n r : Int) (ops : List Op) (s s' : St),
    sb.size = 200000 → Layout sb → Good sb ip s → off < 2 ^ 32 →
      filewrite sb (either_copyin A t m) ip addr writable n off s = .ok (r, off', ops, s') →
    ∀ c ∈ ops, c.after.log.toFinset.card ≤ MAXOPBLOCKS := by
  intro h
  have e1 : ilock labFs 0 { longFile with log := [] } =
    .ok (longFile.setInode 0 { longFile.inode 0 with lock := true }) := rfl
  obtain ⟨hgood, -⟩ := Good.ilock (s := { longFile with log := [] }) longFile_good e1
  have hat : ∀ q, (longFile.setInode 0 { longFile.inode 0 with lock := true }).at 0 q = longFile.at 0 q :=
    fun _ => rfl
  have hdisk : (longFile.setInode 0 { longFile.inode 0 with lock := true }).disk = longFile.disk := rfl
  have hsize : ((longFile.setInode 0 { longFile.inode 0 with lock := true }).inode 0).d.size = 265 * BSIZE + 512 :=
    rfl
  have hlog : (longFile.setInode 0 { longFile.inode 0 with lock := true }).log = [] := rfl
  have hlock : ((longFile.setInode 0 { longFile.inode 0 with lock := true }).inode 0).lock = true ∧
      ((longFile.setInode 0 { longFile.inode 0 with lock := true }).inode 0).ref = 1 := ⟨rfl, rfl⟩
  generalize longFile.setInode 0 { longFile.inode 0 with lock := true } = s1 at *
  have hsource := source_user (Plain.lab image false) 4096 onePage 0 3072
  rw [onePage_readable (by decide)] at hsource
  have hspace : 3 * 3072 ≤ freeCount labFs s1 := by
    have hcount : freeCount labFs s1 = freeCount labFs longFile := freeCount_congr fun c _ => by rw [hdisk]
    exact Nat.le_trans longFile_space (Nat.le_of_eq hcount.symm)
  obtain ⟨tot, t, e2, -⟩ : ∃ tot t, writei labFs (either_copyin (Plain.lab image false) 4096 onePage) 0 (u64 0)
    (265 * BSIZE + 512) 3072 s1 = .ok (tot, t) ∧
      freeCount labFs s1 ≤ freeCount labFs t + 3 * 3072 :=
    writei_total labFs_layout hgood.whole hgood.reserved hgood.inum hsource (by decide) (by decide) (by decide)
      (Nat.le_refl _) hspace
  have hq := writei_quiet e2
  have e3 : iunlock 0 t = .ok (t.setInode 0 { t.inode 0 with lock := false }) := by
    unfold iunlock
    refine if_neg fun hno => ?_
    rw [hq.lock, hq.ref, hlock.1, hlock.2] at hno
    exact absurd hno (by decide)
  obtain ⟨r, off', s', e⟩ := filewrite_piece (by decide) (by decide) e1 e2 e3
  have hfit := h _ _ _ _ _ _ _ _ _ _ _ _ _ _ _ rfl labFs_layout longFile_good (by decide) e _
    (List.mem_singleton.mpr rfl)
  rw [writei_log labFs_layout hgood hlog hsource (by decide) (by decide) (by decide) (by decide) (Nat.le_refl _) e2,
    opBlocks_congr hat hdisk] at hfit
  rcases hfit with hfit | hfit
  · unfold Refused at hfit
    rw [hsize] at hfit
    revert hfit
    decide
  · exact absurd (Nat.le_trans longFile_blocks hfit) (by decide)

end Xv6Labs.Fs.Disk
