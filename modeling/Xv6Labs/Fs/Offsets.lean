/-
  Xv6Labs.Fs.Offsets — open files are byte arrays with offsets.

  fileread and filewrite of file.c go through an entry of the file table. The offset is in the entry,
  so whoever has the entry moves it for everyone who has it; two entries may be of one inode. A write
  past the largest size stores what fits in whole pieces, and reports -1. An open with O_TRUNC leaves
  the offsets of other entries behind the end of the file.

  - `OpenCall.apply`: the arrays and the entries.
  - `filewriteLoop_exact`: all pieces of a write, however many.
  - `open_files_are_byte_arrays`: for any sequence of calls, by any entries.
-/

import Xv6Labs.Fs.Files

namespace Xv6Labs.Fs.Disk

open Lib

/-! ## Calls -/

/-- An entry of the file table that is an inode. -/
structure OpenFile where
  ip : Nat
  readable : Bool
  writable : Bool
  off : Nat

/-- fileread of a file that is an inode, to memory that can be written: the result, the bytes and the
    offset. readi's `n` is a uint. -/
def fileread (sb : Superblock) (ip : Nat) (readable : Bool) (n : Int) (off : Nat) (s : St) :
    Except String (Int × List UInt8 × Nat × St) :=
  if readable = false then .ok (-1, [], off, s)
  else do
    let s ← ilock sb ip s
    let (bs, s) ← readi sb ip off (u32 (toU64 n)) s
    let off := if 0 < bs.length then u32 (off + bs.length) else off
    let s ← iunlock ip s
    .ok (bs.length, bs, off, s)

/-- What an open with O_TRUNC does to the file. -/
def truncate (sb : Superblock) (ip : Nat) (s : St) : Except String St := do
  let s ← ilock sb ip { s with log := [] }
  let s ← itrunc sb ip s
  iunlock ip s

/-- `bs` are the bytes of the source; `trunc` is by somebody who opens the file of the entry again. -/
inductive OpenCall where
  | trunc (f : Nat)
  | fileread (f : Nat) (n : Int)
  | filewrite (copyin : Nat → Nat → Int × List UInt8) (f addr : Nat) (bs : List UInt8)

/-- Of an entry of the set, with a source that can be read. -/
def OpenCall.Allowed (F : Set Nat) : OpenCall → Prop
  | .trunc f => f ∈ F
  | .fileread f _ => f ∈ F
  | .filewrite copyin f addr bs => f ∈ F ∧ bs.length < 2 ^ 31 ∧ Source copyin addr bs.length bs.length fun i =>
      bs.getD i 0

/-- The result, and what was read. -/
def OpenCall.run (sb : Superblock) : OpenCall → (Nat → OpenFile) → St →
    Except String ((Int × List UInt8) × (Nat → OpenFile) × St)
  | .trunc f, t, s => do
    let s ← truncate sb (t f).ip s
    .ok ((0, []), t, s)
  | .fileread f n, t, s => do
    let (r, bs, off, s) ← Disk.fileread sb (t f).ip (t f).readable n (t f).off s
    .ok ((r, bs), Function.update t f { t f with off := off }, s)
  | .filewrite copyin f addr bs, t, s => do
    let (r, off, _, s) ← Disk.filewrite sb copyin (t f).ip addr (t f).writable bs.length (t f).off s
    .ok ((r, []), Function.update t f { t f with off := off }, s)

def runOpen (sb : Superblock) : List OpenCall → (Nat → OpenFile) → St →
    Except String (List (Int × List UInt8) × (Nat → OpenFile) × St)
  | [], t, s => .ok ([], t, s)
  | c :: cs, t, s => do
    let (r, t, s) ← c.run sb t s
    let (rs, t, s) ← runOpen sb cs t s
    .ok (r :: rs, t, s)

/-- How a call ends in state `s` that does not return: the file has a doubly-indirect block, or there
    are not three free blocks for each byte. -/
def OpenCall.Fails (sb : Superblock) (t : Nat → OpenFile) (s : St) : OpenCall → String → Prop
  | .trunc f, m => m = "kerneltrap" ∧ (s.inode (t f).ip).d.addrs 12 ≠ 0
  | .fileread .., _ => False
  | .filewrite _ _ _ bs, m => m = "balloc: out of blocks" ∧ freeCount sb s < 3 * bs.length

/-! ## The arrays -/

/-- What a read of `n` bytes gets. -/
def stretch (bs : List UInt8) (off n : Nat) : List UInt8 :=
  if off ≤ bs.length ∧ off + n < 2 ^ 32 then (bs.drop off).take n else []

/-- How much of a write of `n` bytes is stored. -/
def stored (size off n : Nat) : Nat :=
  if size < off then 0 else if off + n ≤ MAXFILE * BSIZE then n else (MAXFILE * BSIZE - off) / maxPiece * maxPiece

/-- What a call does to byte arrays and to the entries. -/
def OpenCall.apply : OpenCall → (Nat → OpenFile) → (Nat → List UInt8) →
    (Int × List UInt8) × (Nat → OpenFile) × (Nat → List UInt8)
  | .trunc f, t, files => ((0, []), t, Function.update files (t f).ip [])
  | .fileread f n, t, files =>
    if (t f).readable = false then ((-1, []), t, files)
    else
      let bs := stretch (files (t f).ip) (t f).off (u32 (toU64 n))
      ((bs.length, bs), Function.update t f { t f with off := (t f).off + bs.length }, files)
  | .filewrite _ f _ bs, t, files =>
    if (t f).writable = false then ((-1, []), t, files)
    else
      let k := stored (files (t f).ip).length (t f).off bs.length
      ((if k = bs.length then bs.length else -1, []), Function.update t f { t f with off := (t f).off + k },
        Function.update files (t f).ip (overwrite (files (t f).ip) (bs.take k) (t f).off))

def applyOpen : List OpenCall → (Nat → OpenFile) → (Nat → List UInt8) →
    List (Int × List UInt8) × (Nat → OpenFile) × (Nat → List UInt8)
  | [], t, files => ([], t, files)
  | c :: cs, t, files =>
    let x := c.apply t files
    let y := applyOpen cs x.2.1 x.2.2
    (x.1 :: y.1, y.2)

section

variable {sb : Superblock} {I F : Set Nat} {s s' s1 : St} {ip i k off n src addr size : Nat}
    {copyin : Nat → Nat → Int × List UInt8} {bs : List UInt8}
  {f g : Nat → UInt8}

/-! ## How much is stored -/

theorem stored_zero : stored size off 0 = 0 := by
  unfold stored
  simp only [maxPiece, MAXOPBLOCKS, MAXFILE, NINDIRECT2, NDIRECT, NINDIRECT, BSIZE]
  split
  · rfl
  · split <;> omega

/-- A piece that is within the bounds, and the rest. -/
theorem stored_piece (hk : min n maxPiece = k) (h : InBounds size off k) :
    stored size off n = k + stored (max size (off + k)) (off + k) (n - k) := by
  obtain ⟨h1, -, h2⟩ := h
  unfold stored
  simp only [maxPiece, MAXOPBLOCKS, MAXFILE, NINDIRECT2, NDIRECT, NINDIRECT, BSIZE] at hk h2 ⊢
  rw [if_neg (show ¬ size < off by omega), if_neg (show ¬ max size (off + k) < off + k by omega)]
  split <;> split <;> omega

/-- One that is not. -/
theorem stored_refused (hk : min n maxPiece = k) (h : ¬ InBounds size off k) : stored size off n = 0 := by
  unfold InBounds at h
  unfold stored
  simp only [maxPiece, MAXOPBLOCKS, MAXFILE, NINDIRECT2, NDIRECT, NINDIRECT, BSIZE] at hk h ⊢
  split
  · rfl
  · split <;> omega

theorem stored_le (hs : size ≤ MAXFILE * BSIZE) :
    stored size off n ≤ n ∧ (0 < stored size off n → off + stored size off n ≤ MAXFILE * BSIZE) := by
  unfold stored
  simp only [maxPiece, MAXOPBLOCKS, MAXFILE, NINDIRECT2, NDIRECT, NINDIRECT, BSIZE] at hs ⊢
  split
  · exact ⟨Nat.zero_le _, fun h0 => absurd h0 (Nat.lt_irrefl 0)⟩
  · split <;> omega

/-! ## Files that are not locked -/

/-- The inodes are in use, and nobody is at them. -/
structure Unlocked (sb : Superblock) (I : Set Nat) (s : St) : Prop extends Files sb I s where
  ref : ∀ k ∈ I, 0 < (s.inode k).ref
  lock : ∀ k ∈ I, (s.inode k).lock = false
  valid : ∀ k ∈ I, (s.inode k).valid = true

theorem Files.congr (h : Files sb I s) (hd : s'.disk = s.disk)
    (hi : ∀ k, (s'.inode k).inum = (s.inode k).inum ∧ (s'.inode k).d = (s.inode k).d) :
    Files sb I s' ∧ ∀ k, s'.bytes k = s.bytes k := by
  have hat : ∀ k q, s'.at k q = s.at k q := fun k q => by
    unfold St.at
    rw [hd, (hi k).2]
  refine ⟨⟨by rw [hd]; exact h.reserved, fun k hk => ?_, fun k hk k' hk' => ?_, fun k hk => ?_, fun k hk => ?_,
    fun k hk x hx => ?_,
    fun k hk k' hk' hne p q => ?_⟩, fun k => ?_⟩
  · rw [(hi k).1]
    exact h.inum k hk
  · rw [(hi k).1, (hi k').1]
    exact h.one k hk k' hk'
  · rw [(hi k).2]
    exact h.size k hk
  · rw [(hi k).2, hd]
    exact h.whole k hk
  · rw [(hi k).2] at hx
    rw [hat]
    exact h.mapped k hk x hx
  · rw [hat, hat]
    exact h.apart k hk k' hk' hne p q
  · unfold St.bytes St.byte
    rw [(hi k).2, hd]
    simp only [hat]

theorem relocked {b : Bool} (hi : s1.inode = Function.update s.inode ip { s.inode ip with lock := b }) (k : Nat) :
    (s1.inode k).inum = (s.inode k).inum ∧ (s1.inode k).d = (s.inode k).d := by
  rw [hi]
  by_cases e : k = ip
  · subst e
    rw [Function.update_self]
    exact ⟨rfl, rfl⟩
  · rw [Function.update_of_ne e]
    exact ⟨rfl, rfl⟩

/-- The state with file `ip` locked. -/
theorem Unlocked.ilock (h : Unlocked sb I s) (hip : ip ∈ I) :
    Disk.ilock sb ip s = .ok (s.setInode ip { s.inode ip with lock := true }) := by
  have href := h.ref ip hip
  unfold Disk.ilock
  dsimp only
  rw [if_neg (by omega), h.lock ip hip, if_neg (by decide), if_pos (h.valid ip hip)]

theorem Unlocked.begin_op (h : Unlocked sb I s) : Unlocked sb I { s with log := [] } := by
  obtain ⟨hf, -⟩ : Files sb I { s with log := [] } ∧ ∀ k, ({ s with log := [] } : St).bytes k = s.bytes k :=
    h.toFiles.congr rfl fun _ => ⟨rfl, rfl⟩
  exact ⟨hf, h.ref, h.lock, h.valid⟩

/-- Only the lock of file `ip` differs, and the log. -/
theorem Unlocked.locked (h : Unlocked sb I s) {s0 : St} (hs1 : s1 = s0.setInode ip { s.inode ip with lock := true })
    (h0 : s0.disk = s.disk ∧ s0.inode = s.inode) :
    s1.inode ip = { s.inode ip with lock := true } ∧ (∀ k, k ≠ ip → s1.inode k = s.inode k) ∧ Files sb I s1 ∧ ∀ k,
      s1.bytes k = s.bytes k := by
  have hd : s1.disk = s.disk := by
    rw [hs1]
    exact h0.1
  have hi : s1.inode = Function.update s.inode ip { s.inode ip with lock := true } := by
    rw [hs1, ← h0.2]
    rfl
  refine ⟨?_, fun k hne => ?_, h.toFiles.congr hd (relocked hi)⟩
  · rw [hi, Function.update_self]
  · rw [hi, Function.update_of_ne hne]

/-- Only file `ip` differs, which is locked. -/
theorem Unlocked.iunlock (h : Unlocked sb I s) (hip : ip ∈ I) (hf : Files sb I s')
    (hself : ∃ d, s'.inode ip = { s.inode ip with lock := true, d := d })
    (hother : ∀ k, k ≠ ip → s'.inode k = s.inode k) : ∃ u, Disk.iunlock ip s' = .ok u ∧ Unlocked sb I u ∧ ∀ k,
      u.bytes k = s'.bytes k := by
  obtain ⟨d, hself⟩ := hself
  have href := h.ref ip hip
  have e : Disk.iunlock ip s' = .ok (s'.setInode ip { s'.inode ip with lock := false }) := by
    unfold Disk.iunlock
    refine if_neg fun hno => ?_
    rw [hself] at hno
    exact hno.elim (by simp) (by dsimp only; omega)
  obtain ⟨hfiles, hbytes⟩ : Files sb I (s'.setInode ip { s'.inode ip with lock := false }) ∧
      ∀ k, (s'.setInode ip { s'.inode ip with lock := false }).bytes k = s'.bytes k := hf.congr rfl (relocked rfl)
  refine ⟨_, e, ⟨hfiles, fun k hk => ?_, fun k hk => ?_, fun k hk => ?_⟩, hbytes⟩ <;> by_cases hne : k = ip
  · subst hne
    rw [setInode_self, hself]
    exact href
  · rw [setInode_ne hne, hother k hne]
    exact h.ref k hk
  · subst hne
    rw [setInode_self]
  · rw [setInode_ne hne, hother k hne]
    exact h.lock k hk
  · subst hne
    rw [setInode_self, hself]
    exact h.valid k hk
  · rw [setInode_ne hne, hother k hne]
    exact h.valid k hk

/-! ## fileread -/

theorem stretch_fits (h : 0 < (stretch bs off n).length) : off + (stretch bs off n).length ≤ bs.length := by
  unfold stretch at h ⊢
  split at h
  · rename_i hc
    rw [if_pos hc, List.length_take, List.length_drop]
    omega
  · exact absurd h (Nat.lt_irrefl 0)

theorem Unlocked.fileread (h : Unlocked sb I s) (hip : ip ∈ I) {readable : Bool} (hr : ¬ readable = false)
    (hoff : off < 2 ^ 32) (n : Int) :
    ∃ u, Disk.fileread sb ip readable n off s =
      .ok ((stretch (s.bytes ip) off (u32 (toU64 n))).length, stretch (s.bytes ip) off (u32 (toU64 n)),
        off + (stretch (s.bytes ip) off (u32 (toU64 n))).length, u) ∧ Unlocked sb I u ∧ ∀ k,
          u.bytes k = s.bytes k := by
  obtain ⟨s1, hs1⟩ : ∃ s1, s1 = s.setInode ip { s.inode ip with lock := true } := ⟨_, rfl⟩
  obtain ⟨hself, hother, hf, hbytes⟩ := h.locked hs1 ⟨rfl, rfl⟩
  obtain ⟨u, e3, hu, hub⟩ := h.iunlock hip hf ⟨(s.inode ip).d, hself⟩ hother
  have hread := hf.readi hip hoff (Nat.mod_lt (toU64 n) (by decide) : u32 (toU64 n) < 2 ^ 32)
  rw [hbytes, readBytes_eq _ hoff (Nat.mod_lt (toU64 n) (by decide))] at hread
  have hread : Disk.readi sb ip off (u32 (toU64 n)) _ = .ok (stretch (s.bytes ip) off (u32 (toU64 n)), _) := hread
  have hfits := @stretch_fits off (u32 (toU64 n)) (s.bytes ip)
  generalize stretch (s.bytes ip) off (u32 (toU64 n)) = bs at hread hfits ⊢
  have hsize := h.size ip hip
  have hM : MAXFILE * BSIZE < 2 ^ 32 := by decide
  rw [length_bytes] at hfits
  have hoff' : (if 0 < bs.length then u32 (off + bs.length) else off) = off + bs.length := by
    split
    · exact Nat.mod_eq_of_lt (by omega)
    · omega
  refine ⟨u, ?_, hu, fun k => (hub k).trans (hbytes k)⟩
  unfold Disk.fileread
  rw [if_neg hr, h.ilock hip, ok_bind, ← hs1, hread, ok_bind]
  dsimp only
  rw [e3, ok_bind, hoff']

/-! ## filewrite -/

theorem Source.congr {r : Nat} (h : Source copyin src r n f) (hfg : ∀ j < r, f j = g j) :
    Source copyin src r n g := by
  intro u m hu hm
  rw [h u m hu hm]
  congr 1
  exact List.map_congr_left fun j hj => hfg _ (by have := List.mem_range.mp hj; omega)

theorem length_piece (hi : i + k ≤ bs.length) : ((bs.drop i).take k).length = k := by
  rw [List.length_take, List.length_drop]
  omega

/-- `k` bytes of the source, from the `i`th on. -/
theorem Source.piece (h : Source copyin addr bs.length bs.length fun j => bs.getD j 0) (hi : i + k ≤ bs.length) :
    Source copyin (u64 (addr + i)) ((bs.drop i).take k).length ((bs.drop i).take k).length fun j =>
      ((bs.drop i).take k).getD j 0 := by
  have hmin : min k (bs.length - i) = k := by omega
  have hsub := h.sub (by omega : i ≤ bs.length) hi
  rw [hmin] at hsub
  rw [length_piece hi]
  refine hsub.congr fun j hj => ?_
  rw [List.getD_eq_getElem?_getD, List.getD_eq_getElem?_getD, List.getElem?_take, if_pos hj, List.getElem?_drop]

/-- One piece, between ilock and iunlock. -/
theorem Unlocked.piece (h : Unlocked sb I s) (hl : Layout sb) (hip : ip ∈ I)
    (hc : Source copyin src bs.length bs.length fun j => bs.getD j 0) (hsrc : src < 2 ^ 64)
    (hoff : off < 2 ^ 32) (hn : bs.length < 2 ^ 32) (e1 : Disk.ilock sb ip { s with log := [] } = .ok s1) :
    (Disk.writei sb copyin ip src off bs.length s1 = .error "balloc: out of blocks" ∧
      freeCount sb s < 3 * bs.length) ∨
      ∃ r t u, Disk.writei sb copyin ip src off bs.length s1 = .ok (r, t) ∧ Disk.iunlock ip t = .ok u ∧
        Unlocked sb I u ∧ freeCount sb s ≤ freeCount sb u + 3 * bs.length ∧
        (InBounds (s.bytes ip).length off bs.length ∧ r = bs.length ∧
          (∀ k ∈ I, u.bytes k = Function.update s.bytes ip (overwrite (s.bytes ip) bs off) k) ∨
          ¬ InBounds (s.bytes ip).length off bs.length ∧ r = -1 ∧ ∀ k ∈ I, u.bytes k = s.bytes k) := by
  rw [h.begin_op.ilock hip] at e1
  have e1 := (Except.ok.inj e1).symm
  obtain ⟨hself, hother, hf, hbytes⟩ := h.locked e1 ⟨rfl, rfl⟩
  have hsize : (s1.inode ip).d.size = (s.bytes ip).length := by rw [hself, length_bytes]
  have hfree : freeCount sb s1 = freeCount sb s := freeCount_congr fun c _ => by rw [e1]; rfl
  by_cases hb : InBounds (s.bytes ip).length off bs.length
  · rcases hf.writei hl hip hc hsrc hoff hn (by rw [hsize]; exact hb) with ⟨e, hshort⟩ | ⟨t, e, hft, hstored, hothers,
      htook⟩
    · exact Or.inl ⟨e, by rwa [← hfree]⟩
    obtain ⟨_, -, w⟩ := writei_spec hl (hf.whole ip hip) hf.reserved (hf.inum ip hip) hc hsrc hn hoff
      (Nat.le_refl _) e (Int.natCast_nonneg _)
    have hti : t.inode ip = { s.inode ip with lock := true, d := (t.inode ip).d } := by
      have := congrFun w.inode ip
      rwa [Function.update_self, hself] at this
    obtain ⟨u, e3, hu, hub⟩ := h.iunlock hip hft ⟨_, hti⟩ fun k hne => (hothers.inode k hne).trans (hother k hne)
    have hkeep : freeCount sb u = freeCount sb t := freeCount_congr fun c _ => by rw [iunlock_disk e3]
    refine Or.inr ⟨_, t, u, e, e3, hu, by omega, Or.inl ⟨hb, rfl, fun k hk => ?_⟩⟩
    rw [hub]
    by_cases hne : k = ip
    · subst hne
      rw [Function.update_self, hstored, hbytes]
    · rw [Function.update_of_ne hne, hothers.bytes hk hne, hbytes]
  · have e : Disk.writei sb copyin ip src off bs.length s1 = .ok (-1, s1) :=
      writei_out_of_bounds hoff hn (by rw [hsize]; exact hb)
    obtain ⟨u, e3, hu, hub⟩ := h.iunlock hip hf ⟨(s.inode ip).d, hself⟩ hother
    have hkeep : freeCount sb u = freeCount sb s1 := freeCount_congr fun c _ => by rw [iunlock_disk e3]
    exact Or.inr ⟨-1, s1, u, e, e3, hu, by omega, Or.inr ⟨hb, rfl, fun k _ => (hub k).trans (hbytes k)⟩⟩

/-- Nothing is stored. -/
theorem update_nothing (s : St) (ip off : Nat) (bs : List UInt8) :
    Function.update s.bytes ip (overwrite (s.bytes ip) (bs.take 0) off) = s.bytes := by
  rw [List.take_zero, overwrite_nil, Function.update_eq_self]

theorem filewriteLoop_exact (hl : Layout sb) (hip : ip ∈ I)
    (hc : Source copyin addr bs.length bs.length fun j => bs.getD j 0) (hn : bs.length < 2 ^ 31) :
    ∀ {m i off s}, bs.length - i ≤ m → i ≤ bs.length → off < 2 ^ 32 → Unlocked sb I s →
      (filewriteLoop sb copyin ip addr bs.length m i off s = .error "balloc: out of blocks" ∧
        freeCount sb s < 3 * (bs.length - i)) ∨
        ∃ ops s', filewriteLoop sb copyin ip addr bs.length m i off s =
            .ok (i + stored (s.bytes ip).length off (bs.length - i),
              off + stored (s.bytes ip).length off (bs.length - i), ops, s') ∧ Unlocked sb I s' ∧
          ∀ k ∈ I, s'.bytes k = Function.update s.bytes ip
            (overwrite (s.bytes ip) ((bs.drop i).take (stored (s.bytes ip).length off (bs.length - i))) off) k := by
  intro m
  induction m with
  | zero =>
    intro i off s hm hi hoff h
    rw [show bs.length - i = 0 by omega, stored_zero]
    exact Or.inr ⟨[], s, rfl, h, fun k _ => by rw [update_nothing]⟩
  | succ m ih =>
    intro i off s hm hi hoff h
    unfold filewriteLoop
    split
    · rename_i hlt
      dsimp only
      generalize hk : min (bs.length - i) maxPiece = k
      have hmax : maxPiece = 3072 := rfl
      have hik : i + k ≤ bs.length := by omega
      have e1 := h.begin_op.ilock hip
      have hlen := length_piece hik
      have hpiece := h.piece hl hip (hc.piece hik) (Nat.mod_lt _ (by decide)) hoff (by rw [hlen]; omega) e1
      rw [hlen] at hpiece
      rw [e1, ok_bind]
      rcases hpiece with ⟨e2, hshort⟩ | ⟨r, t, u, e2, e3, hu, htook, ⟨hb, rfl, hbytes⟩ | ⟨hb, rfl, hbytes⟩⟩
      · rw [e2]
        exact Or.inl ⟨rfl, by omega⟩
      · -- the piece is stored
        have hM : MAXFILE * BSIZE < 2 ^ 32 := by decide
        have hfit := hb.2.2
        have hoff' : (if 0 < (k : Int) then u32 (off + (k : Int).toNat) else off) = off + k := by
          rw [Int.toNat_natCast]
          split
          · exact Nat.mod_eq_of_lt (by omega)
          · omega
        have hsize : (u.bytes ip).length = max (s.bytes ip).length (off + k) := by
          rw [hbytes ip hip, Function.update_self, length_overwrite hb.1, hlen]
        rw [e2, ok_bind]
        dsimp only
        rw [e3, ok_bind, hoff', if_neg (fun hne => hne rfl), stored_piece hk hb]
        have hrest := @ih (i + k) (off + k) u (by omega) hik (by omega) hu
        rw [hsize, ← Nat.sub_sub] at hrest
        rcases hrest with ⟨e4, hshort⟩ | ⟨ops, s', e4, hs', hbytes'⟩
        · rw [e4]
          exact Or.inl ⟨rfl, by omega⟩
        rw [e4, ok_bind]
        refine Or.inr ⟨_, s', by rw [Nat.add_assoc, Nat.add_assoc], hs', fun k' hk' => ?_⟩
        rw [hbytes' k' hk']
        by_cases hne : k' = ip
        · subst hne
          have happ := @overwrite_append _ (s.bytes k') off ((bs.drop i).take k)
            ((bs.drop (i + k)).take (stored (max (s.bytes k').length (off + k)) (off + k) (bs.length - i - k))) hb.1
          rw [hlen] at happ
          rw [Function.update_self, Function.update_self, hbytes k' hip, Function.update_self, happ, List.take_add,
            List.drop_drop]
        · rw [Function.update_of_ne hne, Function.update_of_ne hne, hbytes k' hk', Function.update_of_ne hne]
      · -- it is refused
        rw [e2, ok_bind]
        dsimp only
        rw [e3, ok_bind, if_pos (show (-1 : Int) ≠ (k : Int) by omega), if_neg (show ¬ (0 : Int) < -1 by decide),
          stored_refused hk hb]
        exact Or.inr ⟨_, u, rfl, hu, fun k' hk' => by rw [update_nothing, hbytes k' hk']⟩
    · rw [show bs.length - i = 0 by omega, stored_zero]
      exact Or.inr ⟨[], s, rfl, h, fun k _ => by rw [update_nothing]⟩

theorem Unlocked.filewrite (h : Unlocked sb I s) (hl : Layout sb) (hip : ip ∈ I)
    (hc : Source copyin addr bs.length bs.length fun j => bs.getD j 0)
    {writable : Bool} (hw : ¬ writable = false) (hn : bs.length < 2 ^ 31) (hoff : off < 2 ^ 32) :
    (Disk.filewrite sb copyin ip addr writable bs.length off s = .error "balloc: out of blocks" ∧
      freeCount sb s < 3 * bs.length) ∨
      ∃ ops u, Disk.filewrite sb copyin ip addr writable bs.length off s =
          .ok (if stored (s.bytes ip).length off bs.length = bs.length then bs.length else -1,
            off + stored (s.bytes ip).length off bs.length, ops, u) ∧
        Unlocked sb I u ∧ ∀ k ∈ I, u.bytes k = Function.update s.bytes ip
          (overwrite (s.bytes ip) (bs.take (stored (s.bytes ip).length off bs.length)) off) k := by
  have hloop := @filewriteLoop_exact sb I ip addr copyin bs hl hip hc hn bs.length 0 off s (Nat.sub_le ..)
    (Nat.zero_le _) hoff h
  rw [Nat.sub_zero, Nat.zero_add, List.drop_zero] at hloop
  unfold Disk.filewrite
  rw [if_neg hw, Int.toNat_natCast]
  rcases hloop with ⟨e, hshort⟩ | ⟨ops, u, e, hu, hbytes⟩
  · rw [e]
    exact Or.inl ⟨rfl, hshort⟩
  · rw [e, ok_bind]
    refine Or.inr ⟨ops, u, ?_, hu, hbytes⟩
    dsimp only
    congr 2
    exact if_congr Int.ofNat_inj rfl rfl

/-! ## itrunc -/

theorem itrunc_double (hw : Whole sb s.disk (s.inode ip).d) (h12 : (s.inode ip).d.addrs 12 ≠ 0) :
    itrunc sb ip s = .error "kerneltrap" := by
  have hstart : Addrs ip s s (s.inode ip).d.addrs := (Function.update_eq_self ip s.inode).symm
  obtain ⟨s1, a1, e1, ha1, h1, hv1⟩ := truncDirect_spec hw NDIRECT 0 s _ _ (Nat.zero_add _) (Freed.start s) hstart
    (fun _ _ => rfl) fun _ _ hf => hf
  have h1' := h1.congr (G := direct 0) fun p _ => ⟨fun hp => hp.resolve_left id, Or.inr⟩
  obtain ⟨s2, a2, e2, ha2, -, rfl⟩ := truncIndirect_spec hw h1' ha1 (hv1 11)
  have h12' : (s2.inode ip).d.addrs 12 ≠ 0 := by
    rw [ha2.at]
    dsimp only
    rw [Function.update_of_ne (by decide), hv1 12]
    exact h12
  unfold itrunc
  rw [e1, ok_bind, e2, ok_bind, truncIndirect2_faults h12']
  rfl

/-- What the file had is free, and the other files are as they were. -/
theorem Released.files (r : Released sb ip s s') (h : Files sb I s) (hl : Layout sb) (hip : ip ∈ I) :
    Files sb I s' ∧ ∀ k ∈ I, s'.bytes k = Function.update s.bytes ip [] k := by
  have hself : s'.inode ip = { s.inode ip with d := { (s.inode ip).d with size := 0, addrs := fun _ => 0 } } := by
    rw [r.inode, Function.update_self]
  have hother : ∀ k, k ≠ ip → s'.inode k = s.inode k := fun k hne => by rw [r.inode, Function.update_of_ne hne]
  have hblock : ∀ c o, dataStart sb ≤ c → s'.disk (c * BSIZE + o) = s.disk (c * BSIZE + o) := fun c o hc => by
    have hbound := dinode_bound hl (h.inum ip hip)
    have hle : sb.bmapstart * BSIZE ≤ dataStart sb * BSIZE :=
      Nat.mul_le_mul_right _ (Nat.le_succ_of_le (Nat.le_add_left ..))
    have hdata : dataStart sb * BSIZE ≤ c * BSIZE + o :=
      Nat.le_trans (Nat.mul_le_mul_right BSIZE hc) (Nat.le_add_right _ _)
    exact r.rest (c * BSIZE + o) (Or.inr hdata) (Or.inr (Nat.le_trans hbound (Nat.le_trans hle hdata)))
  have hslots : ∀ k ∈ I, k ≠ ip → ∀ q, s'.at k q = s.at k q := fun k hk hne q =>
    at_congr s s' (by rw [hother k hne]) (fun p _ h0 o _ => hblock _ o ((h.whole k hk).data p h0).1) q
  have hnone : ∀ q, s'.at ip q = 0 := fun q => by
    unfold St.at
    rw [hself, at_single fun _ _ => rfl]
    split <;> rfl
  have hinum : ∀ k, (s'.inode k).inum = (s.inode k).inum := fun k => by
    by_cases hne : k = ip
    · rw [hne, hself]
    · rw [hother k hne]
  refine ⟨⟨fun c hc => (r.bits c).mpr ⟨h.reserved c hc, fun ho => ?_⟩, fun k hk => ?_, fun k hk k' hk' => ?_,
    fun k hk => ?_, fun k hk => ?_, fun k hk x hx => ?_,
    fun k hk k' hk' hne p q h0 => ?_⟩, fun k hk => ?_⟩
  · obtain ⟨h0, p, hp⟩ := ho
    have hp : s.at ip p = c := hp
    have hdata := ((h.whole ip hip).data p (by rw [← hp] at h0; exact h0)).1
    have hdata : dataStart sb ≤ s.at ip p := hdata
    omega
  · rw [hinum]
    exact h.inum k hk
  · rw [hinum, hinum]
    exact h.one k hk k' hk'
  · by_cases hne : k = ip
    · rw [hne, hself]
      exact Nat.zero_le _
    · rw [hother k hne]
      exact h.size k hk
  · by_cases hne : k = ip
    · rw [hne]
      exact ⟨fun p h0 => absurd (hnone p) h0, fun p _ h0 => absurd (hnone p) h0⟩
    · have hd := hslots k hk hne
      unfold St.at at hd
      refine ⟨fun p hp => ?_, fun p q hp e => ?_⟩
      · rw [hd] at hp ⊢
        obtain ⟨h1, h2, h3⟩ := (h.whole k hk).data p hp
        refine ⟨h1, h2, (r.bits _).mpr ⟨h3, fun ho => ?_⟩⟩
        obtain ⟨-, q, hq⟩ := ho
        exact h.apart k hk ip hip hne p q hp hq.symm
      · rw [hd] at hp e
        rw [hd] at e
        exact (h.whole k hk).apart p q hp e
  · by_cases hne : k = ip
    · rw [hne, hself] at hx
      exact absurd hx (Nat.not_lt_zero x)
    · rw [hother k hne] at hx
      rw [hslots k hk hne]
      exact h.mapped k hk x hx
  · by_cases e1 : k = ip
    · subst e1
      exact absurd (hnone p) h0
    · rw [hslots k hk e1] at h0 ⊢
      by_cases e2 : k' = ip
      · subst e2
        rw [hnone]
        exact h0
      · rw [hslots k' hk' e2]
        exact h.apart k hk k' hk' hne p q h0
  · by_cases hne : k = ip
    · rw [hne, Function.update_self]
      exact List.length_eq_zero_iff.mp (by rw [length_bytes, hself])
    · rw [Function.update_of_ne hne]
      unfold St.bytes
      rw [hother k hne]
      refine List.map_congr_left fun x _ => ?_
      unfold St.byte
      rw [hslots k hk hne]
      split
      · rfl
      · rename_i h0
        exact hblock _ _ ((h.whole k hk).data _ h0).1

theorem Unlocked.truncate (h : Unlocked sb I s) (hl : Layout sb) (hip : ip ∈ I) :
    (Disk.truncate sb ip s = .error "kerneltrap" ∧ (s.inode ip).d.addrs 12 ≠ 0) ∨
    ∃ u, Disk.truncate sb ip s = .ok u ∧ Unlocked sb I u ∧ ∀ k ∈ I, u.bytes k = Function.update s.bytes ip [] k := by
  unfold Disk.truncate
  rw [h.begin_op.ilock hip, ok_bind]
  obtain ⟨s1, hs1⟩ : ∃ s1, s1 = ({ s with log := [] } : St).setInode ip { s.inode ip with lock := true } := ⟨_, rfl⟩
  rw [← hs1]
  obtain ⟨hself, hother, hf, hbytes⟩ := h.locked hs1 ⟨rfl, rfl⟩
  by_cases h12 : (s1.inode ip).d.addrs 12 = 0
  · obtain ⟨t, e, r⟩ := itrunc_spec hl (hf.whole ip hip) (hf.inum ip hip) h12
    obtain ⟨hft, hcut⟩ := r.files hf hl hip
    have hti : t.inode ip = { s.inode ip with lock := true, d := (t.inode ip).d } := by
      rw [r.inode, Function.update_self, hself]
    obtain ⟨u, e3, hu, hub⟩ := h.iunlock hip hft ⟨_, hti⟩ fun k hne => by
      rw [r.inode, Function.update_of_ne hne, hother k hne]
    refine Or.inr ⟨u, by rw [e, ok_bind, e3], hu, fun k hk => ?_⟩
    rw [hub, hcut k hk]
    by_cases hne : k = ip
    · rw [hne, Function.update_self, Function.update_self]
    · rw [Function.update_of_ne hne, Function.update_of_ne hne, hbytes]
  · refine Or.inl ⟨by rw [itrunc_double (hf.whole ip hip) h12]; rfl, ?_⟩
    rw [hself] at h12
    exact h12

/-! ## Sequences of calls -/

/-- Entries of the set are open files. -/
def Opened (F I : Set Nat) (t : Nat → OpenFile) : Prop := ∀ f ∈ F, (t f).ip ∈ I ∧ (t f).off < 2 ^ 32

variable {t : Nat → OpenFile} {files : Nat → List UInt8}

theorem Opened.move (h : Opened F I t) {p : Nat} (hp : p ∈ F) (hoff : off < 2 ^ 32) :
    Opened F I (Function.update t p { t p with off := off }) := by
  intro q hq
  by_cases e : q = p
  · subst e
    rw [Function.update_self]
    exact ⟨(h q hq).1, hoff⟩
  · rw [Function.update_of_ne e]
    exact h q hq

theorem Unlocked.call (h : Unlocked sb I s) (hl : Layout sb) (ht : Opened F I t) {c : OpenCall} (hc : c.Allowed F)
    (hf : ∀ k ∈ I, s.bytes k = files k) :
    (∃ m, c.run sb t s = .error m ∧ c.Fails sb t s m) ∨
      ∃ u, c.run sb t s = .ok ((c.apply t files).1, (c.apply t files).2.1, u) ∧ Unlocked sb I u ∧
        Opened F I (c.apply t files).2.1 ∧
        ∀ k ∈ I, u.bytes k = (c.apply t files).2.2 k := by
  have hM : MAXFILE * BSIZE < 2 ^ 32 := by decide
  cases c with
  | trunc p =>
    have hp : p ∈ F := hc
    obtain ⟨hip, -⟩ := ht p hp
    unfold OpenCall.run OpenCall.apply
    dsimp only
    rcases h.truncate hl hip with ⟨e, h12⟩ | ⟨u, e, hu, hbytes⟩
    · exact Or.inl ⟨_, by rw [e]; rfl, rfl, h12⟩
    refine Or.inr ⟨u, by rw [e]; rfl, hu, ht, fun k hk => (hbytes k hk).trans ?_⟩
    by_cases hne : k = (t p).ip
    · rw [hne, Function.update_self, Function.update_self]
    · rw [Function.update_of_ne hne, Function.update_of_ne hne, hf k hk]
  | fileread p n =>
    have hp : p ∈ F := hc
    obtain ⟨hip, hoff⟩ := ht p hp
    unfold OpenCall.run OpenCall.apply
    dsimp only
    by_cases hr : (t p).readable = false
    · unfold Disk.fileread
      rw [if_pos hr, if_pos hr, ok_bind]
      dsimp only
      exact Or.inr ⟨s, by rw [Function.update_eq_self], h, ht, hf⟩
    · obtain ⟨u, e, hu, hbytes⟩ := h.fileread hip hr hoff n
      have hfits := @stretch_fits (t p).off (u32 (toU64 n)) (s.bytes (t p).ip)
      have hsize := h.size _ hip
      rw [hf _ hip] at e hfits
      rw [← length_bytes s, hf _ hip] at hsize
      rw [e, if_neg hr, ok_bind]
      exact Or.inr ⟨u, rfl, hu, ht.move hp (by omega), fun k hk => (hbytes k).trans (hf k hk)⟩
  | filewrite copyin p addr bs =>
    obtain ⟨hp, hn, hsrc⟩ := hc
    obtain ⟨hip, hoff⟩ := ht p hp
    unfold OpenCall.run OpenCall.apply
    dsimp only
    by_cases hw : (t p).writable = false
    · unfold Disk.filewrite
      rw [if_pos hw, if_pos hw, ok_bind]
      dsimp only
      exact Or.inr ⟨s, by rw [Function.update_eq_self], h, ht, hf⟩
    · have hsize := h.size _ hip
      rw [← length_bytes s, hf _ hip] at hsize
      obtain ⟨hle, hfits⟩ := @stored_le (t p).off bs.length (files (t p).ip).length hsize
      have hwrite := h.filewrite hl hip hsrc hw hn hoff
      rw [hf _ hip] at hwrite
      rw [if_neg hw]
      rcases hwrite with ⟨e, hshort⟩ | ⟨ops, u, e, hu, hbytes⟩
      · exact Or.inl ⟨_, by rw [e]; rfl, rfl, hshort⟩
      rw [e, ok_bind]
      refine Or.inr ⟨u, rfl, hu, ht.move hp (by omega), fun k hk => (hbytes k hk).trans ?_⟩
      dsimp only
      by_cases hne : k = (t p).ip
      · rw [hne, Function.update_self, Function.update_self]
      · rw [Function.update_of_ne hne, Function.update_of_ne hne, hf k hk]

/-- A call of the run fails; those before it returned what they would on byte arrays. -/
def Breaks (sb : Superblock) (I : Set Nat) (calls : List OpenCall) (t : Nat → OpenFile) (files : Nat → List UInt8)
    (s : St) : Prop :=
  ∃ done c rest s1 m, calls = done ++ c :: rest ∧
    runOpen sb done t s = .ok ((applyOpen done t files).1, (applyOpen done t files).2.1, s1) ∧
    (∀ k ∈ I, s1.bytes k = (applyOpen done t files).2.2 k) ∧ c.run sb (applyOpen done t files).2.1 s1 = .error m ∧
      runOpen sb calls t s = .error m ∧
    c.Fails sb (applyOpen done t files).2.1 s1 m

/-- fileread, filewrite and truncating opens, by any entries of the file table, return what they would
    on byte arrays; these are left in the files and their offsets in the entries. A write fails only
    when there are not three free blocks for each byte, a truncation only when the file has a
    doubly-indirect block, and a read not at all. -/
theorem open_files_are_byte_arrays (hl : Layout sb) :
    ∀ {calls : List OpenCall} {t : Nat → OpenFile} {s : St} {files : Nat → List UInt8}, Unlocked sb I s →
    Opened F I t → (∀ c ∈ calls, c.Allowed F) → (∀ k ∈ I, s.bytes k = files k) → Breaks sb I calls t files s ∨
      ∃ s', runOpen sb calls t s = .ok ((applyOpen calls t files).1, (applyOpen calls t files).2.1, s') ∧
        Unlocked sb I s' ∧
        ∀ k ∈ I, s'.bytes k = (applyOpen calls t files).2.2 k := by
  intro calls
  induction calls with
  | nil => exact fun h _ _ hf => Or.inr ⟨_, rfl, h, hf⟩
  | cons c cs ih =>
    intro t s files h ht hc hf
    obtain ⟨h0, hc⟩ := List.forall_mem_cons.mp hc
    rcases h.call hl ht h0 hf with ⟨m, e, hm⟩ | ⟨s1, e, h1, ht1, hf1⟩
    · exact Or.inl ⟨[], c, cs, s, m, rfl, rfl, hf, e, by unfold runOpen; rw [e]; rfl, hm⟩
    rcases ih h1 ht1 hc hf1 with ⟨done, d, rest, s2, m, rfl, e2, hf2, e3, e4, hm⟩ | ⟨s2, e2, h2, hf2⟩
    · refine Or.inl ⟨c :: done, d, rest, s2, m, rfl, ?_, hf2, e3, ?_, hm⟩
      · unfold runOpen
        rw [e, ok_bind]
        dsimp only
        rw [e2]
        rfl
      · unfold runOpen
        rw [e, ok_bind]
        dsimp only
        rw [e4]
        rfl
    · unfold runOpen applyOpen
      rw [e, ok_bind]
      dsimp only
      exact Or.inr ⟨s2, by rw [e2]; rfl, h2, hf2⟩

end

/-- The two files, with nobody at them. -/
def twoOpen : St := ⟨twoFiles.disk, [], fun k => { twoFiles.inode k with lock := false }⟩

/-- Two entries for file 0, and one for file 1 that cannot be written. -/
def threeEntries (f : Nat) : OpenFile := if f < 2 then ⟨0, true, true, 0⟩ else ⟨1, true, false, 0⟩

/-- What the first entry wrote the second one reads, and writes on behind it. After the truncation its
    offset is behind the end, and a write is refused. -/
def someCalls : List OpenCall :=
  [.filewrite (kernelBytes [1, 2, 3]) 0 0 [1, 2, 3], .fileread 1 5, .filewrite (kernelBytes [9]) 1 0 [9],
    .fileread 0 5, .filewrite (kernelBytes [7]) 2 0 [7],
    .trunc 0, .filewrite (kernelBytes [8]) 1 0 [8]]

theorem open_files_are_byte_arrays_shared : ∃ t s', runOpen smallDisk someCalls threeEntries twoOpen =
      .ok ([(3, []), (3, [1, 2, 3]), (1, []), (1, [9]), (-1, []), (0, []), (-1, [])], t, s') ∧ (t 0).off = 4 ∧
        (t 1).off = 4 ∧ s'.bytes 0 = [] ∧ s'.bytes 1 = [] := by
  obtain ⟨hfiles, -⟩ : Files smallDisk {k | k < 2} twoOpen ∧ ∀ k, twoOpen.bytes k = twoFiles.bytes k :=
    twoFiles_blank.files.congr rfl fun _ => ⟨rfl, rfl⟩
  have hopen : Unlocked smallDisk {k | k < 2} twoOpen :=
    ⟨hfiles, fun _ _ => Int.zero_lt_one, fun _ _ => rfl, fun _ _ => rfl⟩
  have hentries : Opened {f | f < 3} {k | k < 2} threeEntries := fun f _ => by
    unfold threeEntries
    split <;> decide
  have hsource : ∀ bs : List UInt8, bs.length < 2 ^ 64 → Source (kernelBytes bs) 0 bs.length bs.length fun i =>
    bs.getD i 0 := fun bs h => kernelBytes_source h rfl
  have hwrite : ∀ f bs, f < 3 → bs.length < 2 ^ 31 →
    (OpenCall.filewrite (kernelBytes bs) f 0 bs).Allowed {f | f < 3} := fun f bs hf hn =>
    ⟨hf, hn, hsource bs (Nat.lt_trans hn (by decide))⟩
  have hallowed : ∀ c ∈ someCalls, c.Allowed {f | f < 3} := by
    intro c hc
    simp only [someCalls, List.mem_cons, List.not_mem_nil, or_false] at hc
    rcases hc with rfl | rfl | rfl | rfl | rfl | rfl | rfl
    · exact hwrite 0 [1, 2, 3] (by decide) (by decide)
    · exact (by decide : 1 < 3)
    · exact hwrite 1 [9] (by decide) (by decide)
    · exact (by decide : 0 < 3)
    · exact hwrite 2 [7] (by decide) (by decide)
    · exact (by decide : 0 < 3)
    · exact hwrite 1 [8] (by decide) (by decide)
  have hrun : (runOpen smallDisk someCalls threeEntries twoOpen).toBool = true := by decide +kernel
  have hempty : ∀ k ∈ {k | k < 2}, twoOpen.bytes k = (fun _ => []) k := fun _ _ => rfl
  rcases open_files_are_byte_arrays smallDisk_layout hopen hentries hallowed hempty with ⟨-, -, -, -, m, -, -, -, -,
    e, -⟩ | ⟨s', e, -, hbytes⟩
  · rw [e] at hrun
    cases hrun
  · exact ⟨_, s', e, by decide, by decide, hbytes 0 (by decide), hbytes 1 (by decide)⟩

end Xv6Labs.Fs.Disk
