/-
  Xv6Labs.Fs.Code — blocks and inodes: fs.c of the filesystem lab.

  `disk` is what bread returns, so what is stored in a buffer is on it at once; `log` are the
  blocks passed to log_write, the last one first. There is one disk. A fault in the kernel is
  the panic "kerneltrap", and acquiresleep of a lock that is held is "sleep": one process runs
  at a time. What either_copyin copies is a parameter of writei: for a number of bytes and
  an address its result and the bytes that it moved. readi copies to the kernel.
-/

import Xv6Labs.Lib.Bytes
import Xv6Labs.Lib.Word
import Mathlib.Logic.Function.Basic

namespace Xv6Labs.Fs.Disk

open Lib

abbrev BSIZE : Nat := 1024
abbrev NDIRECT : Nat := 11
abbrev NINDIRECT : Nat := 256
abbrev NINDIRECT2 : Nat := NINDIRECT * NINDIRECT
abbrev MAXFILE : Nat := NDIRECT + NINDIRECT + NINDIRECT2
abbrev IPB : Nat := 16
abbrev BPB : Nat := 8192
abbrev NINODE : Nat := 50
abbrev ROOTDEV : Nat := 1
abbrev ROOTINO : Nat := 1

abbrev T_DIR : UInt16 := 1
abbrev T_FILE : UInt16 := 2
abbrev T_DEVICE : UInt16 := 3
abbrev T_SYMLINK : UInt16 := 4

instance (priority := high) : NeZero (NDIRECT + 2) := ⟨by decide⟩

/-- `struct superblock`, as far as fs.c reads it. -/
structure Superblock where
  size : Nat
  ninodes : Nat
  inodestart : Nat
  bmapstart : Nat

/-- `struct dinode`; a short is its 16 bits. -/
structure Dinode where
  type : UInt16
  major : UInt16
  minor : UInt16
  nlink : UInt16
  size : Nat
  addrs : Fin (NDIRECT + 2) → Nat

/-- `struct inode`; `d` is the copy of the disk inode. -/
structure Inode where
  dev : Nat
  inum : Nat
  ref : Int
  lock : Bool
  valid : Bool
  d : Dinode

structure St where
  disk : Mem
  log : List Nat
  inode : Nat → Inode

def St.log_write (b : Nat) (s : St) : St := { s with log := b :: s.log }

def St.setInode (ip : Nat) (x : Inode) (s : St) : St := { s with inode := Function.update s.inode ip x }

def St.setD (ip : Nat) (d : Dinode) (s : St) : St := s.setInode ip { s.inode ip with d := d }

/-- The word at index `j` of the block. -/
def word (disk : Mem) (b j : Nat) : Nat := disk.loadLE (b * BSIZE + 4 * j) 4

variable (sb : Superblock)

def IBLOCK (i : Nat) : Nat := i / IPB + sb.inodestart

def BBLOCK (b : Nat) : Nat := b / BPB + sb.bmapstart

/-! ## Blocks -/

def bzero (b : Nat) (s : St) : St := { s with disk := s.disk.set (b * BSIZE) 0 BSIZE }.log_write b

/-- `data[bi/8] & m`, of block `blk`. -/
def bit (disk : Mem) (blk bi : Nat) : Bool := (disk (blk * BSIZE + bi / 8)).toNat.testBit (bi % 8)

/-- `data[bi/8] |= m` -/
def setBit (disk : Mem) (blk bi : Nat) : Mem :=
  Function.update disk (blk * BSIZE + bi / 8) (UInt8.ofNat ((disk (blk * BSIZE + bi / 8)).toNat ||| 2 ^ (bi % 8)))

/-- `data[bi/8] &= ~m` -/
def clearBit (disk : Mem) (blk bi : Nat) : Mem :=
  Function.update disk (blk * BSIZE + bi / 8) (UInt8.ofNat (clear (disk (blk * BSIZE + bi / 8)).toNat (2 ^ (bi % 8))))

/-- The inner loop of balloc, with the rounds left. -/
def ballocBits (disk : Mem) (b : Nat) : Nat → Nat → Option Nat
  | 0, _ => none
  | n + 1, bi =>
    if b + bi < sb.size then
      if bit disk (BBLOCK sb b) bi = false then some (b + bi) else ballocBits disk b n (bi + 1)
    else none

/-- The outer loop. -/
def ballocLoop (disk : Mem) : Nat → Nat → Option Nat
  | 0, _ => none
  | n + 1, b =>
    if b < sb.size then
      match ballocBits sb disk b BPB 0 with
      | some r => some r
      | none => ballocLoop disk n (b + BPB)
    else none

def balloc (s : St) : Except String (Nat × St) :=
  match ballocLoop sb s.disk (sb.size / BPB + 1) 0 with
  | none => .error "balloc: out of blocks"
  | some b => .ok (b, bzero b (St.log_write (BBLOCK sb b) { s with disk := setBit s.disk (BBLOCK sb b) (b % BPB) }))

def bfree (b : Nat) (s : St) : Except String St :=
  if bit s.disk (BBLOCK sb b) (b % BPB) = false then .error "freeing free block"
  else .ok (St.log_write (BBLOCK sb b) { s with disk := clearBit s.disk (BBLOCK sb b) (b % BPB) })

/-! ## Inodes -/

/-- Where the dinode lies. -/
def dinode (inum : Nat) : Nat := IBLOCK sb inum * BSIZE + inum % IPB * 64

def loadDinode (disk : Mem) (a : Nat) : Dinode :=
  ⟨UInt16.ofNat (disk.loadLE a 2), UInt16.ofNat (disk.loadLE (a + 2) 2), UInt16.ofNat (disk.loadLE (a + 4) 2),
    UInt16.ofNat (disk.loadLE (a + 6) 2),
    disk.loadLE (a + 8) 4, fun i => disk.loadLE (a + 12 + 4 * i) 4⟩

def storeDinode (disk : Mem) (a : Nat) (d : Dinode) : Mem :=
  ((((((disk.storeLE a 2 d.type.toNat).storeLE (a + 2) 2 d.major.toNat).storeLE (a + 4) 2 d.minor.toNat).storeLE
    (a + 6) 2 d.nlink.toNat).storeLE (a + 8) 4 d.size).storeWords (a + 12) 13
    fun i => if h : i < NDIRECT + 2 then d.addrs ⟨i, h⟩ else 0)

def iupdate (ip : Nat) (s : St) : St :=
  St.log_write (IBLOCK sb (s.inode ip).inum)
    { s with disk := storeDinode s.disk (dinode sb (s.inode ip).inum) (s.inode ip).d }

/-- The loop of iget, with the rounds left, the slot and the empty slot seen. -/
def igetLoop (t : Nat → Inode) (dev inum : Nat) : Nat → Nat → Option Nat → Option (Nat × Inode)
  | 0, _, none => none
  | 0, _, some e => some (e, { t e with dev := dev, inum := inum, ref := 1, valid := false })
  | n + 1, k, empty =>
    if 0 < (t k).ref ∧ (t k).dev = dev ∧ (t k).inum = inum then some (k, { t k with ref := (t k).ref + 1 })
    else igetLoop t dev inum n (k + 1) (if empty = none ∧ (t k).ref = 0 then some k else empty)

def iget (dev inum : Nat) (s : St) : Except String (Nat × St) :=
  match igetLoop s.inode dev inum NINODE 0 none with
  | none => .error "iget: no inodes"
  | some (k, x) => .ok (k, s.setInode k x)

def idup (ip : Nat) (s : St) : St := s.setInode ip { s.inode ip with ref := (s.inode ip).ref + 1 }

/-- With the rounds left and the number. -/
def iallocLoop (disk : Mem) : Nat → Nat → Option Nat
  | 0, _ => none
  | n + 1, inum =>
    if inum < sb.ninodes then
      if (loadDinode disk (dinode sb inum)).type = 0 then some inum else iallocLoop disk n (inum + 1)
    else none

def ialloc (dev : Nat) (type : UInt16) (s : St) : Except String (Nat × St) :=
  match iallocLoop sb s.disk sb.ninodes 1 with
  | none => .error "ialloc: no inodes"
  | some inum =>
    iget dev inum (St.log_write (IBLOCK sb inum)
      { s with disk := (s.disk.set (dinode sb inum) 0 64).storeLE (dinode sb inum) 2 type.toNat })

def ilock (ip : Nat) (s : St) : Except String St :=
  let x := s.inode ip
  if x.ref < 1 then .error "ilock"
  else if x.lock then .error "sleep"
  else if x.valid then .ok (s.setInode ip { x with lock := true })
  else if (loadDinode s.disk (dinode sb x.inum)).type = 0 then .error "ilock: no type"
  else .ok (s.setInode ip { x with lock := true, valid := true, d := loadDinode s.disk (dinode sb x.inum) })

def iunlock (ip : Nat) (s : St) : Except String St :=
  let x := s.inode ip
  if x.lock = false ∨ x.ref < 1 then .error "iunlock" else .ok (s.setInode ip { x with lock := false })

/-! ## Inode content -/

/-- `addrs[i]`, with a new block if there is none. -/
def addrOf (ip : Nat) (i : Fin (NDIRECT + 2)) (s : St) : Except String (Nat × St) :=
  if (s.inode ip).d.addrs i = 0 then do
    let (addr, s) ← balloc sb s
    .ok (addr, s.setD ip { (s.inode ip).d with addrs := Function.update (s.inode ip).d.addrs i addr })
  else .ok ((s.inode ip).d.addrs i, s)

/-- `a[j]` of an index block, with a new block if there is none. -/
def entryOf (b j : Nat) (s : St) : Except String (Nat × St) :=
  if word s.disk b j = 0 then do
    let (addr, s) ← balloc sb s
    .ok (addr, St.log_write b { s with disk := s.disk.storeLE (b * BSIZE + 4 * j) 4 addr })
  else .ok (word s.disk b j, s)

def bmap (ip bn : Nat) (s : St) : Except String (Nat × St) :=
  if h : bn < NDIRECT then addrOf sb ip ⟨bn, by omega⟩ s
  else
    let bn := bn - NDIRECT
    if bn < NINDIRECT then do
      let (addr, s) ← addrOf sb ip 11 s
      entryOf sb addr bn s
    else
      let bn := bn - NINDIRECT
      if bn < NINDIRECT2 then do
        let (addr, s) ← addrOf sb ip 12 s
        let (addr, s) ← entryOf sb addr (bn / NINDIRECT) s
        entryOf sb addr (bn % NINDIRECT) s
      else .error "bmap: out of range"

/-- The loop of itrunc over `addrs[0..NDIRECT)`, with the rounds left. -/
def truncDirect (ip : Nat) : Nat → Nat → St → Except String St
  | 0, _, s => .ok s
  | n + 1, i, s =>
    if h : i < NDIRECT then
      if (s.inode ip).d.addrs ⟨i, by omega⟩ = 0 then truncDirect ip n (i + 1) s
      else do
        let s ← bfree sb ((s.inode ip).d.addrs ⟨i, by omega⟩) s
        truncDirect ip n (i + 1)
          (s.setD ip { (s.inode ip).d with addrs := Function.update (s.inode ip).d.addrs ⟨i, by omega⟩ 0 })
    else .ok s

/-- The loop over the entries of an index block, with the rounds left. -/
def truncEntries (b : Nat) : Nat → Nat → St → Except String St
  | 0, _, s => .ok s
  | n + 1, j, s =>
    if word s.disk b j = 0 then truncEntries b n (j + 1) s
    else do
      let s ← bfree sb (word s.disk b j) s
      truncEntries b n (j + 1) s

/-- The loop over the doubly-indirect block `bp`: `a` is the block whose data `a` points to, if
    it points to any, and `a2` points to the data of `bp`. -/
def truncDouble (bp : Nat) (a : Option Nat) : Nat → Nat → St → Except String St
  | 0, _, s => .ok s
  | n + 1, j, s =>
    match a with
    | none => .error "kerneltrap"
    | some b =>
      if word s.disk b j = 0 then truncDouble bp a n (j + 1) s
      else do
        let s ← truncEntries sb bp NINDIRECT 0 s
        let s ← bfree sb (word s.disk b j) s
        truncDouble bp a n (j + 1) s

def clearAddr (ip : Nat) (i : Fin (NDIRECT + 2)) (s : St) : St :=
  s.setD ip { (s.inode ip).d with addrs := Function.update (s.inode ip).d.addrs i 0 }

/-- What itrunc does for `addrs[NDIRECT]`. -/
def truncIndirect (ip : Nat) (s : St) : Except String St :=
  let b := (s.inode ip).d.addrs 11
  if b = 0 then .ok s
  else do
    let s ← truncEntries sb b NINDIRECT 0 s
    let s ← bfree sb b s
    .ok (clearAddr ip 11 s)

/-- What it does for `addrs[NDIRECT+1]`: `a` is taken from `bi`, which is 0. -/
def truncIndirect2 (ip : Nat) (s : St) : Except String St :=
  let b := (s.inode ip).d.addrs 12
  if b = 0 then .ok s
  else do
    let s ← truncDouble sb b none NINDIRECT 0 s
    let s ← bfree sb b s
    .ok (clearAddr ip 12 s)

def itrunc (ip : Nat) (s : St) : Except String St := do
  let s ← truncDirect sb ip NDIRECT 0 s
  let s ← truncIndirect sb ip s
  let s ← truncIndirect2 sb ip s
  .ok (iupdate sb ip (s.setD ip { (s.inode ip).d with size := 0 }))

/-- What iput does with the last reference to an inode without links. -/
def ifree (ip : Nat) (s : St) : Except String St :=
  if (s.inode ip).lock then .error "sleep"
  else do
    let s ← itrunc sb ip (s.setInode ip { s.inode ip with lock := true })
    let s := iupdate sb ip (s.setD ip { (s.inode ip).d with type := 0 })
    .ok (s.setInode ip { s.inode ip with valid := false, lock := false })

def iput (ip : Nat) (s : St) : Except String St := do
  let s ← (if (s.inode ip).ref = 1 ∧ (s.inode ip).valid = true ∧ (s.inode ip).d.nlink = 0 then ifree sb ip s
    else .ok s)
  .ok (s.setInode ip { s.inode ip with ref := (s.inode ip).ref - 1 })

def iunlockput (ip : Nat) (s : St) : Except String St := do
  let s ← iunlock ip s
  iput sb ip s

/-- The loop of readi, with the rounds left, `off` and the bytes left. -/
def readiLoop (ip : Nat) : Nat → Nat → Nat → St → Except String (List UInt8 × St)
  | 0, _, _, s => .ok ([], s)
  | r + 1, off, n, s =>
    if n = 0 then .ok ([], s)
    else do
      let (b, s) ← bmap sb ip (off / BSIZE) s
      let m := min n (BSIZE - off % BSIZE)
      let (bs, s') ← readiLoop ip r (off + m) (n - m) s
      .ok ((List.range m).map (fun i => s.disk (b * BSIZE + off % BSIZE + i)) ++ bs, s')

def readi (ip off n : Nat) (s : St) : Except String (List UInt8 × St) :=
  let size := (s.inode ip).d.size
  if off > size ∨ u32 (off + n) < off then .ok ([], s)
  else
    let n := if u32 (off + n) > size then size - off else n
    readiLoop sb ip n off n s

/-- The same of a file that is a list of bytes. -/
def readBytes (bs : List UInt8) (off n : Nat) : List UInt8 :=
  if off > bs.length ∨ u32 (off + n) < off then [] else (bs.drop off).take n

theorem readBytes_length (bs : List UInt8) (off n : Nat) : (readBytes bs off n).length ≤ n := by
  unfold readBytes
  split
  · exact Nat.zero_le n
  · exact List.length_take_le n _

/-- The loop of writei, with the rounds left, the address, `off` and the bytes left; it returns
    how many bytes it wrote. -/
def writeiLoop (copyin : Nat → Nat → Int × List UInt8) (ip : Nat) : Nat → Nat → Nat → Nat → St →
    Except String (Nat × St)
  | 0, _, _, _, s => .ok (0, s)
  | r + 1, src, off, n, s =>
    if n = 0 then .ok (0, s)
    else do
      let (b, s) ← bmap sb ip (off / BSIZE) s
      let m := min n (BSIZE - off % BSIZE)
      let s := { s with disk := s.disk.put (b * BSIZE + off % BSIZE) (copyin src m).2 }
      if (copyin src m).1 = -1 then .ok (0, s)
      else do
        let (tot, s) ← writeiLoop copyin ip r (u64 (src + m)) (off + m) (n - m) (s.log_write b)
        .ok (m + tot, s)

def writei (copyin : Nat → Nat → Int × List UInt8) (ip src off n : Nat) (s : St) : Except String (Int × St) :=
  if off > (s.inode ip).d.size ∨ u32 (off + n) < off then .ok (-1, s)
  else if u32 (off + n) > MAXFILE * BSIZE then .ok (-1, s)
  else do
    let (tot, s) ← writeiLoop sb copyin ip n src off n s
    let s := if off + tot > (s.inode ip).d.size then s.setD ip { (s.inode ip).d with size := off + tot } else s
    .ok (tot, iupdate sb ip s)

end Xv6Labs.Fs.Disk
