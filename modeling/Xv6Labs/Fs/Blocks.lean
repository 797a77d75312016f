/-
  Xv6Labs.Fs.Blocks — the free bitmap, the dinodes and the blocks of an inode.

  A `Slot` is a place for a block number: an entry of addrs, of the indirect block, of the
  doubly-indirect block, or of a block that one names. `Whole`: the numbers in the slots of an
  inode are distinct data blocks that are marked in use.

  - `balloc_spec`, `bfree_spec`: one bit, and for balloc one zeroed block.
  - `loadDinode_storeDinode`: iupdate writes what ilock reads.
-/

import Xv6Labs.Lib.Calls
import Xv6Labs.Fs.Code

namespace Xv6Labs.Fs.Disk

open Lib

/-- The first data block. -/
def dataStart (sb : Superblock) : Nat := sb.size / BPB + sb.bmapstart + 1

/-- The layout in fs.h: inode blocks, bitmap, data blocks. -/
structure Layout (sb : Superblock) : Prop where
  inodes : sb.ninodes / IPB + sb.inodestart < sb.bmapstart
  data : dataStart sb ≤ sb.size
  small : sb.size < 2 ^ 31

section

variable {sb : Superblock} {disk disk' : Mem} {b c : Nat}

/-! ## The bitmap -/

variable (sb) in
/-- Block `b` is marked in use. -/
def used (disk : Mem) (b : Nat) : Bool := bit disk (BBLOCK sb b) (b % BPB)

variable (sb) in
/-- Where the bit of block `b` lies. -/
def byteOf (b : Nat) : Nat := sb.bmapstart * BSIZE + b / 8

theorem bit_byte (b : Nat) : BBLOCK sb b * BSIZE + b % BPB / 8 = byteOf sb b := by
  unfold BBLOCK byteOf BPB BSIZE
  omega

theorem used_eq (disk : Mem) (b : Nat) : used sb disk b = (disk (byteOf sb b)).toNat.testBit (b % 8) := by
  unfold used bit
  rw [bit_byte, Nat.mod_mod_of_dvd b (by decide : 8 ∣ BPB)]

theorem byteOf_bounds (h : b < sb.size) : sb.bmapstart * BSIZE ≤ byteOf sb b ∧
    byteOf sb b < dataStart sb * BSIZE := by
  unfold byteOf dataStart BPB BSIZE
  omega

theorem used_congr (h : disk' (byteOf sb b) = disk (byteOf sb b)) : used sb disk' b = used sb disk b := by
  rw [used_eq, used_eq, h]

theorem testBit_or_pow (x i j : Nat) : (x ||| 2 ^ i).testBit j = (x.testBit j || decide (i = j)) := by
  rw [Nat.testBit_or, Nat.testBit_two_pow]

theorem setBit_byte (disk : Mem) (b : Nat) :
    setBit disk (BBLOCK sb b) (b % BPB) = Function.update disk (byteOf sb b)
      (UInt8.ofNat ((disk (byteOf sb b)).toNat ||| 2 ^ (b % 8))) := by
  unfold setBit
  rw [bit_byte, Nat.mod_mod_of_dvd b (by decide : 8 ∣ BPB)]

theorem clearBit_byte (disk : Mem) (b : Nat) :
    clearBit disk (BBLOCK sb b) (b % BPB) = Function.update disk (byteOf sb b)
      (UInt8.ofNat (clear (disk (byteOf sb b)).toNat (2 ^ (b % 8)))) := by
  unfold clearBit
  rw [bit_byte, Nat.mod_mod_of_dvd b (by decide : 8 ∣ BPB)]

theorem or_pow_lt (x : UInt8) {i : Nat} (h : i < 8) : x.toNat ||| 2 ^ i < 256 :=
  Nat.or_lt_two_pow (n := 8) x.toNat_lt (Nat.pow_lt_pow_right (by decide) h)

theorem used_setBit (disk : Mem) (b c : Nat) :
    used sb (setBit disk (BBLOCK sb b) (b % BPB)) c = (used sb disk c || decide (b = c)) := by
  rw [setBit_byte, used_eq, used_eq]
  by_cases h : byteOf sb c = byteOf sb b
  · rw [h, Function.update_self, UInt8.toNat_ofNat_of_lt' (or_pow_lt _ (Nat.mod_lt _ (by decide))), testBit_or_pow]
    congr 2
    unfold byteOf at h
    exact propext ⟨fun e => by omega, fun e => by rw [e]⟩
  · rw [Function.update_of_ne h, decide_eq_false fun e => h (by rw [e]), Bool.or_false]

theorem used_clearBit (disk : Mem) (b c : Nat) :
    used sb (clearBit disk (BBLOCK sb b) (b % BPB)) c = (used sb disk c && !decide (b = c)) := by
  rw [clearBit_byte, used_eq, used_eq]
  by_cases h : byteOf sb c = byteOf sb b
  · have hlt : clear (disk (byteOf sb b)).toNat (2 ^ (b % 8)) < 256 :=
      Nat.lt_of_le_of_lt (clear_le _ _) (disk (byteOf sb b)).toNat_lt
    have hc : c % 8 < 64 := Nat.lt_of_lt_of_le (Nat.mod_lt c (by decide)) (by decide)
    rw [h, Function.update_self, UInt8.toNat_ofNat_of_lt' hlt, testBit_clear, decide_eq_true hc, Bool.true_xor,
      Nat.testBit_two_pow]
    congr 3
    unfold byteOf at h
    exact propext ⟨fun e => by omega, fun e => by rw [e]⟩
  · rw [Function.update_of_ne h, decide_eq_false fun e => h (by rw [e]), Bool.not_false, Bool.and_true]

/-! ## balloc and bfree -/

theorem ballocBits_some {disk : Mem} {r : Nat} : ∀ {n bi}, bi + n = BPB → b % BPB = 0 →
    ballocBits sb disk b n bi = some r →
    b + bi ≤ r ∧ r < b + BPB ∧ r < sb.size ∧ used sb disk r = false ∧ ∀ c, b + bi ≤ c → c < r →
      used sb disk c = true := by
  intro n
  induction n with
  | zero =>
    intro bi _ _ e
    cases e
  | succ n ih =>
    intro bi hn hb e
    -- the bit looked at is that of block `b + bi`
    have hbit : bit disk (BBLOCK sb b) bi = used sb disk (b + bi) := by
      unfold used BBLOCK
      congr 2 <;> unfold BPB at * <;> omega
    unfold ballocBits at e
    split at e
    · split at e
      · rename_i h1 h2
        cases e
        exact ⟨Nat.le_refl _, by omega, h1, by rw [← hbit]; exact h2, fun c h3 h4 => absurd h4 (by omega)⟩
      · rename_i h1 h2
        obtain ⟨h3, h4, h5, h6, h7⟩ := ih (by omega) hb e
        refine ⟨by omega, h4, h5, h6, fun c h8 h9 => ?_⟩
        by_cases hc : c = b + bi
        · rw [hc, ← hbit]
          simpa using h2
        · exact h7 c (by omega) h9
    · cases e

theorem ballocBits_none {disk : Mem} : ∀ {n bi}, bi + n = BPB → b % BPB = 0 → ballocBits sb disk b n bi = none →
    ∀ c, b + bi ≤ c → c < b + BPB → c < sb.size → used sb disk c = true := by
  intro n
  induction n with
  | zero => exact fun hn _ _ c h1 h2 => absurd h2 (by omega)
  | succ n ih =>
    intro bi hn hb e c h1 h2 h3
    have hbit : bit disk (BBLOCK sb b) bi = used sb disk (b + bi) := by
      unfold used BBLOCK
      congr 2 <;> unfold BPB at * <;> omega
    unfold ballocBits at e
    split at e
    · split at e
      · cases e
      · rename_i h4 h5
        by_cases hc : c = b + bi
        · rw [hc, ← hbit]
          simpa using h5
        · exact ih (by omega) hb e c (by omega) h2 h3
    · omega

theorem ballocLoop_some {disk : Mem} {r : Nat} : ∀ {n b}, b % BPB = 0 → ballocLoop sb disk n b = some r →
    b ≤ r ∧ r < sb.size ∧ used sb disk r = false ∧ ∀ c, b ≤ c → c < r → used sb disk c = true := by
  intro n
  induction n with
  | zero =>
    intro b _ e
    cases e
  | succ n ih =>
    intro b hb e
    unfold ballocLoop at e
    split at e
    · split at e
      · rename_i h
        cases e
        obtain ⟨h1, -, h2, h3, h4⟩ := ballocBits_some (Nat.zero_add _) hb h
        exact ⟨h1, h2, h3, h4⟩
      · rename_i h
        obtain ⟨h1, h2, h3, h4⟩ := ih (by rw [Nat.add_mod_right]; exact hb) e
        refine ⟨by omega, h2, h3, fun c h5 h6 => ?_⟩
        by_cases hc : c < b + BPB
        · exact ballocBits_none (Nat.zero_add _) hb h c h5 hc (by omega)
        · exact h4 c (by omega) h6
    · cases e

theorem ballocLoop_none {disk : Mem} : ∀ {n b}, b % BPB = 0 → sb.size ≤ b + n * BPB → ballocLoop sb disk n b = none →
    ∀ c, b ≤ c → c < sb.size → used sb disk c = true := by
  intro n
  induction n with
  | zero => exact fun _ hn _ c h1 h2 => absurd h2 (by omega)
  | succ n ih =>
    intro b hb hn e c h1 h2
    unfold ballocLoop at e
    split at e
    · split at e
      · cases e
      · rename_i h
        by_cases hc : c < b + BPB
        · exact ballocBits_none (Nat.zero_add _) hb h c h1 hc h2
        · exact ih (by rw [Nat.add_mod_right]; exact hb) (by rw [Nat.succ_mul] at hn; omega) e c (by omega) h2
    · omega

variable {s s' : St}

/-- A block that was free is marked and zeroed; nothing else changes. -/
structure Allocated (sb : Superblock) (b : Nat) (s s' : St) : Prop where
  lt : b < sb.size
  free : used sb s.disk b = false
  first : ∀ c < b, used sb s.disk c = true
  disk : s'.disk = (setBit s.disk (BBLOCK sb b) (b % BPB)).set (b * BSIZE) 0 BSIZE
  log : s'.log = b :: BBLOCK sb b :: s.log
  inode : s'.inode = s.inode

variable (sb) in
theorem balloc_spec (s : St) : (∃ b s', balloc sb s = .ok (b, s') ∧ Allocated sb b s s') ∨
    (∀ c < sb.size, used sb s.disk c = true) ∧ balloc sb s = .error "balloc: out of blocks" := by
  unfold balloc
  cases e : ballocLoop sb s.disk (sb.size / BPB + 1) 0 with
  | none =>
    refine Or.inr ⟨fun c hc => ballocLoop_none (Nat.zero_mod _) ?_ e c (Nat.zero_le _) hc, rfl⟩
    unfold BPB
    omega
  | some b =>
    obtain ⟨-, h1, h2, h3⟩ := ballocLoop_some (Nat.zero_mod _) e
    exact Or.inl ⟨b, _, rfl, h1, h2, fun c hc => h3 c (Nat.zero_le _) hc, rfl, rfl, rfl⟩

theorem balloc_ok {b : Nat} (e : balloc sb s = .ok (b, s')) : Allocated sb b s s' := by
  rcases balloc_spec sb s with ⟨b', s1, e1, h⟩ | ⟨-, e1⟩ <;> rw [e1] at e
  · cases e
    exact h
  · cases e

theorem bfree_spec {b : Nat} (h : used sb s.disk b = true) :
    bfree sb b s = .ok (St.log_write (BBLOCK sb b) { s with disk := clearBit s.disk (BBLOCK sb b) (b % BPB) }) := by
  unfold used at h
  unfold bfree
  rw [if_neg (by rw [h]; decide)]

theorem setBit_ne {x : Nat} (h : x ≠ byteOf sb b) : setBit disk (BBLOCK sb b) (b % BPB) x = disk x := by
  rw [setBit_byte, Function.update_of_ne h]

theorem clearBit_ne {x : Nat} (h : x ≠ byteOf sb b) : clearBit disk (BBLOCK sb b) (b % BPB) x = disk x := by
  rw [clearBit_byte, Function.update_of_ne h]

/-! ## Dinodes -/

theorem dinode_eq (inum : Nat) : dinode sb inum = sb.inodestart * BSIZE + inum * 64 := by
  unfold dinode IBLOCK IPB BSIZE
  omega

theorem dinode_bound (hl : Layout sb) {inum : Nat} (h : inum < sb.ninodes) :
    dinode sb inum + 64 ≤ sb.bmapstart * BSIZE := by
  have := hl.inodes
  rw [dinode_eq]
  unfold IPB at this
  unfold BSIZE
  omega

theorem loadDinode_congr {a : Nat} (h : Mem.Agree disk disk' a 64) : loadDinode disk' a = loadDinode disk a := by
  have hw : ∀ o k, o + k ≤ 64 → disk'.loadLE (a + o) k = disk.loadLE (a + o) k :=
    fun o k ho => Mem.loadLE_agree (h.mono (by omega) (by omega))
  have h0 := hw 0 2 (by decide)
  rw [Nat.add_zero] at h0
  unfold loadDinode
  rw [h0, hw 2 2 (by decide), hw 4 2 (by decide), hw 6 2 (by decide), hw 8 4 (by decide)]
  congr 1
  funext i
  rw [Nat.add_assoc, hw (12 + 4 * i) 4 (by have := i.isLt; simp only [NDIRECT] at this; omega)]

theorem storeDinode_ne {a x : Nat} {d : Dinode} (h : x < a ∨ a + 64 ≤ x) : storeDinode disk a d x = disk x := by
  unfold storeDinode
  rw [Mem.agree_storeWords (b := x) (k := 1) _ _ (by omega) x (Nat.le_refl _) (by omega), Mem.storeLE_ne (by omega),
    Mem.storeLE_ne (by omega),
    Mem.storeLE_ne (by omega), Mem.storeLE_ne (by omega), Mem.storeLE_ne (by omega)]

/-- The numbers fit their words. -/
structure Dinode.Fits (d : Dinode) : Prop where
  size : d.size < 2 ^ 32
  addrs : ∀ i, d.addrs i < 2 ^ 32

theorem ofNat_toNat_mod (x : UInt16) : UInt16.ofNat (x.toNat % 256 ^ 2) = x := by
  have h : x.toNat % 256 ^ 2 = x.toNat := Nat.mod_eq_of_lt x.toNat_lt
  rw [h, UInt16.ofNat_toNat]

theorem loadDinode_storeDinode {a : Nat} {d : Dinode} (h : d.Fits) : loadDinode (storeDinode disk a d) a = d := by
  have hsize : d.size % 256 ^ 4 = d.size := Nat.mod_eq_of_lt h.size
  have hwords : ∀ (m : Mem) (f : Nat → Nat) o k, o + k ≤ 12 →
    (m.storeWords (a + 12) 13 f).loadLE (a + o) k = m.loadLE (a + o) k := fun m f o k ho =>
    Mem.loadLE_agree (Mem.agree_storeWords m f (by omega))
  have hword : ∀ (m : Mem) o k w o' k', o + k ≤ o' ∨ o' + k' ≤ o →
    (m.storeLE (a + o') k' w).loadLE (a + o) k = m.loadLE (a + o) k := fun m o k w o' k' ho =>
    Mem.loadLE_agree (Mem.agree_storeLE m (by omega))
  have h0 : ∀ (m : Mem) k, m.loadLE a k = m.loadLE (a + 0) k := fun m k => rfl
  have h0' : disk.storeLE a 2 d.type.toNat = disk.storeLE (a + 0) 2 d.type.toNat := rfl
  unfold loadDinode storeDinode
  rw [h0, h0', hwords _ _ 0 2 (by decide), hwords _ _ 2 2 (by decide), hwords _ _ 4 2 (by decide),
    hwords _ _ 6 2 (by decide), hwords _ _ 8 4 (by decide)]
  rw [Mem.loadLE_storeLE, hword _ 6 2 _ 8 4 (by decide), Mem.loadLE_storeLE, hword _ 4 2 _ 8 4 (by decide),
    hword _ 4 2 _ 6 2 (by decide), Mem.loadLE_storeLE,
    hword _ 2 2 _ 8 4 (by decide), hword _ 2 2 _ 6 2 (by decide), hword _ 2 2 _ 4 2 (by decide), Mem.loadLE_storeLE,
    hword _ 0 2 _ 8 4 (by decide), hword _ 0 2 _ 6 2 (by decide), hword _ 0 2 _ 4 2 (by decide),
      hword _ 0 2 _ 2 2 (by decide), Mem.loadLE_storeLE]
  rw [ofNat_toNat_mod, ofNat_toNat_mod, ofNat_toNat_mod, ofNat_toNat_mod, hsize]
  congr 1
  funext i
  rw [Mem.loadLE_storeWords _ _ _ (show i.val < 13 from i.isLt), dif_pos i.isLt]
  exact Nat.mod_eq_of_lt (h.addrs i)

theorem loadDinode_fits (disk : Mem) (a : Nat) : (loadDinode disk a).Fits :=
  ⟨Mem.loadLE_lt disk (a + 8) 4, fun i => Mem.loadLE_lt disk (a + 12 + 4 * i) 4⟩

/-! ## The blocks of an inode -/

inductive Slot where
  | addr (i : Fin (NDIRECT + 2))
  /-- of the indirect block -/
  | ind (j : Fin NINDIRECT)
  /-- of the doubly-indirect block -/
  | mid (i : Fin NINDIRECT)
  /-- of the block that entry `i` of the doubly-indirect block names -/
  | leaf (i j : Fin NINDIRECT)
  deriving DecidableEq

/-- Entry `j` of block `b`, if there is a block. -/
def entry (disk : Mem) (b j : Nat) : Nat := if b = 0 then 0 else word disk b j

/-- The number in a slot. -/
def Dinode.at (d : Dinode) (disk : Mem) : Slot → Nat
  | .addr i => d.addrs i
  | .ind j => entry disk (d.addrs 11) j
  | .mid i => entry disk (d.addrs 12) i
  | .leaf i j => entry disk (entry disk (d.addrs 12) i) j

/-- The numbers in the slots are distinct data blocks in use. -/
structure Whole (sb : Superblock) (disk : Mem) (d : Dinode) : Prop where
  data : ∀ p, d.at disk p ≠ 0 → dataStart sb ≤ d.at disk p ∧ d.at disk p < sb.size ∧ used sb disk (d.at disk p) = true
  apart : ∀ p q, d.at disk p ≠ 0 → d.at disk p = d.at disk q → p = q

/-- An inode with one direct block at most. -/
theorem at_single {d : Dinode} (h : ∀ i, i ≠ 0 → d.addrs i = 0) (p : Slot) :
    d.at disk p = if p = .addr 0 then d.addrs 0 else 0 := by
  have h12 : ∀ i, entry disk (d.addrs 12) i = 0 := fun i => if_pos (h 12 (by decide))
  cases p with
  | addr i =>
    by_cases hi : i = 0
    · rw [hi, if_pos rfl]
      rfl
    · rw [if_neg fun e => hi (Slot.addr.inj e)]
      exact h i hi
  | ind j =>
    show entry disk (d.addrs 11) j = 0
    exact if_pos (h 11 (by decide))
  | mid i => exact h12 i
  | leaf i j =>
    show entry disk (entry disk (d.addrs 12) i) j = 0
    exact if_pos (h12 i)

theorem whole_single {d : Dinode} (h : ∀ i, i ≠ 0 → d.addrs i = 0)
    (h0 : d.addrs 0 ≠ 0 → dataStart sb ≤ d.addrs 0 ∧ d.addrs 0 < sb.size ∧ used sb disk (d.addrs 0) = true) :
      Whole sb disk d := by
  have hp : ∀ p, d.at disk p ≠ 0 → p = .addr 0 := fun p hne => by
    rw [at_single h] at hne
    split at hne
    · assumption
    · exact absurd rfl hne
  refine ⟨fun p hne => ?_, fun p q hne e => ?_⟩
  · have e := hp p hne
    subst e
    exact h0 hne
  · exact (hp p hne).trans (hp q (e ▸ hne)).symm

/-- The inode has block `b`. -/
def Dinode.owns (d : Dinode) (disk : Mem) (b : Nat) : Prop := b ≠ 0 ∧ ∃ p, d.at disk p = b

end

/-- A small disk: inodes in block 2, the bitmap in block 3. -/
def smallDisk : Superblock := ⟨64, 15, 2, 3⟩

theorem smallDisk_layout : Layout smallDisk := ⟨by decide, by decide, by decide⟩

end Xv6Labs.Fs.Disk
