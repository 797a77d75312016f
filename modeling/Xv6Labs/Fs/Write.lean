/-
  Xv6Labs.Fs.Write — a write whose source ends before it does.

  copyin moves what it can before it fails, and what it moves is in the buffer that readers of
  the block get; writei neither logs that buffer nor counts these bytes. Buffers are not
  recycled here: a buffer that bget takes for another block before it is logged loses them.

  - `short_write_spares`: readers see what writei counted and else the file as it was, exactly
    when the bytes moved but not counted are those that the file has in their places.
  - `short_write_overwrites`: a write that returns 0 and changes half a block.
-/

import Xv6Labs.Vm.Copyin
import Xv6Labs.Vm.Kalloc
import Xv6Labs.Fs.File

namespace Xv6Labs.Fs.Disk

open Lib

section

variable {κ : Type} (A : Lab κ) (t : Nat) (m : Mach κ)

/-- either_copyin for a process with page table `t`. -/
def either_copyin (src len : Nat) : Int × List UInt8 :=
  match Vm.copyin A t src len m with
  | .ok r => r
  | .error _ => (-1, [])

/-- The byte at place `i` of the source. -/
def sourceByte (src i : Nat) : UInt8 := (Vm.userByte m.mem t (u64 (src + i))).getD 0

theorem source_user (src n : Nat) : Source (either_copyin A t m) src (Vm.readable m.mem t src n) n
    (sourceByte t m src) := by
  intro u k hu hk
  have haddr : ∀ i, u64 (u64 (src + u) + i) = u64 (src + (u + i)) := fun i => by unfold u64; omega
  have hva : u64 (src + u) < 2 ^ 64 := Nat.mod_lt _ (by decide)
  have hmin : min k (Vm.readable m.mem t src n - u) ≤ k := Nat.min_le_left _ _
  have h : Vm.copyinLoop A t k (u64 (src + u)) k m = .ok (if min k (Vm.readable m.mem t src n - u) = k then 0 else -1,
      (List.range (min k (Vm.readable m.mem t src n - u))).map fun i => sourceByte t m src (u + i)) := by
    refine Vm.copyinLoop_spec (Nat.le_refl k) hva hmin (fun i hi => ?_) fun hlt => ?_
    · rw [haddr]
      obtain ⟨b, e⟩ := Option.isSome_iff_exists.mp
        (Vm.readable_some (u + i) (by omega : u + i < Vm.readable m.mem t src n))
      unfold sourceByte
      rw [e]
      rfl
    · rw [haddr, show u + min k (Vm.readable m.mem t src n - u) = Vm.readable m.mem t src n by omega]
      exact Vm.readable_none (by omega)
  unfold either_copyin Vm.copyin
  rw [h]
  dsimp only
  congr 1
  exact if_congr (by omega) rfl rfl

variable {A t m} {sb : Superblock} {ip : Nat} {s s' s1 : St}

/-! ## Readers -/

/-- After any number of calls of readi. -/
inductive Later (sb : Superblock) (ip : Nat) : St → St → Prop
  | refl (s : St) : Later sb ip s s
  | readi {s s1 s2 : St} {off n : Nat} {bs : List UInt8} : Later sb ip s s1 → off < 2 ^ 32 → n < 2 ^ 32 →
      Disk.readi sb ip off n s1 = .ok (bs, s2) → Later sb ip s s2

theorem Later.grown (hl : Layout sb) (hw : Whole sb s.disk (s.inode ip).d) (hr : Reserved sb s.disk)
    (h : Later sb ip s s') : Grown sb ip s s' := by
  induction h with
  | refl => exact .refl hw
  | readi h hoff hn e ih =>
    have g := ih
    exact g.trans (readi_spec hl g.whole (g.reserved hl hr) hoff hn e).1

/-- Every later readi returns bytes of `b`. -/
def Seen (sb : Superblock) (ip : Nat) (s : St) (b : Nat → UInt8) : Prop :=
  ∀ s1 off n bs s2, Later sb ip s s1 → off < 2 ^ 32 → n < 2 ^ 32 → readi sb ip off n s1 = .ok (bs, s2) →
    bs = (List.range bs.length).map fun i => b (off + i)

theorem seen_of {b : Nat → UInt8} (hl : Layout sb) (hw : Whole sb s.disk (s.inode ip).d) (hr : Reserved sb s.disk)
    (h : ∀ k < (s.inode ip).d.size, k < MAXFILE * BSIZE → s.byte ip k = b k) : Seen sb ip s b := by
  intro s1 off n bs s2 hlater hoff hn e
  have g := hlater.grown hl hw hr
  obtain ⟨-, hbs, hend⟩ := readi_spec hl g.whole (g.reserved hl hr) hoff hn e
  rcases hend with rfl | ⟨h1, h2⟩
  · rfl
  · rw [g.size] at h1
    refine hbs.trans (List.map_congr_left fun i hi => ?_)
    have hi := List.mem_range.mp hi
    exact (g.byte (off + i)).trans (h _ (by omega) (by omega))

variable (sb) in
/-- readi of one byte. -/
theorem readi_byte {k : Nat} (hk : k < (s.inode ip).d.size) (hmax : k < MAXFILE * BSIZE)
    (h : s.at ip (slotOf (k / BSIZE)) ≠ 0) :
    readi sb ip k 1 s = .ok ([s.byte ip k], s) := by
  have hmin : min 1 ((s.inode ip).d.size - k) = 1 := by omega
  have hlt : k + 1 < 2 ^ 32 := by simp only [MAXFILE, NINDIRECT2, NDIRECT, NINDIRECT, BSIZE] at hmax; omega
  have e := readi_mapped sb hlt fun x h1 _ h2 => by
    obtain rfl : x = k := Nat.le_antisymm (Nat.le_of_lt_succ h2) h1
    exact ⟨hmax, h⟩
  rw [hmin] at e
  exact e

theorem Seen.byte {b : Nat → UInt8} (h : Seen sb ip s b) {k : Nat} (hk : k < (s.inode ip).d.size)
    (hmax : k < MAXFILE * BSIZE) (hmap : s.at ip (slotOf (k / BSIZE)) ≠ 0) : s.byte ip k = b k := by
  have hlt : k < 2 ^ 32 := by simp only [MAXFILE, NINDIRECT2, NDIRECT, NINDIRECT, BSIZE] at hmax; omega
  have := h s k 1 _ _ (.refl s) hlt (by decide) (readi_byte sb hk hmax hmap)
  exact (List.cons.inj this).1

/-! ## The write -/

/-- A write that counted `tot` of `n` bytes: later readers see those in their places and else
    the file as it was, if and only if the bytes that were moved besides, from the block in which
    the source ends, were in the file already. -/
theorem short_write_spares (hl : Layout sb) (hw : Whole sb s.disk (s.inode ip).d) (hr : Reserved sb s.disk)
    (hi : (s.inode ip).inum < sb.ninodes)
    {src off n tot : Nat} (hsrc : src < 2 ^ 64) (hoff : off < 2 ^ 32) (hn : n < 2 ^ 32)
    (e : writei sb (either_copyin A t m) ip src off n s = .ok ((tot : Int), s')) (hlt : tot < n) :
    Seen sb ip s' (fun k => if off ≤ k ∧ k < off + tot then sourceByte t m src (k - off) else s.byte ip k) ↔
      ∀ i < Vm.readable m.mem t src n, (off + i) / BSIZE = (off + Vm.readable m.mem t src n) / BSIZE →
        off + i < (s.inode ip).d.size →
        sourceByte t m src i = s.byte ip (off + i) := by
  obtain ⟨tot', ht, w⟩ := writei_spec hl hw hr hi (source_user A t m src n) hsrc hn hoff
    (Vm.readable_le m.mem t src n) e (Int.natCast_nonneg tot)
  obtain rfl : tot = tot' := Int.ofNat.inj ht
  have hle := Vm.readable_le m.mem t src n
  generalize Vm.readable m.mem t src n = r at w hle ⊢
  have hrn : r < n := Nat.lt_of_le_of_ne hle fun he => Nat.ne_of_lt hlt (w.tot_all he)
  have hcount := w.tot_iff hrn
  have hfits := w.fits
  constructor
  · intro h i hir hblock hsize
    have hni : ¬ i < tot := fun hit => (hcount i hir).mp hit hblock
    have hbyte := h.byte (k := off + i) (by rw [w.size]; omega) (by omega) (w.mapped _ (by omega) (by omega))
    rw [w.byte _ (by omega), if_pos (by omega), if_neg (by omega), Nat.add_sub_cancel_left] at hbyte
    exact hbyte
  · intro h
    refine seen_of hl w.whole w.reserved fun k hk hmax => ?_
    have hle := w.tot_le
    rw [w.size] at hk
    rw [w.byte k hmax]
    by_cases hin : off ≤ k ∧ k < off + r
    · rw [if_pos hin]
      split
      · rfl
      · rename_i hout
        have hblock : (off + (k - off)) / BSIZE = (off + r) / BSIZE := by
          by_contra hne
          have := (hcount (k - off) (by omega)).mpr hne
          omega
        have := h (k - off) (by omega) hblock (by omega)
        rw [Nat.add_sub_cancel' hin.1] at this
        exact this
    · rw [if_neg hin, if_neg (by omega)]

end

/-- A file of one block of zeros, block 10, which the inode in slot 0 is for. -/
def oneBlock : St :=
  ⟨fun x => if x = 3072 then 15 else if x = 3073 then 4 else 0, [],
    fun _ => ⟨1, 2, 1, true, true, ⟨T_FILE, 0, 0, 1, 1024, Function.update (fun _ => 0) 0 10⟩⟩⟩

/-- A user with one page, full of sevens; its page tables are the pages before. -/
def onePage : Mach Plain.Kmem :=
  ⟨fun x => if x = 4096 then 1 else if x = 4097 then 8 else if x = 8192 then 1 else if x = 8193 then 12
    else if x = 12288 then 23 else if x = 12289 then 20
    else if 20480 ≤ x ∧ x < 24576 then 7 else 0, ⟨0, 0⟩⟩

def image : Plain.Image := ⟨KERNBASE, Nat.le_refl _, by decide⟩

theorem oneBlock_whole : Whole smallDisk oneBlock.disk (oneBlock.inode 0).d := by
  refine whole_single (fun i hi => ?_) fun _ =>
    ⟨by decide, by decide, (by decide : used smallDisk oneBlock.disk 10 = true)⟩
  show Function.update (fun _ => 0) 0 10 i = 0
  rw [Function.update_of_ne hi]

theorem oneBlock_reserved : Reserved smallDisk oneBlock.disk := by
  have h : ∀ c < 4, used smallDisk oneBlock.disk c = true := by decide
  exact h

/-- What a write returns, and the first byte of the file after it. -/
def writeThenRead (x : Except String (Int × St)) : Option (Int × List UInt8) :=
  match x with
  | .error _ => none
  | .ok (tot, s) =>
    match readi smallDisk 0 0 1 s with
    | .error _ => none
    | .ok (bs, _) => some (tot, bs)

theorem writeThenRead_some {x : Except String (Int × St)} {tot : Int} {bs : List UInt8}
    (h : writeThenRead x = some (tot, bs)) :
    ∃ s' s'', x = .ok (tot, s') ∧ readi smallDisk 0 0 1 s' = .ok (bs, s'') := by
  unfold writeThenRead at h
  cases x with
  | error e => cases h
  | ok a =>
    dsimp only at h
    split at h
    · cases h
    · rename_i e
      cases h
      exact ⟨_, _, rfl, e⟩

/-- A write at the end of the file whose source ends in the middle of the block. -/
theorem short_write_spares_append :
    ∃ s', writei smallDisk (either_copyin (Plain.lab image false) 4096 onePage) 0 3584 1024 1024 oneBlock =
      .ok (((0 : Nat) : Int), s') ∧
      Seen smallDisk 0 s' fun k => if 1024 ≤ k ∧
        k < 1024 + 0 then sourceByte 4096 onePage 3584 (k - 1024) else oneBlock.byte 0 k := by
  have hrun :
    writeThenRead (writei smallDisk (either_copyin (Plain.lab image false) 4096 onePage) 0 3584 1024 1024 oneBlock) =
    some (0, [0]) := by
    decide +kernel
  obtain ⟨s', -, e, -⟩ := writeThenRead_some hrun
  refine ⟨s', e,
    (short_write_spares smallDisk_layout oneBlock_whole oneBlock_reserved (by decide) (by decide) (by decide)
    (by decide) e (by decide)).mpr ?_⟩
  exact fun i _ _ h => absurd h (Nat.not_lt.mpr (Nat.le_add_right 1024 i))

/-- The same write at the start of the file returns 0, and the file starts with the source then. -/
theorem short_write_overwrites : ¬ ∀ (κ : Type) (A : Lab κ) (t : Nat) (m : Mach κ) (sb : Superblock)
    (ip src off n tot : Nat) (s s' : St),
    Layout sb → Whole sb s.disk (s.inode ip).d → Reserved sb s.disk → (s.inode ip).inum < sb.ninodes → src < 2 ^ 64 →
      off < 2 ^ 32 → n < 2 ^ 32 →
    writei sb (either_copyin A t m) ip src off n s = .ok ((tot : Int), s') → tot < n →
    Seen sb ip s' fun k => if off ≤ k ∧ k < off + tot then sourceByte t m src (k - off) else s.byte ip k := by
  intro h
  have hrun :
    writeThenRead (writei smallDisk (either_copyin (Plain.lab image false) 4096 onePage) 0 3584 0 1024 oneBlock) =
    some (0, [7]) := by
    decide +kernel
  obtain ⟨s', s'', e, hread⟩ := writeThenRead_some hrun
  have hseen := h _ _ _ _ _ _ _ _ _ 0 _ _ smallDisk_layout oneBlock_whole oneBlock_reserved (by decide) (by decide)
    (by decide) (by decide) e (by decide)
  have hbyte := hseen s' 0 1 [7] s'' (.refl s') (by decide) (by decide) hread
  exact absurd hbyte (by decide)

end Xv6Labs.Fs.Disk
