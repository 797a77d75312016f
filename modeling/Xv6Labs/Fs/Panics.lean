/-
  Xv6Labs.Fs.Panics — where sys_unlink gives its panic about link counts.

  None of the functions that sys_unlink calls gives it, so that it comes from the check in
  sys_unlink itself, and there the count is the one of the entry that was found.

  - `sys_unlink_clear`: on a consistent file system the check passes.
-/

import Xv6Labs.Fs.Refines

namespace Xv6Labs.Fs.Disk

open Lib

section

variable {α β : Type} {sb : Superblock} {s : St} {cwd dp ip : Nat} {path name : List UInt8}

/-- No "unlink: nlink < 1". -/
abbrev Clear (x : Except String α) : Prop := Avoids "unlink: nlink < 1" x

/-! ## Blocks and inodes -/

theorem balloc_clear (s : St) : Clear (balloc sb s) := by
  unfold balloc
  split
  · exact .error (by decide)
  · exact .ok _

theorem bfree_clear (b : Nat) (s : St) : Clear (bfree sb b s) := by
  unfold bfree
  split
  · exact .error (by decide)
  · exact .ok _

theorem iget_clear (dev inum : Nat) (s : St) : Clear (iget dev inum s) := by
  unfold iget
  split
  · exact .error (by decide)
  · exact .ok _

theorem ilock_clear (ip : Nat) (s : St) : Clear (ilock sb ip s) := by
  unfold ilock
  dsimp only
  split
  · exact .error (by decide)
  split
  · exact .error (by decide)
  split
  · exact .ok _
  split
  · exact .error (by decide)
  · exact .ok _

theorem iunlock_clear (ip : Nat) (s : St) : Clear (iunlock ip s) := by
  unfold iunlock
  dsimp only
  split
  · exact .error (by decide)
  · exact .ok _

theorem addrOf_clear (ip : Nat) (i : Fin (NDIRECT + 2)) (s : St) : Clear (addrOf sb ip i s) := by
  unfold addrOf
  split
  · exact (balloc_clear s).bind fun _ _ => .ok _
  · exact .ok _

theorem entryOf_clear (b j : Nat) (s : St) : Clear (entryOf sb b j s) := by
  unfold entryOf
  split
  · exact (balloc_clear s).bind fun _ _ => .ok _
  · exact .ok _

theorem bmap_clear (ip bn : Nat) (s : St) : Clear (bmap sb ip bn s) := by
  unfold bmap
  split
  · exact addrOf_clear ip _ s
  dsimp only
  split
  · exact (addrOf_clear ip _ s).bind fun _ _ => entryOf_clear _ _ _
  split
  · exact (addrOf_clear ip _ s).bind fun _ _ => (entryOf_clear _ _ _).bind fun _ _ => entryOf_clear _ _ _
  · exact .error (by decide)

/-! ## itrunc and iput -/

theorem truncDirect_clear (ip : Nat) : ∀ n i s, Clear (truncDirect sb ip n i s) := by
  intro n
  induction n with
  | zero => exact fun _ _ => .ok _
  | succ n ih =>
    intro i s
    unfold truncDirect
    split
    · split
      · exact ih _ _
      · exact (bfree_clear _ s).bind fun _ _ => ih _ _
    · exact .ok _

theorem truncEntries_clear (b : Nat) : ∀ n j s, Clear (truncEntries sb b n j s) := by
  intro n
  induction n with
  | zero => exact fun _ _ => .ok _
  | succ n ih =>
    intro j s
    unfold truncEntries
    split
    · exact ih _ _
    · exact (bfree_clear _ s).bind fun _ _ => ih _ _

theorem truncDouble_clear (bp : Nat) (a : Option Nat) : ∀ n j s, Clear (truncDouble sb bp a n j s) := by
  intro n
  induction n with
  | zero => exact fun _ _ => .ok _
  | succ n ih =>
    intro j s
    unfold truncDouble
    split
    · exact .error (by decide)
    split
    · exact ih _ _
    · exact (truncEntries_clear bp _ _ s).bind fun _ _ => (bfree_clear _ _).bind fun _ _ => ih _ _

theorem truncIndirect_clear (ip : Nat) (s : St) : Clear (truncIndirect sb ip s) := by
  unfold truncIndirect
  dsimp only
  split
  · exact .ok _
  · exact (truncEntries_clear _ _ _ s).bind fun _ _ => (bfree_clear _ _).bind fun _ _ => .ok _

theorem truncIndirect2_clear (ip : Nat) (s : St) : Clear (truncIndirect2 sb ip s) := by
  unfold truncIndirect2
  dsimp only
  split
  · exact .ok _
  · exact (truncDouble_clear _ _ _ _ s).bind fun _ _ => (bfree_clear _ _).bind fun _ _ => .ok _

theorem itrunc_clear (ip : Nat) (s : St) : Clear (itrunc sb ip s) :=
  (truncDirect_clear ip _ _ s).bind fun _ _ => (truncIndirect_clear ip _).bind fun _ _ =>
    (truncIndirect2_clear ip _).bind fun _ _ => .ok _

theorem ifree_clear (ip : Nat) (s : St) : Clear (ifree sb ip s) := by
  unfold ifree
  split
  · exact .error (by decide)
  · exact (itrunc_clear ip _).bind fun _ _ => .ok _

theorem iput_clear (ip : Nat) (s : St) : Clear (iput sb ip s) := by
  unfold iput
  refine .bind ?_ fun _ _ => .ok _
  split
  · exact ifree_clear ip s
  · exact .ok _

theorem iunlockput_clear (ip : Nat) (s : St) : Clear (iunlockput sb ip s) :=
  (iunlock_clear ip s).bind fun _ _ => iput_clear ip _

/-! ## readi and writei -/

theorem readiLoop_clear (ip : Nat) : ∀ r off n s, Clear (readiLoop sb ip r off n s) := by
  intro r
  induction r with
  | zero => exact fun _ _ _ => .ok _
  | succ r ih =>
    intro off n s
    unfold readiLoop
    split
    · exact .ok _
    · exact (bmap_clear ip _ s).bind fun _ _ => (ih _ _ _).bind fun _ _ => .ok _

theorem readi_clear (ip off n : Nat) (s : St) : Clear (readi sb ip off n s) := by
  unfold readi
  dsimp only
  split
  · exact .ok _
  · exact readiLoop_clear ip _ _ _ s

theorem writeiLoop_clear (copyin : Nat → Nat → Int × List UInt8) (ip : Nat) :
    ∀ r src off n s, Clear (writeiLoop sb copyin ip r src off n s) := by
  intro r
  induction r with
  | zero => exact fun _ _ _ _ => .ok _
  | succ r ih =>
    intro src off n s
    unfold writeiLoop
    split
    · exact .ok _
    refine (bmap_clear ip _ s).bind fun _ _ => ?_
    dsimp only
    split
    · exact .ok _
    · exact (ih _ _ _ _).bind fun _ _ => .ok _

theorem writei_clear (copyin : Nat → Nat → Int × List UInt8) (ip src off n : Nat) (s : St) :
    Clear (writei sb copyin ip src off n s) := by
  unfold writei
  split
  · exact .ok _
  split
  · exact .ok _
  · exact (writeiLoop_clear copyin ip _ _ _ _ s).bind fun _ _ => .ok _

/-! ## Directories and paths -/

theorem dirlookupLoop_clear (dp : Nat) (name : List UInt8) : ∀ n off s, Clear (dirlookupLoop sb dp name n off s) := by
  intro n
  induction n with
  | zero => exact fun _ _ => .ok _
  | succ n ih =>
    intro off s
    unfold dirlookupLoop
    split
    · refine (readi_clear dp _ _ s).bind fun _ _ => ?_
      dsimp only
      split
      · exact .error (by decide)
      split
      · exact ih _ _
      split
      · exact (iget_clear _ _ _).bind fun _ _ => .ok _
      · exact ih _ _
    · exact .ok _

theorem dirlookup_clear (dp : Nat) (name : List UInt8) (s : St) : Clear (dirlookup sb dp name s) := by
  unfold dirlookup
  split
  · exact .error (by decide)
  · exact dirlookupLoop_clear dp name _ _ s

theorem namexLoop_clear (parent : Bool) : ∀ n path name ip s, Clear (namexLoop sb parent n path name ip s) := by
  intro n
  induction n with
  | zero => exact fun _ _ _ _ => .error (by decide)
  | succ n ih =>
    intro path name ip s
    unfold namexLoop
    split
    · split
      · exact (iput_clear ip s).bind fun _ _ => .ok _
      · exact .ok _
    refine (ilock_clear ip s).bind fun _ _ => ?_
    split
    · exact (iunlockput_clear ip _).bind fun _ _ => .ok _
    split
    · exact (iunlock_clear ip _).bind fun _ _ => .ok _
    refine (dirlookup_clear ip _ _).bind fun _ _ => (iunlockput_clear ip _).bind fun _ _ => ?_
    split
    · exact .ok _
    · exact ih _ _ _ _

theorem namex_clear (cwd : Nat) (path : List UInt8) (parent : Bool) (s : St) :
    Clear (namex sb cwd path parent s) := by
  unfold namex namexStart
  refine .bind ?_ fun _ _ => namexLoop_clear parent _ _ _ _ _
  split
  · exact iget_clear _ _ s
  · exact .ok _

/-! ## sys_unlink -/

theorem isdirempty_clear (dp : Nat) : ∀ n off s, Clear (isdirempty sb dp n off s) := by
  intro n
  induction n with
  | zero => exact fun _ _ => .ok _
  | succ n ih =>
    intro off s
    unfold isdirempty
    split
    · refine (readi_clear dp _ _ s).bind fun _ _ => ?_
      dsimp only
      split
      · exact .error (by decide)
      split
      · exact .ok _
      · exact ih _ _
    · exact .ok _

theorem busy_clear (ip : Nat) (s : St) : Clear (busy sb ip s) := by
  unfold busy
  split
  · exact (isdirempty_clear ip _ _ s).bind fun _ _ => .ok _
  · exact .ok _

theorem remove_clear (dp ip off : Nat) (s : St) : Clear (remove sb dp ip off s) := by
  unfold remove
  refine (writei_clear _ dp _ _ _ s).bind fun _ _ => ?_
  dsimp only
  split
  · exact .error (by decide)
  · exact (iunlockput_clear dp _).bind fun _ _ => (iunlockput_clear ip _).bind fun _ _ => .ok _

theorem unlinkBad_clear (dp : Nat) (s : St) : Clear (unlinkBad sb dp s) :=
  (iunlockput_clear dp s).bind fun _ _ => .ok _

/-- What sys_unlink finds is linked. -/
theorem sys_unlink_clear (h : Consistent sb s) (hc : 0 < (s.inode cwd).ref) (path : Option (List UInt8)) :
    Clear (sys_unlink sb cwd path s) := by
  unfold sys_unlink
  cases path with
  | none => exact .ok _
  | some path =>
  refine (namex_clear cwd path true s).bind fun r e1 => ?_
  obtain ⟨_ | ⟨dp, name⟩, s1⟩ := r
  · exact .ok _
  refine (ilock_clear dp s1).bind fun s2 e2 => ?_
  obtain ⟨d, t, hd⟩ := parent_of h.toSound (h.names hc) e1 e2
  dsimp only
  split
  · exact unlinkBad_clear dp s2
  rename_i hname
  refine (dirlookup_clear dp name s2).bind fun g e3 => ?_
  obtain ⟨_ | ⟨ip, off⟩, s3⟩ := g
  · exact unlinkBad_clear dp s3
  refine (ilock_clear ip s3).bind fun s4 e4 => ?_
  obtain ⟨i, n, -, hf⟩ := found_of h.toSound e2 hd.calm hd.dir hd.node hname e3 e4
  have hpos := hf.pos h
  rw [if_neg (by omega)]
  refine (busy_clear ip s4).bind fun b _ => ?_
  split
  · exact (iunlockput_clear ip _).bind fun _ _ => unlinkBad_clear dp _
  · exact remove_clear dp ip off _

end

end Xv6Labs.Fs.Disk
