/-
  Xv6Labs.Fs.Undo — a name operation that fails leaves everything as it was.

  `Unchanged`: references, locks, allocated inodes, their bytes, the entries of directories and
  the bitmap. sys_unlink, sys_mkdir and sys_mknod write nothing before they fail. sys_link has
  counted a link and takes it back; sys_symlink has made an inode with one block, which goes with
  its only reference.

  - `failing_call_changes_nothing`: for the five system calls.
-/

import Xv6Labs.Fs.Resolve
import Xv6Labs.Fs.Open
import Xv6Labs.Fs.Trunc

namespace Xv6Labs.Fs.Disk

open Lib
open Ftable (one one_self one_ne one_nonneg)

section

variable {sb : Superblock} {s s' s0 s1 : St} {ip dp cwd a : Nat} {r l : Nat → Int} {disk disk' disk1 : Mem}
    {d : Dinode} {name : List UInt8}

/-! ## One inode differs -/

/-- The dinodes but that of `a`, and the blocks that were in use. -/
structure Beside (sb : Superblock) (a : Nat) (disk disk' : Mem) : Prop where
  inode : ∀ inum < sb.ninodes, inum ≠ a → inodeOf sb disk' inum = inodeOf sb disk inum
  block : ∀ c o, dataStart sb ≤ c → c < sb.size → used sb disk c = true → o < BSIZE →
    disk' (c * BSIZE + o) = disk (c * BSIZE + o)

theorem Beside.trans (h : Beside sb a disk disk1) (h' : Beside sb a disk1 disk')
    (hu : ∀ c < sb.size, used sb disk c = true → used sb disk1 c = true) :
    Beside sb a disk disk' :=
  ⟨fun i hi hne => (h'.inode i hi hne).trans (h.inode i hi hne),
    fun c o h1 h2 h3 ho => (h'.block c o h1 h2 (hu c h2 h3) ho).trans (h.block c o h1 h2 h3 ho)⟩

/-- A file whose blocks stay as they are. -/
theorem file_kept (hb : ∀ p, d.at disk p ≠ 0 → ∀ o < BSIZE,
    disk' (d.at disk p * BSIZE + o) = disk (d.at disk p * BSIZE + o)) :
    (∀ p, d.at disk' p = d.at disk p) ∧ ∀ k, d.byte disk' k = d.byte disk k := by
  have hat : ∀ p, d.at disk' p = d.at disk p := fun p =>
    @at_congr 0 ⟨disk, [], fun _ => ⟨0, 0, 0, false, false, d⟩⟩ ⟨disk', [], fun _ => ⟨0, 0, 0, false, false, d⟩⟩ rfl
      (fun q _ => hb q) p
  refine ⟨hat, fun k => ?_⟩
  unfold Dinode.byte
  rw [hat]
  split
  · rfl
  · rename_i h0
    exact hb _ h0 _ (Nat.mod_lt k (by decide))

/-- A file of blocks in use. -/
theorem file_congr (hw : Whole sb disk d)
    (hb : ∀ c o, dataStart sb ≤ c → c < sb.size → used sb disk c = true → o < BSIZE →
      disk' (c * BSIZE + o) = disk (c * BSIZE + o)) :
    (∀ p, d.at disk' p = d.at disk p) ∧ ∀ k, d.byte disk' k = d.byte disk k :=
  file_kept fun p h0 o ho => hb _ o (hw.data p h0).1 (hw.data p h0).2.1 (hw.data p h0).2.2 ho

theorem find_congr (hb : ∀ k, d.byte disk' k = d.byte disk k) :
    ∀ n off, d.find disk' name n off = d.find disk name n off := by
  intro n
  have hde : ∀ off, d.entryAt disk' off = d.entryAt disk off := fun off => by
    unfold Dinode.entryAt
    simp only [hb]
  induction n with
  | zero => exact fun _ => rfl
  | succ n ih =>
    intro off
    unfold Dinode.find
    rw [hde, ih]

theorem Beside.lookup (h : Beside sb a disk disk')
    (hw : ∀ i < sb.ninodes, (inodeOf sb disk i).type ≠ 0 → Whole sb disk (inodeOf sb disk i)) {i : Nat}
    (hi : i < sb.ninodes) (hne : i ≠ a) (ht : (inodeOf sb disk i).type ≠ 0) :
      lookup sb disk' i name = lookup sb disk i name := by
  unfold Disk.lookup
  rw [h.inode i hi hne]
  exact find_congr (file_congr (hw i hi ht) h.block).2 _ _

/-- Paths lead where they led. -/
theorem Names.named_beside (hN : Names sb cwd s0)
    (hw : ∀ i < sb.ninodes, (inodeOf sb s0.disk i).type ≠ 0 → Whole sb s0.disk (inodeOf sb s0.disk i))
    (h : Beside sb a s0.disk disk') (hd : (inodeOf sb s0.disk a).type ≠ T_DIR) {i : Nat}
    (hn : Named sb s0.disk (s0.inode cwd).inum i) :
    Named sb disk' (s0.inode cwd).inum i := by
  induction hn with
  | root => exact .root
  | start => exact .start
  | @entry i nm x hn hdir hl ih =>
    have hi := (hN.named i hn).1
    have hne : i ≠ a := fun e => hd (e ▸ hdir)
    rw [← h.lookup hw hi hne (by rw [hdir]; decide)] at hl
    rw [← h.inode i hi hne] at hdir
    exact .entry ih hdir hl

/-- Resolution does not depend on an inode that is no directory. -/
theorem Names.beside (hN : Names sb cwd s0)
    (hw : ∀ i < sb.ninodes, (inodeOf sb s0.disk i).type ≠ 0 → Whole sb s0.disk (inodeOf sb s0.disk i))
    (h : Beside sb a s0.disk s.disk) (hd : (inodeOf sb s.disk a).type ≠ T_DIR) (ht : Table sb s)
    (hkey : ∀ i, 0 < (s0.inode i).ref → 0 < (s.inode i).ref ∧ (s.inode i).inum = (s0.inode i).inum)
    (ha : Spared sb s a) : Names sb cwd s := by
  have hnamed : ∀ inum, Named sb s.disk (s.inode cwd).inum inum → Named sb s0.disk (s0.inode cwd).inum inum := by
    intro inum hn
    induction hn with
    | root => exact .root
    | start =>
      rw [(hkey cwd hN.live).2]
      exact .start
    | @entry i nm x _ hdir hl ih =>
      have hi := (hN.named i ih).1
      have hne : i ≠ a := fun e => hd (e ▸ hdir)
      rw [h.inode i hi hne] at hdir
      rw [h.lookup hw hi hne (by rw [hdir]; decide)] at hl
      exact .entry ih hdir hl
  refine ⟨ht, (hkey cwd hN.live).1, fun i hi hdir => ?_, fun inum hn => ?_⟩
  · have hne : i ≠ a := fun e => hd (e ▸ hdir)
    rw [h.inode i hi hne] at hdir ⊢
    intro k hk
    rw [(file_congr (hw i hi (by rw [hdir]; decide)) h.block).1]
    exact hN.mapped i hi hdir k hk
  · obtain ⟨hi, hs⟩ := hN.named inum (hnamed inum hn)
    refine ⟨hi, ?_⟩
    by_cases hne : inum = a
    · rw [hne]
      exact ha
    · unfold Spared
      rw [h.inode inum hi hne]
      rcases hs with hs | hs | ⟨j, hj, heq⟩
      · exact Or.inl hs
      · exact Or.inr (Or.inl hs)
      · exact Or.inr (Or.inr ⟨j, (hkey j hj).1, (hkey j hj).2.trans heq⟩)

/-! ## What a failure leaves -/

/-- The state of the file system when no call is running in it. -/
structure Settled (sb : Superblock) (cwd : Nat) (s : St) : Prop extends Names sb cwd s where
  reserved : Reserved sb s.disk
  whole : ∀ i < sb.ninodes, (inodeOf sb s.disk i).type ≠ 0 → Whole sb s.disk (inodeOf sb s.disk i)
  alloc : ∀ i, 0 < (s.inode i).ref → (inodeOf sb s.disk (s.inode i).inum).type ≠ 0

/-- References, locks, inodes, their bytes, directory entries and the bitmap are as they were. -/
structure Unchanged (sb : Superblock) (s s' : St) : Prop where
  ref : ∀ i, (s'.inode i).ref = (s.inode i).ref
  lock : ∀ i, (s'.inode i).lock = (s.inode i).lock
  key : ∀ i, 0 < (s.inode i).ref → (s'.inode i).dev = (s.inode i).dev ∧ (s'.inode i).inum = (s.inode i).inum
  table : Table sb s'
  free : ∀ i < sb.ninodes, (inodeOf sb s'.disk i).type = 0 ↔ (inodeOf sb s.disk i).type = 0
  inode : ∀ i < sb.ninodes, (inodeOf sb s.disk i).type ≠ 0 → inodeOf sb s'.disk i = inodeOf sb s.disk i
  byte : ∀ i < sb.ninodes, (inodeOf sb s.disk i).type ≠ 0 → ∀ k,
    (inodeOf sb s'.disk i).byte s'.disk k = (inodeOf sb s.disk i).byte s.disk k
  tree : ∀ i < sb.ninodes, (inodeOf sb s.disk i).type = T_DIR → ∀ name,
    lookup sb s'.disk i name = lookup sb s.disk i name
  bits : ∀ c < sb.size, used sb s'.disk c = used sb s.disk c

/-- Nothing but an inode that is free again, or as it was. -/
theorem Unchanged.of_beside (hw : ∀ i < sb.ninodes, (inodeOf sb s.disk i).type ≠ 0 →
    Whole sb s.disk (inodeOf sb s.disk i)) (hd : Delta s s' 0 0)
    (ht : Table sb s') (h : Beside sb a s.disk s'.disk)
    (ha : inodeOf sb s'.disk a = inodeOf sb s.disk a ∨ (inodeOf sb s.disk a).type = 0 ∧
      (inodeOf sb s'.disk a).type = 0)
    (hu : ∀ c < sb.size, used sb s'.disk c = used sb s.disk c) : Unchanged sb s s' := by
  have hinode : ∀ i < sb.ninodes, (inodeOf sb s.disk i).type ≠ 0 → inodeOf sb s'.disk i = inodeOf sb s.disk i :=
    fun i hi h0 => by
    by_cases hne : i = a
    · subst hne
      exact ha.resolve_right fun hz => h0 hz.1
    · exact h.inode i hi hne
  have hbyte : ∀ i < sb.ninodes, (inodeOf sb s.disk i).type ≠ 0 → ∀ k,
    (inodeOf sb s.disk i).byte s'.disk k = (inodeOf sb s.disk i).byte s.disk k :=
    fun i hi h0 => (file_congr (hw i hi h0) h.block).2
  refine ⟨fun i => (hd.ref i).trans (Int.add_zero _), fun i => held_eq ((hd.lock i).trans (Int.add_zero _)), hd.key,
    ht, fun i hi => ?_, hinode,
    fun i hi h0 k => ?_, fun i hi h0 name => ?_, hu⟩
  · by_cases hne : i = a
    · subst hne
      rcases ha with ha | ha
      · rw [ha]
      · exact ⟨fun _ => ha.1, fun _ => ha.2⟩
    · rw [h.inode i hi hne]
  · rw [hinode i hi h0]
    exact hbyte i hi h0 k
  · have hne : (inodeOf sb s.disk i).type ≠ 0 := by rw [h0]; decide
    unfold Disk.lookup
    rw [hinode i hi hne]
    exact find_congr (hbyte i hi hne) _ _

theorem Calm.unchanged (hs : Settled sb cwd s) (h : Calm sb s s' r l) (hr : ∀ i, r i = 0) (hl : ∀ i, l i = 0) :
    Unchanged sb s s' := by
  refine .of_beside (a := 0) hs.whole (h.toDelta.congr hr hl) h.table ⟨fun i _ _ => ?_, fun c o _ _ _ _ => ?_⟩
    (Or.inl ?_) fun c _ => ?_ <;> rw [h.disk]

/-! ## sys_mkdir, sys_mknod, sys_unlink -/

/-- ilock of an inode that some path leads to. -/
theorem Names.ilock (hN : Names sb cwd s0) (h : Calm sb s0 s r l) (hr : ∀ i, 0 ≤ r i) (h1 : 1 ≤ r ip)
    (e : ilock sb ip s = .ok s') :
    Calm sb s0 s' r (l + one ip) ∧ 0 < (s'.inode ip).ref ∧ (s'.inode ip).valid = true ∧
      (s'.inode ip).inum = (s.inode ip).inum ∧
      (s'.inode ip).d = inodeOf sb s0.disk (s.inode ip).inum := by
  obtain ⟨hc, hv, hp⟩ := calm_ilock h.table e
  have hkey := (hc.key ip (h.live hN.table h1)).2
  have h2 := (h.then hr hc).congr (a := r) (fun _ => Int.add_zero _) fun _ => rfl
  refine ⟨h2, hp, hv, hkey, ?_⟩
  rw [(h2.table.copy ip hp hv).1, h2.disk, hkey]

/-- create fails before it makes anything. -/
theorem create_calm (hN : Names sb cwd s) {path : List UInt8} {type major minor : UInt16}
    (e : create sb cwd path type major minor s = .ok (none, s')) :
    Calm sb s s' 0 0 := by
  unfold create nameiparent at e
  obtain ⟨⟨x, s1⟩, e1, e⟩ := bind_ok e
  obtain ⟨h1, -, hn⟩ := namex_calm hN e1
  cases x with
  | none =>
    cases e
    exact h1
  | some f =>
    obtain ⟨dp, name⟩ := f
    have hn1 : Named sb s.disk (s.inode cwd).inum (s1.inode dp).inum := hn _ rfl
    have hr1 : ∀ i, 0 ≤ one dp i := one_nonneg dp
    have hone : 1 ≤ one dp dp := by rw [one_self]
    obtain ⟨s2, e2, e⟩ := bind_ok e
    obtain ⟨h2, hp2, hv2, hk2, -⟩ := hN.ilock h1 hr1 hone e2
    rw [← hk2] at hn1
    obtain ⟨⟨found, s3⟩, e3, e⟩ := bind_ok e
    obtain ⟨h3, -, hn3⟩ := hN.dirlookup h2 hr1 hp2 hv2 hn1 e3
    cases found with
    | none =>
      exfalso
      unfold make at e
      obtain ⟨⟨ip, s4⟩, -, e⟩ := bind_ok e
      obtain ⟨s5, -, e⟩ := bind_ok e
      obtain ⟨s6, -, e⟩ := bind_ok e
      obtain ⟨⟨y, s7⟩, -, e⟩ := bind_ok e
      dsimp only at e
      split at e
      · cases e
      · obtain ⟨s8, -, e⟩ := bind_ok e
        cases e
    | some g =>
      obtain ⟨ip, off⟩ := g
      have hr3 : ∀ i, 0 ≤ (one dp + one ip) i := fun i => Int.add_nonneg (hr1 i) (one_nonneg ip i)
      have hk3 : (s3.inode dp).inum = (s2.inode dp).inum := ((dirlookup_delta e3).key dp hp2).2
      obtain ⟨s4, e4, e⟩ := bind_ok e
      have hone3 : 1 ≤ (one dp + one ip) dp :=
        Int.le_trans (Int.le_of_eq (one_self dp).symm) (Int.le_add_of_nonneg_right (one_nonneg ip dp))
      have h4 := (hN.iunlockput h3 hr3 hone3 (by rw [hk3]; exact hn1) e4).congr
        (a := one ip) (b := 0) (fun i => by show one dp i + one ip i + -one dp i = one ip i; omega) fun i => by
          show (0 : Int) + one dp i + -one dp i = 0
          omega
      have hn4 : Named sb s.disk (s.inode cwd).inum (s4.inode ip).inum := by
        rw [((iunlockput_delta e4).key ip
          (h3.live hN.table (by have := hr1 ip; show 1 ≤ one dp ip + one ip ip; rw [one_self]; omega))).2]
        exact hn3 _ rfl
      obtain ⟨s5, e5, e⟩ := bind_ok e
      have hip : 1 ≤ one ip ip := by rw [one_self]
      obtain ⟨h5, -, -, hk5, -⟩ := hN.ilock h4 (one_nonneg ip) hip e5
      split at e
      · cases e
      · obtain ⟨s6, e6, e⟩ := bind_ok e
        cases e
        exact (hN.iunlockput h5 (one_nonneg ip) hip (by rw [hk5]; exact hn4) e6).congr (fun i => Int.add_right_neg _)
          fun i => by
          show (0 : Int) + one ip i + -one ip i = 0
          omega

theorem mknode_unchanged (hs : Settled sb cwd s) {args : Option (List UInt8 × UInt16 × UInt16)} {type : UInt16}
    (e : mknode sb cwd args type s = .ok (-1, s')) : Unchanged sb s s' := by
  unfold mknode at e
  cases args with
  | none =>
    cases e
    exact (Calm.refl hs.table).unchanged hs (fun _ => rfl) fun _ => rfl
  | some g =>
    obtain ⟨⟨x, s1⟩, e1, e⟩ := bind_ok e
    cases x with
    | none =>
      cases e
      exact (create_calm hs.toNames e1).unchanged hs (fun _ => rfl) fun _ => rfl
    | some ip =>
      obtain ⟨s2, -, e⟩ := bind_ok e
      cases e

theorem isdirempty_mapped (hm : Mapped s.disk (s.inode dp).d) {x : Bool} :
    ∀ {n off}, isdirempty sb dp n off s = .ok (x, s') → s' = s := by
  intro n
  induction n with
  | zero =>
    intro off e
    cases e
    rfl
  | succ n ih =>
    intro off e
    unfold isdirempty at e
    by_cases hoff : off < (s.inode dp).d.size
    · rw [if_pos hoff] at e
      obtain ⟨⟨bs, s1⟩, e1, e⟩ := bind_ok e
      dsimp only at e
      split at e
      · cases e
      rename_i hlen
      rw [(readi_entry hm hoff e1 (not_not.mp hlen)).1] at e
      split at e
      · cases e
        rfl
      · exact ih e
    · rw [if_neg hoff] at e
      cases e
      rfl

theorem busy_mapped (hm : (s.inode ip).d.type = T_DIR → Mapped s.disk (s.inode ip).d) {x : Bool}
    (e : busy sb ip s = .ok (x, s')) : s' = s := by
  unfold busy at e
  split at e
  · rename_i ht
    obtain ⟨⟨y, s1⟩, e1, e⟩ := bind_ok e
    cases e
    exact isdirempty_mapped (hm ht) e1
  · cases e
    rfl

/-- The exit of sys_unlink with the locked directory. -/
theorem unlinkBad_calm (hN : Names sb cwd s0) (h : Calm sb s0 s (one dp) (one dp))
    (hn : Named sb s0.disk (s0.inode cwd).inum (s.inode dp).inum)
    {x : Int} (e : unlinkBad sb dp s = .ok (x, s')) : Calm sb s0 s' 0 0 := by
  unfold unlinkBad at e
  obtain ⟨s1, e1, e⟩ := bind_ok e
  cases e
  exact (hN.iunlockput h (one_nonneg dp) (by rw [one_self]) hn e1).congr (fun i => Int.add_right_neg _) fun i =>
    Int.add_right_neg _

theorem sys_unlink_unchanged (hs : Settled sb cwd s) {path : Option (List UInt8)}
    (e : sys_unlink sb cwd path s = .ok (-1, s')) : Unchanged sb s s' := by
  have hN := hs.toNames
  suffices h : Calm sb s s' 0 0 from h.unchanged hs (fun _ => rfl) fun _ => rfl
  unfold sys_unlink nameiparent at e
  cases path with
  | none =>
    cases e
    exact .refl hs.table
  | some path =>
    obtain ⟨⟨x, s1⟩, e1, e⟩ := bind_ok e
    obtain ⟨h1, -, hn⟩ := namex_calm hN e1
    cases x with
    | none =>
      cases e
      exact h1
    | some f =>
      obtain ⟨dp, name⟩ := f
      have hn1 : Named sb s.disk (s.inode cwd).inum (s1.inode dp).inum := hn _ rfl
      have hr1 : ∀ i, 0 ≤ one dp i := one_nonneg dp
      obtain ⟨s2, e2, e⟩ := bind_ok e
      obtain ⟨h2, hp2, hv2, hk2, -⟩ := hN.ilock h1 hr1 (by show 1 ≤ one dp dp; rw [one_self]) e2
      rw [← hk2] at hn1
      have h2' := h2.congr (a := one dp) (b := one dp) (fun _ => rfl) fun i => Int.zero_add _
      split at e
      · exact unlinkBad_calm hN h2' hn1 e
      obtain ⟨⟨found, s3⟩, e3, e⟩ := bind_ok e
      obtain ⟨h3, -, hn3⟩ := hN.dirlookup h2' hr1 hp2 hv2 hn1 e3
      have hk3 : (s3.inode dp).inum = (s2.inode dp).inum := ((dirlookup_delta e3).key dp hp2).2
      cases found with
      | none => exact unlinkBad_calm hN (h3.congr (fun i => Int.add_zero _) fun _ => rfl) (by rw [hk3]; exact hn1) e
      | some g =>
        obtain ⟨ip, off⟩ := g
        have hn3' : Named sb s.disk (s.inode cwd).inum (s3.inode ip).inum := hn3 _ rfl
        have hr3 : ∀ i, 0 ≤ (one dp + one ip) i := fun i => Int.add_nonneg (hr1 i) (one_nonneg ip i)
        have hone : 1 ≤ (one dp + one ip) ip := by
          have := hr1 ip
          show 1 ≤ one dp ip + one ip ip
          rw [one_self]
          omega
        obtain ⟨s4, e4, e⟩ := bind_ok e
        obtain ⟨h4, hp4, hv4, hk4, hd4⟩ := hN.ilock h3 hr3 hone e4
        dsimp only at e
        split at e
        · cases e
        obtain ⟨⟨y, s5⟩, e5, e⟩ := bind_ok e
        have hm : (s4.inode ip).d.type = T_DIR → Mapped s4.disk (s4.inode ip).d := fun ht => by
          rw [hd4] at ht ⊢
          rw [h4.disk]
          exact hN.mapped _ (hN.named _ hn3').1 ht
        rw [busy_mapped hm e5] at e
        cases y with
        | false =>
          exfalso
          unfold remove at e
          obtain ⟨⟨z, s6⟩, -, e⟩ := bind_ok e
          dsimp only at e
          split at e
          · cases e
          · obtain ⟨s7, -, e⟩ := bind_ok e
            obtain ⟨s8, -, e⟩ := bind_ok e
            cases e
        | true =>
          obtain ⟨s6, e6, e⟩ := bind_ok e
          have h6 := hN.iunlockput h4 hr3 hone (by rw [hk4]; exact hn3') e6
          have hkd : (s6.inode dp).inum = (s2.inode dp).inum := by
            have hp3 : 0 < (s3.inode dp).ref := by
              refine h3.live hN.table ?_
              have := one_nonneg ip dp
              show 1 ≤ one dp dp + one ip dp
              rw [one_self]
              omega
            have hp4' : 0 < (s4.inode dp).ref := by
              have := (ilock_delta e4).ref dp
              rw [this]
              show 0 < (s3.inode dp).ref + 0
              omega
            rw [((iunlockput_delta e6).key dp hp4').2, ((ilock_delta e4).key dp hp3).2, hk3]
          refine unlinkBad_calm hN (h6.congr (fun i => ?_) fun i => ?_) (by rw [hkd]; exact hn1) e
          · show one dp i + one ip i + -one ip i = one dp i
            omega
          · show one dp i + one ip i + -one ip i = one dp i
            omega

/-! ## A dinode written -/

theorem inodeOf_store (hf : d.Fits) (i : Nat) :
    inodeOf sb (storeDinode disk (dinode sb a) d) i = if i = a then d else inodeOf sb disk i := by
  unfold inodeOf
  by_cases h : i = a
  · rw [if_pos h, h]
    exact loadDinode_storeDinode hf
  · rw [if_neg h]
    refine loadDinode_congr fun x h1 h2 => storeDinode_ne ?_
    rw [dinode_eq] at h1 h2 ⊢
    omega

theorem iupdate_disk (ip : Nat) (d : Dinode) (s : St) :
    (iupdate sb ip (s.setD ip d)).disk = storeDinode s.disk (dinode sb (s.inode ip).inum) d := by
  unfold iupdate St.setD St.log_write
  dsimp only
  rw [setInode_self]
  rfl

/-- iupdate of a slot that is the only one of its inode. -/
theorem Table.iupdate (h : Table sb s) (hp : 0 < (s.inode ip).ref) (hf : d.Fits) (ht : d.type ≠ 0) :
    Table sb (iupdate sb ip (s.setD ip d)) ∧ ∀ i, inodeOf sb (iupdate sb ip (s.setD ip d)).disk i =
      if i = (s.inode ip).inum then d else inodeOf sb s.disk i := by
  have hq : Quiet s (Disk.iupdate sb ip (s.setD ip d)) := (quiet_setD ip d s).trans (iupdate_quiet ip _)
  have hinode : ∀ i, inodeOf sb (Disk.iupdate sb ip (s.setD ip d)).disk i =
    if i = (s.inode ip).inum then d else inodeOf sb s.disk i := fun i => by
    rw [iupdate_disk, inodeOf_store hf]
  refine ⟨⟨fun i => ?_, fun i hi => ?_, fun i j hi hj heq => ?_, fun i hi hv => ?_⟩, hinode⟩
  · rw [hq.ref]
    exact h.ref i
  · rw [hq.ref] at hi
    rw [hq.dev, hq.inum]
    exact h.slot i hi
  · rw [hq.ref] at hi hj
    rw [hq.inum, hq.inum] at heq
    exact h.apart i j hi hj heq
  · rw [hq.ref] at hi
    rw [hinode, hq.inum]
    by_cases e : i = ip
    · subst e
      have hd : ((Disk.iupdate sb i (s.setD i d)).inode i).d = d := by
        show ((s.setD i d).inode i).d = d
        unfold St.setD
        rw [setInode_self]
      rw [if_pos rfl, hd]
      exact ⟨rfl, ht⟩
    · have hsame : (Disk.iupdate sb ip (s.setD ip d)).inode i = s.inode i := setInode_ne e _ _
      rw [hsame] at hv ⊢
      rw [if_neg fun heq => e (h.apart i ip hi hp heq)]
      exact h.copy i hi hv

theorem iupdate_beside (hl : Layout sb) (h : Table sb s) (hp : 0 < (s.inode ip).ref) (hf : d.Fits) (ht : d.type ≠ 0) :
    Beside sb (s.inode ip).inum s.disk (iupdate sb ip (s.setD ip d)).disk ∧ ∀ c < sb.size,
      used sb (iupdate sb ip (s.setD ip d)).disk c = used sb s.disk c := by
  have hhigh : ∀ x, sb.bmapstart * BSIZE ≤ x → (iupdate sb ip (s.setD ip d)).disk x = s.disk x := fun x hx =>
    iupdate_high (s := s.setD ip d) hl (by rw [(quiet_setD ip d s).inum]; exact (h.slot ip hp).2.2) hx
  refine ⟨⟨fun i _ hne => ?_, fun c o hc _ _ _ => hhigh _ ?_⟩, fun c hc => used_congr (hhigh _ (byteOf_bounds hc).1)⟩
  · rw [(h.iupdate hp hf ht).2, if_neg hne]
  · exact Nat.le_trans (Nat.mul_le_mul_right _ (Nat.le_trans (Nat.le_succ_of_le (Nat.le_add_left _ _)) hc))
      (Nat.le_add_right _ _)

/-! ## sys_link -/

/-- dirlink fails before it writes. -/
theorem Names.dirlink (hN : Names sb cwd s0) (h : Calm sb s0 s r l) (hr : ∀ i, 0 ≤ r i) (hp : 0 < (s.inode dp).ref)
    (hv : (s.inode dp).valid = true)
    (hn : Named sb s0.disk (s0.inode cwd).inum (s.inode dp).inum) {inum : Nat} {x : Int} (hx : x < 0)
    (e : dirlink sb dp name inum s = .ok (x, s')) :
    Calm sb s0 s' r l := by
  unfold Disk.dirlink at e
  obtain ⟨⟨found, s1⟩, e1, e⟩ := bind_ok e
  obtain ⟨h1, -, hn1⟩ := hN.dirlookup h hr hp hv hn e1
  cases found with
  | none =>
    exfalso
    unfold enter at e
    obtain ⟨⟨off, s2⟩, -, e⟩ := bind_ok e
    obtain ⟨⟨y, s3⟩, -, e⟩ := bind_ok e
    dsimp only at e
    split at e
    · cases e
    · cases e
      exact absurd hx (by decide)
  | some f =>
    obtain ⟨s2, e2, e⟩ := bind_ok e
    cases e
    have hone : 1 ≤ (r + one f.1) f.1 := by
      have := hr f.1
      show 1 ≤ r f.1 + one f.1 f.1
      rw [one_self]
      omega
    refine (h1.iput hN.table (fun i => Int.add_nonneg (hr i) (one_nonneg _ i)) hone
      (hN.named _ (hn1 f rfl)).2 e2).congr (fun i => ?_) fun _ => rfl
    show r i + one f.1 i + -one f.1 i = r i
    omega

/-- The inode with one link more. -/
def linked (d : Dinode) : Dinode := { d with nlink := d.nlink + 1 }

theorem linked_fits (h : d.Fits) : (linked d).Fits := ⟨h.size, h.addrs⟩

/-- `s4` is `s` with a reference to `ip` and a link more on its inode. -/
structure Counted (sb : Superblock) (cwd ip a : Nat) (s s4 : St) : Prop where
  delta : Delta s s4 (one ip) 0
  names : Names sb cwd s4
  key : (s4.inode ip).inum = a
  ty : (inodeOf sb s.disk a).type ≠ 0
  inode : ∀ i, inodeOf sb s4.disk i = if i = a then linked (inodeOf sb s.disk a) else inodeOf sb s.disk i
  beside : Beside sb a s.disk s4.disk
  bits : ∀ c < sb.size, used sb s4.disk c = used sb s.disk c

theorem linkBad_unchanged (hl : Layout sb) (hs : Settled sb cwd s) {s4 t : St} (hc : Counted sb cwd ip a s s4)
    (ha : Spared sb s a)
    (h : Calm sb s4 t 0 0) {x : Int} (e : linkBad sb ip t = .ok (x, s')) : Unchanged sb s s' := by
  have hp4 : 0 < (s4.inode ip).ref := by
    have := hc.delta.ref ip
    have := hs.table.ref ip
    have := one_self ip
    omega
  unfold linkBad at e
  obtain ⟨t1, e1, e⟩ := bind_ok e
  obtain ⟨t2, e2, e⟩ := bind_ok e
  cases e
  obtain ⟨hc1, hv1, hp1⟩ := calm_ilock h.table e1
  have h1 : Calm sb s4 t1 0 (one ip) := (h.then (fun _ => Int.le_refl 0) hc1).congr (fun _ => rfl) fun i =>
    Int.zero_add _
  have hk1 : (t1.inode ip).inum = a := (h1.key ip hp4).2.trans hc.key
  have hd1 : (t1.inode ip).d = linked (inodeOf sb s.disk a) := by
    rw [(h1.table.copy ip hp1 hv1).1, hk1, h1.disk, hc.inode, if_pos rfl]
  have hset : t1.setNlink ip (· - 1) = t1.setD ip (inodeOf sb s.disk a) := by
    unfold St.setNlink
    rw [hd1]
    unfold linked
    dsimp only
    rw [UInt16.add_sub_cancel]
  rw [hset] at e2
  have hf : (inodeOf sb s.disk a).Fits := loadDinode_fits _ _
  obtain ⟨ht2, hi2⟩ := h1.table.iupdate hp1 hf hc.ty
  obtain ⟨hb2, hu2⟩ := iupdate_beside hl h1.table hp1 hf hc.ty
  rw [hk1] at hi2 hb2
  have hq : Quiet t1 (iupdate sb ip (t1.setD ip (inodeOf sb s.disk a))) :=
    (quiet_setD _ _ _).trans (iupdate_quiet _ _)
  generalize iupdate sb ip (t1.setD ip (inodeOf sb s.disk a)) = t3 at e2 ht2 hi2 hb2 hu2 hq
  have hinode : ∀ i, inodeOf sb t3.disk i = inodeOf sb s.disk i := fun i => by
    rw [hi2]
    split
    · rename_i h
      rw [h]
    · rename_i h
      rw [h1.disk, hc.inode, if_neg h]
  have hd3 : Delta s t3 (one ip) (one ip) :=
    ((hc.delta.trans h1.toDelta (one_nonneg ip)).congr (fun i => Int.add_zero _) fun i =>
      Int.zero_add _).then_quiet hq
  unfold iunlockput at e2
  obtain ⟨t4, e4, e5⟩ := bind_ok e2
  have hc4 := calm_iunlock ht2 e4
  have hp3 : 0 < (t3.inode ip).ref := by
    rw [hq.ref]
    exact hp1
  have hk3 : (t3.inode ip).inum = a := (hq.inum ip).trans hk1
  have hd4 : Delta s t4 (one ip) 0 := (hd3.trans hc4.toDelta (one_nonneg ip)).congr (fun i => Int.add_zero _) fun i =>
    Int.add_right_neg _
  have hk4 : (t4.inode ip).inum = a := (hc4.key ip hp3).2.trans hk3
  have hp4' : 0 < (t4.inode ip).ref := by
    have := hc4.ref ip
    have hz : (0 : Nat → Int) ip = 0 := rfl
    omega
  have hc5 :=
    calm_iput hc4.table hp4' (hd4.spared hc4.table (one_nonneg ip) (by rw [one_self]) (by rw [hk4]; exact ha)
    (by rw [hc4.disk]; exact hinode _)) e5
  refine .of_beside (a := a) hs.whole ((hd4.trans hc5.toDelta (one_nonneg ip)).congr (fun i => Int.add_right_neg _)
    fun i => rfl) hc5.table ?_ (Or.inl ?_) fun c hc' => ?_
  · rw [hc5.disk, hc4.disk]
    rw [h1.disk] at hb2
    exact hc.beside.trans hb2 fun c hc' hu => (hc.bits c hc').trans hu
  · rw [hc5.disk, hc4.disk, hinode]
  · rw [hc5.disk, hc4.disk, hu2 c hc', h1.disk, hc.bits c hc']

/-- The link is counted. -/
theorem counted (hl : Layout sb) (hs : Settled sb cwd s) {s2 s4 : St} (h : Calm sb s s2 (one ip) (one ip))
    (hp : 0 < (s2.inode ip).ref)
    (hv : (s2.inode ip).valid = true) (hd : (s2.inode ip).d = inodeOf sb s.disk (s2.inode ip).inum)
    (hdir : ¬ (s2.inode ip).d.type = T_DIR) (e : iunlock ip (iupdate sb ip (s2.setNlink ip (· + 1))) = .ok s4) :
      Counted sb cwd ip (s2.inode ip).inum s s4 := by
  have hty : (inodeOf sb s.disk (s2.inode ip).inum).type ≠ 0 := by
    rw [← hd]
    exact (h.table.copy ip hp hv).2
  have hset : s2.setNlink ip (· + 1) = s2.setD ip (linked (inodeOf sb s.disk (s2.inode ip).inum)) := by
    unfold St.setNlink
    rw [hd]
    rfl
  rw [hset] at e
  have hf : (linked (inodeOf sb s.disk (s2.inode ip).inum)).Fits := linked_fits (loadDinode_fits _ _)
  have hty' : (linked (inodeOf sb s.disk (s2.inode ip).inum)).type ≠ 0 := hty
  obtain ⟨ht3, hi3⟩ := h.table.iupdate hp hf hty'
  obtain ⟨hb3, hu3⟩ := iupdate_beside hl h.table hp hf hty'
  have hq : Quiet s2 (iupdate sb ip (s2.setD ip (linked (inodeOf sb s.disk (s2.inode ip).inum)))) :=
    (quiet_setD _ _ _).trans (iupdate_quiet _ _)
  generalize iupdate sb ip (s2.setD ip (linked (inodeOf sb s.disk (s2.inode ip).inum))) = s3 at e ht3 hi3 hb3 hu3 hq
  have hc4 := calm_iunlock ht3 e
  have hd4 : Delta s s4 (one ip) 0 := ((h.toDelta.then_quiet hq).trans hc4.toDelta (one_nonneg ip)).congr
    (fun i => Int.add_zero _) fun i => Int.add_right_neg _
  have hk4 : (s4.inode ip).inum = (s2.inode ip).inum := by
    rw [(hc4.key ip (by rw [hq.ref]; exact hp)).2, hq.inum]
  rw [h.disk] at hi3 hb3 hu3
  rw [← hc4.disk] at hi3 hb3 hu3
  have hlive : ∀ i, 0 < (s.inode i).ref → 0 < (s4.inode i).ref ∧ (s4.inode i).inum = (s.inode i).inum :=
    fun i hi => by
    have := hd4.ref i
    have := one_nonneg ip i
    exact ⟨by omega, (hd4.key i hi).2⟩
  have hp4 : 0 < (s4.inode ip).ref := by
    have := hd4.ref ip
    have := hs.table.ref ip
    have := one_self ip
    omega
  have hdir4 : (inodeOf sb s4.disk (s2.inode ip).inum).type ≠ T_DIR := by
    rw [hi3, if_pos rfl]
    rw [hd] at hdir
    exact hdir
  exact ⟨hd4, hs.toNames.beside hs.whole hb3 hdir4 hc4.table hlive (Or.inr (Or.inr ⟨ip, hp4, hk4⟩)), hk4, hty, hi3,
    hb3, hu3⟩

theorem sys_link_unchanged (hl : Layout sb) (hs : Settled sb cwd s) {old new : Option (List UInt8)}
    (e : sys_link sb cwd old new s = .ok (-1, s')) :
    Unchanged sb s s' := by
  have hN := hs.toNames
  have hcalm : ∀ t, Calm sb s t 0 0 → Unchanged sb s t := fun t h => h.unchanged hs (fun _ => rfl) fun _ => rfl
  unfold sys_link namei at e
  cases old with
  | none =>
    cases e
    exact hcalm s (.refl hs.table)
  | some old =>
  cases new with
  | none =>
    cases e
    exact hcalm s (.refl hs.table)
  | some new =>
    obtain ⟨⟨x, s1⟩, e1, e⟩ := bind_ok e
    obtain ⟨⟨y, s1'⟩, e1', e1⟩ := bind_ok e1
    cases e1
    obtain ⟨h1, -, hn⟩ := namex_calm hN e1'
    cases y with
    | none =>
      cases e
      exact hcalm s' h1
    | some f =>
      obtain ⟨ip, nm⟩ := f
      have hn1 : Named sb s.disk (s.inode cwd).inum (s1.inode ip).inum := hn _ rfl
      have hone : 1 ≤ one ip ip := by rw [one_self]
      obtain ⟨s2, e2, e⟩ := bind_ok e
      obtain ⟨h2, hp2, hv2, hk2, hd2⟩ := hN.ilock h1 (one_nonneg ip) hone e2
      rw [← hk2] at hn1 hd2
      have h2' := h2.congr (a := one ip) (b := one ip) (fun _ => rfl) fun i => Int.zero_add _
      dsimp only at e
      by_cases hdir : (s2.inode ip).d.type = T_DIR
      · rw [if_pos hdir] at e
        obtain ⟨s3, e3, e⟩ := bind_ok e
        cases e
        exact hcalm s' ((hN.iunlockput h2' (one_nonneg ip) hone hn1 e3).congr (fun i => Int.add_right_neg _) fun i =>
          Int.add_right_neg _)
      · rw [if_neg hdir] at e
        obtain ⟨s4, e4, e⟩ := bind_ok e
        have hc := counted hl hs h2' hp2 hv2 hd2 hdir e4
        have hN4 := hc.names
        have hbad : ∀ t x, Calm sb s4 t 0 0 → linkBad sb ip t = .ok (x, s') → Unchanged sb s s' := fun t x h e =>
          linkBad_unchanged hl hs hc (hN.named _ hn1).2 h e
        unfold linkTo nameiparent at e
        obtain ⟨⟨z, s5⟩, e5, e⟩ := bind_ok e
        obtain ⟨h5, -, hn5⟩ := namex_calm hN4 e5
        cases z with
        | none => exact hbad s5 _ h5 e
        | some g =>
          obtain ⟨dp, nm'⟩ := g
          have hn5' : Named sb s4.disk (s4.inode cwd).inum (s5.inode dp).inum := hn5 _ rfl
          have hdp : 1 ≤ one dp dp := by rw [one_self]
          obtain ⟨s6, e6, e⟩ := bind_ok e
          obtain ⟨h6, hp6, hv6, hk6, -⟩ := hN4.ilock h5 (one_nonneg dp) hdp e6
          rw [← hk6] at hn5'
          have h6' := h6.congr (a := one dp) (b := one dp) (fun _ => rfl) fun i => Int.zero_add _
          dsimp only at e
          split at e
          · obtain ⟨s7, e7, e⟩ := bind_ok e
            exact hbad s7 _ ((hN4.iunlockput h6' (one_nonneg dp) hdp hn5' e7).congr (fun i => Int.add_right_neg _)
              fun i => Int.add_right_neg _) e
          · obtain ⟨⟨w, s7⟩, e7, e⟩ := bind_ok e
            obtain ⟨s8, e8, e⟩ := bind_ok e
            dsimp only at e
            split at e
            · rename_i hneg
              have h7 := hN4.dirlink h6' (one_nonneg dp) hp6 hv6 hn5' hneg e7
              have hk7 : (s7.inode dp).inum = (s6.inode dp).inum := ((dirlink_delta e7).key dp hp6).2
              exact hbad s8 _ ((hN4.iunlockput h7 (one_nonneg dp) hdp (by rw [hk7]; exact hn5') e8).congr
                (fun i => Int.add_right_neg _) fun i => Int.add_right_neg _) e
            · obtain ⟨s9, -, e⟩ := bind_ok e
              cases e

/-! ## An inode made and freed -/

theorem Table.congr (h : Table sb s) (hi : s'.inode = s.inode)
    (hd : ∀ i, 0 < (s.inode i).ref → inodeOf sb s'.disk (s.inode i).inum = inodeOf sb s.disk (s.inode i).inum) :
      Table sb s' := by
  refine ⟨?_, ?_, ?_, ?_⟩ <;> rw [hi]
  · exact h.ref
  · exact h.slot
  · exact h.apart
  · intro i hp hv
    rw [hd i hp]
    exact h.copy i hp hv

/-- What ialloc leaves of a dinode. -/
def blank (type : UInt16) : Dinode := ⟨type, 0, 0, 0, 0, fun _ => 0⟩

theorem inodeOf_blank (disk : Mem) (type : UInt16) :
    inodeOf sb ((disk.set (dinode sb a) 0 64).storeLE (dinode sb a) 2 type.toNat) a = blank type := by
  have hset : ∀ x, dinode sb a + 2 ≤ x → x < dinode sb a + 64 →
    ((disk.set (dinode sb a) 0 64).storeLE (dinode sb a) 2 type.toNat) x = 0 := fun x h1 h2 => by
    rw [Mem.storeLE_ne (Or.inr h1), Mem.set_in _ _ (by omega) h2]
  have hzero : ∀ o k, 2 ≤ o → o + k ≤ 64 →
    Mem.loadLE ((disk.set (dinode sb a) 0 64).storeLE (dinode sb a) 2 type.toNat) (dinode sb a + o) k = 0 :=
    fun o k h1 h2 => Mem.loadLE_zero fun x h3 h4 => hset x (by omega) (by omega)
  unfold inodeOf loadDinode blank
  rw [Mem.loadLE_storeLE, ofNat_toNat_mod, hzero 2 2 (by decide) (by decide), hzero 4 2 (by decide) (by decide),
    hzero 6 2 (by decide) (by decide),
    hzero 8 4 (by decide) (by decide)]
  congr 1
  funext i
  have := i.isLt
  rw [Nat.add_assoc]
  exact hzero _ 4 (by omega) (by simp only [NDIRECT] at this; omega)

theorem blank_ne (type : UInt16) {x : Nat} (h : x < dinode sb a ∨ dinode sb a + 64 ≤ x) :
    ((disk.set (dinode sb a) 0 64).storeLE (dinode sb a) 2 type.toNat) x = disk x := by
  rw [Mem.storeLE_ne (by omega), Mem.agree_set (b := x) (n := 1) _ _ (by omega) x (Nat.le_refl _) (by omega)]

theorem iallocLoop_some : ∀ {n i}, iallocLoop sb disk n i = some a → i ≤ a ∧ a < sb.ninodes ∧
    (inodeOf sb disk a).type = 0 := by
  intro n
  induction n with
  | zero =>
    intro i e
    cases e
  | succ n ih =>
    intro i e
    unfold iallocLoop at e
    split at e
    · rename_i hlt
      split at e
      · rename_i h0
        cases e
        exact ⟨Nat.le_refl _, hlt, h0⟩
      · obtain ⟨h1, h2, h3⟩ := ih e
        exact ⟨Nat.le_of_succ_le h1, h2, h3⟩
    · cases e

theorem data_high {c : Nat} (hc : dataStart sb ≤ c) (o : Nat) : dataStart sb * BSIZE ≤ c * BSIZE + o ∧
    sb.bmapstart * BSIZE ≤ c * BSIZE + o := by
  have h1 : dataStart sb * BSIZE ≤ c * BSIZE + o := Nat.le_trans (Nat.mul_le_mul_right _ hc) (Nat.le_add_right _ _)
  exact ⟨h1, Nat.le_trans (Nat.mul_le_mul_right _ (Nat.le_succ_of_le (Nat.le_add_left _ _))) h1⟩

/-- The disk above the inodes is as it was, and the dinodes but `a`. -/
theorem Beside.of_low (hl : Layout sb) (ha : a < sb.ninodes)
    (h : ∀ x, x < dinode sb a ∨ dinode sb a + 64 ≤ x → disk' x = disk x) :
    Beside sb a disk disk' ∧ ∀ c < sb.size, used sb disk' c = used sb disk c := by
  have hbound := dinode_bound hl ha
  refine ⟨⟨fun i _ hne => loadDinode_congr fun x h1 h2 => h x ?_,
    fun c o hc _ _ _ => h _ (Or.inr (Nat.le_trans hbound (data_high hc o).2))⟩,
    fun c hc => used_congr (h _ (Or.inr (Nat.le_trans hbound (byteOf_bounds hc).1)))⟩
  rw [dinode_eq] at h1 h2 ⊢
  omega

/-- The last reference to an inode without links. -/
theorem iput_frees (hl : Layout sb) (h : Table sb s) (href : (s.inode ip).ref = 1) (hv : (s.inode ip).valid = true)
    (hn : (s.inode ip).d.nlink = 0)
    (hw : Whole sb s.disk (s.inode ip).d) (h12 : (s.inode ip).d.addrs 12 = 0) (e : iput sb ip s = .ok s') :
    Table sb s' ∧ Beside sb (s.inode ip).inum s.disk s'.disk ∧ (inodeOf sb s'.disk (s.inode ip).inum).type = 0 ∧
      ∀ c < sb.size, used sb s'.disk c = true ↔ used sb s.disk c = true ∧ ¬ (s.inode ip).d.owns s.disk c := by
  have hp : 0 < (s.inode ip).ref := by rw [href]; decide
  have hin := (h.slot ip hp).2.2
  have hbound := dinode_bound hl hin
  unfold iput at e
  rw [if_pos ⟨href, hv, hn⟩] at e
  obtain ⟨s1, e1, e⟩ := bind_ok e
  unfold ifree at e1
  split at e1
  · cases e1
  obtain ⟨t, et, e1⟩ := bind_ok e1
  have hself : (s.setInode ip { s.inode ip with lock := true }).inode ip = { s.inode ip with lock := true } := by
    rw [setInode_self]
  have hw' : Whole sb s.disk ((s.setInode ip { s.inode ip with lock := true }).inode ip).d := by rw [hself]; exact hw
  obtain ⟨u, eu, hrel⟩ := itrunc_spec hl hw' (by rw [hself]; exact hin) (by rw [hself]; exact h12)
  rw [eu] at et
  cases et
  have hbits := hrel.bits
  have hoth := hrel.others
  have hrest := hrel.rest
  have hinode := hrel.inode
  rw [hself] at hbits hoth hrest hinode
  have hd : (t.inode ip).d = { (s.inode ip).d with size := 0, addrs := fun _ => 0 } ∧
    (t.inode ip).inum = (s.inode ip).inum := by
    rw [hinode, Function.update_self]
    exact ⟨rfl, rfl⟩
  cases e1
  cases e
  -- the dinode of type 0 is written last
  have hdisk : ∀ x, x < dinode sb (s.inode ip).inum ∨ dinode sb (s.inode ip).inum + 64 ≤ x →
      (iupdate sb ip (t.setD ip { (t.inode ip).d with type := 0 })).disk x = t.disk x := fun x hx => by
    rw [iupdate_disk, hd.2]
    exact storeDinode_ne hx
  have hfits : ({ (t.inode ip).d with type := 0 } : Dinode).Fits := by
    rw [hd.1]
    exact ⟨Nat.two_pow_pos 32, fun _ => Nat.two_pow_pos 32⟩
  have hfree : inodeOf sb (iupdate sb ip (t.setD ip { (t.inode ip).d with type := 0 })).disk (s.inode ip).inum =
    { (t.inode ip).d with type := 0 } := by
    rw [iupdate_disk, hd.2, inodeOf_store hfits, if_pos rfl]
  obtain ⟨hb, hu⟩ := Beside.of_low hl hin hdisk
  have hbeside : Beside sb (s.inode ip).inum s.disk
    (iupdate sb ip (t.setD ip { (t.inode ip).d with type := 0 })).disk := by
    refine ⟨fun i hi hne => (hb.inode i hi hne).trans (hoth i hi hne), fun c o hc hlt _ ho => ?_⟩
    obtain ⟨h1, h2⟩ := data_high hc o
    have h3 := Nat.le_trans hbound h2
    rw [hdisk _ (Or.inr h3), hrest _ (Or.inr h1) (Or.inr h3)]
    rfl
  -- the slots are those of `s`, but `ip` has no reference left
  have hself' : ∀ i, i ≠ ip → (iupdate sb ip (t.setD ip { (t.inode ip).d with type := 0 })).inode i = s.inode i :=
    fun i hi => by
    show (t.setD ip _).inode i = _
    unfold St.setD
    rw [setInode_ne hi, hinode, Function.update_of_ne hi, setInode_ne hi]
  have href' : ((iupdate sb ip (t.setD ip { (t.inode ip).d with type := 0 })).inode ip).ref = 1 := by
    have hq : Quiet t (iupdate sb ip (t.setD ip { (t.inode ip).d with type := 0 })) :=
      (quiet_setD ip _ t).trans (iupdate_quiet ip _)
    rw [hq.ref, hinode, Function.update_self]
    exact href
  generalize hw' : iupdate sb ip (t.setD ip { (t.inode ip).d with type := 0 }) = w at *
  have hslot : ∀ i, i ≠ ip → ((w.setInode ip { w.inode ip with valid := false, lock := false }).setInode ip
      { (w.setInode ip { w.inode ip with valid := false, lock := false }).inode ip with
        ref := ((w.setInode ip { w.inode ip with valid := false, lock := false }).inode ip).ref - 1 }).inode i =
          s.inode i := fun i hi => by
    rw [setInode_ne hi, setInode_ne hi, hself' i hi]
  have hzero : (((w.setInode ip { w.inode ip with valid := false, lock := false }).setInode ip
      { (w.setInode ip { w.inode ip with valid := false, lock := false }).inode ip with
        ref := ((w.setInode ip { w.inode ip with valid := false, lock := false }).inode ip).ref - 1 }).inode ip).ref =
          0 := by
    rw [setInode_self, setInode_self]
    show (w.inode ip).ref - 1 = 0
    rw [href']
    rfl
  refine ⟨⟨fun i => ?_, fun i hi => ?_, fun i j hi hj => ?_, fun i hi => ?_⟩, hbeside, ?_, fun c hc => ?_⟩
  · by_cases hne : i = ip
    · rw [hne, hzero]
    · rw [hslot i hne]
      exact h.ref i
  · have hne : i ≠ ip := fun e => by
      rw [e, hzero] at hi
      exact absurd hi (Int.lt_irrefl 0)
    rw [hslot i hne] at hi ⊢
    exact h.slot i hi
  · have hne : i ≠ ip := fun e => by
      rw [e, hzero] at hi
      exact absurd hi (Int.lt_irrefl 0)
    have hne' : j ≠ ip := fun e => by
      rw [e, hzero] at hj
      exact absurd hj (Int.lt_irrefl 0)
    rw [hslot i hne] at hi ⊢
    rw [hslot j hne'] at hj ⊢
    exact h.apart i j hi hj
  · have hne : i ≠ ip := fun e => by
      rw [e, hzero] at hi
      exact absurd hi (Int.lt_irrefl 0)
    rw [hslot i hne] at hi ⊢
    intro hv'
    have hk : (s.inode i).inum ≠ (s.inode ip).inum := fun heq => hne (h.apart i ip hi hp heq)
    show _ = inodeOf sb w.disk _ ∧ _
    rw [hbeside.inode _ (h.slot i hi).2.2 hk]
    exact h.copy i hi hv'
  · show (inodeOf sb w.disk _).type = 0
    rw [hfree]
  · show used sb w.disk c = true ↔ _
    rw [hu c hc]
    exact hbits c

/-! ## sys_symlink -/

/-- writei of the target into a new inode. -/
theorem writei_new (hsize : (s.inode ip).d.size = 0) (haddr : (s.inode ip).d.addrs 0 = 0) {bs : List UInt8}
    (hlen : bs.length = 128) {x : Int}
    (e : writei sb (kernelBytes bs) ip 0 0 MAXPATH s = .ok (x, s')) : x = MAXPATH ∧ ∃ b s1, Allocated sb b s s1 ∧
      s' = iupdate sb ip
        (St.setD ip { (s.inode ip).d with size := 128, addrs := Function.update (s.inode ip).d.addrs 0 b }
        { s1 with disk := s1.disk.put (b * BSIZE) bs, log := b :: s1.log }) := by
  unfold writei at e
  rw [hsize, if_neg (by decide), if_neg (by decide)] at e
  obtain ⟨⟨tot, s2⟩, e1, e⟩ := bind_ok e
  unfold writeiLoop at e1
  rw [if_neg (by decide)] at e1
  obtain ⟨⟨b, s3⟩, e2, e1⟩ := bind_ok e1
  unfold bmap at e2
  rw [dif_pos (by decide)] at e2
  unfold addrOf at e2
  have h0 : (⟨0 / BSIZE, by decide⟩ : Fin (NDIRECT + 2)) = 0 := rfl
  rw [h0, if_pos haddr] at e2
  obtain ⟨⟨b', s1⟩, e3, e2⟩ := bind_ok e2
  cases e2
  have hA := balloc_ok e3
  have hcopy : kernelBytes bs 0 (min MAXPATH (BSIZE - 0 % BSIZE)) = (0, bs) := by
    unfold kernelBytes
    rw [List.drop_zero, List.take_of_length_le (by rw [hlen]; decide)]
  dsimp only at e1
  rw [hcopy, if_neg (show ¬ (0 : Int) = -1 by decide)] at e1
  obtain ⟨⟨tot', s4⟩, e4, e1⟩ := bind_ok e1
  have hdone : MAXPATH - min MAXPATH (BSIZE - 0 % BSIZE) = 0 := by decide
  rw [hdone] at e4
  unfold writeiLoop at e4
  rw [if_pos rfl] at e4
  cases e4
  cases e1
  dsimp only at e
  have hs1 : s1.inode = s.inode := hA.inode
  have hself :
    (St.log_write b { s1.setD ip { (s1.inode ip).d with addrs := Function.update (s1.inode ip).d.addrs 0 b } with
      disk := (s1.setD ip { (s1.inode ip).d with addrs := Function.update (s1.inode ip).d.addrs 0 b }).disk.put
        (b * BSIZE + 0 % BSIZE) bs }).inode ip =
      { s.inode ip with d := { (s.inode ip).d with addrs := Function.update (s.inode ip).d.addrs 0 b } } := by
    show (s1.setD ip _).inode ip = _
    unfold St.setD
    rw [setInode_self, hs1]
  have htot : min MAXPATH (BSIZE - 0 % BSIZE) + 0 = 128 := by decide
  rw [hself, htot] at e
  dsimp only at e
  rw [hsize, if_pos (by decide)] at e
  cases e
  refine ⟨rfl, b, s1, hA, congrArg (iupdate sb ip) ?_⟩
  unfold St.setD St.setInode St.log_write
  dsimp only
  rw [hs1, Function.update_self, Function.update_idem, Nat.zero_mod, Nat.add_zero]

/-- A new link of one block. -/
def oneBlockLink (b : Nat) : Dinode := { blank T_SYMLINK with size := 128, addrs := Function.update (fun _ => 0) 0 b }

theorem oneBlockLink_fits {b : Nat} (h : b < 2 ^ 32) : (oneBlockLink b).Fits := by
  refine ⟨show 128 < 2 ^ 32 by decide, fun i => ?_⟩
  show Function.update (fun _ => 0) 0 b i < _
  by_cases hi : i = 0
  · rw [hi, Function.update_self]
    exact h
  · rw [Function.update_of_ne hi]
    exact Nat.two_pow_pos 32

theorem oneBlockLink_rest (b : Nat) {i : Fin (NDIRECT + 2)} (h : i ≠ 0) : (oneBlockLink b).addrs i = 0 := by
  show Function.update (fun _ => 0) 0 b i = 0
  rw [Function.update_of_ne h]

/-- `s4` is `s` with a reference to `dp`, and the new inode `a` locked in slot `sp`: its only block was free. -/
structure Born (sb : Superblock) (cwd dp sp a b : Nat) (bs : List UInt8) (s s4 : St) : Prop where
  delta : Delta s s4 (one dp + one sp) (one sp)
  names : Names sb cwd s4
  key : (s4.inode sp).inum = a
  ref : (s4.inode sp).ref = 1
  valid : (s4.inode sp).valid = true
  pos : 1 ≤ a
  lt : a < sb.ninodes
  free : (inodeOf sb s.disk a).type = 0
  inode : inodeOf sb s4.disk a = oneBlockLink b
  block : dataStart sb ≤ b ∧ b < sb.size ∧ used sb s.disk b = false
  bits : ∀ c < sb.size, used sb s4.disk c = true ↔ used sb s.disk c = true ∨ c = b
  beside : Beside sb a s.disk s4.disk
  byte : ∀ k < 128, s4.disk (b * BSIZE + k) = bs.getD k 0

/-- `s3` is `s1` with the new inode `a` locked in slot `sp`. -/
structure NewInode (sb : Superblock) (type : UInt16) (sp a : Nat) (s1 s3 : St) : Prop where
  delta : Delta s1 s3 (one sp + 0) (0 + one sp)
  table : Table sb s3
  key : (s3.inode sp).inum = a
  ref : (s3.inode sp).ref = 1
  valid : (s3.inode sp).valid = true
  pos : 1 ≤ a
  lt : a < sb.ninodes
  free : (inodeOf sb s1.disk a).type = 0
  d : (s3.inode sp).d = blank type
  beside : Beside sb a s1.disk s3.disk
  bits : ∀ c < sb.size, used sb s3.disk c = used sb s1.disk c

theorem ialloc_fresh (hl : Layout sb) {sp dev : Nat} {type : UInt16} {s2 s3 : St} (ht : Table sb s1) (hdev : dev = 1)
    (halloc : ∀ i, 0 < (s1.inode i).ref → (inodeOf sb s1.disk (s1.inode i).inum).type ≠ 0)
    (e2 : ialloc sb dev type s1 = .ok (sp, s2)) (e3 : ilock sb sp s2 = .ok s3) :
      ∃ a, NewInode sb type sp a s1 s3 := by
  have hdelta2 := ialloc_delta e2
  unfold ialloc at e2
  rw [hdev] at e2
  split at e2
  · cases e2
  rename_i a ha
  obtain ⟨hpos, hlt, hfree⟩ := iallocLoop_some ha
  have hka : ∀ i, 0 < (s1.inode i).ref → (s1.inode i).inum ≠ a := fun i hi e => halloc i hi (e ▸ hfree)
  obtain ⟨hb1, hu1⟩ := Beside.of_low hl hlt fun x hx => @blank_ne sb a s1.disk type x hx
  have hblank : inodeOf sb ((s1.disk.set (dinode sb a) 0 64).storeLE (dinode sb a) 2 type.toNat) a = blank type :=
    inodeOf_blank s1.disk type
  generalize hs1' : St.log_write (IBLOCK sb a)
    { s1 with disk := (s1.disk.set (dinode sb a) 0 64).storeLE (dinode sb a) 2 type.toNat } = s1' at e2
  have hd1' : (s1.disk.set (dinode sb a) 0 64).storeLE (dinode sb a) 2 type.toNat = s1'.disk := by rw [← hs1']; rfl
  have hi1' : s1'.inode = s1.inode := by rw [← hs1']; rfl
  rw [hd1'] at hb1 hu1 hblank
  have ht1 : Table sb s1' := ht.congr hi1' fun i hi => hb1.inode _ (ht.slot i hi).2.2 (hka i hi)
  obtain ⟨hc2, hk2⟩ := calm_iget ht1 hlt e2
  have href1 : (s1'.inode sp).ref = 0 := by
    by_contra hne
    have hp : 0 < (s1'.inode sp).ref := by have := ht1.ref sp; omega
    have := (hc2.key sp hp).2
    rw [hk2, hi1'] at this
    rw [hi1'] at hp
    exact hka sp hp this.symm
  have href2 : (s2.inode sp).ref = 1 := by
    rw [hc2.ref sp, href1, one_self]
    rfl
  obtain ⟨hc3, hv3, hp3⟩ := calm_ilock hc2.table e3
  have hk3 : (s3.inode sp).inum = a := (hc3.key sp (by rw [href2]; decide)).2.trans hk2
  have hdisk3 : s3.disk = s1'.disk := hc3.disk.trans hc2.disk
  refine ⟨a, hdelta2.trans hc3.toDelta (one_nonneg sp), hc3.table, hk3, ?_, hv3, hpos, hlt, hfree, ?_, ?_, ?_⟩
  · rw [hc3.ref sp, href2]
    rfl
  · rw [(hc3.table.copy sp hp3 hv3).1, hk3, hdisk3, hblank]
  · rw [hdisk3]
    exact hb1
  · rw [hdisk3]
    exact hu1

/-- `u` is `s3` with a free block `b` taken and filled. -/
structure BlockFilled (sb : Superblock) (a b : Nat) (bs : List UInt8) (s3 u : St) : Prop where
  inode : u.inode = s3.inode
  inodes : ∀ i < sb.ninodes, inodeOf sb u.disk i = inodeOf sb s3.disk i
  beside : Beside sb a s3.disk u.disk
  bits : ∀ c < sb.size, used sb u.disk c = true ↔ used sb s3.disk c = true ∨ c = b
  byte : ∀ k < 128, u.disk (b * BSIZE + k) = bs.getD k 0

theorem block_filled (hl : Layout sb) {a b : Nat} {bs : List UInt8} {s3 t : St} (hA : Allocated sb b s3 t)
    (hbd : dataStart sb ≤ b) (hlen : bs.length = 128) :
    BlockFilled sb a b bs s3 { t with disk := t.disk.put (b * BSIZE) bs, log := b :: t.log } := by
  generalize hu : ({ t with disk := t.disk.put (b * BSIZE) bs, log := b :: t.log } : St) = u
  have hudisk : u.disk = t.disk.put (b * BSIZE) bs := by rw [← hu]
  have hlow : ∀ y, y < dataStart sb * BSIZE → u.disk y = t.disk y := fun y hy => by
    rw [hudisk]
    exact put_ne (Or.inl (Nat.lt_of_lt_of_le hy (Nat.mul_le_mul_right _ hbd)))
  have hblk : ∀ c o, dataStart sb ≤ c → c ≠ b → o < BSIZE → u.disk (c * BSIZE + o) = s3.disk (c * BSIZE + o) :=
    fun c o hc hne ho => by
    rw [hudisk]
    have hput : t.disk.put (b * BSIZE + 0) bs (c * BSIZE + o) = t.disk (c * BSIZE + o) :=
      put_block (by rw [hlen]; decide) hne ho
    rw [Nat.add_zero] at hput
    rw [hput]
    exact hA.bytes hc hne ho
  have hmul : sb.bmapstart * BSIZE ≤ dataStart sb * BSIZE :=
    Nat.mul_le_mul_right _ (Nat.le_succ_of_le (Nat.le_add_left _ _))
  have hinode : ∀ i < sb.ninodes, inodeOf sb u.disk i = inodeOf sb s3.disk i :=
    fun i hi => loadDinode_congr fun y h1 h2 => by
    have hy : y < sb.bmapstart * BSIZE := Nat.lt_of_lt_of_le h2 (dinode_bound hl hi)
    rw [hlow y (Nat.lt_of_lt_of_le hy hmul)]
    exact hA.low hbd hy
  refine ⟨by rw [← hu]; exact hA.inode, hinode,
    ⟨fun i hi _ => hinode i hi, fun c o hc _ hcu ho => hblk c o hc (fun e => ?_) ho⟩, fun c hc => ?_, fun k hk => ?_⟩
  · rw [e, hA.free] at hcu
    cases hcu
  · rw [used_congr (hlow _ (byteOf_bounds hc).2)]
    exact hA.used_iff hbd hc
  · rw [hudisk]
    unfold Mem.put
    rw [if_pos ⟨Nat.le_add_right _ _, by omega⟩, Nat.add_sub_cancel_left]

theorem born (hl : Layout sb) (hs : Settled sb cwd s) {sp : Nat} {s2 s3 s4 : St} (h : Calm sb s s1 (one dp) 0)
    (hdir : (inodeOf sb s.disk (s1.inode dp).inum).type = T_DIR) {bs : List UInt8} (hlen : bs.length = 128) {x : Int}
    (e2 : ialloc sb (s1.inode dp).dev T_SYMLINK s1 = .ok (sp, s2)) (e3 : ilock sb sp s2 = .ok s3)
    (e4 : writei sb (kernelBytes bs) sp 0 0 MAXPATH s3 = .ok (x, s4)) :
      x = MAXPATH ∧ ∃ a b, Born sb cwd dp sp a b bs s s4 := by
  have hpdp : 0 < (s1.inode dp).ref := h.live hs.table (by rw [one_self])
  have hnn : ∀ i, 0 ≤ one dp i := one_nonneg dp
  have halloc : ∀ i, 0 < (s1.inode i).ref → (inodeOf sb s1.disk (s1.inode i).inum).type ≠ 0 := fun i hi => by
    rw [h.disk]
    by_cases hi0 : 0 < (s.inode i).ref
    · rw [(h.key i hi0).2]
      exact hs.alloc i hi0
    · have hid : i = dp := by
        by_contra hne
        have := h.ref i
        rw [one_ne hne] at this
        omega
      rw [hid, hdir]
      decide
  obtain ⟨a, hf⟩ := ialloc_fresh hl h.table (h.table.slot dp hpdp).2.1 halloc e2 e3
  obtain ⟨hx, b, t, hA, hs4⟩ := writei_new (by rw [hf.d]; rfl) (by rw [hf.d]; rfl) hlen e4
  have hlink : ({ (s3.inode sp).d with size := 128, addrs := Function.update (s3.inode sp).d.addrs 0 b } : Dinode) =
    oneBlockLink b := by
    rw [hf.d]
    rfl
  rw [hlink] at hs4
  have hres : Reserved sb s3.disk := fun c hc => by
    rw [hf.bits c (Nat.lt_of_lt_of_le hc hl.data), h.disk]
    exact hs.reserved c hc
  have hbd := hres.fresh hA
  have hfits := oneBlockLink_fits (b := b) (Nat.lt_trans hA.lt (Nat.lt_trans hl.small (by decide)))
  -- the block, before the dinode is written
  have hw := block_filled (a := a) hl hA hbd hlen
  generalize ({ t with disk := t.disk.put (b * BSIZE) bs, log := b :: t.log } : St) = u at hs4 hw
  have htu : Table sb u := hf.table.congr hw.inode fun i hi => hw.inodes _ (hf.table.slot i hi).2.2
  have hpu : 0 < (u.inode sp).ref := by
    rw [hw.inode, hf.ref]
    decide
  have hku : (u.inode sp).inum = a := by rw [hw.inode]; exact hf.key
  have hty : (oneBlockLink b).type ≠ 0 := by show T_SYMLINK ≠ 0; decide
  obtain ⟨ht4, hi4⟩ := htu.iupdate hpu hfits hty
  obtain ⟨hb4, hu4⟩ := iupdate_beside hl htu hpu hfits hty
  have hq : Quiet u (iupdate sb sp (u.setD sp (oneBlockLink b))) := (quiet_setD _ _ _).trans (iupdate_quiet _ _)
  have hhigh4 : ∀ y, sb.bmapstart * BSIZE ≤ y → (iupdate sb sp (u.setD sp (oneBlockLink b))).disk y = u.disk y :=
    fun y hy =>
    iupdate_high (s := u.setD sp (oneBlockLink b)) hl
      (by rw [(quiet_setD sp (oneBlockLink b) u).inum, hku]; exact hf.lt) hy
  have hvalid4 : ((iupdate sb sp (u.setD sp (oneBlockLink b))).inode sp).valid = true := by
    show ((u.setD sp (oneBlockLink b)).inode sp).valid = true
    unfold St.setD
    rw [setInode_self, hw.inode]
    exact hf.valid
  rw [← hs4] at ht4 hi4 hb4 hu4 hq hhigh4 hvalid4
  rw [hku] at hi4 hb4
  have hbits3 : ∀ c < sb.size, used sb s3.disk c = used sb s.disk c := fun c hc => by rw [hf.bits c hc, h.disk]
  have hbeside : Beside sb a s.disk s4.disk := by
    rw [← h.disk]
    refine (hf.beside.trans hw.beside fun c hc hcu => (hf.bits c hc).trans hcu).trans hb4 fun c hc hcu =>
      (hw.bits c hc).mpr (Or.inl ?_)
    rw [hf.bits c hc]
    exact hcu
  have hdelta : Delta s s4 (one dp + one sp) (one sp) :=
    ((h.toDelta.trans hf.delta hnn).then_quiet ((Quiet.of_inode hw.inode).trans hq)).congr
      (fun i => by
        show one dp i + (one sp i + 0) = one dp i + one sp i
        omega)
      fun i => by
        show (0 : Int) + (0 + one sp i) = one sp i
        omega
  have hlive : ∀ i, 0 < (s.inode i).ref → 0 < (s4.inode i).ref ∧ (s4.inode i).inum = (s.inode i).inum :=
    fun i hi => by
    have h1 := hdelta.ref i
    have h2 : 0 ≤ (one dp + one sp) i := Int.add_nonneg (hnn i) (one_nonneg sp i)
    exact ⟨by omega, (hdelta.key i hi).2⟩
  have hk4 : (s4.inode sp).inum = a := (hq.inum sp).trans hku
  have href4 : (s4.inode sp).ref = 1 := by rw [hq.ref, hw.inode, hf.ref]
  have hin4 : inodeOf sb s4.disk a = oneBlockLink b := by rw [hi4, if_pos rfl]
  have hty4 : (inodeOf sb s4.disk a).type ≠ T_DIR := by
    rw [hin4]
    show T_SYMLINK ≠ T_DIR
    decide
  have hfree : (inodeOf sb s.disk a).type = 0 := by
    rw [← h.disk]
    exact hf.free
  refine ⟨hx, a, b, hdelta, hs.toNames.beside hs.whole hbeside hty4 ht4 hlive
    (Or.inr (Or.inr ⟨sp, by rw [href4]; decide, hk4⟩)), hk4, href4, hvalid4, hf.pos, hf.lt,
    hfree, hin4, ⟨hbd, hA.lt, ?_⟩, fun c hc => ?_, hbeside, fun k hk => ?_⟩
  · rw [← hbits3 b hA.lt]
    exact hA.free
  · rw [hu4 c hc, hw.bits c hc, hbits3 c hc]
  · rw [hhigh4 _ (data_high hbd k).2]
    exact hw.byte k hk

theorem symlinkBytes_length (target junk : List UInt8) : (symlinkBytes target junk).length = 128 := by
  unfold symlinkBytes
  rw [List.length_map, List.length_range]

theorem Born.whole {sp b : Nat} {bs : List UInt8} (h : Born sb cwd dp sp a b bs s s1) :
    Whole sb s1.disk (oneBlockLink b) :=
  whole_single (fun _ hi => oneBlockLink_rest b hi) fun _ =>
    ⟨h.block.1, h.block.2.1, (h.bits b h.block.2.1).mpr (Or.inr rfl)⟩

theorem Born.owns {sp b : Nat} {bs : List UInt8} (h : Born sb cwd dp sp a b bs s s1) (c : Nat) :
    (oneBlockLink b).owns s1.disk c ↔ c = b := by
  have hb := ne_zero_of_data h.block.1
  constructor
  · intro ho
    obtain ⟨h0, p, e⟩ := ho
    rw [at_single fun _ hi => oneBlockLink_rest b hi] at e
    split at e
    · exact e.symm
    · exact absurd e.symm h0
  · intro e
    exact ⟨e ▸ hb, .addr 0, e.symm⟩

/-- The entry was not made: both inodes are let go, the new one with its block. -/
theorem born_undone (hl : Layout sb) (hs : Settled sb cwd s) {sp b : Nat} {bs : List UInt8} {s4 s5 s6 s7 : St}
    (h : Born sb cwd dp sp a b bs s s4) (hn : Named sb s.disk (s.inode cwd).inum (s4.inode dp).inum)
    (hdp : (inodeOf sb s.disk (s4.inode dp).inum).type = T_DIR) {inum : Nat} {x : Int} (hx : x < 0)
    (e5 : ilock sb dp s4 = .ok s5) (e6 : dirlink sb dp name inum s5 = .ok (x, s6)) (e7 : iunlockput sb dp s6 = .ok s7)
    (e8 : iunlockput sb sp s7 = .ok s') : Unchanged sb s s' := by
  have hnn : ∀ i, 0 ≤ one dp i := one_nonneg dp
  have hpsp : 0 < (s4.inode sp).ref := by rw [h.ref]; decide
  have hr : ∀ i, 0 ≤ (one dp + one sp) i := fun i => Int.add_nonneg (hnn i) (one_nonneg sp i)
  have hpdp : 0 < (s4.inode dp).ref := by
    have h1 := h.delta.ref dp
    have h2 := hs.table.ref dp
    have h3 := one_self dp
    have h4 := one_nonneg sp dp
    have h5 : (one dp + one sp) dp = one dp dp + one sp dp := rfl
    omega
  have ha : (s4.inode dp).inum ≠ a := fun e => by
    rw [e, h.free] at hdp
    exact absurd hdp (by decide)
  -- the directory is locked, and dirlink changes nothing
  obtain ⟨hc5, hv5, hp5⟩ := calm_ilock h.names.table e5
  have hk5 := (hc5.key dp hpdp).2
  have hd0 : (inodeOf sb s.disk a).type ≠ T_DIR := by rw [h.free]; decide
  have hcwd : (s4.inode cwd).inum = (s.inode cwd).inum := (h.delta.key cwd hs.live).2
  have hn5 : Named sb s4.disk (s4.inode cwd).inum (s5.inode dp).inum := by
    rw [hk5, hcwd]
    exact hs.toNames.named_beside hs.whole h.beside hd0 hn
  have hc6 := h.names.dirlink hc5 (fun _ => Int.le_refl 0) hp5 hv5 hn5 hx e6
  have hk6 : (s6.inode dp).inum = (s4.inode dp).inum := (hc6.key dp hpdp).2
  have hd6 : Delta s s6 (one dp + one sp) (one sp + one dp) :=
    (h.delta.trans hc6.toDelta hr).congr (fun i => Int.add_zero _) fun i => rfl
  unfold iunlockput at e7
  obtain ⟨t6, e6', e7⟩ := bind_ok e7
  have hct := calm_iunlock hc6.table e6'
  have hp6 : 0 < (s6.inode dp).ref := by
    rw [hc6.ref dp]
    show 0 < (s4.inode dp).ref + 0
    omega
  have hkt : (t6.inode dp).inum = (s4.inode dp).inum := (hct.key dp hp6).2.trans hk6
  have hdt : Delta s t6 (one dp + one sp) (one sp) := (hd6.trans hct.toDelta hr).congr (fun i => Int.add_zero _)
    fun i => by
    show one sp i + one dp i + -one dp i = one sp i
    omega
  have hpt : 0 < (t6.inode dp).ref := by
    rw [hct.ref dp]
    show 0 < (s6.inode dp).ref + 0
    omega
  have hspared : Spared sb s (t6.inode dp).inum := by
    rw [hkt]
    exact (hs.named _ hn).2
  have hone : 1 ≤ (one dp + one sp) dp := by
    have := one_nonneg sp dp
    show 1 ≤ one dp dp + one sp dp
    rw [one_self]
    omega
  have hsame : inodeOf sb t6.disk (t6.inode dp).inum = inodeOf sb s.disk (t6.inode dp).inum := by
    rw [hct.disk, hc6.disk, hkt]
    exact h.beside.inode _ (h.names.table.slot dp hpdp).2.2 ha
  have hc7 := calm_iput hct.table hpt (hdt.spared hct.table hr hone hspared hsame) e7
  have hd7 : Delta s s7 (one sp) (one sp) :=
    (hdt.trans hc7.toDelta hr).congr (fun i => by show one dp i + one sp i + -one dp i = one sp i; omega) fun i =>
      Int.add_zero _
  -- sp was referenced by nobody else
  have hs0 : (s.inode sp).ref = 0 ∧ one dp sp = 0 := by
    have h1 := h.delta.ref sp
    have h2 := hs.table.ref sp
    have h3 := hnn sp
    have h4 := one_self sp
    have h5 : (one dp + one sp) sp = one dp sp + one sp sp := rfl
    have h6 := h.ref
    omega
  have hlive : ∀ {u v : St} {r' l' : Nat → Int}, Calm sb u v r' l' → r' sp = 0 → 0 < (u.inode sp).ref →
    0 < (v.inode sp).ref := fun hc hz hp => by
    rw [hc.ref sp, hz]
    omega
  have hp6s := hlive hc6 rfl hpsp
  have hpts := hlive hct rfl hp6s
  have hz7 : (-one dp) sp = 0 := by show -one dp sp = 0; rw [hs0.2]; rfl
  have hp7s := hlive hc7 hz7 hpts
  have hv7 : (s7.inode sp).valid = true := hc7.valid sp hpts (hct.valid sp hp6s (hc6.valid sp hpsp h.valid))
  have hk7 : (s7.inode sp).inum = a :=
    ((hc7.key sp hpts).2.trans ((hct.key sp hp6s).2.trans (hc6.key sp hpsp).2)).trans h.key
  have hdisk7 : s7.disk = s4.disk := hc7.disk.trans (hct.disk.trans hc6.disk)
  unfold iunlockput at e8
  obtain ⟨t7, e7', e8⟩ := bind_ok e8
  have hc8 := calm_iunlock hc7.table e7'
  have hdisk8 : t7.disk = s4.disk := hc8.disk.trans hdisk7
  have hk8 : (t7.inode sp).inum = a := (hc8.key sp hp7s).2.trans hk7
  have hv8 := hc8.valid sp hp7s hv7
  have hp8 := hlive hc8 rfl hp7s
  have hd8 : (t7.inode sp).d = oneBlockLink b := by
    rw [(hc8.table.copy sp hp8 hv8).1, hk8, hdisk8, h.inode]
  have hdelta8 : Delta s t7 (one sp) 0 := (hd7.trans hc8.toDelta (one_nonneg sp)).congr (fun i => Int.add_zero _)
    fun i => Int.add_right_neg _
  have href8 : (t7.inode sp).ref = 1 := by
    rw [hdelta8.ref sp, hs0.1, one_self]
    rfl
  obtain ⟨ht', hb', hfree', hbits'⟩ := iput_frees hl hc8.table href8 hv8 (by rw [hd8]; rfl)
    (by rw [hd8, hdisk8]; exact h.whole) (by rw [hd8]; rfl) e8
  rw [hk8, hdisk8] at hb'
  rw [hk8] at hfree'
  rw [hd8, hdisk8] at hbits'
  have hused : ∀ c < sb.size, used sb s'.disk c = used sb s.disk c := fun c hc => by
    rw [Bool.eq_iff_iff, hbits' c hc, h.bits c hc, h.owns]
    constructor
    · intro hu
      exact hu.1.resolve_right hu.2
    · intro hu
      refine ⟨Or.inl hu, fun e => ?_⟩
      rw [e, h.block.2.2] at hu
      cases hu
  refine .of_beside (a := a) hs.whole ((hdelta8.trans (iput_delta e8) (one_nonneg sp)).congr
    (fun i => Int.add_right_neg _) fun i => rfl) ht'
    (h.beside.trans hb' fun c hc hu => (h.bits c hc).mpr (Or.inl hu)) (Or.inr ⟨h.free, hfree'⟩) hused

theorem sys_symlink_unchanged (hl : Layout sb) (hs : Settled sb cwd s) {junk : List UInt8}
    {target path : Option (List UInt8)}
    (e : sys_symlink sb cwd junk target path s = .ok (-1, s')) : Unchanged sb s s' := by
  have hcalm : ∀ t, Calm sb s t 0 0 → Unchanged sb s t := fun t h => h.unchanged hs (fun _ => rfl) fun _ => rfl
  unfold sys_symlink nameiparent at e
  cases target with
  | none =>
    cases e
    exact hcalm s (.refl hs.table)
  | some target =>
  cases path with
  | none =>
    cases e
    exact hcalm s (.refl hs.table)
  | some path =>
    obtain ⟨⟨x, s1⟩, e1, e⟩ := bind_ok e
    obtain ⟨h1, hres, hn⟩ := namex_calm hs.toNames e1
    cases x with
    | none =>
      cases e
      exact hcalm s' h1
    | some f =>
      obtain ⟨dp, name⟩ := f
      have hn1 : Named sb s.disk (s.inode cwd).inum (s1.inode dp).inum := hn _ rfl
      have hdir : (inodeOf sb s.disk (s1.inode dp).inum).type = T_DIR := by
        have hwalk := hres.symm
        unfold resolve at hwalk
        exact walk_dir (x := ((s1.inode dp).inum, name)) hwalk
      obtain ⟨⟨sp, s2⟩, e2, e⟩ := bind_ok e
      obtain ⟨s3, e3, e⟩ := bind_ok e
      obtain ⟨⟨y, s4⟩, e4, e⟩ := bind_ok e
      obtain ⟨hy, a, b, hborn⟩ := born hl hs h1 hdir (symlinkBytes_length target junk) e2 e3 e4
      have hk4 : (s4.inode dp).inum = (s1.inode dp).inum := by
        have hp1 : 0 < (s1.inode dp).ref := h1.live hs.table (by show 1 ≤ one dp dp; rw [one_self])
        have hq := (ialloc_delta e2).trans ((ilock_delta e3).then_quiet (writei_quiet e4)) (one_nonneg sp)
        exact (hq.key dp hp1).2
      rw [← hk4] at hn1 hdir
      subst hy
      dsimp only at e
      rw [if_neg fun hne => hne rfl] at e
      obtain ⟨s5, e5, e⟩ := bind_ok e
      obtain ⟨⟨z, s6⟩, e6, e⟩ := bind_ok e
      obtain ⟨s7, e7, e⟩ := bind_ok e
      dsimp only at e
      split at e
      · rename_i hneg
        obtain ⟨s8, e8, e⟩ := bind_ok e
        cases e
        exact born_undone hl hs hborn hn1 hdir hneg e5 e6 e7 e8
      · obtain ⟨s8, -, e⟩ := bind_ok e
        cases e

/-! ## All five -/

/-- The calls on names, with what argstr and argint fetched. -/
inductive NameCall where
  | link (old new : Option (List UInt8))
  | symlink (junk : List UInt8) (target path : Option (List UInt8))
  | unlink (path : Option (List UInt8))
  | mkdir (path : Option (List UInt8))
  | mknod (args : Option (List UInt8 × UInt16 × UInt16))

variable (sb) in
def NameCall.run (cwd : Nat) (s : St) : NameCall → Except String (Int × St)
  | link old new => sys_link sb cwd old new s
  | symlink junk target path => sys_symlink sb cwd junk target path s
  | unlink path => sys_unlink sb cwd path s
  | mkdir path => sys_mkdir sb cwd path s
  | mknod args => sys_mknod sb cwd args s

theorem failing_call_changes_nothing (hl : Layout sb) (hs : Settled sb cwd s) (c : NameCall)
    (e : c.run sb cwd s = .ok (-1, s')) : Unchanged sb s s' := by
  cases c with
  | link old new => exact sys_link_unchanged hl hs e
  | symlink junk target path => exact sys_symlink_unchanged hl hs e
  | unlink path => exact sys_unlink_unchanged hs e
  | mkdir path => exact mknode_unchanged hs e
  | mknod args => exact mknode_unchanged hs e

end

/-! ## A link that exists already -/

theorem linkCycle_inodes {i : Nat} (hi : i < 15) (h : (inodeOf smallDisk linkCycle i).type ≠ 0) : i = 1 ∨ i = 2 := by
  have hall : ∀ i < 15, i = 1 ∨ i = 2 ∨ (inodeOf smallDisk linkCycle i).type = 0 := by decide
  rcases hall i hi with e | e | e
  · exact Or.inl e
  · exact Or.inr e
  · exact absurd e h

/-- The only entry of the root directory is for inode 2. -/
theorem linkCycle_lookup {name : List UInt8} {x : Nat × Nat} (h : lookup smallDisk linkCycle 1 name = some x) :
    x.1 = 2 := by
  have hsize : (inodeOf smallDisk linkCycle 1).size = 16 := by decide
  have hinum : ((inodeOf smallDisk linkCycle 1).entryAt linkCycle 0).inum = 2 := by decide
  unfold lookup at h
  rw [hsize] at h
  unfold Dinode.find at h
  rw [hsize, hinum, if_pos (by decide), if_neg (by decide)] at h
  split at h
  · cases h
    rfl
  · unfold Dinode.find at h
    rw [hsize] at h
    cases h

theorem linkCycle_named {i : Nat} (h : Named smallDisk linkCycle 1 i) : i = 1 ∨ i = 2 := by
  induction h with
  | root => exact Or.inl rfl
  | start => exact Or.inl rfl
  | entry _ ht hl ih =>
    rcases ih with e | e
    · subst e
      exact Or.inr (linkCycle_lookup hl)
    · subst e
      exact absurd ht (by decide)

theorem linkCycle_whole {i : Nat} (h : i = 1 ∨ i = 2) :
    Whole smallDisk linkCycle (inodeOf smallDisk linkCycle i) := by
  have hrest : ∀ j : Fin (NDIRECT + 2), j ≠ 0 → (inodeOf smallDisk linkCycle 1).addrs j = 0 ∧
    (inodeOf smallDisk linkCycle 2).addrs j = 0 := by decide
  rcases h with e | e <;> subst e
  · exact whole_single (fun j hj => (hrest j hj).1) fun _ => by decide
  · exact whole_single (fun j hj => (hrest j hj).2) fun _ => by decide

theorem atRoot_empty {disk : Mem} {i : Nat} (h : i ≠ 0) : ((atRoot disk).fs.inode i).ref = 0 :=
  congrArg Inode.ref (if_neg h)

/-- Only slot 0 has a reference. -/
theorem atRoot_ref {disk : Mem} {i : Nat} (h : 0 < ((atRoot disk).fs.inode i).ref) : i = 0 := by
  by_contra hne
  rw [atRoot_empty hne] at h
  exact absurd h (by decide)

theorem atRoot_settled : Settled smallDisk 0 (atRoot linkCycle).fs := by
  have htype : (inodeOf smallDisk linkCycle 1).type = T_DIR := by decide
  have htable : Table smallDisk (atRoot linkCycle).fs := by
    refine ⟨fun i => ?_, fun i hi => ?_, fun i j hi hj _ => (atRoot_ref hi).trans (atRoot_ref hj).symm,
      fun i hi _ => ?_⟩
    · by_cases hne : i = 0
      · rw [hne]
        decide
      · exact Int.le_of_eq (atRoot_empty hne).symm
    · rw [atRoot_ref hi]
      decide
    · rw [atRoot_ref hi]
      refine ⟨rfl, ?_⟩
      show (inodeOf smallDisk linkCycle 1).type ≠ 0
      rw [htype]
      decide
  refine ⟨⟨htable, by decide, fun i hi ht k hk => ?_, fun i hn => ?_⟩, ?_,
    fun i hi h => linkCycle_whole (linkCycle_inodes hi h), fun i hi => ?_⟩
  · have hne : (inodeOf smallDisk linkCycle i).type ≠ 0 := fun e => absurd (e.symm.trans ht) (by decide)
    have hi1 : i = 1 := (linkCycle_inodes hi hne).resolve_right fun e => by
      subst e
      exact absurd ht (by decide)
    subst hi1
    have hall : ∀ k < 16, k < MAXFILE * BSIZE ∧
      (inodeOf smallDisk linkCycle 1).at linkCycle (slotOf (k / BSIZE)) ≠ 0 := by decide
    exact hall k hk
  · rcases linkCycle_named hn with e | e <;> subst e
    · exact ⟨by decide, Or.inr (Or.inl (by decide))⟩
    · exact ⟨by decide, Or.inr (Or.inl (by decide))⟩
  · exact (by decide : ∀ c < 4, used smallDisk linkCycle c = true)
  · rw [atRoot_ref hi]
    exact fun e => absurd (htype.symm.trans e) (by decide)

/-- sys_symlink makes the new inode before it finds that `a` exists. -/
theorem failing_call_changes_nothing_symlink :
    ∃ s', sys_symlink smallDisk 0 [] (some [98]) (some [97]) (atRoot linkCycle).fs = .ok (-1, s') ∧
    Unchanged smallDisk (atRoot linkCycle).fs s' := by
  have hrun : (sys_symlink smallDisk 0 [] (some [98]) (some [97]) (atRoot linkCycle).fs).toOption.map (·.1) =
    some (-1) := by decide +kernel
  cases e : sys_symlink smallDisk 0 [] (some [98]) (some [97]) (atRoot linkCycle).fs with
  | error m =>
    rw [e] at hrun
    cases hrun
  | ok y =>
    rw [e] at hrun
    obtain ⟨r, s'⟩ := y
    cases hrun
    exact ⟨s', rfl, failing_call_changes_nothing smallDisk_layout atRoot_settled
      (.symlink [] (some [98]) (some [97])) e⟩

end Xv6Labs.Fs.Disk
