/-
  Xv6Labs.Fs.Resolve — paths on the disk alone.

  `walk` is the loop of namex over inode numbers, `resolve` starts it at the root or the current
  directory. `Named`: the inodes that some path leads to. `Names`: what resolution relies on,
  directories without holes and no named inode that would go with its last reference.

  - `namex_calm`: namex returns what `resolve` says, and only a reference to it was taken.
-/

import Xv6Labs.Fs.Volume

namespace Xv6Labs.Fs.Disk

open Lib
open Ftable (one one_self one_ne one_nonneg)

section

variable {sb : Superblock} {s s' s0 s1 : St} {ip dp cwd : Nat} {r l : Nat → Int} {disk disk' : Mem}
    {name : List UInt8}

variable (sb) in
/-- With the rounds left; `name` is that of the last element. -/
def walk (disk : Mem) (parent : Bool) : Nat → List UInt8 → List UInt8 → Nat → Option (Nat × List UInt8)
  | 0, _, _, _ => none
  | n + 1, path, name, inum =>
    match skipelem path with
    | none => if parent then none else some (inum, name)
    | some (path, name) =>
      if (inodeOf sb disk inum).type ≠ T_DIR then none
      else if parent ∧ path = [] then some (inum, name)
      else
        match lookup sb disk inum name with
        | none => none
        | some (next, _) => walk disk parent n path name next

variable (sb) in
/-- What a path leads to, from the current directory `dir`. -/
def resolve (disk : Mem) (parent : Bool) (dir : Nat) (path : List UInt8) : Option (Nat × List UInt8) :=
  walk sb disk parent (path.length + 1) path [] (if path.head? = some slash then ROOTINO else dir)

variable (sb) in
/-- The inodes that paths lead to. -/
inductive Named (disk : Mem) (dir : Nat) : Nat → Prop
  | root : Named disk dir ROOTINO
  | start : Named disk dir dir
  | entry {i : Nat} {name : List UInt8} {x : Nat × Nat} : Named disk dir i → (inodeOf sb disk i).type = T_DIR →
      lookup sb disk i name = some x →
      Named disk dir x.1

/-- The parent of a path is a directory. -/
theorem walk_dir {x : Nat × List UInt8} : ∀ {n path name i}, walk sb disk true n path name i = some x →
    (inodeOf sb disk x.1).type = T_DIR := by
  intro n
  induction n with
  | zero =>
    intro path name i e
    cases e
  | succ n ih =>
    intro path name i e
    unfold walk at e
    split at e
    · cases e
    split at e
    · cases e
    rename_i ht
    split at e
    · cases e
      exact not_not.mp ht
    split at e
    · cases e
    · exact ih e

/-- Directories have no holes, and paths lead to inodes that are free, have links or are in use. -/
structure Names (sb : Superblock) (cwd : Nat) (s : St) : Prop where
  table : Table sb s
  live : 0 < (s.inode cwd).ref
  mapped : ∀ dir < sb.ninodes, (inodeOf sb s.disk dir).type = T_DIR → Mapped s.disk (inodeOf sb s.disk dir)
  named : ∀ inum, Named sb s.disk (s.inode cwd).inum inum → inum < sb.ninodes ∧ Spared sb s inum

theorem Names.dirlookup (hN : Names sb cwd s0) (h : Calm sb s0 s r l) (hr : ∀ i, 0 ≤ r i) (hp : 0 < (s.inode dp).ref)
    (hv : (s.inode dp).valid = true)
    (hn : Named sb s0.disk (s0.inode cwd).inum (s.inode dp).inum) {found : Option (Nat × Nat)}
    (e : dirlookup sb dp name s = .ok (found, s')) :
    Calm sb s0 s' (r + took (found.map (·.1))) l ∧ (found.map fun f => ((s'.inode f.1).inum, f.2)) =
      lookup sb s0.disk (s.inode dp).inum name ∧
      ∀ f ∈ found, Named sb s0.disk (s0.inode cwd).inum (s'.inode f.1).inum := by
  have ht : (s.inode dp).d.type = T_DIR := by
    by_contra ht
    unfold Disk.dirlookup at e
    rw [if_pos ht] at e
    cases e
  have hd := (h.table.copy dp hp hv).1
  rw [h.disk] at hd
  rw [hd] at ht
  have hm : Mapped s.disk (s.inode dp).d := by
    rw [hd, h.disk]
    exact hN.mapped _ (hN.named _ hn).1 ht
  obtain ⟨hc, hl⟩ := dirlookup_calm h.table hp hv hm (fun x hx => by
    rw [h.disk] at hx
    exact (hN.named _ (hn.entry ht hx)).1) e
  rw [h.disk] at hl
  refine ⟨(h.then hr hc).congr (fun _ => rfl) fun _ => Int.add_zero _, hl, fun f hf => ?_⟩
  have hfound : found = some f := hf
  rw [hfound] at hl
  exact hn.entry ht hl.symm

/-- Who holds a reference to `ip` besides those of `s0` lets it go. -/
theorem Names.iunlockput (hN : Names sb cwd s0) (h : Calm sb s0 s r l) (hr : ∀ i, 0 ≤ r i) (h1 : 1 ≤ r ip)
    (hn : Named sb s0.disk (s0.inode cwd).inum (s.inode ip).inum) (e : iunlockput sb ip s = .ok s') :
      Calm sb s0 s' (r + -one ip) (l + -one ip) :=
  h.iunlockput hN.table hr h1 (hN.named _ hn).2 e

theorem namexLoop_calm (hN : Names sb cwd s0) {parent : Bool} {x : Option (Nat × List UInt8)} :
    ∀ {n path name ip s}, Calm sb s0 s (one ip) 0 →
    Named sb s0.disk (s0.inode cwd).inum (s.inode ip).inum → namexLoop sb parent n path name ip s = .ok (x, s') →
    Calm sb s0 s' (took (x.map (·.1))) 0 ∧ (x.map fun f => ((s'.inode f.1).inum, f.2)) =
      walk sb s0.disk parent n path name (s.inode ip).inum ∧
      ∀ f ∈ x, Named sb s0.disk (s0.inode cwd).inum (s'.inode f.1).inum := by
  intro n
  induction n with
  | zero =>
    intro path name ip s _ _ e
    cases e
  | succ n ih =>
    intro path name ip s h hn e
    have hip : ∀ i, 0 ≤ one ip i := one_nonneg ip
    have hone : 1 ≤ one ip ip := by rw [one_self]
    unfold namexLoop at e
    unfold walk
    cases hskip : skipelem path with
    | none =>
      rw [hskip] at e
      dsimp only at e ⊢
      cases parent with
      | true =>
        obtain ⟨s1, e1, e⟩ := bind_ok e
        cases e
        exact ⟨(h.iput hN.table hip hone (hN.named _ hn).2 e1).congr (fun i => Int.add_right_neg _) fun _ => rfl, rfl,
          fun f hf => by cases hf⟩
      | false =>
        cases e
        exact ⟨h, rfl, fun f hf => by cases hf; exact hn⟩
    | some y =>
      obtain ⟨rest, elem⟩ := y
      rw [hskip] at e
      obtain ⟨s1, e1, e⟩ := bind_ok e
      obtain ⟨hl, hv, hp⟩ := calm_ilock h.table e1
      have h1 := (h.then hip hl).congr (a := one ip) (b := one ip) (fun _ => Int.add_zero _) fun _ => Int.zero_add _
      have hkey : (s1.inode ip).inum = (s.inode ip).inum := (hl.key ip (h.live hN.table hone)).2
      rw [← hkey] at hn ⊢
      have hd := (h1.table.copy ip hp hv).1
      rw [h1.disk] at hd
      dsimp only at e ⊢
      rw [hd] at e
      split at e
      · rename_i ht
        rw [if_pos ht]
        obtain ⟨s2, e2, e⟩ := bind_ok e
        cases e
        exact ⟨(hN.iunlockput h1 hip hone hn e2).congr (fun i => Int.add_right_neg _) fun i => Int.add_right_neg _,
          rfl, fun f hf => by cases hf⟩
      rename_i ht
      rw [if_neg ht]
      split at e
      · rename_i hlast
        rw [if_pos hlast]
        obtain ⟨s2, e2, e⟩ := bind_ok e
        cases e
        have h2 := h1.then hip (calm_iunlock h1.table e2)
        have hkey2 : (s'.inode ip).inum = (s1.inode ip).inum := ((calm_iunlock h1.table e2).key ip hp).2
        refine ⟨h2.congr (fun _ => Int.add_zero _) fun i => Int.add_right_neg _, ?_, fun f hf => ?_⟩
        · exact congrArg (fun i => some (i, elem)) hkey2
        · cases hf
          show Named _ _ _ (s'.inode ip).inum
          rw [hkey2]
          exact hn
      · rename_i hlast
        rw [if_neg hlast]
        obtain ⟨⟨next, s2⟩, e2, e⟩ := bind_ok e
        obtain ⟨s3, e3, e⟩ := bind_ok e
        obtain ⟨h2, hlook, hnext⟩ := hN.dirlookup h1 hip hp hv hn e2
        have hkey2 : (s2.inode ip).inum = (s1.inode ip).inum := ((dirlookup_delta e2).key ip hp).2
        have hr2 : ∀ i, 0 ≤ (one ip + took (next.map (·.1))) i := fun i => Int.add_nonneg (hip i) (took_nonneg _ i)
        have hone2 : 1 ≤ (one ip + took (next.map (·.1))) ip :=
          Int.le_trans hone (Int.le_add_of_nonneg_right (took_nonneg _ ip))
        have h3 := hN.iunlockput h2 hr2 hone2 (by rw [hkey2]; exact hn) e3
        rw [← hlook]
        cases next with
        | none =>
          cases e
          refine ⟨h3.congr (fun i => ?_) fun i => Int.add_right_neg _, rfl, fun f hf => by cases hf⟩
          show one ip i + 0 + -one ip i = 0
          omega
        | some f =>
          obtain ⟨k, o⟩ := f
          have hpk : 0 < (s2.inode k).ref := by
            refine h2.live hN.table ?_
            have := hip k
            show 1 ≤ one ip k + one k k
            rw [one_self]
            omega
          have hkey3 : (s3.inode k).inum = (s2.inode k).inum := ((iunlockput_delta e3).key k hpk).2
          have h4 : Calm sb s0 s3 (one k) 0 :=
            h3.congr (fun i => by show one ip i + one k i + -one ip i = one k i; omega) fun i => Int.add_right_neg _
          have hk := hnext (k, o) rfl
          dsimp only at hk
          rw [← hkey3] at hk
          obtain ⟨h5, h6, h7⟩ := ih h4 hk e
          refine ⟨h5, h6.trans ?_, h7⟩
          rw [hkey3]
          rfl

theorem namex_calm (hN : Names sb cwd s) {path : List UInt8} {parent : Bool} {x : Option (Nat × List UInt8)}
    (e : namex sb cwd path parent s = .ok (x, s')) :
    Calm sb s s' (took (x.map (·.1))) 0 ∧ (x.map fun f => ((s'.inode f.1).inum, f.2)) =
      resolve sb s.disk parent (s.inode cwd).inum path ∧
      ∀ f ∈ x, Named sb s.disk (s.inode cwd).inum (s'.inode f.1).inum := by
  unfold namex namexStart at e
  obtain ⟨⟨ip, s1⟩, e1, e⟩ := bind_ok e
  unfold resolve
  split at e1
  · rename_i hs
    obtain ⟨hc, hk⟩ := calm_iget hN.table (hN.named _ .root).1 e1
    rw [if_pos hs, ← hk]
    exact namexLoop_calm hN hc (by rw [hk]; exact .root) e
  · rename_i hs
    cases e1
    have hk : ((idup cwd s).inode cwd).inum = (s.inode cwd).inum := by
      unfold idup
      rw [setInode_self]
    obtain ⟨h1, h2, h3⟩ := namexLoop_calm hN (calm_idup hN.table hN.live) (by rw [hk]; exact .start) e
    rw [if_neg hs, ← hk]
    exact ⟨h1, h2, by rw [hk]; exact h3⟩

end

end Xv6Labs.Fs.Disk
