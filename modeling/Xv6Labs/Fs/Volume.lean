/-
  Xv6Labs.Fs.Volume — the disk as inodes with names, and the inode table over it.

  `inodeOf`: the dinode of a number; `Dinode.byte`: a byte of its file; `lookup`: the entry of a
  directory for a name. They read the disk and nothing else.

  `Table`: a slot with references has a number of its own, and a copy that is valid is the dinode
  on disk. `Calm s s'`: from `s` to `s'` the disk stayed and the references and locks went by.

  - `dirlookup_calm`: dirlookup is `lookup` and then iget.
  - `Calm.iget`, `Calm.ilock`, `Calm.iunlock`, `Calm.iput`: none of them writes to the disk. For
    iput this needs that the inode has links or was referenced from the start.
-/

import Xv6Labs.Fs.File

namespace Xv6Labs.Fs.Disk

open Lib
open Ftable (one one_self one_ne one_nonneg)

section

variable {sb : Superblock} {s s' s0 s1 : St} {ip dp inum : Nat} {r l r' l' : Nat → Int} {disk disk' : Mem}
    {d : Dinode} {name : List UInt8}

/-! ## The disk -/

variable (sb) in
def inodeOf (disk : Mem) (inum : Nat) : Dinode := loadDinode disk (dinode sb inum)

/-- Byte `k` of the file of a dinode. -/
def Dinode.byte (d : Dinode) (disk : Mem) (k : Nat) : UInt8 :=
  if d.at disk (slotOf (k / BSIZE)) = 0 then 0 else disk (d.at disk (slotOf (k / BSIZE)) * BSIZE + k % BSIZE)

/-- The bytes of a file all have their blocks. -/
def Mapped (disk : Mem) (d : Dinode) : Prop := ∀ k < d.size, k < MAXFILE * BSIZE ∧ d.at disk (slotOf (k / BSIZE)) ≠ 0

/-- The directory entry at `off`. -/
def Dinode.entryAt (d : Dinode) (disk : Mem) (off : Nat) : Dirent :=
  dirent ((List.range 16).map fun j => d.byte disk (off + j))

/-- The number and place of the first entry for a name, with the rounds left and `off`. -/
def Dinode.find (d : Dinode) (disk : Mem) (name : List UInt8) : Nat → Nat → Option (Nat × Nat)
  | 0, _ => none
  | n + 1, off =>
    if off < d.size then
      if (d.entryAt disk off).inum = 0 then d.find disk name n (off + 16)
      else if sameName name (d.entryAt disk off).name then some ((d.entryAt disk off).inum.toNat, off)
      else d.find disk name n (off + 16)
    else none

variable (sb) in
def lookup (disk : Mem) (dir : Nat) (name : List UInt8) : Option (Nat × Nat) :=
  (inodeOf sb disk dir).find disk name ((inodeOf sb disk dir).size / 16 + 1) 0

/-- readi of a whole entry, where there is one. -/
theorem readi_entry (hm : Mapped s.disk (s.inode ip).d) {off : Nat} {bs : List UInt8}
    (hoff : off < (s.inode ip).d.size) (e : readi sb ip off 16 s = .ok (bs, s')) (hlen : bs.length = 16) :
      s' = s ∧ dirent bs = (s.inode ip).d.entryAt s.disk off := by
  have hmax := (hm off hoff).1
  have hlt : off + 16 < 2 ^ 32 := by simp only [MAXFILE, NINDIRECT2, NDIRECT, NINDIRECT, BSIZE] at hmax; omega
  rw [readi_mapped sb hlt fun k _ h1 _ => hm k h1] at e
  cases e
  rw [List.length_map, List.length_range] at hlen
  rw [hlen]
  exact ⟨rfl, rfl⟩

theorem dirlookupLoop_mapped (hm : Mapped s.disk (s.inode dp).d) {found : Option (Nat × Nat)} :
    ∀ {n off}, dirlookupLoop sb dp name n off s = .ok (found, s') →
    match (s.inode dp).d.find s.disk name n off with
    | none => found = none ∧ s' = s
    | some (inum, o) => ∃ k, found = some (k, o) ∧ iget (s.inode dp).dev inum s = .ok (k, s') := by
  intro n
  induction n with
  | zero =>
    intro off e
    cases e
    exact ⟨rfl, rfl⟩
  | succ n ih =>
    intro off e
    unfold dirlookupLoop at e
    unfold Dinode.find
    by_cases hoff : off < (s.inode dp).d.size
    · rw [if_pos hoff] at e ⊢
      obtain ⟨⟨bs, s1⟩, e1, e⟩ := bind_ok e
      dsimp only at e
      split at e
      · cases e
      rename_i hlen
      obtain ⟨hs1, hde⟩ := readi_entry hm hoff e1 (not_not.mp hlen)
      rw [hs1, hde] at e
      split at e
      · rename_i h0
        rw [if_pos h0]
        exact ih e
      rename_i h0
      rw [if_neg h0]
      split at e
      · rename_i hname
        rw [if_pos hname]
        obtain ⟨⟨k, s2⟩, e2, e⟩ := bind_ok e
        cases e
        exact ⟨k, rfl, e2⟩
      · rename_i hname
        rw [if_neg hname]
        exact ih e
    · rw [if_neg hoff] at e ⊢
      cases e
      exact ⟨rfl, rfl⟩

/-! ## The table -/

/-- A slot with references has a number of its own, and a valid copy is the dinode on disk. -/
structure Table (sb : Superblock) (s : St) : Prop where
  ref : ∀ i, 0 ≤ (s.inode i).ref
  slot : ∀ i, 0 < (s.inode i).ref → i < NINODE ∧ (s.inode i).dev = ROOTDEV ∧ (s.inode i).inum < sb.ninodes
  apart : ∀ i j, 0 < (s.inode i).ref → 0 < (s.inode j).ref → (s.inode i).inum = (s.inode j).inum → i = j
  copy : ∀ i, 0 < (s.inode i).ref → (s.inode i).valid = true →
    (s.inode i).d = inodeOf sb s.disk (s.inode i).inum ∧ (s.inode i).d.type ≠ 0

/-- One slot was written, on the same disk. -/
theorem Table.set (h : Table sb s) {k : Nat} {x : Inode} (h0 : 0 ≤ x.ref)
    (h1 : 0 < x.ref → k < NINODE ∧ x.dev = ROOTDEV ∧ x.inum < sb.ninodes)
    (h2 : 0 < x.ref → ∀ i, i ≠ k → 0 < (s.inode i).ref → (s.inode i).inum ≠ x.inum)
    (h3 : 0 < x.ref → x.valid = true → x.d = inodeOf sb s.disk x.inum ∧ x.d.type ≠ 0) :
      Table sb (s.setInode k x) := by
  refine ⟨fun i => ?_, fun i => ?_, fun i j => ?_, fun i => ?_⟩
  · by_cases e : i = k
    · rw [e, setInode_self]
      exact h0
    · rw [setInode_ne e]
      exact h.ref i
  · by_cases e : i = k
    · rw [e, setInode_self]
      exact h1
    · rw [setInode_ne e]
      exact h.slot i
  · by_cases e : i = k <;> by_cases e' : j = k
    · intro _ _ _
      exact e.trans e'.symm
    · rw [e, setInode_self, setInode_ne e']
      intro hx hj heq
      exact absurd heq.symm (h2 hx j e' hj)
    · rw [e', setInode_self, setInode_ne e]
      intro hi hx heq
      exact absurd heq (h2 hx i e hi)
    · rw [setInode_ne e, setInode_ne e']
      exact h.apart i j
  · by_cases e : i = k
    · rw [e, setInode_self]
      exact h3
    · rw [setInode_ne e]
      exact h.copy i

/-- iget takes an empty slot only if no slot has the inode. -/
theorem igetLoop_fresh {t : Nat → Inode} {dev k : Nat} {x : Inode} :
    ∀ {n j empty}, igetLoop t dev inum n j empty = some (k, x) →
    (∀ i, empty = some i → i < j) →
    k < j + n ∧ ((t k).ref = 0 → ∀ i, j ≤ i → i < j + n → 0 < (t i).ref → (t i).dev = dev → (t i).inum ≠ inum) := by
  intro n
  induction n with
  | zero =>
    intro j empty e he
    cases empty with
    | none => cases e
    | some i =>
      cases e
      exact ⟨he k rfl, fun _ i h1 h2 => absurd h2 (Nat.not_lt.mpr h1)⟩
  | succ n ih =>
    intro j empty e he
    unfold igetLoop at e
    split at e
    · rename_i h
      cases e
      exact ⟨Nat.lt_add_of_pos_right (Nat.succ_pos n), fun h0 => absurd h.1 (by rw [h0]; decide)⟩
    · rename_i h
      obtain ⟨h1, h2⟩ := ih e fun i hi => by
        split at hi
        · cases hi
          exact Nat.lt_succ_self j
        · exact Nat.lt_succ_of_lt (he i hi)
      refine ⟨by omega, fun h0 i h3 h4 h5 h6 h7 => ?_⟩
      by_cases hij : i = j
      · subst hij
        exact h ⟨h5, h6, h7⟩
      · exact h2 h0 i (by omega) (by omega) h5 h6 h7

theorem igetLoop_none {t : Nat → Inode} {dev inum : Nat} : ∀ {n j empty}, igetLoop t dev inum n j empty = none →
    empty = none ∧ ∀ i, j ≤ i → i < j + n → (t i).ref ≠ 0 := by
  intro n
  induction n with
  | zero =>
    intro j empty e
    cases empty with
    | none => exact ⟨rfl, fun i h1 h2 => absurd h2 (Nat.not_lt.mpr h1)⟩
    | some k => cases e
  | succ n ih =>
    intro j empty e
    unfold igetLoop at e
    split at e
    · cases e
    · obtain ⟨h1, h2⟩ := ih e
      split at h1
      · cases h1
      · rename_i hn
        refine ⟨h1, fun i h3 h4 h0 => ?_⟩
        by_cases hij : i = j
        · exact hn ⟨h1, hij ▸ h0⟩
        · exact h2 i (by omega) (by omega) h0

variable (s) in
theorem iget_cases (dev inum : Nat) : (∃ k s', iget dev inum s = .ok (k, s')) ∨
    iget dev inum s = .error "iget: no inodes" ∧ ∀ i < NINODE, (s.inode i).ref ≠ 0 := by
  unfold iget
  cases e : igetLoop s.inode dev inum NINODE 0 none with
  | none => exact Or.inr ⟨rfl, fun i hi => (igetLoop_none e).2 i (Nat.zero_le i) (by rw [Nat.zero_add]; exact hi)⟩
  | some x => exact Or.inl ⟨x.1, _, rfl⟩

/-- From `s` to `s'` the disk stayed, and references and locks went by `r` and `l`. -/
structure Calm (sb : Superblock) (s s' : St) (r l : Nat → Int) : Prop extends Delta s s' r l where
  disk : s'.disk = s.disk
  log : s'.log = s.log
  valid : ∀ i, 0 < (s.inode i).ref → (s.inode i).valid = true → (s'.inode i).valid = true
  table : Table sb s'

theorem Calm.refl (h : Table sb s) : Calm sb s s 0 0 := ⟨(Quiet.refl s).delta, rfl, rfl, fun _ _ hv => hv, h⟩

theorem Calm.then (h : Calm sb s0 s r l) (hr : ∀ i, 0 ≤ r i) (h' : Calm sb s s' r' l') :
    Calm sb s0 s' (r + r') (l + l') :=
  ⟨h.toDelta.trans h'.toDelta hr, h'.disk.trans h.disk, h'.log.trans h.log,
    fun i hi hv => h'.valid i (by have := h.ref i; have := hr i; omega) (h.valid i hi hv), h'.table⟩

theorem Calm.congr {a b : Nat → Int} (h : Calm sb s s' r l) (hr : ∀ i, r i = a i) (hl : ∀ i, l i = b i) :
    Calm sb s s' a b :=
  ⟨h.toDelta.congr hr hl, h.disk, h.log, h.valid, h.table⟩

/-- A slot that had references, or got some. -/
theorem Calm.live (h : Calm sb s0 s r l) (h0 : Table sb s0) (hr : 1 ≤ r ip) : 0 < (s.inode ip).ref := by
  have := h.ref ip
  have := h0.ref ip
  omega

/-- A slot written that stays valid if it was. -/
theorem valid_set {x : Inode} (h : 0 < (s.inode ip).ref → (s.inode ip).valid = true → x.valid = true) (i : Nat)
    (hi : 0 < (s.inode i).ref) (hv : (s.inode i).valid = true) : ((s.setInode ip x).inode i).valid = true := by
  by_cases e : i = ip
  · subst e
    rw [setInode_self]
    exact h hi hv
  · rw [setInode_ne e]
    exact hv

theorem calm_iget {k : Nat} (h : Table sb s) (hn : inum < sb.ninodes) (e : iget ROOTDEV inum s = .ok (k, s')) :
    Calm sb s s' (one k) 0 ∧ (s'.inode k).inum = inum := by
  have hd := iget_delta e
  have hfresh : k < NINODE ∧ ((s.inode k).ref = 0 → ∀ i, 0 < (s.inode i).ref → (s.inode i).inum ≠ inum) := by
    unfold Disk.iget at e
    split at e
    · cases e
    · rename_i e1
      cases e
      obtain ⟨h1, h2⟩ := igetLoop_fresh e1 fun _ hi => by cases hi
      rw [Nat.zero_add] at h1 h2
      exact ⟨h1, fun h0 i hi => h2 h0 i (Nat.zero_le i) (h.slot i hi).1 hi (h.slot i hi).2.1⟩
  obtain ⟨x, rfl, h1, -, h3, h4, h5, h6⟩ := iget_some e
  refine ⟨⟨hd, rfl, rfl, valid_set fun hp hv => ?_,
    h.set ?_ (fun _ => ⟨hfresh.1, h4, by rw [h5]; exact hn⟩) (fun _ i hi hp => ?_) fun _ hv => ?_⟩,
    by rw [setInode_self]; exact h5⟩
  · rcases h6 with ⟨-, -, -, hval⟩ | ⟨h0, -⟩
    · exact hval.trans hv
    · omega
  · have := h.ref k
    omega
  · rw [h5]
    rcases h6 with ⟨hp', -, hk, -⟩ | ⟨h0, -⟩
    · intro heq
      exact hi (h.apart i k hp hp' (heq.trans hk.symm))
    · exact hfresh.2 h0 i hp
  · rcases h6 with ⟨hp', -, hk, hval⟩ | ⟨-, hval⟩
    · rw [h3, h5, ← hk]
      exact h.copy k hp' (hval ▸ hv)
    · rw [hval] at hv
      cases hv

theorem calm_idup (h : Table sb s) (hp : 0 < (s.inode ip).ref) : Calm sb s (idup ip s) (one ip) 0 := by
  refine ⟨idup_delta ip s, rfl, rfl, valid_set fun _ hv => hv,
    h.set ?_ (fun _ => h.slot ip hp) (fun _ i hi hpi heq => hi (h.apart i ip hpi hp heq)) fun _ => h.copy ip hp⟩
  show 0 ≤ (s.inode ip).ref + 1
  omega

theorem calm_ilock (h : Table sb s) (e : ilock sb ip s = .ok s') :
    Calm sb s s' 0 (one ip) ∧ (s'.inode ip).valid = true ∧ 0 < (s'.inode ip).ref := by
  have hd := ilock_delta e
  unfold Disk.ilock at e
  dsimp only at e
  split at e
  · cases e
  rename_i h1
  have hp : 0 < (s.inode ip).ref := by omega
  split at e
  · cases e
  split at e
  · rename_i hv
    cases e
    refine ⟨⟨hd, rfl, rfl, valid_set fun _ hv => hv,
      h.set (h.ref ip) (fun _ => h.slot ip hp) (fun _ i hi hpi heq => hi (h.apart i ip hpi hp heq)) fun _ _ =>
        h.copy ip hp hv⟩, ?_, ?_⟩
    · rw [setInode_self]
      exact hv
    · rw [setInode_self]
      exact hp
  split at e
  · cases e
  · rename_i ht
    cases e
    refine ⟨⟨hd, rfl, rfl, valid_set fun _ _ => rfl,
      h.set (h.ref ip) (fun _ => h.slot ip hp) (fun _ i hi hpi heq => hi (h.apart i ip hpi hp heq)) fun _ _ =>
        ⟨rfl, ht⟩⟩, ?_, ?_⟩
    · rw [setInode_self]
    · rw [setInode_self]
      exact hp

theorem calm_iunlock (h : Table sb s) (e : iunlock ip s = .ok s') : Calm sb s s' 0 (-one ip) := by
  have hd := iunlock_delta e
  unfold Disk.iunlock at e
  dsimp only at e
  split at e
  · cases e
  rename_i h1
  have hp : 0 < (s.inode ip).ref := by omega
  cases e
  exact ⟨hd, rfl, rfl, valid_set fun _ hv => hv,
    h.set (h.ref ip) (fun _ => h.slot ip hp) (fun _ i hi hpi heq => hi (h.apart i ip hpi hp heq)) fun _ =>
    h.copy ip hp⟩

/-- iput that is not the end of the inode. -/
theorem calm_iput (h : Table sb s) (hp : 0 < (s.inode ip).ref)
    (hk : (s.inode ip).ref = 1 → (s.inode ip).valid = true → (s.inode ip).d.nlink ≠ 0)
    (e : iput sb ip s = .ok s') : Calm sb s s' (-one ip) 0 := by
  have hd := iput_delta e
  unfold Disk.iput at e
  rw [if_neg fun hc => hk hc.1 hc.2.1 hc.2.2, ok_bind] at e
  cases e
  refine ⟨hd, rfl, rfl, valid_set fun _ hv => hv,
    h.set ?_ (fun _ => h.slot ip hp) (fun _ i hi hpi heq => hi (h.apart i ip hpi hp heq)) fun _ => h.copy ip hp⟩
  show 0 ≤ (s.inode ip).ref - 1
  omega

variable (sb) in
/-- The inode is free, has links, or is in use. -/
def Spared (s : St) (inum : Nat) : Prop :=
  (inodeOf sb s.disk inum).type = 0 ∨ (inodeOf sb s.disk inum).nlink ≠ 0 ∨ ∃ i, 0 < (s.inode i).ref ∧
    (s.inode i).inum = inum

/-- A reference that was taken since is not the last one to an inode that has links or was in use. -/
theorem Delta.stays (h : Delta s0 s r l) (ht : Table sb s) (hr : ∀ i, 0 ≤ r i) (h1 : 1 ≤ r ip)
    (hs : (inodeOf sb s.disk (s.inode ip).inum).nlink ≠ 0 ∨ ∃ i, 0 < (s0.inode i).ref ∧
      (s0.inode i).inum = (s.inode ip).inum)
    (href : (s.inode ip).ref = 1) (hv : (s.inode ip).valid = true) : (s.inode ip).d.nlink ≠ 0 := by
  have hp : 0 < (s.inode ip).ref := by rw [href]; decide
  rcases hs with hs | ⟨i, hi, hin⟩
  · rwa [(ht.copy ip hp hv).1]
  · have hi' : 0 < (s.inode i).ref := by
      have := h.ref i
      have := hr i
      omega
    obtain rfl : i = ip := ht.apart i ip hi' hp ((h.key i hi).2.trans hin)
    have := h.ref i
    omega

/-- On the same inode. -/
theorem Delta.spared (h : Delta s0 s r l) (ht : Table sb s) (hr : ∀ i, 0 ≤ r i) (h1 : 1 ≤ r ip)
    (hs : Spared sb s0 (s.inode ip).inum)
    (heq : inodeOf sb s.disk (s.inode ip).inum = inodeOf sb s0.disk (s.inode ip).inum)
    (href : (s.inode ip).ref = 1) (hv : (s.inode ip).valid = true) : (s.inode ip).d.nlink ≠ 0 := by
  have hp : 0 < (s.inode ip).ref := by rw [href]; decide
  refine h.stays ht hr h1 ?_ href hv
  rw [heq]
  refine hs.resolve_left ?_
  rw [← heq, ← (ht.copy ip hp hv).1]
  exact (ht.copy ip hp hv).2

theorem Calm.iput (h : Calm sb s0 s r l) (h0 : Table sb s0) (hr : ∀ i, 0 ≤ r i) (h1 : 1 ≤ r ip)
    (hs : Spared sb s0 (s.inode ip).inum) (e : Disk.iput sb ip s = .ok s') : Calm sb s0 s' (r + -one ip) l :=
  (h.then hr (calm_iput h.table (h.live h0 h1) (h.toDelta.spared h.table hr h1 hs (by rw [h.disk])) e)).congr
    (fun _ => rfl) fun _ => Int.add_zero _

theorem Calm.iunlockput (h : Calm sb s0 s r l) (h0 : Table sb s0) (hr : ∀ i, 0 ≤ r i) (h1 : 1 ≤ r ip)
    (hs : Spared sb s0 (s.inode ip).inum)
    (e : Disk.iunlockput sb ip s = .ok s') : Calm sb s0 s' (r + -one ip) (l + -one ip) := by
  unfold Disk.iunlockput at e
  obtain ⟨s1, e1, e⟩ := bind_ok e
  have hc := (h.then hr (calm_iunlock h.table e1)).congr (a := r) (fun _ => Int.add_zero _) fun _ => rfl
  have hkey := (calm_iunlock h.table e1).key ip (h.live h0 h1)
  exact hc.iput h0 hr h1 (by rw [hkey.2]; exact hs) e

/-- dirlookup in a directory that is in memory. -/
theorem dirlookup_calm (h : Table sb s) (hp : 0 < (s.inode dp).ref) (hv : (s.inode dp).valid = true)
    (hm : Mapped s.disk (s.inode dp).d)
    (hin : ∀ x, lookup sb s.disk (s.inode dp).inum name = some x → x.1 < sb.ninodes) {found : Option (Nat × Nat)}
    (e : dirlookup sb dp name s = .ok (found, s')) :
    Calm sb s s' (took (found.map (·.1))) 0 ∧ (found.map fun f => ((s'.inode f.1).inum, f.2)) =
      lookup sb s.disk (s.inode dp).inum name := by
  unfold dirlookup at e
  split at e
  · cases e
  have hlook := dirlookupLoop_mapped hm e
  have hd := (h.copy dp hp hv).1
  unfold lookup at hin ⊢
  rw [← hd] at hin ⊢
  cases hf : (s.inode dp).d.find s.disk name ((s.inode dp).d.size / 16 + 1) 0 with
  | none =>
    rw [hf] at hlook
    obtain ⟨rfl, rfl⟩ := hlook
    exact ⟨.refl h, rfl⟩
  | some x =>
    rw [hf] at hlook
    obtain ⟨k, rfl, e1⟩ := hlook
    rw [(h.slot dp hp).2.1] at e1
    obtain ⟨hc, hk⟩ := calm_iget h (hin x hf) e1
    refine ⟨hc, ?_⟩
    show some ((s'.inode k).inum, x.2) = some x
    rw [hk]

end

end Xv6Labs.Fs.Disk
