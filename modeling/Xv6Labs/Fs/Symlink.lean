/-
  Xv6Labs.Fs.Symlink — opening a symbolic link follows a chain of inodes.

  `chain`: the inodes one gets to by resolving one target after the other. It ends at an inode
  that is no link, or after a target that names nothing.

  - `hop_calm`: a round of getsymlink is one step of the chain.
  - `getsymlinkLoop_calm`: where ten rounds end.
  - `born_named`: after sys_symlink the name is that of a link with the target in it. dirlink
    writes next to it, in the blocks of the directory.
  - `symlink_resolution`: both for sys_open and sys_symlink.
  - `link_open_panics`: the inode at the end of the chain needs a slot of the inode table.
-/

import Xv6Labs.Fs.Paths
import Xv6Labs.Fs.Directory
import Mathlib.Data.List.TakeWhile

namespace Xv6Labs.Fs.Disk

open Lib
open Ftable (one one_self one_ne one_nonneg)

section

variable {sb : Superblock} {s s' s0 s1 : St} {cwd p i j k q dir : Nat} {disk : Mem}

/-! ## The chain -/

/-- The string in the first MAXPATH bytes. -/
def Dinode.target (d : Dinode) (disk : Mem) : List UInt8 := cstr ((List.range MAXPATH).map (d.byte disk))

variable (sb) in
/-- What the link `i` leads to, from the current directory `dir`. -/
def follow (disk : Mem) (dir i : Nat) : Option Nat :=
  if (inodeOf sb disk i).type = T_SYMLINK then
    (resolve sb disk false dir ((inodeOf sb disk i).target disk)).map (·.1)
  else none

variable (sb) in
def chain (disk : Mem) (dir i : Nat) : Nat → Option Nat
  | 0 => some i
  | k + 1 => (chain disk dir i k).bind (follow sb disk dir)

theorem chain_none (h : chain sb disk dir i j = none) (hjk : j ≤ k) : chain sb disk dir i k = none := by
  induction k with
  | zero => rwa [Nat.le_zero.mp hjk] at h
  | succ k ih =>
    rcases Nat.eq_or_lt_of_le hjk with e | hlt
    · rwa [e] at h
    · unfold chain
      rw [ih (Nat.le_of_lt_succ hlt)]
      rfl

/-- A chain ends where there is no link. -/
theorem chain_stop (h : chain sb disk dir i j = some q) (hq : (inodeOf sb disk q).type ≠ T_SYMLINK) (hjk : j < k) :
    chain sb disk dir i k = none := by
  refine chain_none (j := j + 1) ?_ hjk
  unfold chain
  rw [h]
  exact if_neg hq

theorem chain_end {q' : Nat} (h : chain sb disk dir i j = some q) (hq : (inodeOf sb disk q).type ≠ T_SYMLINK)
    (h' : chain sb disk dir i k = some q') (hq' : (inodeOf sb disk q').type ≠ T_SYMLINK) : j = k := by
  rcases Nat.lt_trichotomy j k with hlt | e | hlt
  · rw [chain_stop h hq hlt] at h'
    cases h'
  · exact e
  · rw [chain_stop h' hq' hlt] at h
    cases h

/-! ## One target -/

/-- And what is stored in the links is strings. -/
structure LinkTree (sb : Superblock) (cwd : Nat) (s : St) : Prop extends Tree sb cwd s where
  links : ∀ i, Named sb s.disk (s.inode cwd).inum i → (inodeOf sb s.disk i).type = T_SYMLINK →
    MAXPATH ≤ (inodeOf sb s.disk i).size ∧ Mapped s.disk (inodeOf sb s.disk i) ∧ ∃ k < MAXPATH,
      (inodeOf sb s.disk i).byte s.disk k = 0

/-- Nothing is taken. -/
theorem Tree.calm (hT : Tree sb cwd s0) (h : Calm sb s0 s 0 0) : Tree sb cwd s := by
  have href : ∀ i, (s.inode i).ref = (s0.inode i).ref := fun i => (h.ref i).trans (Int.add_zero _)
  have hkey : (s.inode cwd).inum = (s0.inode cwd).inum := (h.key cwd hT.live).2
  refine ⟨⟨h.table, by rw [href]; exact hT.live, by rw [h.disk]; exact hT.mapped,
    ?_⟩, by rw [h.disk]; exact hT.aligned, ?_, fun i => ?_, ?_⟩
  · rw [h.disk, hkey]
    intro inum hn
    obtain ⟨h1, h2⟩ := hT.named inum hn
    refine ⟨h1, ?_⟩
    unfold Spared at h2 ⊢
    rw [h.disk]
    refine h2.imp_right (Or.imp_right fun ⟨i, hi, hin⟩ => ⟨i, by rw [href]; exact hi, (h.key i hi).2.trans hin⟩)
  · rw [h.disk, hkey]
    exact hT.alloc
  · exact held_zero (by rw [h.lock i, hT.held i]; rfl)
  · obtain ⟨j, k, hjk, hj, hk, hj0, hk0⟩ := hT.room
    exact ⟨j, k, hjk, hj, hk, by rw [href]; exact hj0, by rw [href]; exact hk0⟩

/-- A round of getsymlink follows the link. -/
theorem hop_calm (hT : LinkTree sb cwd s0) (h : Calm sb s0 s (one p) (one p)) (hv : (s.inode p).valid = true)
    (hn : Named sb s0.disk (s0.inode cwd).inum (s.inode p).inum)
    (ht : (inodeOf sb s0.disk (s.inode p).inum).type = T_SYMLINK) (junk : List UInt8) :
    ∃ x s', hop sb cwd junk p s = .ok (x, s') ∧ Calm sb s0 s' (took x) (took x) ∧
      (x.map fun q => (s'.inode q).inum) = follow sb s0.disk (s0.inode cwd).inum (s.inode p).inum ∧
      ∀ q ∈ x, (s'.inode q).valid = true ∧ Named sb s0.disk (s0.inode cwd).inum (s'.inode q).inum := by
  have hT' := hT.toTree
  have hnn : ∀ i, 0 ≤ one p i := one_nonneg p
  have hone : 1 ≤ one p p := by rw [one_self]
  have hd := (h.table.copy p (h.live hT.table hone) hv).1
  rw [h.disk] at hd
  obtain ⟨hsize, hm, hnul⟩ := hT.links _ hn ht
  rw [← hd] at hsize hm hnul
  -- the string
  have hmin : min MAXPATH ((s.inode p).d.size - 0) = MAXPATH := Nat.min_eq_left hsize
  have hread : readi sb p 0 MAXPATH s = .ok ((List.range MAXPATH).map ((s.inode p).d.byte s0.disk), s) := by
    have hm' : Mapped s.disk (s.inode p).d := by rwa [h.disk]
    have e : readi sb p 0 MAXPATH s = .ok ((List.range (min MAXPATH ((s.inode p).d.size - 0))).map fun i =>
      s.byte p (0 + i), s) :=
      readi_mapped sb (by decide) fun k _ h1 _ => hm' k h1
    rw [e, hmin]
    refine congrArg (fun bs => Except.ok (bs, s)) (List.map_congr_left fun k _ => ?_)
    rw [Nat.zero_add, ← h.disk]
    rfl
  have hzero : (0 : UInt8) ∈ (List.range MAXPATH).map ((s.inode p).d.byte s0.disk) := by
    obtain ⟨k, hk, e⟩ := hnul
    exact List.mem_map.mpr ⟨k, List.mem_range.mpr hk, e⟩
  have hfollow : follow sb s0.disk (s0.inode cwd).inum (s.inode p).inum =
      (resolve sb s0.disk false (s0.inode cwd).inum ((s.inode p).d.target s0.disk)).map (·.1) := by
    unfold follow
    rw [if_pos ht, hd]
  -- the link is let go
  obtain ⟨s1, e1⟩ := hT'.iunlockput h hnn hone (one_self p) hn
  have h1 : Calm sb s0 s1 0 0 := (hT'.toNames.iunlockput h hnn hone hn e1).congr (fun i => Int.add_right_neg _)
    fun i => Int.add_right_neg _
  have hT1 := hT'.calm h1
  have hcwd : (s1.inode cwd).inum = (s0.inode cwd).inum := (h1.key cwd hT.live).2
  obtain ⟨x, s2, e2⟩ := namex_total hT1 ((s.inode p).d.target s0.disk) false
  obtain ⟨h2, hx, hn2⟩ := namex_calm hT1.toNames e2
  rw [h1.disk, hcwd] at hx hn2
  have h3 : Calm sb s0 s2 (took (x.map (·.1))) 0 :=
    (h1.then (fun _ => Int.le_refl 0) h2).congr (fun i => Int.zero_add _) fun _ => Int.add_zero _
  have hhop : hop sb cwd junk p s = (x.map (·.1)).elim (.ok (none, s2)) fun q => ilock sb q s2 >>= fun s =>
    .ok (some q, s) := by
    unfold hop namei
    rw [hread, ok_bind]
    dsimp only
    rw [e1, ok_bind, cstr_append hzero]
    show ((namex sb cwd ((s.inode p).d.target s0.disk) false s1 >>= _) >>= _) = _
    rw [e2]
    cases x with
    | none => rfl
    | some f => rfl
  rw [hhop, hfollow]
  cases x with
  | none => exact ⟨none, s2, rfl, h3, by rw [← hx]; rfl, fun q hq => by cases hq⟩
  | some f =>
    obtain ⟨q, name⟩ := f
    have hone' : 1 ≤ one q q := by rw [one_self]
    have hn3 : Named sb s0.disk (s0.inode cwd).inum (s2.inode q).inum := hn2 (q, name) rfl
    obtain ⟨s3, e3⟩ := hT'.ilock h3 hone' rfl hn3
    obtain ⟨h4, hv4, hp4⟩ := calm_ilock h2.table e3
    have hkey : (s3.inode q).inum = (s2.inode q).inum := (h4.key q (h3.live hT.table hone')).2
    refine ⟨some q, s3, ?_, ?_, ?_, fun q' hq => ?_⟩
    · show (ilock sb q s2 >>= fun s => .ok (some q, s)) = _
      rw [e3, ok_bind]
    · exact (h3.then (one_nonneg q) h4).congr (fun i => Int.add_zero _) fun i => Int.zero_add _
    · rw [← hx]
      exact congrArg some hkey
    · cases hq
      rw [hkey]
      exact ⟨hv4, hn3⟩

/-! ## The loop -/

variable (sb) in
/-- Where the loop of getsymlink ends: at an inode, or after a target that names nothing. -/
def Ended (disk : Mem) (dir i : Nat) (s' : St) : Option (Nat × Nat) → Prop
  | none => ∃ k q, chain sb disk dir i k = some q ∧ (inodeOf sb disk q).type = T_SYMLINK ∧
      chain sb disk dir i (k + 1) = none
  | some (f, cnt) => 1 ≤ cnt ∧ cnt ≤ 10 ∧ chain sb disk dir i cnt = some (s'.inode f).inum ∧
      (cnt = 10 ∨ (inodeOf sb disk (s'.inode f).inum).type ≠ T_SYMLINK)

theorem getsymlinkLoop_calm (hT : LinkTree sb cwd s0) (junk : Nat → List UInt8) :
    ∀ {n cnt p s}, 0 < n → n + cnt = 10 →
    chain sb s0.disk (s0.inode cwd).inum i cnt = some (s.inode p).inum →
      (inodeOf sb s0.disk (s.inode p).inum).type = T_SYMLINK →
    Calm sb s0 s (one p) (one p) → (s.inode p).valid = true → Named sb s0.disk (s0.inode cwd).inum (s.inode p).inum →
    ∃ y s', getsymlinkLoop sb cwd junk n cnt p s = .ok (y, s') ∧
      Calm sb s0 s' (took (y.map (·.1))) (took (y.map (·.1))) ∧
      Ended sb s0.disk (s0.inode cwd).inum i s' y := by
  intro n
  induction n with
  | zero => exact fun h0 => absurd h0 (Nat.lt_irrefl 0)
  | succ n ih =>
    intro cnt p s _ hn hc ht h hv hnamed
    obtain ⟨x, s1, e1, h1, hx, hq⟩ := hop_calm hT h hv hnamed ht (junk cnt)
    have hnext : chain sb s0.disk (s0.inode cwd).inum i (cnt + 1) = x.map fun q => (s1.inode q).inum := by
      unfold chain
      rw [hc]
      exact hx.symm
    unfold getsymlinkLoop
    rw [e1, ok_bind]
    dsimp only
    cases x with
    | none => exact ⟨none, s1, rfl, h1, cnt, (s.inode p).inum, hc, ht, hnext⟩
    | some q =>
      obtain ⟨hvq, hnq⟩ := hq q rfl
      have hone : 1 ≤ one q q := by rw [one_self]
      have hd := (h1.table.copy q (h1.live hT.table hone) hvq).1
      rw [h1.disk] at hd
      dsimp only
      rw [hd]
      by_cases hgo : cnt + 1 < 10 ∧ (inodeOf sb s0.disk (s1.inode q).inum).type = T_SYMLINK
      · rw [if_pos hgo]
        exact ih (by omega) (by omega) hnext hgo.2 h1 hvq hnq
      · rw [if_neg hgo]
        refine ⟨some (q, cnt + 1), s1, rfl, h1, by omega, by omega, hnext, ?_⟩
        by_cases h10 : cnt + 1 = 10
        · exact Or.inl h10
        · exact Or.inr fun hl => hgo ⟨by omega, hl⟩

/-- The inodes that a link may be opened at: those at most nine targets away that are no link. -/
def OpensAt (sb : Superblock) (disk : Mem) (dir i q : Nat) : Prop :=
  ∃ k, 1 ≤ k ∧ k ≤ 9 ∧ chain sb disk dir i k = some q ∧ (inodeOf sb disk q).type ≠ T_SYMLINK

/-- What getsymlink makes of that. -/
theorem Ended.opens {y : Option (Nat × Nat)} (h : Ended sb disk dir i s' y) :
    (∃ f, (y.bind fun (f, cnt) => if cnt = 10 then none else some f) = some f ∧ (s'.inode f).inum = q) ↔
      OpensAt sb disk dir i q := by
  cases y with
  | none =>
    obtain ⟨k, a, hk, ha, hnone⟩ := h
    constructor
    · intro ⟨f, e, _⟩
      cases e
    · intro ⟨j, _, _, hj, hq⟩
      -- a link that leads nowhere stands where the chain would have ended
      rcases Nat.lt_trichotomy j k with hlt | e | hlt
      · rw [chain_stop hj hq hlt] at hk
        cases hk
      · rw [e, hk] at hj
        cases hj
        exact absurd ha hq
      · rw [chain_none hnone hlt] at hj
        cases hj
  | some x =>
    obtain ⟨f, cnt⟩ := x
    obtain ⟨h1, h10, hc, hend⟩ := h
    by_cases e10 : cnt = 10
    · constructor
      · intro ⟨f', e, _⟩
        have e : (if cnt = 10 then none else some f) = some f' := e
        rw [if_pos e10] at e
        cases e
      · intro ⟨j, _, hj9, hj, hq⟩
        rw [chain_stop hj hq (by omega)] at hc
        cases hc
    · have hend := hend.resolve_left e10
      constructor
      · intro ⟨f', e, hf⟩
        have e : (if cnt = 10 then none else some f) = some f' := e
        rw [if_neg e10] at e
        cases e
        rw [hf] at hc hend
        exact ⟨cnt, h1, by omega, hc, hend⟩
      · intro ⟨j, _, _, hj, hq⟩
        have hjc := chain_end hj hq hc hend
        rw [hjc, hc] at hj
        cases hj
        exact ⟨f, if_neg e10, rfl⟩

/-- The inode in slot `f` is locked and has one reference more; everything else is as it was. -/
structure LockedOne (s s' : St) (f : Nat) : Prop where
  ref : ∀ i, (s'.inode i).ref = (s.inode i).ref + one f i
  lock : ∀ i, (s'.inode i).lock = decide (i = f)
  disk : s'.disk = s.disk

theorem Tree.lockedOne (hT : Tree sb cwd s) {f : Nat} (h : Calm sb s s' (one f) (one f)) : LockedOne s s' f := by
  refine ⟨h.ref, fun i => ?_, h.disk⟩
  have hl := h.lock i
  rw [hT.held i] at hl
  by_cases hif : i = f
  · subst hif
    rw [one_self] at hl
    unfold Disk.held at hl
    split at hl
    · rename_i hlock
      rw [hlock, decide_eq_true rfl]
    · cases hl
  · rw [one_ne hif] at hl
    rw [held_zero hl, decide_eq_false hif]

/-- sys_open's inode, for a path that names the symbolic link `i`. -/
theorem openInode_link (hT : LinkTree sb cwd s) {path : List UInt8} {omode : Nat} {name : List UInt8}
    (hres : resolve sb s.disk false (s.inode cwd).inum path = some (i, name))
    (ht : (inodeOf sb s.disk i).type = T_SYMLINK)
    (hc : omode &&& O_CREATE = 0) (hno : omode &&& O_NOFOLLOW = 0) (junk : Nat → List UInt8) :
    ∃ x s', openInode sb junk path omode cwd s = .ok (x, s') ∧
      (∀ q, (∃ f, x = some f ∧ (s'.inode f).inum = q) ↔ OpensAt sb s.disk (s.inode cwd).inum i q) ∧ ∀ f, x = some f →
        LockedOne s s' f := by
  have hT' := hT.toTree
  obtain ⟨x, s1, e1⟩ := namex_total hT' path false
  obtain ⟨h1, hx, hn⟩ := namex_calm hT'.toNames e1
  rw [hres] at hx
  cases x with
  | none => cases hx
  | some f =>
    obtain ⟨p, name'⟩ := f
    have hone : 1 ≤ one p p := by rw [one_self]
    have hi : (s1.inode p).inum = i := congrArg Prod.fst (Option.some.inj hx)
    have hnp : Named sb s.disk (s.inode cwd).inum (s1.inode p).inum := hn (p, name') rfl
    obtain ⟨s2, e2⟩ := hT'.ilock h1 hone rfl hnp
    obtain ⟨h2, hv, hp⟩ := calm_ilock h1.table e2
    have h3 := (h1.then (one_nonneg p) h2).congr (a := one p) (b := one p) (fun j => Int.add_zero _) fun j =>
      Int.zero_add _
    have hkey : (s2.inode p).inum = i := (h2.key p (h1.live hT.table hone)).2.trans hi
    have hd := (h3.table.copy p hp hv).1
    rw [h3.disk, hkey] at hd
    rw [hi] at hnp
    have hstart : chain sb s.disk (s.inode cwd).inum i 0 = some (s2.inode p).inum := congrArg some hkey.symm
    rw [← hkey] at ht hnp
    obtain ⟨y, s', e3, h4, hend⟩ := getsymlinkLoop_calm hT junk (n := 10) (by decide) rfl hstart ht h3 hv hnp
    rw [hkey] at ht
    refine ⟨y.bind fun (f, cnt) => if cnt = 10 then none else some f, s', ?_, fun q => hend.opens, fun f hf => ?_⟩
    · have hdir : ¬ ((s2.inode p).d.type = T_DIR ∧ omode ≠ O_RDONLY) := fun h => by
        rw [hd, ht] at h
        exact absurd h.1 (by decide)
      have hne : omode ≠ O_NOFOLLOW := fun e => by
        rw [e] at hno
        exact absurd hno (by decide)
      unfold openInode namei
      rw [if_neg (not_not.mpr hc), e1, ok_bind, ok_bind]
      dsimp only [Option.map]
      rw [e2, ok_bind, if_neg hdir, if_pos ⟨by rw [hd]; exact ht, hne⟩]
      unfold getsymlink
      rw [e3, ok_bind]
    · have hy : y.map (·.1) = some f := by
        cases y with
        | none => cases hf
        | some z =>
          have hz : (if z.2 = 10 then none else some z.1) = some f := hf
          split at hz
          · cases hz
          · exact hz
      rw [hy] at h4
      exact hT'.lockedOne h4

/-! ## sys_symlink -/

/-- What a write of a file leaves as it was, and the dinode it writes. -/
structure Around (sb : Superblock) (dp : Nat) (s s' : St) : Prop where
  own : inodeOf sb s'.disk (s.inode dp).inum = (s'.inode dp).d
  dinode : ∀ i < sb.ninodes, i ≠ (s.inode dp).inum → inodeOf sb s'.disk i = inodeOf sb s.disk i
  block : ∀ c o, dataStart sb ≤ c → c < sb.size → used sb s.disk c = true → (∀ p, s.at dp p ≠ c) → o < BSIZE →
    s'.disk (c * BSIZE + o) = s.disk (c * BSIZE + o)

variable {dp off n r tot : Nat} {f : Nat → UInt8} {name : List UInt8}

theorem Wrote.around (hl : Layout sb) (hi : (s.inode dp).inum < sb.ninodes) (w : Wrote sb dp off r f n tot s s')
    (hsize : (s'.inode dp).d.size < 2 ^ 32) : Around sb dp s s' := by
  obtain ⟨s1, hext, hdisk⟩ := w.stored
  have hfits : (s'.inode dp).d.Fits := by
    refine ⟨hsize, fun i => ?_⟩
    by_cases h0 : (s'.inode dp).d.addrs i = 0
    · rw [h0]
      exact Nat.two_pow_pos 32
    · have h1 := (w.whole.data (.addr i) h0).2.1
      have h2 := hl.small
      exact Nat.lt_trans h1 (Nat.lt_trans h2 (by decide))
  have hstore : ∀ i, inodeOf sb s'.disk i = if i = (s.inode dp).inum then (s'.inode dp).d else inodeOf sb s1.disk i :=
    fun i => by
    rw [hdisk]
    exact inodeOf_store hfits i
  refine ⟨by rw [hstore, if_pos rfl], fun i hin hne => ?_, fun c o hc hcs hu hp ho => ?_⟩
  · rw [hstore, if_neg hne]
    exact loadDinode_congr fun x _ h2 => hext.low x (Nat.lt_of_lt_of_le h2 (dinode_bound hl hin))
  · rw [hdisk, storeDinode_ne (Or.inr (Nat.le_trans (dinode_bound hl hi) (data_high hc o).2))]
    exact hext.others c o hc hcs ho hu hp

/-- Blocks in use stay in use. -/
theorem Wrote.used (hl : Layout sb) (hi : (s.inode dp).inum < sb.ninodes) (w : Wrote sb dp off r f n tot s s')
    {c : Nat} (hc : c < sb.size) (hu : used sb s.disk c = true) : Disk.used sb s'.disk c = true := by
  obtain ⟨s1, hext, hdisk⟩ := w.stored
  have hbyte : s'.disk (byteOf sb c) = s1.disk (byteOf sb c) := by
    rw [hdisk]
    exact storeDinode_ne (Or.inr (Nat.le_trans (dinode_bound hl hi) (byteOf_bounds hc).1))
  rw [used_congr hbyte]
  exact hext.up hc hu

/-- iunlockput of an inode that stays. -/
theorem iunlockput_stays (hk : (s.inode p).ref = 1 → (s.inode p).valid = true → (s.inode p).d.nlink ≠ 0)
    (e : iunlockput sb p s = .ok s') :
    s'.disk = s.disk ∧ ∀ i, i ≠ p → s'.inode i = s.inode i := by
  unfold iunlockput at e
  obtain ⟨s1, e1, e⟩ := bind_ok e
  unfold iunlock at e1
  dsimp only at e1
  split at e1
  · cases e1
  cases e1
  unfold iput at e
  rw [setInode_self, if_neg fun h => hk h.1 h.2.1 h.2.2, ok_bind] at e
  cases e
  exact ⟨rfl, fun i hi => by rw [setInode_ne hi, setInode_ne hi]⟩

theorem cstr_symlinkBytes {target junk : List UInt8} (h0 : 0 ∉ target) (hlen : target.length < MAXPATH) :
    cstr (symlinkBytes target junk) = target := by
  have hsplit := map_range_split (fun i => if i ≤ target.length then target.getD i 0 else junk.getD i 0)
    (Nat.le_of_lt hlen)
  have hfirst : (List.range target.length).map
    (fun i => if i ≤ target.length then target.getD i 0 else junk.getD i 0) = target := by
    refine Eq.trans (List.map_congr_left fun i hi => ?_) (range_getD rfl)
    exact if_pos (Nat.le_of_lt (List.mem_range.mp hi))
  obtain ⟨m, hm⟩ : ∃ m, MAXPATH - target.length = m + 1 := ⟨MAXPATH - target.length - 1, by omega⟩
  have hnul : (if target.length + 0 ≤ target.length then target.getD (target.length + 0) 0 else junk.getD
    (target.length + 0) 0) = 0 := by
    rw [Nat.add_zero, if_pos (Nat.le_refl _)]
    exact List.getD_eq_default _ _ (Nat.le_refl _)
  have hne : ∀ x ∈ target, decide (x ≠ 0) = true := fun x hx => decide_eq_true fun e => h0 (e ▸ hx)
  unfold symlinkBytes cstr
  rw [← hsplit, hfirst, hm, List.range_succ_eq_map, List.map_cons, hnul]
  rw [List.takeWhile_append_of_pos hne]
  show target ++ [] = target
  exact List.append_nil target

/-- The directory that a new link is entered in, locked. -/
theorem Born.directory {a b sp : Nat} {bs : List UInt8} {s4 s5 : St} (hl : Layout sb) (hs : Settled sb cwd s)
    (hal : ∀ i < sb.ninodes, (inodeOf sb s.disk i).type = T_DIR → (inodeOf sb s.disk i).size % 16 = 0)
    (h : Born sb cwd dp sp a b bs s s4)
    (hdp : (inodeOf sb s.disk (s4.inode dp).inum).type = T_DIR) (hp : 0 < (s4.inode dp).ref)
    (e5 : ilock sb dp s4 = .ok s5) :
    Directory sb dp s5 ∧ (s5.inode dp).d = inodeOf sb s.disk (s4.inode dp).inum ∧ ∀ q, s5.at dp q ≠ b := by
  have ha : (s4.inode dp).inum ≠ a := fun e => by
    rw [e, h.free] at hdp
    exact absurd hdp (by decide)
  have hin := (h.names.table.slot dp hp).2.2
  obtain ⟨hc, hv, hp5⟩ := calm_ilock h.names.table e5
  have hkey := (hc.key dp hp).2
  have hd4 : inodeOf sb s4.disk (s4.inode dp).inum = inodeOf sb s.disk (s4.inode dp).inum := h.beside.inode _ hin ha
  have hd : (s5.inode dp).d = inodeOf sb s.disk (s4.inode dp).inum := by
    rw [(hc.table.copy dp hp5 hv).1, hc.disk, hkey, hd4]
  have hty : (inodeOf sb s.disk (s4.inode dp).inum).type ≠ 0 := by rw [hdp]; decide
  have hw := hs.whole _ hin hty
  have hat := (file_congr hw h.beside.block).1
  have hup : ∀ c < sb.size, used sb s.disk c = true → used sb s5.disk c = true := fun c hc' hu => by
    rw [hc.disk]
    exact (h.bits c hc').mpr (Or.inl hu)
  refine ⟨⟨by rw [hd]; exact hdp, hp5, by rw [hkey]; exact hin, by rw [hd]; exact hal _ hin hdp, ?_,
    ⟨fun q hq => ?_, fun q q' hq e => ?_⟩, fun c hcd => ?_⟩, hd, fun q e => ?_⟩
  · rw [hc.disk, hd, ← hd4]
    exact h.names.mapped _ hin (by rw [hd4]; exact hdp)
  · rw [hc.disk, hd, hat] at hq ⊢
    obtain ⟨h1, h2, h3⟩ := hw.data q hq
    exact ⟨h1, h2, (h.bits _ h2).mpr (Or.inl h3)⟩
  · rw [hc.disk, hd, hat] at hq e
    rw [hat] at e
    exact hw.apart q q' hq e
  · exact hup c (Nat.lt_of_lt_of_le hcd hl.data) (hs.reserved c hcd)
  · unfold St.at at e
    rw [hc.disk, hd, hat] at e
    have hb : (inodeOf sb s.disk (s4.inode dp).inum).at s.disk q ≠ 0 := by
      rw [e]
      exact ne_zero_of_data h.block.1
    have hu := (hw.data q hb).2.2
    rw [e, h.block.2.2] at hu
    cases hu

/-- The name is that of a symbolic link whose string is `target`. -/
def ReadsBack (sb : Superblock) (disk : Mem) (dir : Nat) (name target : List UInt8) : Prop :=
  ∃ a off, lookup sb disk dir name = some (a, off) ∧ (inodeOf sb disk a).type = T_SYMLINK ∧
    MAXPATH ≤ (inodeOf sb disk a).size ∧
    Mapped disk (inodeOf sb disk a) ∧ (∃ k < MAXPATH, (inodeOf sb disk a).byte disk k = 0) ∧
      (inodeOf sb disk a).target disk = target

/-- What is stored in the only block of a new link. -/
theorem oneBlock_reads {a b : Nat} {bs : List UInt8} (hlen : bs.length = 128) (hb : b ≠ 0) {d : Dinode}
    (hd : d = { oneBlockLink b with nlink := 1 })
    (hbyte : ∀ k < 128, disk (b * BSIZE + k) = bs.getD k 0) (h0 : 0 ∈ bs) (ha : inodeOf sb disk a = d) :
    (inodeOf sb disk a).type = T_SYMLINK ∧ MAXPATH ≤ (inodeOf sb disk a).size ∧ Mapped disk (inodeOf sb disk a) ∧
      (∃ k < MAXPATH, (inodeOf sb disk a).byte disk k = 0) ∧ (inodeOf sb disk a).target disk = cstr bs := by
  have hblock : ∀ k < 128, d.at disk (slotOf (k / BSIZE)) = b := fun k hk => by
    have hk0 : k / BSIZE = 0 := Nat.div_eq_of_lt (Nat.lt_trans hk (by decide))
    rw [hk0, hd]
    rfl
  have hfile : ∀ k < 128, d.byte disk k = bs.getD k 0 := fun k hk => by
    unfold Dinode.byte
    rw [hblock k hk, if_neg hb, Nat.mod_eq_of_lt (Nat.lt_trans hk (by decide))]
    exact hbyte k hk
  have hsize : d.size = 128 := by rw [hd]; rfl
  have hmap : (List.range MAXPATH).map (d.byte disk) = bs :=
    Eq.trans (List.map_congr_left fun k hk => hfile k (List.mem_range.mp hk)) (range_getD hlen)
  rw [ha]
  refine ⟨by rw [hd]; rfl, Nat.le_of_eq hsize.symm, fun k hk => ?_, ?_, ?_⟩
  · rw [hsize] at hk
    exact ⟨Nat.lt_trans hk (by decide), by rw [hblock k hk]; exact hb⟩
  · obtain ⟨k, hk, e⟩ := List.mem_iff_getElem.mp h0
    rw [hlen] at hk
    refine ⟨k, hk, ?_⟩
    rw [hfile k hk, List.getD_eq_getElem _ _ (by rw [hlen]; exact hk)]
    exact e
  · unfold Dinode.target
    rw [hmap]

/-- The parent has links on the disk, so that it outlives the references sys_symlink drops. -/
theorem Born.parent_stays {a b sp : Nat} {bs : List UInt8} {s4 s5 : St} (hs : Settled sb cwd s)
    (h : Born sb cwd dp sp a b bs s s4)
    (hn : Named sb s.disk (s.inode cwd).inum (s4.inode dp).inum) (ha : (s4.inode dp).inum ≠ a)
    (hp : 0 < (s4.inode dp).ref)
    (e5 : ilock sb dp s4 = .ok s5) (href : (s5.inode dp).ref = 1) : (s5.inode dp).d.nlink ≠ 0 := by
  have hr : ∀ i, 0 ≤ (one dp + one sp) i := fun i => Int.add_nonneg (one_nonneg dp i) (one_nonneg sp i)
  have hone : 1 ≤ (one dp + one sp) dp := by
    have h1 := one_self dp
    have h2 := one_nonneg sp dp
    show 1 ≤ one dp dp + one sp dp
    omega
  obtain ⟨hc, hv5, -⟩ := calm_ilock h.names.table e5
  have hkey := (hc.key dp hp).2
  have hdelta : Delta s s5 (one dp + one sp) (one sp + one dp) :=
    (h.delta.trans hc.toDelta hr).congr (fun i => Int.add_zero _) fun i => rfl
  have hspared : Spared sb s (s5.inode dp).inum := by
    rw [hkey]
    exact (hs.named _ hn).2
  have hsame : inodeOf sb s5.disk (s5.inode dp).inum = inodeOf sb s.disk (s5.inode dp).inum := by
    rw [hc.disk, hkey]
    exact h.beside.inode _ (h.names.table.slot dp hp).2.2 ha
  exact hdelta.spared hc.table hr hone hspared hsame href hv5

/-- The entry was made: the name is that of the new link. -/
theorem born_named {a b sp : Nat} {bs : List UInt8} {s4 s5 s6 s7 : St} (hl : Layout sb) (hs : Settled sb cwd s)
    (hal : ∀ i < sb.ninodes, (inodeOf sb s.disk i).type = T_DIR → (inodeOf sb s.disk i).size % 16 = 0)
    (h16 : sb.ninodes ≤ 65536) (h : Born sb cwd dp sp a b bs s s4) (hlen : bs.length = 128) (h0 : 0 ∈ bs)
    (hn : Named sb s.disk (s.inode cwd).inum (s4.inode dp).inum)
    (hdp : (inodeOf sb s.disk (s4.inode dp).inum).type = T_DIR) {x : Int} (hx : ¬ x < 0)
    (e5 : ilock sb dp s4 = .ok s5) (e6 : dirlink sb dp name (s5.inode sp).inum s5 = .ok (x, s6))
    (e7 : iunlockput sb dp s6 = .ok s7) (e8 : iunlockput sb sp (iupdate sb sp (s7.setNlink sp (· + 1))) = .ok s') :
      ReadsBack sb s'.disk (s4.inode dp).inum name (cstr bs) := by
  have hpsp : 0 < (s4.inode sp).ref := by rw [h.ref]; decide
  have hone : 1 ≤ (one dp + one sp) dp := by
    have h1 := one_self dp
    have h2 := one_nonneg sp dp
    show 1 ≤ one dp dp + one sp dp
    omega
  have hp : 0 < (s4.inode dp).ref := by
    have h1 := h.delta.ref dp
    have h2 := hs.table.ref dp
    omega
  have ha : (s4.inode dp).inum ≠ a := fun e => by
    rw [e, h.free] at hdp
    exact absurd hdp (by decide)
  have hsp : sp ≠ dp := fun e => by
    rw [← e, h.key] at ha
    exact ha rfl
  have hin := (h.names.table.slot dp hp).2.2
  obtain ⟨hdir, hd5, hapart⟩ := h.directory hl hs hal hdp hp e5
  obtain ⟨hc, -, -⟩ := calm_ilock h.names.table e5
  have hkey := (hc.key dp hp).2
  have hksp : (s5.inode sp).inum = a := (hc.key sp hpsp).2.trans h.key
  have hdsp : (s5.inode sp).d = oneBlockLink b := by
    have hpsp5 : 0 < (s5.inode sp).ref := by
      rw [hc.ref sp]
      show 0 < (s4.inode sp).ref + 0
      omega
    rw [(hc.table.copy sp hpsp5 (hc.valid sp hpsp h.valid)).1, hksp, hc.disk, h.inode]
  rw [hksp] at e6
  -- the entry
  have ha16 : a ≤ 65535 := by
    have := h.lt
    omega
  obtain ⟨hnone, hdir6, hslots, f, w⟩ := hdir.dirlink_added hl h.pos ha16 hx e6
  have hsize6 : (s6.inode dp).d.size < 2 ^ 32 := Nat.lt_of_le_of_lt hdir6.size_le (by decide)
  have har := w.around hl hdir.inum hsize6
  have hother : ∀ i, i ≠ dp → s6.inode i = s5.inode i := fun i hi => by rw [w.inode, Function.update_of_ne hi]
  -- the directory is let go
  have hstay : (s6.inode dp).ref = 1 → (s6.inode dp).valid = true → (s6.inode dp).d.nlink ≠ 0 := fun href _ => by
    rw [w.inode, Function.update_self] at href
    rw [w.head]
    exact h.parent_stays hs hn ha hp e5 href
  obtain ⟨hdisk7, hinode7⟩ := iunlockput_stays hstay e7
  have hsp7 : s7.inode sp = s5.inode sp := (hinode7 sp hsp).trans (hother sp hsp)
  -- the link is counted
  have hlinked : iupdate sb sp (s7.setNlink sp (· + 1)) =
    iupdate sb sp (s7.setD sp { oneBlockLink b with nlink := 1 }) := by
    unfold St.setNlink
    rw [hsp7, hdsp]
    rfl
  rw [hlinked] at e8
  have hb := ne_zero_of_data h.block.1
  have hfits : ({ oneBlockLink b with nlink := 1 } : Dinode).Fits := by
    have hbs := h.block.2.1
    have hsm := hl.small
    obtain ⟨h1, h2⟩ := oneBlockLink_fits (b := b) (by omega)
    exact ⟨h1, h2⟩
  have hdisk8 : (iupdate sb sp (s7.setD sp { oneBlockLink b with nlink := 1 })).disk =
    storeDinode s7.disk (dinode sb a) { oneBlockLink b with nlink := 1 } := by
    rw [iupdate_disk, hsp7, hksp]
  obtain ⟨hdisk', -⟩ := iunlockput_stays (fun _ _ => by
    show ((s7.setD sp { oneBlockLink b with nlink := 1 }).inode sp).d.nlink ≠ 0
    unfold St.setD
    rw [setInode_self]
    show (1 : UInt16) ≠ 0
    decide) e8
  rw [hdisk8, hdisk7] at hdisk'
  have hinode' : ∀ i, inodeOf sb s'.disk i =
    if i = a then { oneBlockLink b with nlink := 1 } else inodeOf sb s6.disk i := fun i => by
    rw [hdisk']
    exact inodeOf_store hfits i
  have hdata : ∀ c o, dataStart sb ≤ c → s'.disk (c * BSIZE + o) = s6.disk (c * BSIZE + o) := fun c o hcd => by
    rw [hdisk']
    exact storeDinode_ne (Or.inr (Nat.le_trans (dinode_bound hl h.lt) (data_high hcd o).2))
  have hbyte : ∀ k < 128, s'.disk (b * BSIZE + k) = bs.getD k 0 := fun k hk => by
    have hu : used sb s5.disk b = true := by
      rw [hc.disk]
      exact (h.bits b h.block.2.1).mpr (Or.inr rfl)
    rw [hdata b k h.block.1, har.block b k h.block.1 h.block.2.1 hu hapart (Nat.lt_trans hk (by decide)), hc.disk]
    exact h.byte k hk
  -- what lookup finds
  have hfind : lookup sb s'.disk (s4.inode dp).inum name = some (a, 16 * (s5.slots dp).free) := by
    have hown : inodeOf sb s'.disk (s4.inode dp).inum = (s6.inode dp).d := by
      rw [hinode', if_neg ha, ← hkey]
      exact har.own
    have hb' := (file_congr hdir6.whole fun c o hcd _ _ _ => hdata c o hcd).2
    unfold lookup
    rw [hown, find_congr hb']
    have hslot : (s6.inode dp).d.find s6.disk name ((s6.inode dp).d.size / 16 + 1) (16 * 0) =
        ((s6.slots dp).lookup (key name)).map fun x => (x.1, 16 * x.2) := find_slots hdir6.aligned _ 0
    rw [hslots, Slots.lookup_fill hnone] at hslot
    exact hslot
  obtain ⟨h1, h2, h3, h4, h5⟩ := oneBlock_reads hlen hb rfl hbyte h0 (by rw [hinode', if_pos rfl])
  exact ⟨a, _, hfind, h1, h2, h3, h4, h5⟩

theorem zero_mem_of_cstr {bs : List UInt8} (h : (cstr bs).length < bs.length) : 0 ∈ bs := by
  by_contra h0
  have hne : ∀ x ∈ bs, decide (x ≠ 0) = true := fun x hx => decide_eq_true fun e => h0 (e ▸ hx)
  unfold cstr at h
  rw [List.takeWhile_eq_self_iff.mpr hne] at h
  exact Nat.lt_irrefl _ h

theorem sys_symlink_reads (hl : Layout sb) (hs : Settled sb cwd s)
    (hal : ∀ i < sb.ninodes, (inodeOf sb s.disk i).type = T_DIR → (inodeOf sb s.disk i).size % 16 = 0)
    (h16 : sb.ninodes ≤ 65536) {junk target path : List UInt8} (h0 : 0 ∉ target) (hlen : target.length < MAXPATH)
    (e : sys_symlink sb cwd junk (some target) (some path) s = .ok (0, s')) :
    ∃ dir name, resolve sb s.disk true (s.inode cwd).inum path = some (dir, name) ∧
      ReadsBack sb s'.disk dir name target := by
  unfold sys_symlink nameiparent at e
  obtain ⟨⟨x, s1⟩, e1, e⟩ := bind_ok e
  obtain ⟨h1, hres, hn⟩ := namex_calm hs.toNames e1
  cases x with
  | none => cases e
  | some f =>
    obtain ⟨dp, name⟩ := f
    have hn1 : Named sb s.disk (s.inode cwd).inum (s1.inode dp).inum := hn _ rfl
    have hres : resolve sb s.disk true (s.inode cwd).inum path = some ((s1.inode dp).inum, name) := hres.symm
    have hdir : (inodeOf sb s.disk (s1.inode dp).inum).type = T_DIR := by
      have hwalk := hres
      unfold resolve at hwalk
      exact walk_dir (x := ((s1.inode dp).inum, name)) hwalk
    obtain ⟨⟨sp, s2⟩, e2, e⟩ := bind_ok e
    obtain ⟨s3, e3, e⟩ := bind_ok e
    obtain ⟨⟨y, s4⟩, e4, e⟩ := bind_ok e
    obtain ⟨hy, a, b, hborn⟩ := born hl hs h1 hdir (symlinkBytes_length target junk) e2 e3 e4
    have hk4 : (s4.inode dp).inum = (s1.inode dp).inum := by
      have hp1 : 0 < (s1.inode dp).ref := h1.live hs.table (by show 1 ≤ one dp dp; rw [one_self])
      have hq := (ialloc_delta e2).trans ((ilock_delta e3).then_quiet (writei_quiet e4)) (one_nonneg sp)
      exact (hq.key dp hp1).2
    subst hy
    dsimp only at e
    rw [if_neg fun hne => hne rfl] at e
    obtain ⟨s5, e5, e⟩ := bind_ok e
    obtain ⟨⟨z, s6⟩, e6, e⟩ := bind_ok e
    obtain ⟨s7, e7, e⟩ := bind_ok e
    dsimp only at e
    split at e
    · obtain ⟨s8, -, e⟩ := bind_ok e
      cases e
    · rename_i hpos
      obtain ⟨s8, e8, e⟩ := bind_ok e
      cases e
      have hc : cstr (symlinkBytes target junk) = target := cstr_symlinkBytes h0 hlen
      have hzero : 0 ∈ symlinkBytes target junk := zero_mem_of_cstr (by rw [hc, symlinkBytes_length]; exact hlen)
      rw [← hk4] at hn1 hdir hres
      have hreads := born_named hl hs hal h16 hborn (symlinkBytes_length target junk) hzero hn1 hdir hpos e5 e6 e7 e8
      rw [hc] at hreads
      exact ⟨_, name, hres, hreads⟩

variable (sb) in
/-- Opening a link ends at the first inode of its chain that is no link, if that is at most nine
    targets away, and fails otherwise; and a new link holds the string it was made with. -/
theorem symlink_resolution (hl : Layout sb) :
    (∀ {s : St} {cwd i omode : Nat} {path name : List UInt8} (junk : Nat → List UInt8), LinkTree sb cwd s →
      resolve sb s.disk false (s.inode cwd).inum path = some (i, name) → (inodeOf sb s.disk i).type = T_SYMLINK →
        omode &&& O_CREATE = 0 →
      omode &&& O_NOFOLLOW = 0 → ∃ x s', openInode sb junk path omode cwd s = .ok (x, s') ∧
        (∀ q, (∃ f, x = some f ∧ (s'.inode f).inum = q) ↔ OpensAt sb s.disk (s.inode cwd).inum i q) ∧ ∀ f,
          x = some f → LockedOne s s' f) ∧
    ∀ {s s' : St} {cwd : Nat} {junk target path : List UInt8}, Settled sb cwd s →
      (∀ i < sb.ninodes, (inodeOf sb s.disk i).type = T_DIR → (inodeOf sb s.disk i).size % 16 = 0) →
        sb.ninodes ≤ 65536 → 0 ∉ target →
      target.length < MAXPATH → sys_symlink sb cwd junk (some target) (some path) s = .ok (0, s') →
      ∃ dir name, resolve sb s.disk true (s.inode cwd).inum path = some (dir, name) ∧
        ReadsBack sb s'.disk dir name target :=
  ⟨fun junk hT hres ht hc hno => openInode_link hT hres ht hc hno junk, fun hs hal h16 h0 hlen e =>
    sys_symlink_reads hl hs hal h16 h0 hlen e⟩

end

/-! ## A link to itself, and a full inode table -/

theorem atRoot_linkTree : LinkTree smallDisk 0 (atRoot linkCycle).fs := by
  refine ⟨atRoot_tree, fun i hn ht => ?_⟩
  rcases linkCycle_named hn with e | e
  · subst e
    exact absurd ht (by decide)
  · subst e
    have hsize : (inodeOf smallDisk linkCycle 2).size = 128 := by decide
    have haddr : (inodeOf smallDisk linkCycle 2).addrs 0 = 11 := by decide
    have hbyte : (inodeOf smallDisk linkCycle 2).byte linkCycle 1 = 0 := by decide
    refine ⟨Nat.le_of_eq hsize.symm, fun k hk => ?_, 1, by decide, hbyte⟩
    have hk : k < 128 := hsize ▸ hk
    have hk0 : k / BSIZE = 0 := Nat.div_eq_of_lt (Nat.lt_trans hk (by decide))
    refine ⟨Nat.lt_trans hk (by decide), ?_⟩
    rw [hk0]
    show (inodeOf smallDisk linkCycle 2).addrs 0 ≠ 0
    rw [haddr]
    decide

/-- The link to itself cannot be opened, and `c` becomes a link to `b`. -/
theorem symlink_resolution_cycle :
    (∃ x s', openInode smallDisk (fun _ => []) [97] O_RDONLY 0 (atRoot linkCycle).fs = .ok (x, s') ∧
      (∀ q, (∃ f, x = some f ∧ (s'.inode f).inum = q) ↔ OpensAt smallDisk linkCycle 1 2 q) ∧ ∀ f, x = some f →
        LockedOne (atRoot linkCycle).fs s' f) ∧
    ∃ s', sys_symlink smallDisk 0 [] (some [98]) (some [99]) (atRoot linkCycle).fs = .ok (0, s') ∧
      ∃ dir name, resolve smallDisk linkCycle true 1 [99] = some (dir, name) ∧
        ReadsBack smallDisk s'.disk dir name [98] := by
  obtain ⟨hopen, hmake⟩ := symlink_resolution smallDisk smallDisk_layout
  constructor
  · exact hopen (fun _ => []) atRoot_linkTree
      (by decide +kernel : resolve smallDisk linkCycle false 1 [97] = some (2, [97])) (by decide +kernel) (by decide)
      (by decide)
  · have hrun : (sys_symlink smallDisk 0 [] (some [98]) (some [99]) (atRoot linkCycle).fs).toOption.map (·.1) =
      some 0 := by decide +kernel
    cases e : sys_symlink smallDisk 0 [] (some [98]) (some [99]) (atRoot linkCycle).fs with
    | error m =>
      rw [e] at hrun
      cases hrun
    | ok x =>
      obtain ⟨r, s'⟩ := x
      rw [e] at hrun
      have hr : r = 0 := Option.some.inj hrun
      rw [hr] at e
      exact ⟨s', by rw [hr], hmake atRoot_settled atRoot_tree.aligned (by decide) (by decide) (by decide) e⟩

/-- The root directory has the entries `a` for inode 2, a link to `b`, and `b` for inode 52, a file. -/
def crowdedLink : Mem := fun x =>
  if 2240 ≤ x ∧ x < 5440 ∧ x % 64 = 0 then 2
  else
    match x with
    | 2112 => 1 | 2118 => 1 | 2120 => 32 | 2124 => 10
    | 2176 => 4 | 2182 => 1 | 2184 => 128 | 2188 => 11
    | 5382 => 1
    | 6144 => 127 | 6145 => 12
    | 10240 => 2 | 10242 => 97 | 10256 => 52 | 10258 => 98
    | 11264 => 98
    | _ => 0

/-- All slots of the inode table are in use, for inodes 1 to 50. -/
def inCrowdedLink : St :=
  ⟨crowdedLink, [], fun i => ⟨1, i + 1, 1, false, true, inodeOf manyInodes crowdedLink (i + 1)⟩⟩

/-- The chain of `a` ends at the file, and opening it panics. -/
theorem link_open_panics : resolve manyInodes crowdedLink false 1 [97] = some (2, [97]) ∧
    (inodeOf manyInodes crowdedLink 2).type = T_SYMLINK ∧
    OpensAt manyInodes crowdedLink 1 2 52 ∧ openInode manyInodes (fun _ => []) [97] O_RDONLY 0 inCrowdedLink =
      .error "iget: no inodes" := by
  refine ⟨by decide +kernel, by decide +kernel, ⟨1, by decide, by decide, by decide +kernel, by decide +kernel⟩,
    error_of_message (by decide +kernel) (by decide)⟩

end Xv6Labs.Fs.Disk
