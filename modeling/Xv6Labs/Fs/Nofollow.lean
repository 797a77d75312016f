/-
  Xv6Labs.Fs.Nofollow — what an open with O_NOFOLLOW learns about the target.

  Two states are twins if they differ in what one inode contains: here the link. As long as the
  link is not followed, sys_open runs in lockstep on them. sys_open compares `omode` with
  O_NOFOLLOW; the other flags are tested as bits.

  - `namexLoop_twin`: directories are the same, and so is what a path leads to.
  - `nofollow_isolates`: of the modes with the O_NOFOLLOW bit, only O_NOFOLLOW itself keeps the
    result from depending on the target.
-/

import Xv6Labs.Lib.Calls
import Xv6Labs.Fs.Paths

namespace Xv6Labs.Fs.Disk

open Lib
open Ftable (one one_self one_ne one_nonneg)

section

variable {sb : Superblock} {s s' s0 s1 : St} {i k ip dp cwd dev inum omode p : Nat} {path name : List UInt8}
    {junk : Nat → List UInt8} {L : Ftable.Limits}

/-! ## Twins -/

/-- The states differ in what inode `i` contains. -/
structure Twin (sb : Superblock) (i : Nat) (s s' : St) : Prop where
  inode : s'.inode = s.inode
  dinode : ∀ k < sb.ninodes, inodeOf sb s'.disk k = inodeOf sb s.disk k
  block : ∀ k < sb.ninodes, k ≠ i → ∀ x < (inodeOf sb s.disk k).size,
    (inodeOf sb s.disk k).at s'.disk (slotOf (x / BSIZE)) = (inodeOf sb s.disk k).at s.disk (slotOf (x / BSIZE))
  byte : ∀ k < sb.ninodes, k ≠ i → ∀ x < (inodeOf sb s.disk k).size,
    (inodeOf sb s.disk k).byte s'.disk x = (inodeOf sb s.disk k).byte s.disk x

/-- Same result, or same panic, and still twins. -/
def Same {α : Type} (sb : Superblock) (i : Nat) (x x' : Except String (α × St)) : Prop :=
  Lockstep (fun a a' => a'.1 = a.1 ∧ Twin sb i a.2 a'.2) x x'

theorem Twin.set (h : Twin sb i s s') (k : Nat) (x : Inode) : Twin sb i (s.setInode k x) (s'.setInode k x) := by
  refine ⟨?_, h.dinode, h.block, h.byte⟩
  show Function.update s'.inode k x = Function.update s.inode k x
  rw [h.inode]

theorem iget_twin (h : Twin sb i s s') : Same sb i (iget dev inum s) (iget dev inum s') := by
  unfold iget
  rw [h.inode]
  split
  · exact .error _
  · exact .ok ⟨rfl, h.set _ _⟩

theorem ilock_twin (h : Twin sb i s s') (hk : (s.inode ip).inum < sb.ninodes) :
    Lockstep (Twin sb i) (ilock sb ip s) (ilock sb ip s') := by
  have hd : loadDinode s'.disk (dinode sb (s.inode ip).inum) = loadDinode s.disk (dinode sb (s.inode ip).inum) :=
    h.dinode _ hk
  unfold ilock
  dsimp only
  rw [h.inode, hd]
  split
  · exact .error _
  split
  · exact .error _
  split
  · exact .ok (h.set _ _)
  split
  · exact .error _
  · exact .ok (h.set _ _)

theorem iunlock_twin (h : Twin sb i s s') : Lockstep (Twin sb i) (iunlock ip s) (iunlock ip s') := by
  unfold iunlock
  dsimp only
  rw [h.inode]
  split
  · exact .error _
  · exact .ok (h.set _ _)

/-- Letting an inode go that stays. -/
theorem iunlockput_twin (h : Twin sb i s s')
    (hk : (s.inode ip).ref = 1 → (s.inode ip).valid = true → (s.inode ip).d.nlink ≠ 0) :
    Lockstep (Twin sb i) (iunlockput sb ip s) (iunlockput sb ip s') := by
  refine (iunlock_twin h).bind fun t t' e _ ht => ?_
  have hkeep : ¬ ((t.inode ip).ref = 1 ∧ (t.inode ip).valid = true ∧ (t.inode ip).d.nlink = 0) := by
    unfold iunlock at e
    dsimp only at e
    split at e
    · cases e
    · cases e
      rw [setInode_self]
      exact fun hc => hk hc.1 hc.2.1 hc.2.2
  unfold iput
  rw [ht.inode, if_neg hkeep, if_neg hkeep, ok_bind, ok_bind, ht.inode]
  exact .ok (ht.set _ _)

/-! ## Directories -/

theorem readi_twin (h : Twin sb i s s') (hk : k < sb.ninodes) (hki : k ≠ i)
    (hd : (s.inode dp).d = inodeOf sb s.disk k) (hm : Mapped s.disk (s.inode dp).d)
    {off : Nat} (hoff : off < (s.inode dp).d.size) : ∃ bs, readi sb dp off 16 s = .ok (bs, s) ∧
      readi sb dp off 16 s' = .ok (bs, s') := by
  have hmax := (hm off hoff).1
  have hlt : off + 16 < 2 ^ 32 := by simp only [MAXFILE, NINDIRECT2, NDIRECT, NINDIRECT, BSIZE] at hmax; omega
  have hd' : (s'.inode dp).d = (s.inode dp).d := by rw [h.inode]
  have hm' : ∀ x < (s.inode dp).d.size, x < MAXFILE * BSIZE ∧ s'.at dp (slotOf (x / BSIZE)) ≠ 0 := fun x hx => by
    refine ⟨(hm x hx).1, ?_⟩
    show (s'.inode dp).d.at s'.disk (slotOf (x / BSIZE)) ≠ 0
    rw [hd', hd, h.block k hk hki x (hd ▸ hx), ← hd]
    exact (hm x hx).2
  refine ⟨_, readi_mapped sb hlt fun x _ hx _ => hm x hx, ?_⟩
  rw [readi_mapped sb hlt fun x _ hx _ => hm' x (hd' ▸ hx), hd']
  refine congrArg (fun bs => Except.ok (bs, s')) (List.map_congr_left fun x hx => ?_)
  have hx := List.mem_range.mp hx
  show (s'.inode dp).d.byte s'.disk (off + x) = (s.inode dp).d.byte s.disk (off + x)
  rw [hd', hd]
  exact h.byte k hk hki _ (by rw [← hd]; omega)

/-- A directory that is not the link. -/
theorem dirlookup_twin (h : Twin sb i s s') (hk : k < sb.ninodes) (hki : k ≠ i)
    (hd : (s.inode dp).d = inodeOf sb s.disk k) (hm : Mapped s.disk (s.inode dp).d) :
    Same sb i (dirlookup sb dp name s) (dirlookup sb dp name s') := by
  have hloop : ∀ n off, Same sb i (dirlookupLoop sb dp name n off s) (dirlookupLoop sb dp name n off s') := by
    intro n
    induction n with
    | zero => exact fun _ => .ok ⟨rfl, h⟩
    | succ n ih =>
      intro off
      unfold dirlookupLoop
      rw [h.inode]
      by_cases hoff : off < (s.inode dp).d.size
      · obtain ⟨bs, e, e'⟩ := readi_twin h hk hki hd hm hoff
        rw [if_pos hoff, if_pos hoff, e, e', ok_bind, ok_bind]
        dsimp only
        split
        · exact .error _
        split
        · exact ih (off + 16)
        split
        · rw [h.inode]
          refine (iget_twin h).bind fun a a' _ _ ha => .ok ⟨?_, ha.2⟩
          rw [ha.1]
        · exact ih (off + 16)
      · rw [if_neg hoff, if_neg hoff]
        exact .ok ⟨rfl, h⟩
  unfold dirlookup
  rw [h.inode]
  split
  · exact .error _
  · exact hloop _ _

/-! ## Paths -/

theorem namexLoop_twin (hN : Names sb cwd s0) (hi : (inodeOf sb s0.disk i).type ≠ T_DIR) : ∀ {n path name ip s s'},
    Calm sb s0 s (one ip) 0 →
    Named sb s0.disk (s0.inode cwd).inum (s.inode ip).inum → Twin sb i s s' →
    Same sb i (namexLoop sb false n path name ip s) (namexLoop sb false n path name ip s') := by
  intro n
  induction n with
  | zero => exact fun _ _ _ => .error _
  | succ n ih =>
    intro path name ip s s' h hn ht
    have hip : ∀ j, 0 ≤ one ip j := one_nonneg ip
    have hone : 1 ≤ one ip ip := by rw [one_self]
    unfold namexLoop
    cases hskip : skipelem path with
    | none => exact .ok ⟨rfl, ht⟩
    | some y =>
      obtain ⟨rest, elem⟩ := y
      dsimp only
      refine (ilock_twin ht (hN.named _ hn).1).bind fun s1 s1' e1 _ ht1 => ?_
      obtain ⟨hl, hv, hp⟩ := calm_ilock h.table e1
      have h1 := (h.then hip hl).congr (a := one ip) (b := one ip) (fun _ => Int.add_zero _) fun _ => Int.zero_add _
      have hkey : (s1.inode ip).inum = (s.inode ip).inum := (hl.key ip (h.live hN.table hone)).2
      rw [← hkey] at hn
      have hd := (h1.table.copy ip hp hv).1
      rw [ht1.inode]
      split
      · exact (iunlockput_twin ht1 (h1.toDelta.spared h1.table hip hone (hN.named _ hn).2 (by rw [h1.disk]))).bind
          fun _ _ _ _ ht2 => .ok ⟨rfl, ht2⟩
      rename_i hdir
      have hdir := not_not.mp hdir
      rw [if_neg (by simp), if_neg (by simp)]
      -- the link is no directory
      have hdd := hd
      rw [h1.disk] at hdd
      have hne : (s1.inode ip).inum ≠ i := fun e => hi (by rw [← e, ← hdd]; exact hdir)
      have hm : Mapped s1.disk (s1.inode ip).d := by
        rw [hdd, h1.disk]
        exact hN.mapped _ (hN.named _ hn).1 (hdd ▸ hdir)
      refine (dirlookup_twin ht1 (hN.named _ hn).1 hne hd hm).bind fun a a' e2 _ ha => ?_
      obtain ⟨next, s2⟩ := a
      obtain ⟨next', s2'⟩ := a'
      obtain ⟨rfl, ht2⟩ := ha
      obtain ⟨h2, -, hnext⟩ := hN.dirlookup h1 hip hp hv hn e2
      have hkey2 : (s2.inode ip).inum = (s1.inode ip).inum := ((dirlookup_delta e2).key ip hp).2
      have hr2 : ∀ j, 0 ≤ (one ip + took (next'.map (·.1))) j := fun j => Int.add_nonneg (hip j) (took_nonneg _ j)
      have hone2 : 1 ≤ (one ip + took (next'.map (·.1))) ip :=
        Int.le_trans hone (Int.le_add_of_nonneg_right (took_nonneg _ ip))
      rw [← hkey2] at hn
      refine (iunlockput_twin ht2 (h2.toDelta.spared h2.table hr2 hone2 (hN.named _ hn).2 (by rw [h2.disk]))).bind
        fun s3 s3' e3 _ ht3 => ?_
      have h3 := hN.iunlockput h2 hr2 hone2 hn e3
      cases next' with
      | none => exact .ok ⟨rfl, ht3⟩
      | some f =>
        obtain ⟨q, o⟩ := f
        have hpq : 0 < (s2.inode q).ref := by
          refine h2.live hN.table ?_
          have := hip q
          show 1 ≤ one ip q + one q q
          rw [one_self]
          omega
        have hq := hnext (q, o) rfl
        dsimp only at hq
        rw [← ((iunlockput_delta e3).key q hpq).2] at hq
        exact ih (h3.congr (fun j => by show one ip j + one q j + -one ip j = one q j; omega) fun j =>
          Int.add_right_neg _) hq ht3

theorem namei_twin (hN : Names sb cwd s) (hi : (inodeOf sb s.disk i).type ≠ T_DIR) (ht : Twin sb i s s') :
    Same sb i (namei sb cwd path s) (namei sb cwd path s') := by
  have hx : Same sb i (namex sb cwd path false s) (namex sb cwd path false s') := by
    unfold namex namexStart
    split
    · refine (iget_twin ht).bind fun a a' e _ ha => ?_
      obtain ⟨ip, s1⟩ := a
      obtain ⟨ip', s1'⟩ := a'
      obtain ⟨rfl, ht1⟩ := ha
      obtain ⟨hc, hk⟩ := calm_iget hN.table (hN.named _ .root).1 e
      exact namexLoop_twin hN hi hc (by rw [hk]; exact .root) ht1
    · have hk : ((idup cwd s).inode cwd).inum = (s.inode cwd).inum := by
        unfold idup
        rw [setInode_self]
      have ht1 : Twin sb i (idup cwd s) (idup cwd s') := by
        unfold idup
        rw [ht.inode]
        exact ht.set _ _
      exact namexLoop_twin hN hi (calm_idup hN.table hN.live) (by rw [hk]; exact .start) ht1
  exact hx.bind fun a a' _ _ ha => .ok ⟨by rw [ha.1], ha.2⟩

/-! ## The link is opened itself -/

/-- What namei finds for the path of a link is that link, once it is locked. -/
structure Locked (sb : Superblock) (cwd i : Nat) (s0 : St) (ip : Nat) (s : St) : Prop where
  calm : Calm sb s0 s (one ip) (one ip)
  inum : (s.inode ip).inum = i
  type : (s.inode ip).d.type = T_SYMLINK
  named : Named sb s0.disk (s0.inode cwd).inum (s.inode ip).inum

theorem namei_link (hN : Names sb cwd s) (hpath : descendAll sb s.disk (components path) (start cwd path s) = some i)
    (hi : (inodeOf sb s.disk i).type = T_SYMLINK) {x : Option Nat} (e : namei sb cwd path s = .ok (x, s1)) :
    ∃ ip, x = some ip ∧ (s1.inode ip).inum < sb.ninodes ∧ ∀ s2, ilock sb ip s1 = .ok s2 →
      Locked sb cwd i s ip s2 := by
  unfold namei at e
  obtain ⟨⟨r, s1⟩, e1, e⟩ := bind_ok e
  cases e
  obtain ⟨h1, hr, hn⟩ := namex_calm hN e1
  have hwalk : (resolve sb s.disk false (s.inode cwd).inum path).map (·.1) = some i :=
    (@walk_components sb s.disk (path.length + 1) path [] (start cwd path s) (Nat.lt_succ_self _)).1.trans hpath
  rw [← hr] at hwalk
  cases r with
  | none => cases hwalk
  | some f =>
    have hinum : (s1.inode f.1).inum = i := Option.some.inj hwalk
    have hnf := hn f rfl
    refine ⟨f.1, rfl, (hN.named _ hnf).1, fun s2 e2 => ?_⟩
    have hone : 1 ≤ one f.1 f.1 := by rw [one_self]
    obtain ⟨h2, hv, hp⟩ := calm_ilock h1.table e2
    have h3 := (h1.then (one_nonneg f.1) h2).congr (a := one f.1) (b := one f.1) (fun j => Int.add_zero _) fun j =>
      Int.zero_add _
    have hkey : (s2.inode f.1).inum = (s1.inode f.1).inum := (h2.key f.1 (h1.live hN.table hone)).2
    have hd := (h3.table.copy f.1 hp hv).1
    rw [h3.disk, hkey, hinum] at hd
    exact ⟨h3, hkey.trans hinum, by rw [hd, hi], by rw [hkey]; exact hnf⟩

theorem openInode_twin (hN : Names sb cwd s)
    (hpath : descendAll sb s.disk (components path) (start cwd path s) = some i)
    (hi : (inodeOf sb s.disk i).type = T_SYMLINK) (ht : Twin sb i s s') :
    Lockstep (fun a a' => a'.1 = a.1 ∧ Twin sb i a.2 a'.2 ∧ ∃ ip, a.1 = some ip ∧ Locked sb cwd i s ip a.2)
      (openInode sb junk path O_NOFOLLOW cwd s) (openInode sb junk path O_NOFOLLOW cwd s') := by
  have hnodir : (inodeOf sb s.disk i).type ≠ T_DIR := by
    rw [hi]
    decide
  unfold openInode
  rw [if_neg (by decide), if_neg (by decide)]
  refine (namei_twin hN hnodir ht).bind fun a a' e _ ha => ?_
  obtain ⟨x, s1⟩ := a
  obtain ⟨x', s1'⟩ := a'
  obtain ⟨rfl, ht1⟩ := ha
  obtain ⟨ip, rfl, hlt, hlocked⟩ := namei_link hN hpath hi e
  refine (ilock_twin ht1 hlt).bind fun s2 s2' e2 _ ht2 => ?_
  have h := hlocked s2 e2
  rw [ht2.inode, h.type, if_neg (by decide), if_neg (by decide)]
  exact .ok ⟨rfl, ht2, ip, rfl, h⟩

/-- The result, if it is a descriptor, is one of inode `i`. -/
def Opens (p i : Nat) (a : Int × Sys) : Prop :=
  0 ≤ a.1 → ∃ f, a.2.ft.ofile p a.1.toNat = some f ∧ (a.2.ft.file f).type = .FD_INODE ∧
    (a.2.fs.inode (a.2.ft.file f).ip).inum = i

/-- Same result, same files and descriptors, and a descriptor is one of inode `i`. -/
structure Alike (p i : Nat) (a a' : Int × Sys) : Prop where
  result : a'.1 = a.1
  ft : a'.2.ft = a.2.ft
  opens : Opens p i a
  opens' : Opens p i a'

theorem opens_failed (p i : Nat) (s : Sys) : Opens p i (-1, s) :=
  fun h => absurd (show (0 : Int) ≤ -1 from h) (by decide)

theorem install_twin {s : Sys} {fs' : St} {f fd : Nat} (ht : Twin sb i s.fs fs') (hi : (s.fs.inode ip).inum = i)
    (hty : (s.fs.inode ip).d.type = T_SYMLINK) (hfd : s.ft.ofile p fd = some f) :
    Lockstep (Alike p i) (install sb O_NOFOLLOW ip f fd s) (install sb O_NOFOLLOW ip f fd { s with fs := fs' }) := by
  have hd : fs'.inode ip = s.fs.inode ip := by rw [ht.inode]
  unfold install
  dsimp only
  rw [hd, if_neg (fun h => absurd h.1 (by decide)), if_neg (fun h => absurd h.1 (by decide)), ok_bind, ok_bind]
  refine (iunlock_twin ht).bind fun t t' e _ htt => ?_
  have hfile : openedFile O_NOFOLLOW ip (s.fs.inode ip).d (s.ft.file f) =
    { s.ft.file f with type := .FD_INODE, off := 0, ip := ip, readable := true, writable := false } := by
    unfold openedFile
    rw [hty]
    rfl
  have hinum : (t.inode ip).inum = i := by
    unfold iunlock at e
    dsimp only at e
    split at e
    · cases e
    · cases e
      rw [setInode_self]
      exact hi
  have hopens : ∀ u : St, (u.inode ip).inum = i →
      Opens p i
        ((fd : Int),
        { s with fs := u, ft := s.ft.setFile f (openedFile O_NOFOLLOW ip (s.fs.inode ip).d (s.ft.file f)) }) :=
        fun u hu _ => by
    refine ⟨f, hfd, ?_, ?_⟩
    · dsimp only
      rw [Ftable.setFile_self, hfile]
    · dsimp only
      rw [Ftable.setFile_self, hfile]
      exact hu
  exact .ok ⟨rfl, rfl, hopens t hinum, hopens t' (by rw [htt.inode]; exact hinum)⟩

theorem openBad_twin {s : Sys} {fs' : St} (ht : Twin sb i s.fs fs')
    (hk : (s.fs.inode ip).ref = 1 → (s.fs.inode ip).valid = true → (s.fs.inode ip).d.nlink ≠ 0) :
    Lockstep (Alike p i) (openBad sb ip s) (openBad sb ip { s with fs := fs' }) := by
  unfold openBad
  exact (iunlockput_twin ht hk).bind fun t t' _ _ _ => .ok ⟨rfl, rfl, opens_failed p i _, opens_failed p i _⟩

/-- A file without a type has no inode to put. -/
theorem fileclose_none {s : Sys} {f : Nat} (h : (s.ft.file f).type = .FD_NONE) :
    fileclose sb f s = Ftable.fileclose f s.ft >>= fun ft => .ok { s with ft := ft } := by
  unfold fileclose
  dsimp only
  rw [if_neg (by simp [h])]
  rfl

theorem allocFile_twin {s : Sys} {fs' : St} (hclosed : ∀ f, (s.ft.file f).ref = 0 → (s.ft.file f).type = .FD_NONE)
    (ht : Twin sb i s.fs fs') (hi : (s.fs.inode ip).inum = i) (hty : (s.fs.inode ip).d.type = T_SYMLINK)
    (hk : (s.fs.inode ip).ref = 1 → (s.fs.inode ip).valid = true → (s.fs.inode ip).d.nlink ≠ 0) :
    Lockstep (Alike p i) (allocFile sb L p O_NOFOLLOW ip s)
      (allocFile sb L p O_NOFOLLOW ip { s with fs := fs' }) := by
  unfold allocFile
  dsimp only
  cases hf : Ftable.filealloc s.ft L.NFILE 0 with
  | mk r ft =>
    cases r with
    | none => exact openBad_twin (s := { s with ft := ft }) ht hk
    | some f =>
      obtain ⟨h0, rfl⟩ := filealloc_some hf
      dsimp only
      rcases Ftable.fdalloc_cases (L := L) f p (s.ft.setFile f { s.ft.file f with ref := 1 }) L.NOFILE 0 rfl with e |
        ⟨fd, -, -, e⟩
      · rw [e]
        dsimp only
        have hnone : ((s.ft.setFile f { s.ft.file f with ref := 1 }).file f).type = .FD_NONE := by
          rw [Ftable.setFile_self]
          exact hclosed f h0
        rw [fileclose_none hnone, fileclose_none hnone, bind_assoc, bind_assoc]
        refine (Lockstep.refl _).bind fun ft ft' _ _ hft => ?_
        subst hft
        exact openBad_twin (s := { s with ft := ft }) ht hk
      · rw [e]
        exact install_twin (s := { s with ft := _ }) ht hi hty (by simp [Ftable.Sys.setOfile])

/-- What is promised of an open with O_NOFOLLOW: on states that differ in the link only, the same
    result, and a descriptor is one of the link. -/
def Isolates (omode : Nat) : Prop :=
  ∀ (sb : Superblock) (L : Ftable.Limits) (p : Nat) (junk : Nat → List UInt8) (path : List UInt8) (i : Nat) (s : Sys)
    (fs' : St),
    Names sb s.cwd s.fs → (∀ f, (s.ft.file f).ref = 0 → (s.ft.file f).type = .FD_NONE) →
    descendAll sb s.fs.disk (components path) (start s.cwd path s.fs) = some i →
      (inodeOf sb s.fs.disk i).type = T_SYMLINK → Twin sb i s.fs fs' →
    Lockstep (Alike p i) (sys_open sb L p junk (some (path, omode)) s)
      (sys_open sb L p junk (some (path, omode)) { s with fs := fs' })

theorem isolates_nofollow : Isolates O_NOFOLLOW := by
  intro sb L p junk path i s fs' hN hclosed hpath hi ht
  unfold sys_open
  refine (openInode_twin hN hpath hi ht).bind fun a a' _ _ ha => ?_
  obtain ⟨x, t⟩ := a
  obtain ⟨x', t'⟩ := a'
  obtain ⟨rfl, htt, ip, rfl, h⟩ := ha
  have hkeep := h.calm.toDelta.spared h.calm.table (one_nonneg ip) (by rw [one_self]) (hN.named _ h.named).2
    (by rw [h.calm.disk])
  dsimp only
  rw [htt.inode, h.type, if_neg (fun hd => absurd hd.1 (by decide)), if_neg (fun hd => absurd hd.1 (by decide))]
  exact allocFile_twin (s := { s with fs := t }) hclosed htt h.inum h.type hkeep

/-! ## The link is followed -/

/-- Any other mode opens what O_RDONLY opens. -/
theorem openInode_followed (hN : Names sb cwd s)
    (hpath : descendAll sb s.disk (components path) (start cwd path s) = some i)
    (hi : (inodeOf sb s.disk i).type = T_SYMLINK) (ht : Twin sb i s s') (hc : omode &&& O_CREATE = 0)
    (hn : omode ≠ O_NOFOLLOW) :
    openInode sb junk path omode cwd s' = openInode sb junk path O_RDONLY cwd s' := by
  have hnodir : (inodeOf sb s.disk i).type ≠ T_DIR := by
    rw [hi]
    decide
  unfold openInode
  rw [if_neg (not_not.mpr hc), if_neg (by decide)]
  have hlock : Same sb i (namei sb cwd path s) (namei sb cwd path s') := namei_twin hN hnodir ht
  cases e : namei sb cwd path s' with
  | error m => rfl
  | ok a' =>
    obtain ⟨x', s1'⟩ := a'
    obtain ⟨⟨x, s1⟩, e1, rfl, ht1⟩ := hlock.of_ok e
    obtain ⟨ip, rfl, hlt, hlocked⟩ := namei_link hN hpath hi e1
    rw [ok_bind, ok_bind]
    dsimp only
    have hlock2 := ilock_twin ht1 hlt
    cases e' : ilock sb ip s1' with
    | error m => rfl
    | ok s2' =>
      obtain ⟨s2, e2, ht2⟩ := hlock2.of_ok e'
      have hty := (hlocked s2 e2).type
      rw [ok_bind, ok_bind, ht2.inode, hty, if_neg (fun h => absurd h.1 (by decide)), if_pos ⟨rfl, hn⟩,
        if_neg (fun h => absurd h.1 (by decide)), if_pos ⟨rfl, by decide⟩]

/-- The mode makes no difference to the result either, unless a file is opened. -/
theorem sys_open_followed {s : Sys}
    (h : openInode sb junk path omode s.cwd s.fs = openInode sb junk path O_RDONLY s.cwd s.fs)
    (hfile : ∀ ip t, openInode sb junk path O_RDONLY s.cwd s.fs = .ok (some ip, t) → (t.inode ip).d.type ≠ T_FILE) :
    (sys_open sb L p junk (some (path, omode)) s).map (·.1) = (sys_open sb L p junk (some (path, O_RDONLY)) s).map
    (·.1) := by
  unfold sys_open
  dsimp only
  rw [h]
  cases e : openInode sb junk path O_RDONLY s.cwd s.fs with
  | error m => rfl
  | ok a =>
    obtain ⟨x, t⟩ := a
    rw [ok_bind, ok_bind]
    cases x with
    | none => rfl
    | some ip =>
      have hty := hfile ip t e
      dsimp only
      split
      · rfl
      unfold allocFile
      dsimp only
      cases Ftable.filealloc s.ft L.NFILE 0 with
      | mk r ft =>
        cases r with
        | none => rfl
        | some f =>
          dsimp only
          cases Ftable.fdalloc f p ft L.NOFILE 0 with
          | mk r ft =>
            cases r with
            | none => rfl
            | some fd =>
              dsimp only
              unfold install
              dsimp only
              rw [if_neg (fun h => hty h.2), if_neg (fun h => hty h.2), ok_bind, ok_bind]
              cases iunlock ip t with
              | error m => rfl
              | ok u => rfl


end

/-- The target of `a` is `/` instead of `a`. -/
def linkRoot : Mem := fun x => if x = 11264 then 47 else linkCycle x

def inRoot (disk : Mem) : Sys := { atRoot linkCycle with fs := { (atRoot linkCycle).fs with disk := disk } }

theorem link_twin : Twin smallDisk 2 (inRoot linkCycle).fs (inRoot linkRoot).fs := by
  have hsize : ∀ k < 15, k ≠ 2 → (inodeOf smallDisk linkCycle k).size ≤ 16 := by decide +kernel
  have hat : ∀ k < 15, k ≠ 2 → ∀ x < 16, (inodeOf smallDisk linkCycle k).at linkRoot (slotOf (x / BSIZE)) =
    (inodeOf smallDisk linkCycle k).at linkCycle (slotOf (x / BSIZE)) := by
    decide +kernel
  have hbyte : ∀ k < 15, k ≠ 2 → ∀ x < 16, (inodeOf smallDisk linkCycle k).byte linkRoot x =
    (inodeOf smallDisk linkCycle k).byte linkCycle x := by decide +kernel
  refine ⟨rfl, fun k hk => loadDinode_congr fun x _ hx => if_neg ?_,
    fun k hk hne x hx => hat k hk hne x (Nat.lt_of_lt_of_le hx (hsize k hk hne)),
    fun k hk hne x hx => hbyte k hk hne x (Nat.lt_of_lt_of_le hx (hsize k hk hne))⟩
  have hall : ∀ k < 15, dinode smallDisk k + 64 < 11264 := by decide
  have := hall k hk
  omega

theorem Twin.refl (sb : Superblock) (i : Nat) (s : St) : Twin sb i s s :=
  ⟨rfl, fun _ _ => rfl, fun _ _ _ _ _ => rfl, fun _ _ _ _ _ => rfl⟩

def opensFile (x : Except String (Option Nat × St)) : Bool :=
  match x with
  | .ok (some ip, t) => (t.inode ip).d.type == T_FILE
  | _ => false

theorem opensFile_false {x : Except String (Option Nat × St)} (h : opensFile x = false) {ip : Nat} {t : St}
    (e : x = .ok (some ip, t)) :
    (t.inode ip).d.type ≠ T_FILE := by
  rw [e] at h
  exact fun ht => by simp [opensFile, ht] at h

/-- What opening `a` returns, in any other mode. -/
theorem link_result {disk : Mem} (ht : Twin smallDisk 2 (inRoot linkCycle).fs (inRoot disk).fs)
    (hf : opensFile (openInode smallDisk (fun _ => []) [97] O_RDONLY 0 (inRoot disk).fs) = false) {omode : Nat}
    (hc : omode &&& O_CREATE = 0) (hn : omode ≠ O_NOFOLLOW) :
    (sys_open smallDisk small 0 (fun _ => []) (some ([97], omode)) (inRoot disk)).map (·.1) =
      (sys_open smallDisk small 0 (fun _ => []) (some ([97], O_RDONLY)) (inRoot disk)).map (·.1) := by
  have hN : Names smallDisk 0 (inRoot linkCycle).fs := atRoot_settled.toNames
  have hpath : descendAll smallDisk linkCycle (components [97]) (start 0 [97] (inRoot linkCycle).fs) = some 2 := by
    decide
  have hi : (inodeOf smallDisk linkCycle 2).type = T_SYMLINK := rfl
  exact sys_open_followed (openInode_followed hN hpath hi ht hc hn) fun ip t e => opensFile_false hf e

/-- The link to itself cannot be opened by following it, the link to `/` can. -/
theorem follows_link {omode : Nat} (hc : omode &&& O_CREATE = 0) (hn : omode ≠ O_NOFOLLOW) : ¬ Isolates omode := by
  intro h
  have hN : Names smallDisk 0 (inRoot linkCycle).fs := atRoot_settled.toNames
  have h1 := link_result (Twin.refl _ _ _) (by decide +kernel) hc hn
  have h2 := link_result link_twin (by decide +kernel) hc hn
  have e1 : ((sys_open smallDisk small 0 (fun _ => []) (some ([97], O_RDONLY)) (inRoot linkCycle)).map
    (·.1)).toOption = some (-1) := by decide +kernel
  have e2 : ((sys_open smallDisk small 0 (fun _ => []) (some ([97], O_RDONLY)) (inRoot linkRoot)).map
    (·.1)).toOption = some 0 := by decide +kernel
  have hlock := h smallDisk small 0 (fun _ => []) [97] 2 (inRoot linkCycle) (inRoot linkRoot).fs hN
    (atRoot_closed linkCycle) (by decide +kernel) (by decide +kernel) link_twin
  have heq := hlock.map_eq fun a a' ha => ha.result.symm
  rw [h1.symm.trans (heq.trans h2), e2] at e1
  cases e1

/-- Of the modes without O_CREATE, with the O_NOFOLLOW bit or not, only O_NOFOLLOW keeps the
    promise. -/
theorem nofollow_isolates {omode : Nat} (hc : omode &&& O_CREATE = 0) : Isolates omode ↔ omode = O_NOFOLLOW := by
  constructor
  · intro h
    by_contra hn
    exact follows_link hc hn h
  · intro e
    rw [e]
    exact isolates_nofollow

theorem nofollow_isolates_trunc : (O_NOFOLLOW ||| O_TRUNC) &&& O_CREATE = 0 ∧
    (Isolates (O_NOFOLLOW ||| O_TRUNC) ↔ (O_NOFOLLOW ||| O_TRUNC) = O_NOFOLLOW) :=
  ⟨by decide, nofollow_isolates (by decide)⟩

/-- O_NOFOLLOW|O_RDWR follows the link: what it returns for `a` depends on the target. -/
theorem nofollow_rdwr_follows : (O_NOFOLLOW ||| O_RDWR) &&& O_NOFOLLOW ≠ 0 ∧
    (O_NOFOLLOW ||| O_RDWR) &&& O_CREATE = 0 ∧
    Twin smallDisk 2 (inRoot linkCycle).fs (inRoot linkRoot).fs ∧
    ((sys_open smallDisk small 0 (fun _ => []) (some ([97], O_NOFOLLOW ||| O_RDWR)) (inRoot linkCycle)).map
      (·.1)).toOption = some (-1) ∧
    ((sys_open smallDisk small 0 (fun _ => []) (some ([97], O_NOFOLLOW ||| O_RDWR)) (inRoot linkRoot)).map
      (·.1)).toOption = some 0 ∧
    ¬ Isolates (O_NOFOLLOW ||| O_RDWR) :=
  ⟨by decide, by decide, link_twin, by decide +kernel, by decide +kernel, follows_link (by decide) (by decide)⟩

end Xv6Labs.Fs.Disk
