/-
  Xv6Labs.Fs.Nlink — link counts over runs of sys_link, sys_unlink and sys_mkdir.

  `nlink` is a short, and nothing in sys_link or create looks at it before it is raised. `Room`:
  the count that the call raises is not the greatest short.

  - `nlink_counts`: while every call has room, a call raises the count by 1, what is linked has a
    link count of at least 1, and sys_unlink does not panic about it.
  - `nlink_overflows`: a file with 32767 names has no room.
-/

import Xv6Labs.Lib.Runs
import Xv6Labs.Fs.Filewrite
import Xv6Labs.Fs.Panics

namespace Xv6Labs.Fs.Disk

open Lib

inductive LinkCall where
  | link (old new : Option (List UInt8))
  | unlink (path : Option (List UInt8))
  | mkdir (path : Option (List UInt8))

/-- A call by a process with that current directory, and what it returned. -/
structure Call where
  cwd : Nat
  op : LinkCall
  ret : Int

section

variable {sb : Superblock} {s s' : St} {c : Call} {cs : List Call} {i : Nat} {disk : Mem}

variable (sb) in
def LinkCall.run (cwd : Nat) (s : St) : LinkCall → Except String (Int × St)
  | link old new => sys_link sb cwd old new s
  | unlink path => sys_unlink sb cwd path s
  | mkdir path => sys_mkdir sb cwd path s

variable (sb) in
/-- The inode whose count a call from the directory `dir` raises: the file at `old`, or the parent
    of the new directory. -/
def LinkCall.raised (disk : Mem) (dir : Nat) : LinkCall → Option Nat
  | link (some old) (some _) => (resolve sb disk false dir old).bind fun x =>
      if (inodeOf sb disk x.1).type = T_DIR then none else some x.1
  | mkdir (some path) => (resolve sb disk true dir path).bind fun x =>
      if lookup sb disk x.1 x.2 = none then some x.1 else none
  | _ => none

variable (sb) in
/-- The count of an inode, as a number. -/
def links (s : St) (i : Nat) : Int := short (inodeOf sb s.disk i).nlink

variable (sb) in
def CallStep (c : Call) (s s' : St) : Prop := 0 < (s.inode c.cwd).ref ∧ c.op.run sb c.cwd s = .ok (c.ret, s')

variable (sb) in
/-- The inode whose count is raised. -/
def Call.raised (c : Call) (s : St) : Option Nat := c.op.raised sb s.disk (s.inode c.cwd).inum

variable (sb) in
def Room (c : Call) (s : St) : Prop := ∀ i, c.raised sb s = some i → links sb s i < 32767

variable (sb) in
/-- A link or a new directory that succeeds raises a count by 1. -/
def RaisesOne (c : Call) (s s' : St) : Prop :=
  c.ret = 0 → (∀ path, c.op ≠ .unlink path) → ∃ i, c.raised sb s = some i ∧ links sb s' i = links sb s i + 1

/-- What is linked has links, and sys_unlink finds it so. -/
structure LinksCounted (sb : Superblock) (s : St) : Prop where
  linked : ∀ d < sb.ninodes, (inodeOf sb s.disk d).type = T_DIR → ∀ n k i,
    ((inodeOf sb s.disk d).slots s.disk).entry n = some (k, i) →
    k ≠ dot → k ≠ dotdot → 1 ≤ links sb s i
  unlink : ∀ cwd path, 0 < (s.inode cwd).ref → sys_unlink sb cwd path s ≠ .error "unlink: nlink < 1"

/-! ## One call -/

theorem links_graph (hi : i < sb.ninodes) (h : (graph sb s.disk).node i ≠ .free) :
    short ((graph sb s.disk).nlink i) = links sb s i := by
  rw [graph_nlink hi, nlinkOf_eq ((node_free hi).not.mp h)]
  rfl

theorem Consistent.counted (h : Consistent sb s) : LinksCounted sb s := by
  refine ⟨fun d hd ht n k i he h1 h2 => ?_, fun cwd path hc => sys_unlink_clear h hc path⟩
  have hi := h.volume.entries d hd ht n (k, i) he
  obtain ⟨hf, hpos⟩ := h.sane.linked hd (node_dir hd ht) he (decide_eq_true ⟨h1, h2⟩) hi
  rw [links_graph hi hf] at hpos
  exact hpos

theorem Returned.consistent {done : Graph → Prop} {x : Int} (hr : Returned sb s done x s') (h : Consistent sb s)
    (hdone : x = 0 → done (Disk.graph sb s'.disk) → (Disk.graph sb s'.disk).Sane sb.ninodes (InUse s)) :
      Consistent sb s' := by
  refine ⟨hr.sound, ?_⟩
  rw [inUse_congr hr.delta]
  rcases hr.graph with ⟨-, hg⟩ | ⟨h0, hg⟩
  · rw [hg]
    exact h.sane
  · exact hdone h0 hg

theorem Returned.done {done : Graph → Prop} (hr : Returned sb s done 0 s') : done (Disk.graph sb s'.disk) := by
  rcases hr.graph with ⟨h, -⟩ | ⟨-, h⟩
  · exact absurd h (by decide)
  · exact h

/-- A call that, when it succeeds, raises the count that Room is about. -/
theorem raising_step {done : Graph → Prop} (hr : Returned sb s done c.ret s') (h : Consistent sb s)
    (hroom : Room sb c s)
    (hdone : c.ret = 0 → ∃ i < sb.ninodes, c.raised sb s = some i ∧ (graph sb s.disk).Raises (graph sb s'.disk) i ∧
      (short ((graph sb s.disk).nlink i) < 32767 → (graph sb s'.disk).Sane sb.ninodes (InUse s))) :
        Consistent sb s' ∧ RaisesOne sb c s s' := by
  refine ⟨hr.consistent h fun h0 _ => ?_, fun h0 _ => ?_⟩
  · obtain ⟨i, hi, hraised, hup, hsane⟩ := hdone h0
    have hlt := hroom i hraised
    rw [← links_graph hi hup.before] at hlt
    exact hsane hlt
  · obtain ⟨i, hi, hraised, hup, -⟩ := hdone h0
    have hlt := hroom i hraised
    rw [← links_graph hi hup.before] at hlt
    refine ⟨i, hraised, ?_⟩
    rw [← links_graph hi hup.after, ← links_graph hi hup.before, hup.count, Graph.short_succ hlt]

theorem link_done (hl : Layout sb) (h : Consistent sb s) {cwd : Nat} {old new : Option (List UInt8)}
    (hstep : CallStep sb ⟨cwd, .link old new, 0⟩ s s') :
    ∃ i < sb.ninodes, Call.raised sb ⟨cwd, .link old new, 0⟩ s = some i ∧
      (graph sb s.disk).LinkStep sb.ninodes i (graph sb s'.disk) := by
  obtain ⟨hc, e⟩ := hstep
  obtain ⟨path, i, name, hold, hres, hi, hlink⟩ := (sys_link_graph hl h hc e).done
  have hfile : (inodeOf sb s.disk i).type ≠ T_DIR := fun ht => by
    have := hlink.file
    rw [node_dir hi ht] at this
    cases this
  refine ⟨i, hi, ?_, hlink⟩
  subst hold
  cases new with
  | none => cases e
  | some new =>
    show (resolve sb s.disk false (s.inode cwd).inum path).bind _ = some i
    rw [hres, Option.bind_some, if_neg hfile]

theorem link_step (hl : Layout sb) (h : Consistent sb s) {cwd : Nat} {old new : Option (List UInt8)} {r : Int}
    (hstep : CallStep sb ⟨cwd, .link old new, r⟩ s s') (hroom : Room sb ⟨cwd, .link old new, r⟩ s) :
    Consistent sb s' ∧ RaisesOne sb ⟨cwd, .link old new, r⟩ s s' := by
  refine raising_step (sys_link_graph hl h hstep.1 hstep.2) h hroom fun h0 => ?_
  change r = 0 at h0
  subst h0
  obtain ⟨i, hi, hraised, hlink⟩ := link_done hl h hstep
  exact ⟨i, hi, hraised, hlink.raises, hlink.sane h.sane⟩

theorem mkdir_done (hl : Layout sb) (h : Consistent sb s) {cwd : Nat} {path : Option (List UInt8)}
    (hstep : CallStep sb ⟨cwd, .mkdir path, 0⟩ s s') :
    ∃ d < sb.ninodes, Call.raised sb ⟨cwd, .mkdir path, 0⟩ s = some d ∧
      (graph sb s.disk).MkdirStep sb.ninodes d (graph sb s'.disk) := by
  obtain ⟨p, d, name, hp, hres, hnone, hd, hmkdir⟩ := (sys_mkdir_graph hl h hstep.1 hstep.2).done
  refine ⟨d, hd, ?_, hmkdir⟩
  subst hp
  show (resolve sb s.disk true (s.inode cwd).inum p).bind _ = some d
  rw [hres, Option.bind_some, if_pos hnone]

theorem mkdir_step (hl : Layout sb) (h : Consistent sb s) {cwd : Nat} {path : Option (List UInt8)} {r : Int}
    (hstep : CallStep sb ⟨cwd, .mkdir path, r⟩ s s') (hroom : Room sb ⟨cwd, .mkdir path, r⟩ s) :
    Consistent sb s' ∧ RaisesOne sb ⟨cwd, .mkdir path, r⟩ s s' := by
  refine raising_step (sys_mkdir_graph hl h hstep.1 hstep.2) h hroom fun h0 => ?_
  change r = 0 at h0
  subst h0
  obtain ⟨d, hd, hraised, hmkdir⟩ := mkdir_done hl h hstep
  exact ⟨d, hd, hraised, hmkdir.raises, hmkdir.sane h.sane⟩

theorem call_step (hl : Layout sb) (h : Consistent sb s) (hstep : CallStep sb c s s') (hroom : Room sb c s) :
    Consistent sb s' ∧ RaisesOne sb c s s' := by
  obtain ⟨cwd, op, r⟩ := c
  cases op with
  | link old new => exact link_step hl h hstep hroom
  | unlink path =>
    obtain ⟨hc, e⟩ := hstep
    exact ⟨(sys_unlink_graph hl h hc e).consistent h fun _ hdone => hdone.sane h.sane,
      fun _ hne => absurd rfl (hne path)⟩
  | mkdir path => exact mkdir_step hl h hstep hroom

/-! ## Runs -/

theorem nlink_counts (hl : Layout sb) (h : Consistent sb s)
    (hrun : Runs (fun c s s' => CallStep sb c s s' ∧ Room sb c s) cs s s') :
    Runs (fun c s s' => CallStep sb c s s' ∧ RaisesOne sb c s s') cs s s' ∧ LinksCounted sb s' := by
  induction hrun with
  | nil s => exact ⟨.nil s, h.counted⟩
  | cons hstep _ ih =>
    obtain ⟨h1, hone⟩ := call_step hl h hstep.1 hstep.2
    obtain ⟨hrun', hcount⟩ := ih h1
    exact ⟨.cons ⟨hstep.1, hone⟩ hrun', hcount⟩

end

/-! ## A file with as many links as a short holds -/

def fullSize (i : Nat) : Nat := if i = 1 then 2128 else if i = 3 then 32 else if 4 ≤ i ∧ i ≤ 132 then 4096 else 0

/-- Inode 1 is the root directory, 2 a file, and 3 to 132 are directories; each has four blocks of
    the disk for itself. -/
def fullInode (i : Nat) : Dinode :=
  ⟨if i = 2 then T_FILE else if fullSize i = 0 then 0 else T_DIR, 0, 0,
    if i = 1 then 131 else if i = 2 then 32767 else if fullSize i = 0 then 0 else 1,
    fullSize i, fun j => if 1024 * j < fullSize i then 66 + 4 * i + j else 0⟩

/-- What entry `n` of directory `i` names: the root names all inodes, the others the file. -/
def fullInum (i n : Nat) : Nat := if n = 0 then i else if n = 1 then 1 else if i = 1 then n else 2

/-- `.`, `..`, and then two letters. -/
def fullName (n : Nat) : List UInt8 :=
  if n = 0 then dot else if n = 1 then dotdot else [UInt8.ofNat (97 + n / 16), UInt8.ofNat (97 + n % 16)]

/-- The dinodes, the bitmap, and the directories from block 70 on. -/
def fullDisk : Mem := fun x =>
  if x < 32768 then 0
  else if x < 46080 then storeDinode (fun _ => 0) (dinode labFs ((x - 32768) / 64)) (fullInode ((x - 32768) / 64)) x
  else if x < 71680 then if x < 46155 then 255 else 0
  else (Dirent.bytes ⟨UInt16.ofNat (fullInum ((x - 71680) / 4096 + 1) ((x - 71680) % 4096 / 16)),
    fullName ((x - 71680) % 4096 / 16)⟩).getD (x % 16) 0

/-- The root directory is the current one. -/
def inFull : St :=
  ⟨fullDisk, [], fun k => if k = 0 then ⟨1, 1, 1, false, true, fullInode 1⟩ else ⟨0, 0, 0, false, false, fullInode 0⟩⟩


theorem full_used : ∀ c < 598, used labFs fullDisk c = true := by decide +kernel

theorem full_dinode (i : Nat) : dinode labFs i = 32768 + 64 * i := by
  show (i / 16 + 32) * 1024 + i % 16 * 64 = 32768 + 64 * i
  omega

theorem fullSize_cases (i : Nat) : fullSize i = 0 ∨ fullSize i ≤ 4096 ∧ fullSize i % 16 = 0 ∧ (i = 1 ∨ 3 ≤ i) ∧
    i ≤ 132 := by
  unfold fullSize
  split_ifs <;> omega

theorem fullInode_fits (i : Nat) : (fullInode i).Fits := by
  have h := fullSize_cases i
  refine ⟨?_, fun j => ?_⟩
  · show fullSize i < 2 ^ 32
    omega
  · show (if 1024 * j.val < fullSize i then 66 + 4 * i + j.val else 0) < 2 ^ 32
    have hj := j.isLt
    split_ifs <;> omega

theorem full_inode {i : Nat} (hi : i < 200) : inodeOf labFs fullDisk i = fullInode i := by
  have hagree : Mem.Agree (storeDinode (fun _ => 0) (dinode labFs i) (fullInode i)) fullDisk (dinode labFs i) 64 :=
    fun x h1 h2 => by
    rw [full_dinode] at h1 h2
    have e : (x - 32768) / 64 = i := by omega
    unfold fullDisk
    rw [if_neg (by omega), if_pos (by omega), e]
  exact (loadDinode_congr hagree).trans (loadDinode_storeDinode (fullInode_fits i))


theorem full_at {i : Nat} {disk : Mem} {p : Slot} (h : (fullInode i).at disk p ≠ 0) : ∃ j :
    Fin (NDIRECT + 2), p = .addr j ∧ 1024 * j < fullSize i ∧
    (fullInode i).at disk p = 66 + 4 * i + j := by
  have hsmall := fullSize_cases i
  have h11 : (fullInode i).addrs 11 = 0 := if_neg (by show ¬ 1024 * 11 < fullSize i; omega)
  have h12 : ∀ j, entry disk ((fullInode i).addrs 12) j = 0 :=
    fun j => if_pos (if_neg (by show ¬ 1024 * 12 < fullSize i; omega))
  cases p with
  | addr j =>
    have hj : 1024 * j.val < fullSize i := by
      by_contra hn
      exact h (if_neg hn)
    exact ⟨j, rfl, hj, if_pos hj⟩
  | ind j => exact absurd (if_pos h11) h
  | mid j => exact absurd (h12 j) h
  | leaf j k => exact absurd (if_pos (h12 j)) h

/-- Where byte `k` of a directory lies. -/
theorem full_block {i k : Nat} (hk : k < fullSize i) (disk : Mem) :
    k / BSIZE < 4 ∧ (fullInode i).at disk (slotOf (k / BSIZE)) = 66 + 4 * i + k / BSIZE := by
  have hsmall := fullSize_cases i
  have hlt : k / BSIZE < 4 := by
    show k / 1024 < 4
    omega
  rw [slotOf_direct (Nat.lt_of_lt_of_le hlt (by decide))]
  refine ⟨hlt, if_pos ?_⟩
  show 1024 * (k / 1024) < fullSize i
  omega

theorem full_byte {i k : Nat} (hk : k < fullSize i) :
    (fullInode i).byte fullDisk k = (Dirent.bytes ⟨UInt16.ofNat (fullInum i (k / 16)), fullName (k / 16)⟩).getD
    (k % 16) 0 := by
  obtain ⟨hlt, hat⟩ := full_block hk fullDisk
  have hsmall := fullSize_cases i
  have h0 : 66 + 4 * i + k / BSIZE ≠ 0 := by
    show 66 + 4 * i + k / 1024 ≠ 0
    omega
  unfold Dinode.byte
  rw [hat, if_neg h0]
  have hx : (66 + 4 * i + k / BSIZE) * BSIZE + k % BSIZE = 71680 + 4096 * (i - 1) + k := by
    show (66 + 4 * i + k / 1024) * 1024 + k % 1024 = 71680 + 4096 * (i - 1) + k
    omega
  rw [hx]
  unfold fullDisk
  rw [if_neg (by omega), if_neg (by omega), if_neg (by omega)]
  have e1 : (71680 + 4096 * (i - 1) + k - 71680) / 4096 + 1 = i := by omega
  have e2 : (71680 + 4096 * (i - 1) + k - 71680) % 4096 = k := by omega
  have e3 : (71680 + 4096 * (i - 1) + k) % 16 = k % 16 := by omega
  rw [e1, e2, e3]

theorem fullInum_bounds {i n : Nat} (hn : n < fullSize i / 16) : 1 ≤ fullInum i n ∧ fullInum i n < 133 := by
  unfold fullInum
  unfold fullSize at hn
  split_ifs at hn ⊢ <;> omega

/-- The entries of a directory. -/
theorem full_entry {i n : Nat} (hn : n < fullSize i / 16) :
    ((fullInode i).slots fullDisk).entry n = some (key (fullName n), fullInum i n) := by
  have hsmall := fullSize_cases i
  have hinum := fullInum_bounds hn
  rw [← slot_bytes hinum.1 (by omega)]
  refine (slots_entry hn).trans ?_
  have hbytes : (List.range 16).map (fun j => (fullInode i).byte fullDisk (16 * n + j)) =
    Dirent.bytes ⟨UInt16.ofNat (fullInum i n), fullName n⟩ := by
    refine List.ext_getElem (by rw [List.length_map, List.length_range, Dirent.bytes_length]) fun j h1 h2 => ?_
    rw [List.length_map, List.length_range] at h1
    have e1 : (16 * n + j) / 16 = n := by omega
    have e2 : (16 * n + j) % 16 = j := by omega
    rw [List.getElem_map, List.getElem_range, full_byte (by omega), e1, e2, List.getD_eq_getElem _ _ h2]
  unfold Dinode.entryAt
  rw [hbytes]

theorem full_key (n : Nat) (hn : n < 256) : Graph.plain (key (fullName n)) = decide (2 ≤ n) := by
  revert n
  decide +kernel


theorem full_dir {i : Nat} : (fullInode i).type = T_DIR ↔ 0 < fullSize i := by
  have hsmall := fullSize_cases i
  show (if i = 2 then T_FILE else if fullSize i = 0 then 0 else T_DIR) = T_DIR ↔ _
  split_ifs with h2 h0
  · exact iff_of_false (by decide) (by omega)
  · exact iff_of_false (by decide) (by omega)
  · exact iff_of_true rfl (by omega)

theorem full_volume : Volume labFs fullDisk := by
  have hwhole : ∀ i < 200, Whole labFs fullDisk (fullInode i) := fun i hi => by
    refine ⟨fun p h0 => ?_, fun p q h0 e => ?_⟩
    · obtain ⟨j, -, hj, hat⟩ := full_at h0
      have hsmall := fullSize_cases i
      have hlt : 70 ≤ 66 + 4 * i + j.val ∧ 66 + 4 * i + j.val < 598 := by omega
      rw [hat]
      exact ⟨hlt.1, Nat.lt_trans hlt.2 (by decide), full_used _ hlt.2⟩
    · obtain ⟨j, hp, -, hat⟩ := full_at h0
      obtain ⟨k, hq, -, hat'⟩ := full_at (e ▸ h0)
      have : j = k := Fin.ext (by omega)
      rw [hp, hq, this]
  refine ⟨by decide, by decide, fun c hc =>
    full_used c (Nat.lt_trans hc (by decide)), by rw [full_inode (by decide)]; rfl, fun i hi _ => ?_,
    fun i hi k hk hne _ _ p q h0 e => ?_, fun i hi ht k hk => ?_, fun i hi _ => ?_, fun i hi ht n x hx => ?_⟩
  · rw [full_inode hi]
    exact hwhole i hi
  · rw [full_inode hi] at h0 e
    rw [full_inode hk] at e
    obtain ⟨a, -, ha, hat⟩ := full_at h0
    obtain ⟨b, -, hb, hat'⟩ := full_at (e ▸ h0)
    have h1 := fullSize_cases i
    have h2 := fullSize_cases k
    omega
  · rw [full_inode hi] at hk ⊢
    have hk : k < fullSize i := hk
    have hsmall := fullSize_cases i
    obtain ⟨-, hat⟩ := full_block hk fullDisk
    rw [hat]
    refine ⟨Nat.lt_of_lt_of_le (by omega : k < 4096) (by decide), ?_⟩
    show 66 + 4 * i + k / 1024 ≠ 0
    omega
  · rw [full_inode hi]
    have hsmall := fullSize_cases i
    show fullSize i % 16 = 0
    omega
  · rw [full_inode hi] at hx ht
    have hn : n < fullSize i / 16 := Slots.lt_of_entry hx
    rw [full_entry hn] at hx
    cases hx
    exact Nat.lt_trans (fullInum_bounds hn).2 (by decide)

/-! ## Its link counts -/

theorem full_tables {i : Nat} (hi : i < 200) :
    (graph labFs fullDisk).tables i = if 0 < fullSize i then some ((fullInode i).slots fullDisk) else none := by
  show ((graph labFs fullDisk).node i).table = _
  rw [graph_node hi]
  unfold nodeOf
  rw [full_inode hi]
  by_cases hd : 0 < fullSize i
  · have ht := full_dir.mpr hd
    rw [if_neg (by rw [ht]; decide), if_pos ht, if_pos hd]
    rfl
  · rw [if_neg (c := _ = T_DIR) fun ht => hd (full_dir.mp ht), if_neg hd]
    split_ifs <;> rfl

theorem full_free {i : Nat} (hi : i < 200) : (graph labFs fullDisk).node i = .free ↔ fullSize i = 0 ∧ i ≠ 2 := by
  rw [node_free hi, full_inode hi]
  show (if i = 2 then T_FILE else if fullSize i = 0 then 0 else T_DIR) = 0 ↔ _
  split_ifs with h2 h0
  · exact iff_of_false (by decide) fun h => h.2 h2
  · exact iff_of_true rfl ⟨h0, h2⟩
  · exact iff_of_false (by decide) fun h => h0 h.1

/-- The counted entries of a directory have places in `S`. -/
theorem full_tally_le {i : Nat} (hi : i < 200) {q : List UInt8 × Nat → Bool} {S : Finset Nat}
    (h : ∀ n, 2 ≤ n → n < fullSize i / 16 → q (key (fullName n), fullInum i n) = true → n ∈ S)
    (hq : ∀ x, q x = true → Graph.plain x.1 = true) :
    tally ((graph labFs fullDisk).tables i) q ≤ S.card := by
  rw [full_tables hi]
  split_ifs
  · refine Slots.count_le fun n x hx hqx => ?_
    have hn : n < fullSize i / 16 := Slots.lt_of_entry hx
    have hsmall := fullSize_cases i
    rw [full_entry hn] at hx
    cases hx
    have h2 := hq _ hqx
    rw [full_key n (by omega)] at h2
    exact h n (of_decide_eq_true h2) hn hqx
  · exact Nat.zero_le _

theorem full_links_le {i : Nat} (S : Nat → Finset Nat)
    (h : ∀ j n, 2 ≤ n → n < fullSize j / 16 → fullInum j n = i → n ∈ S j) :
    (graph labFs fullDisk).links 200 i ≤ ∑ j ∈ Finset.range 200, (S j).card :=
  census_le fun j hj => full_tally_le hj (fun n h2 hn hq => h j n h2 hn (of_decide_eq_true hq).2) fun _ hx =>
    (of_decide_eq_true hx).1

theorem full_links_file : (graph labFs fullDisk).links 200 2 ≤ 32767 := by
  refine (full_links_le (fun j => if j = 1 then {2} else if 4 ≤ j ∧ j ≤ 132 then Finset.Ico 2 256 else ∅)
    fun j n h2 hn hi => ?_).trans (by decide +kernel)
  unfold fullInum at hi
  unfold fullSize at hn
  rw [if_neg (by omega), if_neg (by omega)] at hi
  by_cases h1 : j = 1
  · rw [if_pos h1] at hi ⊢
    exact Finset.mem_singleton.mpr hi
  · rw [if_neg h1] at hn ⊢
    split_ifs at hn ⊢
    · omega
    · exact Finset.mem_Ico.mpr ⟨h2, hn⟩
    all_goals omega

theorem full_links_other {i : Nat} (hi : i ≠ 2) : (graph labFs fullDisk).links 200 i ≤ 1 := by
  refine (full_links_le (fun j => if j = 1 then {i} else ∅) fun j n h2 hn hn' => ?_).trans ?_
  · unfold fullInum at hn'
    rw [if_neg (by omega), if_neg (by omega)] at hn'
    split_ifs at hn' ⊢ with h1
    · exact Finset.mem_singleton.mpr hn'
    · exact absurd hn'.symm hi
  · have hcard : ∀ j, (if j = 1 then ({i} : Finset Nat) else ∅).card = if j = 1 then 1 else 0 :=
      fun j => by split_ifs <;> rfl
    simp only [hcard]
    have hsum := Finset.sum_eq_single (f := fun j => if j = 1 then 1 else 0) (s := Finset.range 200) 1
      (fun j _ hj => if_neg hj)
      fun h => absurd (Finset.mem_range.mpr (by decide)) h
    exact Nat.le_of_eq hsum

/-- An inode that is free has no links. -/
theorem full_links_free {i : Nat} (hi : fullSize i = 0) (h2 : i ≠ 2) : (graph labFs fullDisk).links 200 i = 0 := by
  refine Nat.le_zero.mp ((full_links_le (fun _ => ∅) fun j n hn2 hn hn' => ?_).trans
    (Nat.le_of_eq (Finset.sum_eq_zero fun _ _ => rfl)))
  have hb := fullInum_bounds hn
  rw [hn'] at hb
  unfold fullInum at hn'
  unfold fullSize at hi
  split_ifs at hi hn' <;> omega

theorem full_kids {i : Nat} (hi : i < 200) : (graph labFs fullDisk).kids i ≤ if i = 1 then 130 else 0 := by
  have hfile : (graph labFs fullDisk).tables 2 = none := full_tables (by decide)
  refine (full_tally_le (S := if i = 1 then Finset.Ico 3 133 else ∅) hi (fun n h2 hn hq => ?_) fun _ hx =>
    (of_decide_eq_true hx).1).trans ?_
  · have hne : fullInum i n ≠ 2 := fun e => by
      have hdir : ((graph labFs fullDisk).tables (fullInum i n)).isSome = true := (of_decide_eq_true hq).2
      rw [e, hfile] at hdir
      cases hdir
    unfold fullInum at hne
    rw [if_neg (by omega), if_neg (by omega)] at hne
    split_ifs at hne ⊢ with h1
    · subst h1
      exact Finset.mem_Ico.mpr ⟨by omega, hn⟩
    · exact absurd rfl hne
  · split_ifs
    · exact Nat.le_of_eq (Nat.card_Ico 3 133)
    · exact Nat.le_refl 0

theorem full_sane {busy : Nat → Prop} (hb : ∀ i, busy i → i = 1) : (graph labFs fullDisk).Sane 200 busy := by
  -- what the links and the directories below come to, and what nlink says
  have hcount : ∀ i < 200, (graph labFs fullDisk).node i ≠ .free →
      ((graph labFs fullDisk).links 200 i + (graph labFs fullDisk).kids i : Int) ≤ short
        ((graph labFs fullDisk).nlink i) ∧
        ((graph labFs fullDisk).kids i : Int) < short ((graph labFs fullDisk).nlink i) := fun i hi h0 => by
    have hk := full_kids hi
    have hn : (graph labFs fullDisk).nlink i = (fullInode i).nlink := by
      rw [graph_nlink hi, nlinkOf_eq ((node_free hi).not.mp h0), full_inode hi]
    rw [hn]
    show _ ≤ short (if i = 1 then 131 else if i = 2 then 32767 else if fullSize i = 0 then 0 else 1) ∧
      _ < short (if i = 1 then 131 else if i = 2 then 32767 else if fullSize i = 0 then 0 else 1)
    by_cases h2 : i = 2
    · subst h2
      have hl := full_links_file
      have hshort : short 32767 = 32767 := rfl
      rw [if_neg (by decide)] at hk
      rw [if_neg (by decide), if_pos rfl, hshort]
      omega
    · have hl := full_links_other h2
      have hs : fullSize i ≠ 0 := fun e => h0 ((full_free hi).mpr ⟨e, h2⟩)
      have hshort : short 131 = 131 ∧ short 1 = 1 := ⟨rfl, rfl⟩
      rw [if_neg h2, if_neg hs]
      split_ifs at hk ⊢ <;> omega
  refine ⟨fun i hi h0 => (hcount i hi h0).1, fun i hi h0 _ => (hcount i hi h0).2, fun i hi h0 => ?_,
    fun i hi t ht => ?_, fun i hi hbusy => ?_⟩
  · obtain ⟨hs, h2⟩ := (full_free hi).mp h0
    exact full_links_free hs h2
  · obtain ⟨htype, rfl⟩ := type_of_node (show i < labFs.ninodes from hi) ht
    rw [full_inode hi] at htype ⊢
    have hpos := full_dir.mp htype
    have hsize : 32 ≤ fullSize i := by
      unfold fullSize at hpos ⊢
      split_ifs at hpos ⊢ <;> omega
    exact ⟨⟨_, full_entry (n := 0) (by omega)⟩, ⟨_, full_entry (n := 1) (by omega)⟩⟩
  · rw [hb i hbusy]
    exact fun e => absurd ((full_free (by decide)).mp e).1 (by decide)

theorem inFull_empty {k : Nat} (h : k ≠ 0) : (inFull.inode k).ref = 0 := congrArg Inode.ref (if_neg h)

theorem inFull_consistent : Consistent labFs inFull := by
  have hlive : ∀ k, 0 < (inFull.inode k).ref → k = 0 := fun k hk => by
    by_contra hne
    rw [inFull_empty hne] at hk
    exact absurd hk (by decide)
  refine ⟨⟨⟨fun k => ?_, fun k hk => ?_, fun j k hj hk _ => (hlive j hj).trans (hlive k hk).symm, fun k hk _ => ?_⟩,
    full_volume⟩, full_sane fun i hi => ?_⟩
  · by_cases hne : k = 0
    · rw [hne]
      decide
    · exact Int.le_of_eq (inFull_empty hne).symm
  · rw [hlive k hk]
    decide
  · rw [hlive k hk]
    exact ⟨(full_inode (by decide : 1 < 200)).symm, by decide⟩
  · obtain ⟨k, hk, e⟩ := hi
    rw [hlive k hk] at e
    exact e.symm


/-- `ac` is the file, `ad` an empty directory. -/
def oneMore : Call := ⟨0, .link (some [97, 99]) (some [97, 100, 47, 120]), 0⟩

/-- The link is made; the count is -32768, and sys_unlink panics. -/
theorem oneMore_wraps : ∃ s', CallStep labFs oneMore inFull s' ∧ links labFs inFull 2 = 32767 ∧
    links labFs s' 2 = -32768 ∧ 0 < (s'.inode 0).ref ∧
    sys_unlink labFs 0 (some [97, 99]) s' = .error "unlink: nlink < 1" := by
  have hrun : (oneMore.op.run labFs 0 inFull).toOption.map (fun x => (x.1, links labFs x.2 2, (x.2.inode 0).ref,
      message (sys_unlink labFs 0 (some [97, 99]) x.2))) = some (0, -32768, 1, "unlink: nlink < 1") := by
        decide +kernel
  cases e : oneMore.op.run labFs 0 inFull with
  | error m =>
    rw [e] at hrun
    cases hrun
  | ok x =>
    rw [e] at hrun
    have h := Option.some.inj hrun
    simp only [Prod.mk.injEq] at h
    obtain ⟨h1, h2, h3, h4⟩ := h
    refine ⟨x.2, ⟨by decide, e.trans (congrArg _ (Prod.ext h1 rfl))⟩, ?_, h2, by omega,
      error_of_message h4 (by decide)⟩
    unfold links
    rw [show inFull.disk = fullDisk from rfl, full_inode (by decide)]
    rfl

theorem nlink_overflows : ¬ ∀ (sb : Superblock) (s s' : St) (cs : List Call), Layout sb → Consistent sb s →
    Runs (CallStep sb) cs s s' →
    Runs (fun c s s' => CallStep sb c s s' ∧ RaisesOne sb c s s') cs s s' ∧ LinksCounted sb s' := fun h => by
  obtain ⟨s', hstep, -, -, hlive, hpanic⟩ := oneMore_wraps
  obtain ⟨-, hc⟩ := h labFs inFull s' [oneMore] labFs_layout inFull_consistent (.cons hstep (.nil s'))
  exact hc.unlink 0 (some [97, 99]) hlive hpanic

/-- A new directory in `ad` has room. -/
theorem nlink_counts_mkdir : ∃ s', Runs (fun c s s' => CallStep labFs c s s' ∧ RaisesOne labFs c s s')
    [⟨0, .mkdir (some [97, 100, 47, 120]), 0⟩] inFull s' ∧
    LinksCounted labFs s' := by
  have hrun : (sys_mkdir labFs 0 (some [97, 100, 47, 120]) inFull).toOption.map (·.1) = some 0 := by decide +kernel
  cases e : sys_mkdir labFs 0 (some [97, 100, 47, 120]) inFull with
  | error m =>
    rw [e] at hrun
    cases hrun
  | ok x =>
    rw [e] at hrun
    obtain ⟨r, s'⟩ := x
    cases hrun
    refine ⟨s', nlink_counts labFs_layout inFull_consistent (.cons ⟨⟨by decide, e⟩, fun i hi => ?_⟩ (.nil s'))⟩
    have hraised : Call.raised labFs ⟨0, .mkdir (some [97, 100, 47, 120]), 0⟩ inFull = some 3 := by decide +kernel
    rw [hraised] at hi
    cases hi
    unfold links
    rw [show inFull.disk = fullDisk from rfl, full_inode (by decide)]
    decide

end Xv6Labs.Fs.Disk
