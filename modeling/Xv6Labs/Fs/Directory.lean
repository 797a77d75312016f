/-
  Xv6Labs.Fs.Directory — a directory is a map of truncated names.

  Its bytes are a table of slots: an entry with inum 0 is a hole, any other binds the bytes of its
  name up to the first NUL, at most DIRSIZ of them (`key`). dirlookup is `lookup` in the table,
  dirlink fills the slot `free`, and sys_unlink empties the slot that dirlookup found.

  - `Directory.dirlookup_eq`, `Directory.emptyLoop_eq`, `Directory.put`: the code is the table.
  - `Directory.step`: one call on the disk, on the names, and on the size.
  - `directory_is_map`: whatever else happens in between, the names are those that the history
    leaves.
  - `dirlink_panics`: dirlink needs a slot of the inode table to see that a name is there, and
    a block when all entries are taken.
-/

import Xv6Labs.Lib.Slots
import Xv6Labs.Lib.Runs
import Xv6Labs.Fs.Log
import Xv6Labs.Fs.Volume

namespace Xv6Labs.Fs.Disk

open Lib

section

variable {sb : Superblock} {s s' s1 : St} {dp inum : Nat} {name : List UInt8} {d : Dinode} {disk : Mem}

/-- The bytes that namecmp looks at. -/
def key (name : List UInt8) : List UInt8 := cstr (name.take DIRSIZ)

theorem sameName_iff {t : List UInt8} : sameName name t = true ↔ key name = key t := decide_eq_true_iff

def Dirent.slot (de : Dirent) : Option (List UInt8 × Nat) :=
  if de.inum = 0 then none else some (key de.name, de.inum.toNat)

def Dinode.slots (d : Dinode) (disk : Mem) : Slots (List UInt8) Nat :=
  ⟨d.size / 16, fun i => if i < d.size / 16 then (d.entryAt disk (16 * i)).slot else none,
    fun _ h => if_neg (Nat.not_lt.mpr h)⟩

theorem slots_entry {i : Nat} (h : i < d.size / 16) : (d.slots disk).entry i = (d.entryAt disk (16 * i)).slot :=
  if_pos h

theorem slot_none {de : Dirent} : de.slot = none ↔ de.inum = 0 := by
  unfold Dirent.slot
  split
  · rename_i h
    exact ⟨fun _ => h, fun _ => rfl⟩
  · rename_i h
    exact ⟨fun e => absurd e (Option.some_ne_none _), fun e => absurd e h⟩

theorem slot_some {de : Dirent} (h : de.inum ≠ 0) : de.slot = some (key de.name, de.inum.toNat) := if_neg h

/-- `lookup` on the disk is `lookup` in the table. -/
theorem find_slots (h : d.size % 16 = 0) :
    ∀ n i, d.find disk name n (16 * i) = ((d.slots disk).find (key name) n i).map fun x => (x.1, 16 * x.2) := by
  intro n
  induction n with
  | zero => exact fun _ => rfl
  | succ n ih =>
    intro i
    have hnext : 16 * i + 16 = 16 * (i + 1) := by omega
    unfold Dinode.find Slots.find
    rw [hnext, ih (i + 1)]
    by_cases hi : i < d.size / 16
    · have hsize : i < (d.slots disk).size := hi
      rw [if_pos (by omega), if_pos hsize, slots_entry hi]
      by_cases h0 : (d.entryAt disk (16 * i)).inum = 0
      · rw [if_pos h0, slot_none.mpr h0]
      · rw [if_neg h0, slot_some h0]
        dsimp only
        by_cases hk : key name = key (d.entryAt disk (16 * i)).name
        · rw [if_pos (sameName_iff.mpr hk), if_pos hk]
          rfl
        · rw [if_neg fun hn => hk (sameName_iff.mp hn), if_neg hk]
    · have hsize : ¬ i < (d.slots disk).size := hi
      rw [if_neg (by omega), if_neg hsize]
      rfl

/-- A directory that is in memory, without holes between its blocks. -/
structure Directory (sb : Superblock) (dp : Nat) (s : St) : Prop where
  type : (s.inode dp).d.type = T_DIR
  live : 0 < (s.inode dp).ref
  inum : (s.inode dp).inum < sb.ninodes
  aligned : (s.inode dp).d.size % 16 = 0
  mapped : Mapped s.disk (s.inode dp).d
  whole : Whole sb s.disk (s.inode dp).d
  reserved : Reserved sb s.disk

/-- The table in memory. -/
def St.slots (s : St) (dp : Nat) : Slots (List UInt8) Nat := (s.inode dp).d.slots s.disk

/-- readi of an entry. -/
theorem Directory.readi_eq (h : Directory sb dp s) {i : Nat} (hi : i < (s.slots dp).size) :
    ∃ bs, readi sb dp (16 * i) 16 s = .ok (bs, s) ∧ bs.length = 16 ∧
      dirent bs = (s.inode dp).d.entryAt s.disk (16 * i) := by
  have hi : i < (s.inode dp).d.size / 16 := hi
  have hmax := (h.mapped (16 * i) (by omega)).1
  have hlt : 16 * i + 16 < 2 ^ 32 := by simp only [MAXFILE, NINDIRECT2, NDIRECT, NINDIRECT, BSIZE] at hmax; omega
  have hmin : min 16 ((s.inode dp).d.size - 16 * i) = 16 := by omega
  refine ⟨_, readi_mapped sb hlt fun k _ h1 _ => h.mapped k h1, ?_, ?_⟩
  · rw [hmin, List.length_map, List.length_range]
  · rw [hmin]
    rfl

/-- What dirlookup does once it has the slot. -/
def found (dev : Nat) (s : St) : Option (Nat × Nat) → Except String (Option (Nat × Nat) × St)
  | none => .ok (none, s)
  | some (inum, i) => do
    let (ip, s) ← iget dev inum s
    .ok (some (ip, 16 * i), s)

theorem Directory.dirlookup_eq (h : Directory sb dp s) (name : List UInt8) :
    dirlookup sb dp name s = found (s.inode dp).dev s ((s.slots dp).lookup (key name)) := by
  have hloop : ∀ n i, dirlookupLoop sb dp name n (16 * i) s =
    found (s.inode dp).dev s ((s.slots dp).find (key name) n i) := by
    intro n
    induction n with
    | zero => exact fun _ => rfl
    | succ n ih =>
      intro i
      unfold dirlookupLoop Slots.find
      by_cases hi : i < (s.slots dp).size
      · obtain ⟨bs, e, hlen, hde⟩ := h.readi_eq hi
        have hent : (s.slots dp).entry i = _ := slots_entry hi
        have hi' : i < (s.inode dp).d.size / 16 := hi
        rw [if_pos (by omega), if_pos hi, e, ok_bind]
        dsimp only
        rw [if_neg (not_not.mpr hlen), hde, hent]
        have hnext : 16 * i + 16 = 16 * (i + 1) := by omega
        rw [hnext, ih (i + 1)]
        by_cases h0 : ((s.inode dp).d.entryAt s.disk (16 * i)).inum = 0
        · rw [if_pos h0, slot_none.mpr h0]
        · rw [if_neg h0, slot_some h0]
          dsimp only
          by_cases hk : key name = key ((s.inode dp).d.entryAt s.disk (16 * i)).name
          · rw [if_pos (sameName_iff.mpr hk), if_pos hk]
            rfl
          · rw [if_neg fun hn => hk (sameName_iff.mp hn), if_neg hk]
      · have hi' : ¬ i < (s.inode dp).d.size / 16 := hi
        have hal := h.aligned
        rw [if_neg (by omega), if_neg hi]
        rfl
  unfold dirlookup
  rw [if_neg (not_not.mpr h.type)]
  exact hloop _ 0

theorem Directory.emptyLoop_eq (h : Directory sb dp s) :
    ∀ n i, emptyLoop sb dp n (16 * i) s = .ok (16 * (s.slots dp).hole n i, s) := by
  intro n
  induction n with
  | zero => exact fun _ => rfl
  | succ n ih =>
    intro i
    unfold emptyLoop Slots.hole
    by_cases hi : i < (s.slots dp).size
    · obtain ⟨bs, e, hlen, hde⟩ := h.readi_eq hi
      have hent : (s.slots dp).entry i = _ := slots_entry hi
      have hi' : i < (s.inode dp).d.size / 16 := hi
      rw [if_pos (by omega), e, ok_bind]
      dsimp only
      rw [if_neg (not_not.mpr hlen), hde, hent]
      have hnext : 16 * i + 16 = 16 * (i + 1) := by omega
      by_cases h0 : ((s.inode dp).d.entryAt s.disk (16 * i)).inum = 0
      · rw [if_pos h0, slot_none.mpr h0, if_neg fun hs => absurd hs.2 (by decide)]
      · rw [if_neg h0, slot_some h0, if_pos ⟨hi, rfl⟩, hnext, ih (i + 1)]
    · have hi' : ¬ i < (s.inode dp).d.size / 16 := hi
      have hal := h.aligned
      rw [if_neg (by omega), if_neg fun hs => hi hs.1]

/-! ## Writing an entry -/

theorem kernelBytes_source {bs : List UInt8} {n : Nat} (hn : n < 2 ^ 64) (hlen : bs.length = n) :
    Source (kernelBytes bs) 0 n n fun i => bs.getD i 0 := by
  intro u m hu hm
  have hu64 : u64 (0 + u) = u := by
    rw [Nat.zero_add]
    exact Nat.mod_eq_of_lt (by omega)
  have hmin : min m (n - u) = m := by omega
  rw [hu64, if_pos hm, hmin]
  unfold kernelBytes
  congr 1
  refine List.ext_getElem ?_ fun i h1 h2 => ?_
  · rw [List.length_take, List.length_drop, List.length_map, List.length_range]
    omega
  · rw [List.getElem_take, List.getElem_drop, List.getElem_map, List.getElem_range]
    exact (List.getD_eq_getElem ..).symm

/-- The only panic of bmap for a block that a file can have. -/
theorem bmap_error {bn : Nat} {m : String} (hbn : bn < MAXFILE) (e : bmap sb dp bn s = .error m) :
    m = "balloc: out of blocks" := by
  have hballoc : ∀ {s : St} {m}, balloc sb s = .error m → m = "balloc: out of blocks" := fun {s m} e => by
    rcases balloc_spec sb s with ⟨b, s', e', -⟩ | ⟨-, e'⟩
    · rw [e'] at e
      cases e
    · rw [e'] at e
      cases e
      rfl
  have haddr : ∀ {i} {s : St} {m}, addrOf sb dp i s = .error m → m = "balloc: out of blocks" := fun {i s m} e => by
    unfold addrOf at e
    split at e
    · exact (bind_error e).elim hballoc fun ⟨_, _, e⟩ => by cases e
    · cases e
  have hentry : ∀ {c j} {s : St} {m}, entryOf sb c j s = .error m → m = "balloc: out of blocks" :=
    fun {c j s m} e => by
    unfold entryOf at e
    split at e
    · exact (bind_error e).elim hballoc fun ⟨_, _, e⟩ => by cases e
    · cases e
  unfold bmap at e
  split at e
  · exact haddr e
  rename_i h1
  dsimp only at e
  split at e
  · exact (bind_error e).elim haddr fun ⟨_, _, e⟩ => hentry e
  rename_i h2
  have h3 : bn - NDIRECT - NINDIRECT < NINDIRECT2 := by
    simp only [MAXFILE, NINDIRECT2, NDIRECT, NINDIRECT] at *; omega
  rw [if_pos h3] at e
  rcases bind_error e with e | ⟨⟨c, s1⟩, -, e⟩
  · exact haddr e
  · exact (bind_error e).elim hentry fun ⟨_, _, e⟩ => hentry e

variable {bs : List UInt8} {i : Nat}

theorem Directory.size_le (h : Directory sb dp s) : (s.inode dp).d.size ≤ MAXFILE * BSIZE := by
  by_contra hn
  have := (h.mapped (MAXFILE * BSIZE) (Nat.not_le.mp hn)).1
  omega

variable (sb) in
/-- An entry lies in one block: writei returns 16 if that block is there or can be had. -/
theorem writei_entry (bs : List UInt8) (hi : 16 * i ≤ (s.inode dp).d.size) (hfit : 16 * i + 16 ≤ MAXFILE * BSIZE) :
    (∃ b s1 s', bmap sb dp (16 * i / BSIZE) s = .ok (b, s1) ∧
      writei sb (kernelBytes bs) dp 0 (16 * i) 16 s = .ok (16, s')) ∨
      ∃ m, bmap sb dp (16 * i / BSIZE) s = .error m ∧ writei sb (kernelBytes bs) dp 0 (16 * i) 16 s = .error m := by
  have hlt : 16 * i + 16 < 2 ^ 32 := by simp only [MAXFILE, NINDIRECT2, NDIRECT, NINDIRECT, BSIZE] at hfit; omega
  have hu32 : u32 (16 * i + 16) = 16 * i + 16 := Nat.mod_eq_of_lt hlt
  have hmin : min 16 (BSIZE - 16 * i % BSIZE) = 16 := by unfold BSIZE; omega
  have hcopy : (kernelBytes bs 0 16).1 ≠ -1 := show (0 : Int) ≠ -1 by decide
  unfold writei
  rw [hu32, if_neg (by omega), if_neg (by omega)]
  unfold writeiLoop
  rw [if_neg (by decide)]
  cases e : bmap sb dp (16 * i / BSIZE) s with
  | error m => exact Or.inr ⟨m, rfl, rfl⟩
  | ok x =>
    obtain ⟨b, s1⟩ := x
    refine Or.inl ⟨b, s1, ?_⟩
    rw [ok_bind]
    dsimp only
    rw [hmin, if_neg hcopy]
    exact ⟨_, rfl, rfl⟩

theorem range_getD {bs : List UInt8} {n : Nat} (h : bs.length = n) :
    ((List.range n).map fun j => bs.getD j 0) = bs := by
  refine List.ext_getElem (by rw [List.length_map, List.length_range, h]) fun j h1 h2 => ?_
  rw [List.getElem_map, List.getElem_range]
  exact List.getD_eq_getElem ..

/-- The slot that was written, and no other. -/
theorem Directory.put (hl : Layout sb) (h : Directory sb dp s) (hlen : bs.length = 16) (hi : i ≤ (s.slots dp).size)
    (e : writei sb (kernelBytes bs) dp 0 (16 * i) 16 s = .ok (16, s')) :
    Directory sb dp s' ∧ s'.slots dp = (s.slots dp).put i (dirent bs).slot ∧
      (s'.inode dp).d.size = max (s.inode dp).d.size (16 * i + 16) ∧
      Wrote sb dp (16 * i) 16 (fun o => bs.getD o 0) 16 16 s s' := by
  have hi : i ≤ (s.inode dp).d.size / 16 := hi
  have hal := h.aligned
  have hoff : 16 * i < 2 ^ 32 := by
    have := h.size_le
    simp only [MAXFILE, NINDIRECT2, NDIRECT, NINDIRECT, BSIZE] at this
    omega
  obtain ⟨t, ht, w⟩ := writei_spec hl h.whole h.reserved h.inum (kernelBytes_source (by decide) hlen) (by decide)
    (by decide) hoff (Nat.le_refl 16) e (by decide)
  obtain rfl : t = 16 := w.tot_all rfl
  have hinode : s'.inode dp = { s.inode dp with d := (s'.inode dp).d } := by
    conv_lhs => rw [w.inode, Function.update_self]
  have hsize := w.size
  have hfits := w.fits
  have hmax := h.size_le
  have htype : (s'.inode dp).d.type = T_DIR := by
    rw [w.head]
    exact h.type
  refine ⟨⟨htype, ?_, ?_, by rw [hsize]; omega, fun k hk => ?_, w.whole, w.reserved⟩, Slots.ext_entry ?_ fun j hj =>
    ?_, hsize, w⟩
  · rw [hinode]
    exact h.live
  · rw [hinode]
    exact h.inum
  · by_cases hin : 16 * i ≤ k ∧ k < 16 * i + 16
    · exact ⟨by omega, w.mapped k hin.1 hin.2⟩
    · obtain ⟨h1, h2⟩ := h.mapped k (by omega)
      refine ⟨h1, fun h0 => h2 ?_⟩
      have := w.keep _ h2
      unfold St.at at this
      rw [← this]
      exact h0
  · show (s'.inode dp).d.size / 16 = max ((s.inode dp).d.size / 16) (i + 1)
    omega
  · have hj : j < (s'.inode dp).d.size / 16 := hj
    have hbyte : ∀ o < 16, s'.byte dp (16 * j + o) = if j = i then bs.getD o 0 else s.byte dp (16 * j + o) :=
      fun o ho => by
      rw [w.byte _ (by omega)]
      by_cases hji : j = i
      · rw [if_pos (by omega), if_pos hji, hji, Nat.add_sub_cancel_left]
      · rw [if_neg (by omega), if_neg hji]
    have hentry : (s'.inode dp).d.entryAt s'.disk (16 * j) =
        if j = i then dirent bs else (s.inode dp).d.entryAt s.disk (16 * j) := by
      unfold Dinode.entryAt
      have hmap : (List.range 16).map (fun o => (s'.inode dp).d.byte s'.disk (16 * j + o)) =
          (List.range 16).map fun o => if j = i then bs.getD o 0 else (s.inode dp).d.byte s.disk (16 * j + o) :=
        List.map_congr_left fun o ho => hbyte o (List.mem_range.mp ho)
      rw [hmap]
      split
      · rw [range_getD hlen]
      · rfl
    have hslot : (s'.slots dp).entry j = _ := slots_entry hj
    rw [hslot, hentry]
    by_cases hji : j = i
    · rw [if_pos hji, hji, Slots.put_self]
    · have hold : (s.slots dp).entry j = _ := slots_entry (show j < (s.inode dp).d.size / 16 by omega)
      rw [if_neg hji, Slots.put_ne hji, hold]

/-! ## dirlookup and dirlink -/

/-- The directory is there, with the same entries. -/
def Left (sb : Superblock) (dp : Nat) (s s' : St) : Prop := Directory sb dp s' ∧ s'.slots dp = s.slots dp

theorem Directory.left (h : Directory sb dp s) (hdisk : s'.disk = s.disk) (hd : (s'.inode dp).d = (s.inode dp).d)
    (hr : 0 < (s'.inode dp).ref) (hi : (s'.inode dp).inum = (s.inode dp).inum) : Left sb dp s s' := by
  refine ⟨⟨?_, hr, ?_, ?_, ?_, ?_, ?_⟩, ?_⟩
  · rw [hd]
    exact h.type
  · rw [hi]
    exact h.inum
  · rw [hd]
    exact h.aligned
  · rw [hdisk, hd]
    exact h.mapped
  · rw [hdisk, hd]
    exact h.whole
  · rw [hdisk]
    exact h.reserved
  · unfold St.slots
    rw [hdisk, hd]

/-- iget, and the iput that takes it back. -/
theorem Directory.iget (h : Directory sb dp s) {dev k : Nat} (e : iget dev inum s = .ok (k, s1)) :
    Left sb dp s s1 ∧ (s1.inode k).inum = inum ∧ (s1.inode k).dev = dev ∧ ∃ s', iput sb k s1 = .ok s' ∧
      Left sb dp s s' := by
  obtain ⟨x, rfl, h1, -, h3, h4, h5, h6⟩ := iget_some e
  have hlive := h.live
  have hkept : ∀ r : Int, (k = dp → 0 < r) → Left sb dp s (s.setInode k { x with ref := r }) := fun r hr => by
    by_cases hk : k = dp
    · subst hk
      refine h.left rfl ?_ ?_ ?_
      · rw [setInode_self]
        exact h3
      · rw [setInode_self]
        exact hr rfl
      · rw [setInode_self]
        rcases h6 with ⟨-, -, hi, -⟩ | ⟨h0, -⟩
        · exact h5.trans hi.symm
        · omega
    · have hne := setInode_ne (s := s) (x := { x with ref := r }) (Ne.symm hk)
      exact h.left rfl (by rw [hne]) (by rw [hne]; exact hlive) (by rw [hne])
  refine ⟨hkept x.ref fun hk => by subst hk; omega, by rw [setInode_self]; exact h5, by rw [setInode_self]; exact h4,
    ?_⟩
  have hstay : ¬ (x.ref = 1 ∧ x.valid = true ∧ x.d.nlink = 0) := fun hc => by
    rcases h6 with ⟨hp, -⟩ | ⟨-, hv⟩
    · omega
    · rw [hv] at hc
      exact absurd hc.2.1 (by decide)
  refine ⟨s.setInode k { x with ref := x.ref - 1 }, ?_, hkept (x.ref - 1) fun hk => by subst hk; omega⟩
  unfold iput
  rw [setInode_self, if_neg hstay, ok_bind]
  unfold St.setInode
  dsimp only
  rw [Function.update_idem, Function.update_self]

theorem Dirent.bytes_length (de : Dirent) : de.bytes.length = 16 := by
  unfold Dirent.bytes
  rw [List.length_append, List.length_append, List.length_take, List.length_replicate]
  unfold DIRSIZ
  show 2 + (min 14 de.name.length + (14 - de.name.length)) = 16
  omega

/-- The NULs of strncpy end the name. -/
theorem key_padded (name : List UInt8) (n : Nat) : key (name.take DIRSIZ ++ List.replicate n 0) = key name := by
  unfold key cstr
  have htake : (name.take DIRSIZ ++ List.replicate n 0).take DIRSIZ =
    name.take DIRSIZ ++ List.replicate (min (DIRSIZ - (name.take DIRSIZ).length) n) 0 := by
    rw [List.take_append, List.take_take, Nat.min_self, List.take_replicate]
  have hzero : ∀ m, (List.replicate m (0 : UInt8)).takeWhile (· ≠ 0) = [] := fun m => by
    cases m with
    | zero => rfl
    | succ m => rfl
  rw [htake, List.takeWhile_append, hzero, List.append_nil]
  split
  · rename_i hall
    exact ((List.takeWhile_prefix _).eq_of_length hall).symm
  · rfl

theorem slot_bytes (h1 : 1 ≤ inum) (h2 : inum ≤ 65535) (name : List UInt8) :
    (dirent (Dirent.bytes ⟨UInt16.ofNat inum, name⟩)).slot = some (key name, inum) := by
  have hinum : (dirent (Dirent.bytes ⟨UInt16.ofNat inum, name⟩)).inum = UInt16.ofNat inum := by
    have h16 : (UInt16.ofNat inum).toNat = inum := UInt16.toNat_ofNat_of_lt' (Nat.lt_succ_of_le h2)
    show UInt16.ofNat ((UInt8.ofNat (UInt16.ofNat inum).toNat).toNat + 256 *
      (UInt8.ofNat ((UInt16.ofNat inum).toNat / 256)).toNat) = _
    rw [h16, UInt8.toNat_ofNat', UInt8.toNat_ofNat']
    congr 1
    omega
  have hnat : (UInt16.ofNat inum).toNat = inum := UInt16.toNat_ofNat_of_lt' (Nat.lt_succ_of_le h2)
  have h0 : (dirent (Dirent.bytes ⟨UInt16.ofNat inum, name⟩)).inum ≠ 0 := fun e => by
    rw [hinum] at e
    rw [e] at hnat
    exact absurd hnat (by show ¬ (0 = inum); omega)
  rw [slot_some h0, hinum, hnat]
  show some (key (name.take DIRSIZ ++ List.replicate (DIRSIZ - name.length) 0), inum) = _
  rw [key_padded]

/-- No slot of the inode table is free. -/
def NoSlot (s : St) : Prop := ∀ i < NINODE, (s.inode i).ref ≠ 0

/-- dirlink of a name that is there. -/
theorem Directory.dirlink_bound (h : Directory sb dp s) {x : Nat × Nat}
    (hk : (s.slots dp).lookup (key name) = some x) :
    (∃ s', dirlink sb dp name inum s = .ok (-1, s') ∧ Left sb dp s s') ∨
      dirlink sb dp name inum s = .error "iget: no inodes" ∧ NoSlot s := by
  unfold dirlink
  rw [h.dirlookup_eq, hk]
  unfold found
  dsimp only
  rcases iget_cases s (s.inode dp).dev x.1 with ⟨k, s1, e⟩ | ⟨e, hno⟩
  · obtain ⟨-, -, -, s', e', hleft⟩ := h.iget e
    refine Or.inl ⟨s', ?_, hleft⟩
    rw [e, ok_bind, ok_bind]
    dsimp only
    rw [e']
    rfl
  · refine Or.inr ⟨?_, hno⟩
    rw [e]
    rfl

theorem Directory.dirlink_enter (h : Directory sb dp s) (inum : Nat) (hk : (s.slots dp).lookup (key name) = none) :
    dirlink sb dp name inum s =
    (writei sb (kernelBytes (Dirent.bytes ⟨UInt16.ofNat inum, name⟩)) dp 0 (16 * (s.slots dp).free) 16 s >>=
      fun x => if x.1 ≠ 16 then .error "dirlink" else .ok (0, x.2)) := by
  have hempty : emptyLoop sb dp ((s.inode dp).d.size / 16 + 1) 0 s = .ok (16 * (s.slots dp).free, s) :=
    h.emptyLoop_eq _ 0
  unfold dirlink
  rw [h.dirlookup_eq, hk]
  unfold found
  rw [ok_bind]
  dsimp only
  unfold enter
  rw [hempty]
  rfl

/-- dirlink of a name that is not there. -/
theorem Directory.dirlink_free (hl : Layout sb) (h : Directory sb dp s) (h1 : 1 ≤ inum) (h2 : inum ≤ 65535)
    (hk : (s.slots dp).lookup (key name) = none) :
    (∃ s', dirlink sb dp name inum s = .ok (0, s') ∧ Directory sb dp s' ∧
      s'.slots dp = (s.slots dp).put (s.slots dp).free (some (key name, inum)) ∧
        (s'.inode dp).d.size = max (s.inode dp).d.size (16 * (s.slots dp).free + 16) ∧
        ∃ f, Wrote sb dp (16 * (s.slots dp).free) 16 f 16 16 s s') ∨
      (s.slots dp).free = (s.slots dp).size ∧ ((s.inode dp).d.size = MAXFILE * BSIZE ∧
        dirlink sb dp name inum s = .error "dirlink" ∨
        freeCount sb s < 3 ∧ dirlink sb dp name inum s = .error "balloc: out of blocks") := by
  have henter := h.dirlink_enter inum hk
  have hle : (s.slots dp).free ≤ (s.inode dp).d.size / 16 := (s.slots dp).free_le
  have hsize : (s.slots dp).size = (s.inode dp).d.size / 16 := rfl
  have hal := h.aligned
  have hmax := h.size_le
  by_cases hfit : 16 * (s.slots dp).free + 16 ≤ MAXFILE * BSIZE
  · have hstart : 16 * (s.slots dp).free ≤ (s.inode dp).d.size := by omega
    have hbn : 16 * (s.slots dp).free / BSIZE < MAXFILE := by
      refine Nat.div_lt_of_lt_mul ?_
      rw [Nat.mul_comm BSIZE]
      omega
    have hw := writei_entry sb (Dirent.bytes ⟨UInt16.ofNat inum, name⟩) hstart hfit
    rcases hw with ⟨b, s1, s', -, e⟩ | ⟨m, eb, e⟩
    · obtain ⟨hd, hs, hz, w⟩ := h.put hl (Dirent.bytes_length _) hle e
      rw [slot_bytes h1 h2] at hs
      refine Or.inl ⟨s', ?_, hd, hs, hz, _, w⟩
      rw [henter, e]
      rfl
    · -- the block of a slot that is there needs no balloc
      have hfull : (s.slots dp).free = (s.slots dp).size := by
        by_contra hne
        have hat := (h.mapped (16 * (s.slots dp).free) (by omega)).2
        rw [bmap_mapped sb hbn hat] at eb
        cases eb
      refine Or.inr ⟨hfull, Or.inr ⟨?_, ?_⟩⟩
      · by_contra hn
        obtain ⟨b, s', eb', -⟩ := bmap_total hl h.whole h.reserved (Nat.le_of_not_lt hn) hbn
        rw [eb'] at eb
        cases eb
      · rw [henter, e, bmap_error hbn eb]
        rfl
  · have hmod : MAXFILE * BSIZE % 16 = 0 := by decide
    refine Or.inr ⟨by omega, Or.inl ⟨by omega, ?_⟩⟩
    have hu32 : u32 (16 * (s.slots dp).free + 16) = 16 * (s.slots dp).free + 16 := by
      refine Nat.mod_eq_of_lt ?_
      simp only [MAXFILE, NINDIRECT2, NDIRECT, NINDIRECT, BSIZE] at hmax
      omega
    rw [henter]
    unfold writei
    rw [hu32, if_neg (by omega), if_pos (by omega), ok_bind]
    rfl

/-- A dirlink that succeeds found no entry of that name and filled the first free slot. -/
theorem Directory.dirlink_added (hl : Layout sb) (h : Directory sb dp s) (h1 : 1 ≤ inum) (h2 : inum ≤ 65535) {x : Int}
    (hx : ¬ x < 0)
    (e : dirlink sb dp name inum s = .ok (x, s')) : (s.slots dp).lookup (key name) = none ∧ Directory sb dp s' ∧
      s'.slots dp = (s.slots dp).put (s.slots dp).free (some (key name, inum)) ∧ ∃ f,
        Wrote sb dp (16 * (s.slots dp).free) 16 f 16 16 s s' := by
  cases hk : (s.slots dp).lookup (key name) with
  | some y =>
    rcases h.dirlink_bound hk with ⟨t, et, -⟩ | ⟨et, -⟩
    · rw [et] at e
      cases e
      exact absurd (by decide) hx
    · rw [et] at e
      cases e
  | none =>
    rcases h.dirlink_free hl h1 h2 hk with ⟨t, et, hd, hslots, -, hw⟩ | ⟨-, ⟨-, et⟩ | ⟨-, et⟩⟩
    · rw [et] at e
      cases e
      exact ⟨rfl, hd, hslots, hw⟩
    · rw [et] at e
      cases e
    · rw [et] at e
      cases e

/-- dirlookup of a name that is there. -/
theorem Directory.dirlookup_bound (h : Directory sb dp s) {x : Nat × Nat}
    (hk : (s.slots dp).lookup (key name) = some x) :
    (∃ ip s', dirlookup sb dp name s = .ok (some (ip, 16 * x.2), s') ∧ (s'.inode ip).inum = x.1 ∧
      (s'.inode ip).dev = (s.inode dp).dev ∧ Left sb dp s s') ∨
      dirlookup sb dp name s = .error "iget: no inodes" ∧ NoSlot s := by
  rw [h.dirlookup_eq, hk]
  unfold found
  dsimp only
  rcases iget_cases s (s.inode dp).dev x.1 with ⟨k, s1, e⟩ | ⟨e, hno⟩
  · obtain ⟨hleft, hi, hdev, -⟩ := h.iget e
    refine Or.inl ⟨k, s1, ?_, hi, hdev, hleft⟩
    rw [e]
    rfl
  · refine Or.inr ⟨?_, hno⟩
    rw [e]
    rfl

theorem Directory.dirlookup_free (h : Directory sb dp s) (hk : (s.slots dp).lookup (key name) = none) :
    dirlookup sb dp name s = .ok (none, s) := by
  rw [h.dirlookup_eq, hk]
  rfl

/-! ## Histories -/

/-- What is done to a directory, with what dirlink returned. -/
inductive DirEvent where
  | linked (name : List UInt8) (inum : Nat) (r : Int)
  | removed (name : List UInt8)
  | other

variable (sb dp) in
/-- sys_unlink looks at the inode between dirlookup and writei. -/
inductive DirStep : DirEvent → St → St → Prop
  | link {s s' : St} {name : List UInt8} {inum : Nat} {r : Int} : 1 ≤ inum → inum ≤ 65535 →
      dirlink sb dp name inum s = .ok (r, s') →
      DirStep (.linked name inum r) s s'
  | unlink {s s1 s2 s' : St} {name : List UInt8} {ip off : Nat} : dirlookup sb dp name s = .ok (some (ip, off), s1) →
      Left sb dp s1 s2 →
      writei sb (kernelBytes (List.replicate 16 0)) dp 0 off 16 s2 = .ok (16, s') → DirStep (.removed name) s s'
  | other {s s' : St} : Left sb dp s s' → DirStep .other s s'

/-- What that does to the names. -/
inductive MapStep : DirEvent → (List UInt8 → Option Nat) → (List UInt8 → Option Nat) → Prop
  | taken {M : List UInt8 → Option Nat} {name : List UInt8} {inum : Nat} : M (key name) ≠ none →
      MapStep (.linked name inum (-1)) M M
  | added {M : List UInt8 → Option Nat} {name : List UInt8} {inum : Nat} : M (key name) = none →
      MapStep (.linked name inum 0) M (Function.update M (key name) (some inum))
  | removed {M : List UInt8 → Option Nat} {name : List UInt8} : M (key name) ≠ none →
      MapStep (.removed name) M (Function.update M (key name) none)
  | other {M : List UInt8 → Option Nat} : MapStep .other M M

/-- The size stays, or an entry is added because no slot is free. -/
def Grows (dp : Nat) (ev : DirEvent) (s s' : St) : Prop :=
  (s'.inode dp).d.size = (s.inode dp).d.size ∨
    (∃ name inum, ev = .linked name inum 0) ∧ (∀ i < (s.slots dp).size, (s.slots dp).entry i ≠ none) ∧
      (s'.inode dp).d.size = (s.inode dp).d.size + 16

theorem Left.size (h : Directory sb dp s) (hl : Left sb dp s s') : (s'.inode dp).d.size = (s.inode dp).d.size := by
  have h1 : (s'.inode dp).d.size / 16 = (s.inode dp).d.size / 16 := congrArg Slots.size hl.2
  have h2 := h.aligned
  have h3 := hl.1.aligned
  omega

/-- One step, on the disk and on the names. -/
theorem Directory.step (hl : Layout sb) (h : Directory sb dp s) (hu : (s.slots dp).Unique) {ev : DirEvent}
    (hs : DirStep sb dp ev s s') :
    (Directory sb dp s' ∧ (s'.slots dp).Unique) ∧ MapStep ev (s.slots dp).names (s'.slots dp).names ∧
      Grows dp ev s s' := by
  cases hs with
  | @link _ _ name inum r h1 h2 e =>
    cases hk : (s.slots dp).lookup (key name) with
    | some x =>
      rcases h.dirlink_bound hk with ⟨s1, e1, hleft⟩ | ⟨e1, -⟩
      · rw [e1] at e
        cases e
        refine ⟨⟨hleft.1, hleft.2 ▸ hu⟩, ?_, Or.inl (hleft.size h)⟩
        rw [hleft.2]
        refine .taken fun hn => ?_
        unfold Slots.names at hn
        rw [hk] at hn
        cases hn
      · rw [e1] at e
        cases e
    | none =>
      have hnames : (s.slots dp).names (key name) = none := by
        unfold Slots.names
        rw [hk]
        rfl
      rcases h.dirlink_free hl h1 h2 hk with ⟨s1, e1, hd, hput, hsize, -⟩ | ⟨-, ⟨-, e1⟩ | ⟨-, e1⟩⟩
      · rw [e1] at e
        cases e
        refine ⟨⟨hd, hput ▸ hu.fill hnames⟩, ?_, ?_⟩
        · rw [hput, hu.names_fill (s.slots dp).entry_free hnames]
          exact .added hnames
        · have hle : (s.slots dp).free ≤ (s.inode dp).d.size / 16 := (s.slots dp).free_le
          have hal := h.aligned
          rcases Nat.eq_or_lt_of_le hle with hfull | hlt
          · exact Or.inr ⟨⟨name, inum, rfl⟩, fun i hi => Slots.full_of_free hfull hi, by omega⟩
          · exact Or.inl (by omega)
      · rw [e1] at e
        cases e
      · rw [e1] at e
        cases e
  | @unlink _ s1 s2 _ name ip off e1 hleft2 e2 =>
    cases hk : (s.slots dp).lookup (key name) with
    | none =>
      rw [h.dirlookup_free hk] at e1
      cases e1
    | some x =>
      rcases h.dirlookup_bound hk with ⟨k, t, e3, -, -, hleft1⟩ | ⟨e3, -⟩
      · rw [e3] at e1
        cases e1
        have hent := Slots.find_some hk
        have hlt := Slots.lt_of_entry hent
        have hslots : s2.slots dp = s.slots dp := hleft2.2.trans hleft1.2
        have hzero : (dirent (List.replicate 16 0)).slot = none := rfl
        obtain ⟨hd, hput, hsize, -⟩ := hleft2.1.put hl List.length_replicate
          (by rw [hslots]; exact Nat.le_of_lt hlt) e2
        rw [hslots, hzero] at hput
        refine ⟨⟨hd, hput ▸ hu.empty⟩, ?_, Or.inl ?_⟩
        · rw [hput, hu.names_empty hent]
          refine .removed fun hn => ?_
          unfold Slots.names at hn
          rw [hk] at hn
          cases hn
        · have h1 := hleft1.size h
          have h2 := hleft2.size hleft1.1
          have hlt : x.2 < (s.inode dp).d.size / 16 := hlt
          omega
      · rw [e3] at e1
        cases e1
  | other hleft =>
    refine ⟨⟨hleft.1, hleft.2 ▸ hu⟩, ?_, Or.inl (hleft.size h)⟩
    rw [hleft.2]
    exact .other

variable (sb dp) in
/-- dirlookup finds the inum bound to the name, and its place. -/
def Finds (name : List UInt8) (s : St) : Prop :=
  match (s.slots dp).names (key name) with
  | none => dirlookup sb dp name s = .ok (none, s)
  | some inum =>
    (∃ ip i s', dirlookup sb dp name s = .ok (some (ip, 16 * i), s') ∧ (s'.inode ip).inum = inum ∧
      (s'.inode ip).dev = (s.inode dp).dev ∧
      (s.slots dp).entry i = some (key name, inum)) ∨ dirlookup sb dp name s = .error "iget: no inodes" ∧ NoSlot s

variable (sb dp) in
/-- What dirlink returns, and when it panics. -/
def Links (name : List UInt8) (inum : Nat) (s : St) : Prop :=
  match (s.slots dp).names (key name) with
  | some _ => (∃ s', dirlink sb dp name inum s = .ok (-1, s')) ∨
      dirlink sb dp name inum s = .error "iget: no inodes" ∧ NoSlot s
  | none =>
    (∃ s', dirlink sb dp name inum s = .ok (0, s')) ∨
      (∀ i < (s.slots dp).size, (s.slots dp).entry i ≠ none) ∧
        ((s.inode dp).d.size = MAXFILE * BSIZE ∧ dirlink sb dp name inum s = .error "dirlink" ∨
        freeCount sb s < 3 ∧ dirlink sb dp name inum s = .error "balloc: out of blocks")

/-- A directory that is a map of names: what the next call on it does. -/
structure IsMap (sb : Superblock) (dp : Nat) (s : St) : Prop where
  unique : (s.slots dp).Unique
  aligned : (s.inode dp).d.size % 16 = 0
  finds : ∀ name, Finds sb dp name s
  links : ∀ name inum, 1 ≤ inum → inum ≤ 65535 → Links sb dp name inum s
  removes : ∀ i x, (s.slots dp).entry i = some x → ∃ s',
    writei sb (kernelBytes (List.replicate 16 0)) dp 0 (16 * i) 16 s = .ok (16, s')
  grows : ∀ ev s', DirStep sb dp ev s s' → Grows dp ev s s'

theorem Directory.isMap (hl : Layout sb) (h : Directory sb dp s) (hu : (s.slots dp).Unique) : IsMap sb dp s := by
  refine ⟨hu, h.aligned, fun name => ?_, fun name inum h1 h2 => ?_, fun i x hx => ?_,
    fun ev s' hs => (h.step hl hu hs).2.2⟩
  · unfold Finds Slots.names
    cases hk : (s.slots dp).lookup (key name) with
    | none => exact h.dirlookup_free hk
    | some x =>
      refine (h.dirlookup_bound hk).imp_left fun ⟨ip, s', e, hi, hdev, _⟩ => ?_
      exact ⟨ip, x.2, s', e, hi, hdev, Slots.find_some hk⟩
  · unfold Links Slots.names
    cases hk : (s.slots dp).lookup (key name) with
    | none =>
      rcases h.dirlink_free hl h1 h2 hk with ⟨s', e, -⟩ | ⟨hfull, hp⟩
      · exact Or.inl ⟨s', e⟩
      · exact Or.inr ⟨fun i hi => Slots.full_of_free hfull hi, hp⟩
    | some x => exact (h.dirlink_bound hk).imp_left fun ⟨s', e, _⟩ => ⟨s', e⟩
  · have hlt : i < (s.inode dp).d.size / 16 := Slots.lt_of_entry hx
    have hmax := h.size_le
    have hat := (h.mapped (16 * i) (by omega)).2
    have hbn : 16 * i / BSIZE < MAXFILE := by
      refine Nat.div_lt_of_lt_mul ?_
      rw [Nat.mul_comm BSIZE]
      omega
    have hstart : 16 * i ≤ (s.inode dp).d.size := by omega
    rcases writei_entry sb (List.replicate 16 0) hstart (by omega) with ⟨-, -, s', -, e⟩ | ⟨m, eb, -⟩
    · exact ⟨s', e⟩
    · rw [bmap_mapped sb hbn hat] at eb
      cases eb

/-- What dirlookup found can be removed. -/
theorem Directory.removed (hl : Layout sb) (h : Directory sb dp s) (hu : (s.slots dp).Unique) {ip off : Nat}
    (e : dirlookup sb dp name s = .ok (some (ip, off), s1)) : ∃ s', DirStep sb dp (.removed name) s s' := by
  cases hk : (s.slots dp).lookup (key name) with
  | none =>
    rw [h.dirlookup_free hk] at e
    cases e
  | some x =>
    rcases h.dirlookup_bound hk with ⟨k, t, e1, -, -, hleft⟩ | ⟨e1, -⟩
    · rw [e1] at e
      cases e
      have hent := Slots.find_some hk
      rw [← hleft.2] at hent hu
      obtain ⟨s', e'⟩ := (hleft.1.isMap hl hu).removes x.2 _ hent
      exact ⟨s', .unlink e1 ⟨hleft.1, rfl⟩ e'⟩
    · rw [e1] at e
      cases e

/-- After any history a directory has the names that the history left, and is a map of them. -/
theorem directory_is_map (hl : Layout sb) (h : Directory sb dp s) (hu : (s.slots dp).Unique) {evs : List DirEvent}
    (hr : Runs (DirStep sb dp) evs s s') :
    IsMap sb dp s' ∧ Runs MapStep evs (s.slots dp).names (s'.slots dp).names := by
  have hsim := hr.simulates (T := MapStep) (I := fun s => Directory sb dp s ∧ (s.slots dp).Unique)
    (f := fun s => (s.slots dp).names)
    (fun ev s s' hi hs => (hi.1.step hl hi.2 hs).imp_right And.left) ⟨h, hu⟩
  exact ⟨hsim.1.1.isMap hl hsim.1.2, hsim.2⟩

end

/-! ## A directory in one block -/

/-- Inode 1 is a directory in block 10 with `n` entries for inode 2, the first with the name `\1`
    and so on. All other data blocks are free, or none. -/
def numbered (n : Nat) (full : Bool) : Mem := fun x =>
  if 10240 ≤ x ∧ x < 10240 + 16 * n then
    if x % 16 = 0 then 2 else if x % 16 = 2 then UInt8.ofNat ((x - 10240) / 16 + 1) else 0
  else if 3072 ≤ x ∧ x < 3080 then if full then 255 else if x = 3072 then 255 else if x = 3073 then 4 else 0
  else
    match x with
    | 2112 => 1 | 2118 => 1 | 2120 => UInt8.ofNat (16 * n) | 2121 => UInt8.ofNat (16 * n / 256) | 2124 => 10
    | _ => 0

/-- The directory in slot 0, and the rest of the inode table free or in use. -/
def inNumbered (n : Nat) (full busy : Bool) : St :=
  ⟨numbered n full, [], fun i =>
    if i = 0 then ⟨1, 1, 1, true, true, ⟨T_DIR, 0, 0, 1, 16 * n, Function.update (fun _ => 0) 0 10⟩⟩
    else ⟨1, i + 2, if busy then 1 else 0, false, false, ⟨0, 0, 0, 0, 0, fun _ => 0⟩⟩⟩

theorem inNumbered_directory {n : Nat} {full busy : Bool} (hn : n ≤ 64)
    (hu : used smallDisk (numbered n full) 10 = true)
    (hr : ∀ c < 4, used smallDisk (numbered n full) c = true) : Directory smallDisk 0 (inNumbered n full busy) := by
  refine ⟨rfl, show (0 : Int) < 1 by decide, show 1 < 15 by decide, Nat.mul_mod_right 16 n, fun k hk => ?_,
    whole_single (fun i hi => ?_) fun _ => ⟨show dataStart smallDisk ≤ 10 by decide, show 10 < 64 by decide, hu⟩, hr⟩
  · have hk : k < 16 * n := hk
    have h0 : k / BSIZE = 0 := Nat.div_eq_of_lt (by unfold BSIZE; omega)
    refine ⟨?_, ?_⟩
    · simp only [MAXFILE, NINDIRECT2, NDIRECT, NINDIRECT, BSIZE]
      omega
    · rw [h0]
      show (10 : Nat) ≠ 0
      decide
  · show Function.update (fun _ => 0) 0 10 i = 0
    rw [Function.update_of_ne hi]

theorem inNumbered_unique {n : Nat} {full busy : Bool} (hn : n ≤ 64)
    (he : ∀ i < n, ((inNumbered n full busy).slots 0).entry i = some ([UInt8.ofNat (i + 1)], 2)) :
    ((inNumbered n full busy).slots 0).Unique := by
  intro i j k v v' hi hj
  have hsize : ((inNumbered n full busy).slots 0).size = n := Nat.mul_div_cancel_left n (by decide)
  have hin := hsize ▸ Slots.lt_of_entry hi
  have hjn := hsize ▸ Slots.lt_of_entry hj
  rw [he i hin] at hi
  rw [he j hjn] at hj
  have hki : [UInt8.ofNat (i + 1)] = k := congrArg Prod.fst (Option.some.inj hi)
  have hkj : [UInt8.ofNat (j + 1)] = k := congrArg Prod.fst (Option.some.inj hj)
  have := congrArg UInt8.toNat (List.singleton_inj.mp (hki.trans hkj.symm))
  rw [UInt8.toNat_ofNat_of_lt' (by show i + 1 < 256; omega),
    UInt8.toNat_ofNat_of_lt' (by show j + 1 < 256; omega)] at this
  omega

/-- What dirlink of `b` returns, and dirlookup of the first name after it. -/
def linkThenLook : Except String (Int × Option (Nat × Nat)) := do
  let (r, s) ← dirlink smallDisk 0 [98] 3 (inNumbered 2 false false)
  let (x, _) ← dirlookup smallDisk 0 [1] s
  .ok (r, x)

theorem linkThenLook_run : ∃ s1 s2 ip off, dirlink smallDisk 0 [98] 3 (inNumbered 2 false false) = .ok (0, s1) ∧
    dirlookup smallDisk 0 [1] s1 = .ok (some (ip, off), s2) := by
  have hrun : linkThenLook.toOption = some (0, some (1, 0)) := by decide +kernel
  cases e : linkThenLook with
  | error m =>
    rw [e] at hrun
    cases hrun
  | ok x =>
    rw [e] at hrun
    cases hrun
    obtain ⟨⟨r, s1⟩, e1, e⟩ := bind_ok e
    obtain ⟨⟨x, s2⟩, e2, e⟩ := bind_ok e
    cases e
    exact ⟨s1, s2, 1, 0, e1, e2⟩

/-- A name is linked and another one removed. -/
theorem directory_is_map_two : ∃ s', IsMap smallDisk 0 s' ∧
    Runs MapStep [.linked [98] 3 0, .removed [1]] ((inNumbered 2 false false).slots 0).names (s'.slots 0).names := by
  have h : Directory smallDisk 0 (inNumbered 2 false false) :=
    inNumbered_directory (by decide) (by decide +kernel) (by decide +kernel)
  have hu : ((inNumbered 2 false false).slots 0).Unique := inNumbered_unique (by decide) (by decide +kernel)
  obtain ⟨s1, s2, ip, off, e1, e2⟩ := linkThenLook_run
  have hlink : DirStep smallDisk 0 (.linked [98] 3 0) (inNumbered 2 false false) s1 :=
    .link (by decide) (by decide) e1
  obtain ⟨⟨h1, hu1⟩, -⟩ := h.step smallDisk_layout hu hlink
  obtain ⟨s', hremove⟩ := h1.removed smallDisk_layout hu1 e2
  exact ⟨s', directory_is_map smallDisk_layout h hu (.cons hlink (.cons hremove (.nil s')))⟩

/-- With all slots of the inode table in use dirlink panics on a name that is there, and with all
    blocks in use on one that is not. -/
theorem dirlink_panics :
    (Directory smallDisk 0 (inNumbered 2 false true) ∧ ((inNumbered 2 false true).slots 0).Unique ∧
      ((inNumbered 2 false true).slots 0).names (key [1]) = some 2 ∧
      dirlink smallDisk 0 [1] 3 (inNumbered 2 false true) = .error "iget: no inodes") ∧
    Directory smallDisk 0 (inNumbered 64 true false) ∧ ((inNumbered 64 true false).slots 0).Unique ∧
      ((inNumbered 64 true false).slots 0).names (key [98]) = none ∧
      dirlink smallDisk 0 [98] 3 (inNumbered 64 true false) = .error "balloc: out of blocks" := by
  refine ⟨⟨inNumbered_directory (by decide) (by decide +kernel) (by decide +kernel),
    inNumbered_unique (by decide) (by decide +kernel), by decide +kernel,
    error_of_message (by decide +kernel) (by decide)⟩,
      inNumbered_directory (by decide) (by decide +kernel) (by decide +kernel),
    inNumbered_unique (by decide) (by decide +kernel), by
      decide +kernel, error_of_message (by decide +kernel) (by decide)⟩

end Xv6Labs.Fs.Disk
