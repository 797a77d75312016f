/-
  Xv6Labs.Fs.Files — files are byte arrays.

  A call of writei overwrites a stretch of one array, a call of readi returns one; neither
  touches another. On the disk the arrays share the bitmap, and the dinodes lie side by side in
  their blocks; everything else is apart.

  - `FileCall.apply`: the arrays.
  - `Files`: no block in two places, and a block below the size for every byte.
  - `files_are_byte_arrays`: for any sequence of calls from empty files on.
-/

import Xv6Labs.Fs.Chunks
import Xv6Labs.Fs.Symlink
import Mathlib.Data.Set.Basic

namespace Xv6Labs.Fs.Disk

open Lib

/-! ## Calls -/

/-- `bs` are the bytes of the source. -/
inductive FileCall where
  | writei (copyin : Nat → Nat → Int × List UInt8) (ip src off : Nat) (bs : List UInt8)
  | readi (ip off n : Nat)

inductive Reply where
  | wrote (r : Int)
  | got (bs : List UInt8)
  deriving DecidableEq

def FileCall.file : FileCall → Nat
  | .writei _ ip _ _ _ => ip
  | .readi ip _ _ => ip

/-- How many bytes it stores at most. -/
def FileCall.length : FileCall → Nat
  | .writei _ _ _ _ bs => bs.length
  | .readi .. => 0

/-- On a file of the set, with arguments that fit their types and a source that can be read. -/
def FileCall.Allowed (I : Set Nat) : FileCall → Prop
  | .writei copyin ip src off bs => ip ∈ I ∧ src < 2 ^ 64 ∧ off < 2 ^ 32 ∧ bs.length < 2 ^ 32 ∧
      Source copyin src bs.length bs.length fun i => bs.getD i 0
  | .readi ip off n => ip ∈ I ∧ off < 2 ^ 32 ∧ n < 2 ^ 32

def FileCall.run (sb : Superblock) : FileCall → St → Except String (Reply × St)
  | .writei copyin ip src off bs, s => do
    let (r, s) ← Disk.writei sb copyin ip src off bs.length s
    .ok (.wrote r, s)
  | .readi ip off n, s => do
    let (bs, s) ← Disk.readi sb ip off n s
    .ok (.got bs, s)

def runCalls (sb : Superblock) : List FileCall → St → Except String (List Reply × St)
  | [], s => .ok ([], s)
  | c :: cs, s => do
    let (r, s) ← c.run sb s
    let (rs, s) ← runCalls sb cs s
    .ok (r :: rs, s)

/-- The bounds of writei. -/
def InBounds (size off n : Nat) : Prop := off ≤ size ∧ off + n < 2 ^ 32 ∧ off + n ≤ MAXFILE * BSIZE

instance (size off n : Nat) : Decidable (InBounds size off n) := inferInstanceAs (Decidable (_ ∧ _))

/-- What a call does to byte arrays. -/
def FileCall.apply : FileCall → (Nat → List UInt8) → Reply × (Nat → List UInt8)
  | .writei _ ip _ off bs, files =>
    if InBounds (files ip).length off bs.length then
      (.wrote bs.length, Function.update files ip (overwrite (files ip) bs off)) else (.wrote (-1), files)
  | .readi ip off n, files =>
    (.got (if off ≤ (files ip).length ∧ off + n < 2 ^ 32 then ((files ip).drop off).take n else []), files)

def applyCalls : List FileCall → (Nat → List UInt8) → List Reply × (Nat → List UInt8)
  | [], files => ([], files)
  | c :: cs, files => ((c.apply files).1 :: (applyCalls cs (c.apply files).2).1, (applyCalls cs (c.apply files).2).2)

/-- The file in slot `ip` of the inode table. -/
def St.bytes (s : St) (ip : Nat) : List UInt8 := (List.range (s.inode ip).d.size).map (s.byte ip)

section

variable {sb : Superblock} {I : Set Nat} {s s' : St} {ip k off n src tot : Nat}
    {copyin : Nat → Nat → Int × List UInt8} {bs : List UInt8}
  {f : Nat → UInt8}

@[simp] theorem length_bytes (s : St) (ip : Nat) : (s.bytes ip).length = (s.inode ip).d.size := by
  simp [St.bytes]

theorem getElem?_bytes {i : Nat} (h : i < (s.inode ip).d.size) : (s.bytes ip)[i]? = some (s.byte ip i) := by
  simp [St.bytes, h]

/-! ## What holds between the calls -/

/-- The inodes of the set are different ones; no block is in two places, and every byte has one. -/
structure Files (sb : Superblock) (I : Set Nat) (s : St) : Prop where
  reserved : Reserved sb s.disk
  inum : ∀ k ∈ I, (s.inode k).inum < sb.ninodes
  one : ∀ k ∈ I, ∀ k' ∈ I, (s.inode k).inum = (s.inode k').inum → k = k'
  size : ∀ k ∈ I, (s.inode k).d.size ≤ MAXFILE * BSIZE
  whole : ∀ k ∈ I, Whole sb s.disk (s.inode k).d
  mapped : ∀ k ∈ I, ∀ x < (s.inode k).d.size, s.at k (slotOf (x / BSIZE)) ≠ 0
  apart : ∀ k ∈ I, ∀ k' ∈ I, k ≠ k' → ∀ p q, s.at k p ≠ 0 → s.at k p ≠ s.at k' q

/-- The files are empty, and the blocks below the data blocks are marked in use. -/
structure Blank (sb : Superblock) (I : Set Nat) (s : St) : Prop where
  reserved : Reserved sb s.disk
  inum : ∀ k ∈ I, (s.inode k).inum < sb.ninodes
  one : ∀ k ∈ I, ∀ k' ∈ I, (s.inode k).inum = (s.inode k').inum → k = k'
  size : ∀ k ∈ I, (s.inode k).d.size = 0
  addrs : ∀ k ∈ I, ∀ i, (s.inode k).d.addrs i = 0

/-- A call on file `ip` leaves the other inodes, their dinodes and all their blocks as they were,
    and whatever else is in use. -/
structure LeavesOthers (sb : Superblock) (I : Set Nat) (ip : Nat) (s s' : St) : Prop where
  inode : ∀ k, k ≠ ip → s'.inode k = s.inode k
  dinode : ∀ i < sb.ninodes, i ≠ (s.inode ip).inum → inodeOf sb s'.disk i = inodeOf sb s.disk i
  slots : ∀ k ∈ I, k ≠ ip → ∀ q, s'.at k q = s.at k q
  block : ∀ k ∈ I, k ≠ ip → ∀ q, s.at k q ≠ 0 → ∀ o < BSIZE,
    s'.disk (s.at k q * BSIZE + o) = s.disk (s.at k q * BSIZE + o)
  inUse : ∀ c o, dataStart sb ≤ c → c < sb.size → used sb s.disk c = true → (∀ q, s.at ip q ≠ c) → o < BSIZE →
    s'.disk (c * BSIZE + o) = s.disk (c * BSIZE + o)

/-- The call is a write within the bounds. -/
def FileCall.Stores (s : St) : FileCall → Prop
  | .writei _ ip _ off bs => InBounds (s.inode ip).d.size off bs.length
  | .readi .. => False

/-- What a call changes is the file it names, and if it does not store, nothing. -/
structure FileCall.Contained (sb : Superblock) (I : Set Nat) (c : FileCall) (s s' : St) : Prop where
  others : LeavesOthers sb I c.file s s'
  nothing : ¬ c.Stores s → s' = s

theorem LeavesOthers.refl (s : St) : LeavesOthers sb I ip s s :=
  ⟨fun _ _ => rfl, fun _ _ _ => rfl, fun _ _ _ _ => rfl, fun _ _ _ _ _ _ _ => rfl, fun _ _ _ _ _ _ _ => rfl⟩

theorem LeavesOthers.byte (h : LeavesOthers sb I ip s s') (hk : k ∈ I) (hne : k ≠ ip) (x : Nat) :
    s'.byte k x = s.byte k x := by
  unfold St.byte
  rw [h.slots k hk hne]
  split
  · rfl
  · rename_i h0
    exact h.block k hk hne _ h0 _ (Nat.mod_lt x (by decide))

theorem LeavesOthers.bytes (h : LeavesOthers sb I ip s s') (hk : k ∈ I) (hne : k ≠ ip) : s'.bytes k = s.bytes k := by
  unfold St.bytes
  rw [h.inode k hne]
  exact List.map_congr_left fun x _ => h.byte hk hne x

theorem Blank.files (h : Blank sb I s) : Files sb I s := by
  have hz : ∀ k ∈ I, ∀ p, s.at k p = 0 := fun k hk p => by
    have e : s.at k p = if p = .addr 0 then (s.inode k).d.addrs 0 else 0 := at_single (fun i _ => h.addrs k hk i) p
    refine e.trans ?_
    split
    · exact h.addrs k hk 0
    · rfl
  refine ⟨h.reserved, h.inum, h.one, fun k hk => ?_, fun k hk => whole_single (fun i _ => h.addrs k hk i) fun h0 =>
    absurd (h.addrs k hk 0) h0,
    fun k hk x hx => ?_, fun k hk _ _ _ p _ h0 => absurd (hz k hk p) h0⟩
  · rw [h.size k hk]
    exact Nat.zero_le _
  · rw [h.size k hk] at hx
    exact absurd hx (Nat.not_lt_zero x)

/-! ## readi -/

theorem readBytes_eq (bs : List UInt8) (hoff : off < 2 ^ 32) (hn : n < 2 ^ 32) :
    readBytes bs off n = if off ≤ bs.length ∧ off + n < 2 ^ 32 then (bs.drop off).take n else [] := by
  unfold readBytes u32
  by_cases hc : off ≤ bs.length ∧ off + n < 2 ^ 32
  · rw [if_pos hc, if_neg (by omega)]
  · rw [if_neg hc, if_pos (by omega)]

/-- readi of blocks is readi of the bytes. -/
theorem Files.readi (h : Files sb I s) (hip : ip ∈ I) (hoff : off < 2 ^ 32) (hn : n < 2 ^ 32) :
    Disk.readi sb ip off n s = .ok (readBytes (s.bytes ip) off n, s) := by
  rw [readBytes_eq _ hoff hn, length_bytes]
  by_cases hc : off ≤ (s.inode ip).d.size ∧ off + n < 2 ^ 32
  · have e := readi_mapped sb hc.2 fun x _ h2 _ => ⟨Nat.lt_of_lt_of_le h2 (h.size ip hip), h.mapped ip hip x h2⟩
    rw [e, if_pos hc]
    congr 2
    refine List.ext_getElem? fun i => ?_
    rw [List.getElem?_take, List.getElem?_drop]
    by_cases hi : i < n ∧ off + i < (s.inode ip).d.size
    · rw [if_pos hi.1, getElem?_bytes hi.2, List.getElem?_map, List.getElem?_range (by omega)]
      rfl
    · rw [List.getElem?_eq_none (by rw [List.length_map, List.length_range]; omega)]
      split
      · exact (List.getElem?_eq_none (by rw [length_bytes]; omega)).symm
      · rfl
  · unfold Disk.readi
    dsimp only
    rw [if_neg hc, if_pos]
    unfold u32
    omega

/-! ## writei -/

theorem writei_out_of_bounds (hoff : off < 2 ^ 32) (hn : n < 2 ^ 32) (h : ¬ InBounds (s.inode ip).d.size off n) :
    Disk.writei sb copyin ip src off n s = .ok (-1, s) := by
  unfold InBounds at h
  unfold Disk.writei
  by_cases h1 : off > (s.inode ip).d.size ∨ u32 (off + n) < off
  · exact if_pos h1
  · have hsum : u32 (off + n) = off + n := by
      unfold u32 at h1 ⊢
      omega
    rw [if_neg h1, hsum]
    refine if_pos ?_
    unfold u32 at h1
    omega

theorem Files.leaves (h : Files sb I s) (hl : Layout sb) (hip : ip ∈ I) (w : Wrote sb ip off n f n tot s s')
    (hsize : (s'.inode ip).d.size < 2 ^ 32) :
    LeavesOthers sb I ip s s' := by
  have ha := w.around hl (h.inum ip hip) hsize
  have hblock : ∀ k ∈ I, k ≠ ip → ∀ q, s.at k q ≠ 0 → ∀ o < BSIZE,
    s'.disk (s.at k q * BSIZE + o) = s.disk (s.at k q * BSIZE + o) := by
    intro k hk hne q h0 o ho
    obtain ⟨h1, h2, h3⟩ := (h.whole k hk).data q h0
    exact ha.block _ o h1 h2 h3 (fun p e => h.apart k hk ip hip hne q p h0 e.symm) ho
  have hinode : ∀ k, k ≠ ip → s'.inode k = s.inode k := fun k hne => by rw [w.inode, Function.update_of_ne hne]
  refine ⟨hinode, ha.dinode, fun k hk hne q => ?_, hblock, ha.block⟩
  exact at_congr s s' (by rw [hinode k hne]) (fun p _ h0 => hblock k hk hne p h0) q

/-- The file that was written. -/
theorem Wrote.bytes (w : Wrote sb ip off bs.length (fun i => bs.getD i 0) bs.length bs.length s s')
    (hsize : (s.inode ip).d.size ≤ MAXFILE * BSIZE) :
    s'.bytes ip = overwrite (s.bytes ip) bs off := by
  have hstart := w.start
  have hfits := w.fits
  refine List.ext_getElem? fun i => ?_
  rw [getElem?_overwrite (by rwa [length_bytes])]
  by_cases hi : i < (s'.inode ip).d.size
  · have hlt := hi
    rw [w.size] at hlt
    rw [getElem?_bytes hi, w.byte i (by omega)]
    split
    · rename_i hin
      rw [List.getElem?_eq_getElem (by omega), List.getD_eq_getElem _ _ (by omega)]
    · rename_i hout
      rw [getElem?_bytes (by omega)]
  · rw [w.size] at hi
    rw [List.getElem?_eq_none (by rw [length_bytes, w.size]; omega), if_neg (by omega),
      List.getElem?_eq_none (by rw [length_bytes]; omega)]

theorem Files.writei (h : Files sb I s) (hl : Layout sb) (hip : ip ∈ I)
    (hc : Source copyin src bs.length bs.length fun i => bs.getD i 0) (hsrc : src < 2 ^ 64)
    (hoff : off < 2 ^ 32) (hn : bs.length < 2 ^ 32) (hb : InBounds (s.inode ip).d.size off bs.length) :
    (Disk.writei sb copyin ip src off bs.length s = .error "balloc: out of blocks" ∧ freeCount sb s < 3 * bs.length) ∨
      ∃ s', Disk.writei sb copyin ip src off bs.length s = .ok (bs.length, s') ∧ Files sb I s' ∧
        s'.bytes ip = overwrite (s.bytes ip) bs off ∧
        LeavesOthers sb I ip s s' ∧ freeCount sb s ≤ freeCount sb s' + 3 * bs.length := by
  cases e : Disk.writei sb copyin ip src off bs.length s with
  | error m => exact Or.inl ⟨by rw [writei_error hn e],
      writei_short hl (h.whole ip hip) h.reserved (h.inum ip hip) hc hsrc hoff hn (Nat.le_refl _) e⟩
  | ok x =>
    obtain ⟨r, s'⟩ := x
    have hr : 0 ≤ r := by
      by_contra hr
      exact (writei_refused e hr).2.2 ⟨hb.1, hb.2.2⟩
    obtain ⟨t, rfl, w⟩ := writei_spec hl (h.whole ip hip) h.reserved (h.inum ip hip) hc hsrc hn hoff
      (Nat.le_refl _) e hr
    obtain rfl : t = bs.length := w.tot_all rfl
    have hsize : (s'.inode ip).d.size ≤ MAXFILE * BSIZE := by
      rw [w.size]
      exact Nat.max_le.mpr ⟨h.size ip hip, w.fits⟩
    have hothers := h.leaves hl hip w (Nat.lt_of_le_of_lt hsize (by decide))
    have hinum : ∀ k, (s'.inode k).inum = (s.inode k).inum := fun k => by
      by_cases hk : k = ip
      · rw [w.inode, hk, Function.update_self]
      · rw [hothers.inode k hk]
    -- a block of another file does not come to this one
    have hnew : ∀ k ∈ I, k ≠ ip → ∀ p, s.at k p ≠ 0 → ∀ q, s'.at ip q ≠ s.at k p := fun k hk hne p h0 =>
      writei_apart hl (h.whole ip hip) h.reserved (h.inum ip hip) hc hsrc hn hoff (Nat.le_refl _) e hr
        ((h.whole k hk).data p h0).2.2 h0
        fun q e => h.apart k hk ip hip hne p q h0 e.symm
    refine Or.inr ⟨s', rfl, ⟨w.reserved, fun k hk => ?_, fun k hk k' hk' => ?_, fun k hk => ?_, fun k hk => ?_,
      fun k hk x hx => ?_, fun k hk k' hk' hne p q h0 => ?_⟩,
      w.bytes (h.size ip hip), hothers, writei_free hl (h.whole ip hip) h.reserved (h.inum ip hip) hc hsrc hoff hn
        (Nat.le_refl _) e⟩
    · rw [hinum]
      exact h.inum k hk
    · rw [hinum, hinum]
      exact h.one k hk k' hk'
    · by_cases hne : k = ip
      · subst hne
        exact hsize
      · rw [hothers.inode k hne]
        exact h.size k hk
    · by_cases hne : k = ip
      · subst hne
        exact w.whole
      · have hd := hothers.slots k hk hne
        unfold St.at at hd
        refine ⟨fun p hp => ?_, fun p q hp e => ?_⟩
        · rw [hd] at hp ⊢
          obtain ⟨h1, h2, h3⟩ := (h.whole k hk).data p hp
          exact ⟨h1, h2, w.used hl (h.inum ip hip) h2 h3⟩
        · rw [hd] at hp e
          rw [hd] at e
          exact (h.whole k hk).apart p q hp e
    · by_cases hne : k = ip
      · subst hne
        by_cases hin : off ≤ x ∧ x < off + bs.length
        · exact w.mapped x hin.1 hin.2
        · rw [w.size] at hx
          have hold := h.mapped k hk x (by have := w.start; omega)
          rw [w.keep _ hold]
          exact hold
      · rw [hothers.inode k hne] at hx
        rw [hothers.slots k hk hne]
        exact h.mapped k hk x hx
    · by_cases e1 : k = ip <;> by_cases e2 : k' = ip
      · exact absurd (e1.trans e2.symm) hne
      · subst e1
        rw [hothers.slots k' hk' e2]
        by_cases hz : s.at k' q = 0
        · rw [hz]
          exact h0
        · exact hnew k' hk' e2 q hz p
      · subst e2
        rw [hothers.slots k hk e1] at h0 ⊢
        exact (hnew k hk e1 p h0 q).symm
      · rw [hothers.slots k hk e1] at h0 ⊢
        rw [hothers.slots k' hk' e2]
        exact h.apart k hk k' hk' hne p q h0

/-! ## Sequences of calls -/

theorem Files.call (h : Files sb I s) (hl : Layout sb) {c : FileCall} (hc : c.Allowed I) {files : Nat → List UInt8}
    (hf : ∀ k ∈ I, s.bytes k = files k) :
    (c.run sb s = .error "balloc: out of blocks" ∧ freeCount sb s < 3 * c.length) ∨
      ∃ s', c.run sb s = .ok ((c.apply files).1, s') ∧ Files sb I s' ∧ (∀ k ∈ I, s'.bytes k = (c.apply files).2 k) ∧
        c.Contained sb I s s' ∧
        freeCount sb s ≤ freeCount sb s' + 3 * c.length := by
  cases c with
  | readi ip off n =>
    obtain ⟨hip, hoff, hn⟩ := hc
    refine Or.inr ⟨s, ?_, h, hf, ⟨.refl s, fun _ => rfl⟩, Nat.le_add_right _ _⟩
    unfold FileCall.run FileCall.apply
    dsimp only
    rw [h.readi hip hoff hn, hf ip hip, readBytes_eq _ hoff hn]
    rfl
  | writei copyin ip src off bs =>
    obtain ⟨hip, hsrc, hoff, hn, hread⟩ := hc
    have hlen : (files ip).length = (s.inode ip).d.size := by rw [← hf ip hip, length_bytes]
    unfold FileCall.run FileCall.apply
    dsimp only
    rw [hlen]
    by_cases hb : InBounds (s.inode ip).d.size off bs.length
    · rw [if_pos hb]
      rcases h.writei hl hip hread hsrc hoff hn hb with ⟨e, hshort⟩ | ⟨s', e, h', hbytes, hothers, htook⟩
      · exact Or.inl ⟨by rw [e]; rfl, hshort⟩
      · refine Or.inr ⟨s', by rw [e]; rfl, h', fun k hk => ?_, ⟨hothers, fun hn => absurd hb hn⟩, htook⟩
        dsimp only
        by_cases hne : k = ip
        · subst hne
          rw [Function.update_self, hbytes, hf k hk]
        · rw [Function.update_of_ne hne, hothers.bytes hk hne, hf k hk]
    · rw [if_neg hb, writei_out_of_bounds hoff hn hb]
      exact Or.inr ⟨s, rfl, h, hf, ⟨.refl s, fun _ => rfl⟩, Nat.le_add_right _ _⟩

/-- How many bytes the calls store at most. -/
def lengths (calls : List FileCall) : Nat := (calls.map FileCall.length).sum

theorem Files.calls (hl : Layout sb) : ∀ {calls : List FileCall} {s : St} {files : Nat → List UInt8}, Files sb I s →
    (∀ c ∈ calls, c.Allowed I) →
    (∀ k ∈ I, s.bytes k = files k) → (runCalls sb calls s = .error "balloc: out of blocks" ∧
      freeCount sb s < 3 * lengths calls) ∨
      ∃ s', runCalls sb calls s = .ok ((applyCalls calls files).1, s') ∧ Files sb I s' ∧ ∀ k ∈ I,
        s'.bytes k = (applyCalls calls files).2 k := by
  intro calls
  induction calls with
  | nil => exact fun h _ hf => Or.inr ⟨_, rfl, h, hf⟩
  | cons c cs ih =>
    intro s files h hc hf
    obtain ⟨h0, hc⟩ := List.forall_mem_cons.mp hc
    have hsum : lengths (c :: cs) = c.length + lengths cs := List.sum_cons
    unfold runCalls applyCalls
    rcases h.call hl h0 hf with ⟨e, hshort⟩ | ⟨s1, e, h1, hf1, -, htook⟩
    · exact Or.inl ⟨by rw [e]; rfl, by omega⟩
    rw [e, ok_bind]
    dsimp only
    rcases ih h1 hc hf1 with ⟨e2, hshort⟩ | ⟨s2, e2, h2, hf2⟩
    · exact Or.inl ⟨by rw [e2]; rfl, by omega⟩
    · exact Or.inr ⟨s2, by rw [e2]; rfl, h2, hf2⟩

/-- From empty files on, writei and readi return what they would on byte arrays, and leave these
    in the files; each call touches one file only. With three free blocks for each byte that is
    written they do not fail. -/
theorem files_are_byte_arrays (hl : Layout sb) (h : Blank sb I s) {calls : List FileCall}
    (hc : ∀ c ∈ calls, c.Allowed I) :
    (runCalls sb calls s = .error "balloc: out of blocks" ∧ freeCount sb s < 3 * lengths calls) ∨
      ∃ s', runCalls sb calls s = .ok ((applyCalls calls fun _ => []).1, s') ∧
        (∀ k ∈ I, s'.bytes k = (applyCalls calls fun _ => []).2 k) ∧
        ∀ (c : FileCall) r s'', c.Allowed I → c.run sb s' = .ok (r, s'') → c.Contained sb I s' s'' := by
  have hempty : ∀ k ∈ I, s.bytes k = [] := fun k hk => by
    rw [← List.length_eq_zero_iff, length_bytes]
    exact h.size k hk
  rcases h.files.calls hl hc hempty with e | ⟨s', e, h', hf⟩
  · exact Or.inl e
  · refine Or.inr ⟨s', e, hf, fun c r s'' hc' e' => ?_⟩
    rcases h'.call hl hc' (fun k _ => rfl) with ⟨e2, -⟩ | ⟨t, e2, -, -, hcont, -⟩
    · rw [e'] at e2
      cases e2
    · rw [e'] at e2
      cases e2
      exact hcont

end

/-- Two empty files on a small disk. -/
def twoFiles : St :=
  ⟨fun x => if x = 3072 then 15 else 0, [], fun k => ⟨1, k + 1, 1, true, true, ⟨T_FILE, 0, 0, 1, 0, fun _ => 0⟩⟩⟩

theorem twoFiles_blank : Blank smallDisk {k | k < 2} twoFiles := by
  refine ⟨?_, fun k hk => ?_, fun k _ k' _ e => Nat.succ.inj e, fun _ _ => rfl, fun _ _ _ => rfl⟩
  · exact (by decide +kernel : ∀ c < 4, used smallDisk twoFiles.disk c = true)
  · have hk : k < 2 := hk
    show k + 1 < 15
    omega

/-- A block and a byte. -/
def longBytes : List UInt8 := List.replicate 1025 5

/-- Both are written, one over a block boundary; this one is read there, and a write behind its end is
    refused. -/
def fourCalls : List FileCall :=
  [.writei (kernelBytes longBytes) 0 0 0 longBytes, .writei (kernelBytes [9]) 1 0 0 [9], .readi 0 1023 5,
    .writei (kernelBytes [7]) 0 0 1026 [7]]

theorem fourCalls_apply : (applyCalls fourCalls fun _ => []).1 = [.wrote 1025, .wrote 1, .got [5, 5], .wrote (-1)] ∧
    (applyCalls fourCalls fun _ => []).2 0 = longBytes ∧ (applyCalls fourCalls fun _ => []).2 1 = [9] := by
  decide +kernel

theorem files_are_byte_arrays_two : ∃ s',
    runCalls smallDisk fourCalls twoFiles = .ok ([.wrote 1025, .wrote 1, .got [5, 5], .wrote (-1)], s') ∧
    s'.bytes 0 = longBytes ∧ s'.bytes 1 = [9] := by
  have hallowed : ∀ c ∈ fourCalls, c.Allowed {k | k < 2} := by
    have hsource : ∀ bs : List UInt8, bs.length < 2 ^ 32 → Source (kernelBytes bs) 0 bs.length bs.length fun i =>
      bs.getD i 0 := fun bs h =>
      kernelBytes_source (Nat.lt_trans h (by decide)) rfl
    have hlong : longBytes.length < 2 ^ 32 := Nat.lt_of_le_of_lt (Nat.le_of_eq List.length_replicate) (by decide)
    intro c hc
    simp only [fourCalls, List.mem_cons, List.not_mem_nil, or_false] at hc
    rcases hc with rfl | rfl | rfl | rfl
    · exact ⟨by decide, by decide, by decide, hlong, hsource _ hlong⟩
    · exact ⟨by decide, by decide, by decide, by decide, hsource _ (by decide)⟩
    · exact ⟨by decide, by decide, by decide⟩
    · exact ⟨by decide, by decide, by decide, by decide, hsource _ (by decide)⟩
  have hrun : (runCalls smallDisk fourCalls twoFiles).toBool = true := by decide +kernel
  obtain ⟨h1, h2, h3⟩ := fourCalls_apply
  rcases files_are_byte_arrays smallDisk_layout twoFiles_blank hallowed with ⟨e, -⟩ | ⟨s', e, hbytes, -⟩
  · rw [e] at hrun
    cases hrun
  · exact ⟨s', by rw [e, h1], (hbytes 0 (by decide)).trans h2, (hbytes 1 (by decide)).trans h3⟩

end Xv6Labs.Fs.Disk
