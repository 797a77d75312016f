/-
  Xv6Labs.Fs.Blockmap — no two files share a block.

  `dinodeOf` is the dinode of an inode as it is now: the copy in the inode table, which bmap
  writes, or the one on disk. A state is well-formed if a block is in one slot of one inode at
  most; the slots of an inode are those of its index blocks too.

  - `Extended.wellFormed`: a block that bmap puts in a slot was free.
  - `bmap_is_block_map`: what bmap returns, that it keeps what it returned before, for any inode,
    and that it returns a block for one block number of one inode only.
-/

import Xv6Labs.Fs.Directory
import Xv6Labs.Fs.Undo

namespace Xv6Labs.Fs.Disk

open Lib

section

variable {sb : Superblock} {s s' s1 : St} {ip k i j bn bn' b c : Nat} {p q : Slot}

/-- Slot `k` of the inode table has a reference and a copy. -/
def Cached (s : St) (k : Nat) : Prop := 0 < (s.inode k).ref ∧ (s.inode k).valid = true

instance (s : St) (k : Nat) : Decidable (Cached s k) := inferInstanceAs (Decidable (_ ∧ _))

variable (sb) in
def dinodeOf (s : St) (i : Nat) : Dinode :=
  match (List.range NINODE).find? fun k => decide (Cached s k ∧ (s.inode k).inum = i) with
  | some k => (s.inode k).d
  | none => inodeOf sb s.disk i

variable (sb) in
/-- The block in a slot of inode `i`. -/
def blockOf (s : St) (i : Nat) (p : Slot) : Nat := (dinodeOf sb s i).at s.disk p

/-- Pointers are to data blocks in use, each in one place. -/
structure WellFormed (sb : Superblock) (s : St) : Prop where
  reserved : Reserved sb s.disk
  slot : ∀ k, Cached s k → k < NINODE ∧ (s.inode k).inum < sb.ninodes
  one : ∀ k k', Cached s k → Cached s k' → (s.inode k).inum = (s.inode k').inum → k = k'
  data : ∀ i < sb.ninodes, ∀ p, blockOf sb s i p ≠ 0 → dataStart sb ≤ blockOf sb s i p ∧ blockOf sb s i p < sb.size ∧
    used sb s.disk (blockOf sb s i p) = true
  apart : ∀ i < sb.ninodes, ∀ j < sb.ninodes, ∀ p q, blockOf sb s i p ≠ 0 → blockOf sb s i p = blockOf sb s j q →
    i = j ∧ p = q

/-! ## The inodes of a state -/

theorem WellFormed.dinodeOf (h : WellFormed sb s) (hk : Cached s k) :
    dinodeOf sb s (s.inode k).inum = (s.inode k).d := by
  unfold Disk.dinodeOf
  split
  · rename_i k' e
    have hk' : Cached s k' ∧ (s.inode k').inum = (s.inode k).inum := by simpa using List.find?_some e
    rw [h.one k' k hk'.1 hk hk'.2]
  · rename_i e
    have hno := List.find?_eq_none.mp e k (List.mem_range.mpr (h.slot k hk).1)
    exact absurd (decide_eq_true ⟨hk, rfl⟩) hno

theorem WellFormed.blockOf (h : WellFormed sb s) (hk : Cached s k) (p : Slot) :
    blockOf sb s (s.inode k).inum p = s.at k p := by
  unfold Disk.blockOf
  rw [h.dinodeOf hk]
  rfl

theorem WellFormed.whole (h : WellFormed sb s) (hk : Cached s k) : Whole sb s.disk (s.inode k).d := by
  have hi := (h.slot k hk).2
  have hb := fun p => h.blockOf hk p
  unfold St.at at hb
  exact ⟨fun p hp => hb p ▸ h.data _ hi p (by rwa [hb]),
    fun p q hp e => (h.apart _ hi _ hi p q (by rwa [hb]) (by rwa [hb, hb])).2⟩

/-! ## A grown file -/

/-- Only one copy differs, in its addrs. -/
theorem Extended.copies (g : Extended sb ip s s') :
    (∀ k, (Cached s' k ↔ Cached s k) ∧ (s'.inode k).inum = (s.inode k).inum) ∧ ∀ k, k ≠ ip →
    (s'.inode k).d = (s.inode k).d := by
  obtain ⟨a, e⟩ := g.inode
  unfold Cached
  rw [e]
  constructor
  · intro k
    by_cases hk : k = ip
    · rw [hk, Function.update_self]
      exact ⟨Iff.rfl, rfl⟩
    · rw [Function.update_of_ne hk]
      exact ⟨Iff.rfl, rfl⟩
  · intro k hk
    rw [Function.update_of_ne hk]

theorem dinodeOf_other (hl : Layout sb) (g : Extended sb ip s s') (hi : i < sb.ninodes)
    (hne : i ≠ (s.inode ip).inum) :
    dinodeOf sb s' i = dinodeOf sb s i := by
  obtain ⟨hkey, hd⟩ := g.copies
  unfold dinodeOf
  simp only [hkey]
  split
  · rename_i k e
    have hk : Cached s k ∧ (s.inode k).inum = i := by simpa using List.find?_some e
    exact hd k fun e' => hne (by rw [← hk.2, e'])
  · exact loadDinode_congr fun x _ hx => g.low x (Nat.lt_of_lt_of_le hx (dinode_bound hl hi))

/-- The blocks of the other files are not touched. -/
theorem blockOf_other (hl : Layout sb) (h : WellFormed sb s) (hip : Cached s ip) (g : Extended sb ip s s')
    (hi : i < sb.ninodes) (hne : i ≠ (s.inode ip).inum) (p : Slot) :
    blockOf sb s' i p = blockOf sb s i p := by
  unfold blockOf
  rw [dinodeOf_other hl g hi hne]
  refine @at_congr 0 ⟨s.disk, [], fun _ => ⟨0, 0, 0, false, false, dinodeOf sb s i⟩⟩
    ⟨s'.disk, [], fun _ => ⟨0, 0, 0, false, false, dinodeOf sb s i⟩⟩ rfl
    (fun q _ h0 o ho => ?_) p
  obtain ⟨h1, h2, h3⟩ := h.data i hi q h0
  refine g.others _ o h1 h2 ho h3 fun r e => ?_
  rw [← h.blockOf hip r] at e
  exact hne (h.apart i hi _ (h.slot ip hip).2 q r h0 e.symm).1

/-- The blocks of the grown one. -/
theorem blockOf_grown (h : WellFormed sb s) (hip : Cached s ip) (g : Extended sb ip s s') (p : Slot) :
    blockOf sb s' (s.inode ip).inum p = s'.at ip p := by
  obtain ⟨hkey, -⟩ := g.copies
  have hd : dinodeOf sb s' (s.inode ip).inum = (s'.inode ip).d := by
    unfold dinodeOf
    simp only [hkey]
    split
    · rename_i k e
      have hk : Cached s k ∧ (s.inode k).inum = (s.inode ip).inum := by simpa using List.find?_some e
      rw [h.one k ip hk.1 hip hk.2]
    · rename_i e
      have hno := List.find?_eq_none.mp e ip (List.mem_range.mpr (h.slot ip hip).1)
      exact absurd (decide_eq_true ⟨hip, rfl⟩) hno
  unfold blockOf
  rw [hd]
  rfl

/-- A block of another file is not one of the grown one. -/
theorem blockOf_apart (h : WellFormed sb s) (hip : Cached s ip) (g : Extended sb ip s s') (hi : i < sb.ninodes)
    (hne : i ≠ (s.inode ip).inum) (h0 : blockOf sb s i p ≠ 0) : s'.at ip q ≠ blockOf sb s i p := by
  refine g.apart (h.data i hi p h0).2.2 h0 (fun r e => ?_) q
  rw [← h.blockOf hip r] at e
  exact hne (h.apart i hi _ (h.slot ip hip).2 p r h0 e.symm).1

theorem Extended.wellFormed (hl : Layout sb) (h : WellFormed sb s) (hip : Cached s ip) (g : Extended sb ip s s') :
    WellFormed sb s' := by
  obtain ⟨hkey, -⟩ := g.copies
  have hmine := blockOf_grown h hip g
  have hother := fun i hi hne => @blockOf_other sb s s' ip i hl h hip g hi hne
  refine ⟨g.reserved hl h.reserved, fun k hk => ?_, fun k k' hk hk' e => ?_, fun i hi p h0 => ?_,
    fun i hi j hj p q h0 e => ?_⟩
  · rw [(hkey k).2]
    exact h.slot k ((hkey k).1.mp hk)
  · rw [(hkey k).2, (hkey k').2] at e
    exact h.one k k' ((hkey k).1.mp hk) ((hkey k').1.mp hk') e
  · by_cases hne : i = (s.inode ip).inum
    · subst hne
      rw [hmine] at h0 ⊢
      exact g.whole.data p h0
    · rw [hother i hi hne] at h0 ⊢
      obtain ⟨h1, h2, h3⟩ := h.data i hi p h0
      exact ⟨h1, h2, g.up h2 h3⟩
  · by_cases hi' : i = (s.inode ip).inum <;> by_cases hj' : j = (s.inode ip).inum
    · subst hi'
      rw [hmine] at h0 e
      rw [hj', hmine] at e
      exact ⟨hj'.symm, g.whole.apart p q h0 e⟩
    · subst hi'
      rw [hmine] at h0 e
      rw [hother j hj hj'] at e
      exact absurd e (blockOf_apart h hip g hj hj' (by rw [← e]; exact h0))
    · rw [hother i hi hi'] at h0 e
      rw [hj', hmine] at e
      exact absurd e.symm (blockOf_apart h hip g hi hi' h0)
    · rw [hother i hi hi'] at h0 e
      rw [hother j hj hj'] at e
      exact h.apart i hi j hj p q h0 e

/-- Blocks stay where they are. -/
theorem blockOf_stays (hl : Layout sb) (h : WellFormed sb s) (hip : Cached s ip) (g : Extended sb ip s s')
    (hi : i < sb.ninodes) (h0 : blockOf sb s i p ≠ 0) :
    blockOf sb s' i p = blockOf sb s i p := by
  by_cases hne : i = (s.inode ip).inum
  · subst hne
    rw [blockOf_grown h hip g, h.blockOf hip]
    rw [h.blockOf hip] at h0
    exact g.keep p h0
  · exact blockOf_other hl h hip g hi hne p

/-! ## bmap -/

/-- bmap returned `b` for block number `bn`. -/
structure Answered (sb : Superblock) (ip bn b : Nat) (s s' : St) : Prop where
  inUse : b ≠ 0 ∧ b < sb.size ∧ used sb s'.disk b = true
  wellFormed : WellFormed sb s'
  entered : blockOf sb s' (s.inode ip).inum (slotOf bn) = b
  stays : ∀ i < sb.ninodes, ∀ p, blockOf sb s i p ≠ 0 → blockOf sb s' i p = blockOf sb s i p
  stable : ∀ k bn', Cached s k → bn' < MAXFILE → s.at k (slotOf bn') ≠ 0 → ∃ c, bmap sb k bn' s = .ok (c, s) ∧
    bmap sb k bn' s' = .ok (c, s')
  mapped : s.at ip (slotOf bn) ≠ 0 → s' = s
  alone : ∀ i < sb.ninodes, ∀ p, blockOf sb s' i p = b → i = (s.inode ip).inum ∧ p = slotOf bn
  noIndex : ∀ i < sb.ninodes, ∀ p : Slot, p.index → blockOf sb s' i p ≠ b

theorem Cached.extended (hk : Cached s k) (g : Extended sb ip s s') : Cached s' k := (g.copies.1 k).1.mpr hk

theorem bmap_answered (hl : Layout sb) (h : WellFormed sb s) (hip : Cached s ip) (hbn : bn < MAXFILE)
    (e : bmap sb ip bn s = .ok (b, s')) : Answered sb ip bn b s s' := by
  obtain ⟨g, hb, h0⟩ := bmap_spec hl (h.whole hip) h.reserved hbn e
  have g' := g.toExtended
  have hwf := g'.wellFormed hl h hip
  have hin := (h.slot ip hip).2
  have henter : blockOf sb s' (s.inode ip).inum (slotOf bn) = b := (blockOf_grown h hip g' _).trans hb
  have hstays := fun i hi p => @blockOf_stays sb s s' ip i p hl h hip g' hi
  have halone : ∀ i < sb.ninodes, ∀ p, blockOf sb s' i p = b → i = (s.inode ip).inum ∧ p = slotOf bn :=
    fun i hi p e =>
    hwf.apart i hi _ hin p _ (by rw [e]; exact h0) (e.trans henter.symm)
  refine ⟨⟨h0, ?_⟩, hwf, henter, hstays, fun k bn' hk hbn' hm => ?_, fun hm => ?_, halone, fun i hi p hp e => ?_⟩
  · have := hwf.data _ hin (slotOf bn) (by rw [henter]; exact h0)
    rw [henter] at this
    exact this.2
  · have hk' := hk.extended g'
    have hnum := (g'.copies.1 k).2
    have hsame : s'.at k (slotOf bn') = s.at k (slotOf bn') := by
      rw [← hwf.blockOf hk', hnum, ← h.blockOf hk]
      exact hstays _ (h.slot k hk).2 _ (by rw [h.blockOf hk]; exact hm)
    exact ⟨_, bmap_mapped sb hbn' hm, by rw [← hsame]; exact bmap_mapped sb hbn' (by rw [hsame]; exact hm)⟩
  · rw [bmap_mapped sb hbn hm] at e
    cases e
    rfl
  · exact slotOf_not_index bn ((halone i hi p e).2 ▸ hp)

/-- bmap panics with "out of range" exactly for the block numbers that a file cannot have; for the
    others it returns a block of its own, unless fewer than three are free, and changes no other
    answer. -/
theorem bmap_is_block_map (hl : Layout sb) (h : WellFormed sb s) (hip : Cached s ip) :
    (bmap sb ip bn s = .error "bmap: out of range" ↔ MAXFILE ≤ bn) ∧
    (bn < MAXFILE → (bmap sb ip bn s = .error "balloc: out of blocks" ∧ freeCount sb s < 3) ∨ ∃ b s',
      bmap sb ip bn s = .ok (b, s') ∧ Answered sb ip bn b s s' ∧
      ∀ k bn' c s'', Cached s k → bmap sb k bn' s' = .ok (c, s'') → (c = b ↔ k = ip ∧ bn' = bn)) := by
  constructor
  · constructor
    · intro e
      by_contra hlt
      exact absurd (bmap_error (Nat.lt_of_not_le hlt) e) (by decide)
    · intro hge
      unfold bmap
      have h1 : ¬ bn < NDIRECT := by simp only [MAXFILE, NINDIRECT2, NDIRECT, NINDIRECT] at *; omega
      have h2 : ¬ bn - NDIRECT < NINDIRECT := by simp only [MAXFILE, NINDIRECT2, NDIRECT, NINDIRECT] at *; omega
      have h3 : ¬ bn - NDIRECT - NINDIRECT < NINDIRECT2 := by
        simp only [MAXFILE, NINDIRECT2, NDIRECT, NINDIRECT] at *; omega
      rw [dif_neg h1]
      dsimp only
      rw [if_neg h2, if_neg h3]
  · intro hbn
    cases e : bmap sb ip bn s with
    | error m =>
      refine Or.inl ⟨by rw [bmap_error hbn e], ?_⟩
      by_contra hn
      obtain ⟨b, s', e', -⟩ := bmap_total hl (h.whole hip) h.reserved (Nat.le_of_not_lt hn) hbn
      rw [e] at e'
      cases e'
    | ok a =>
      obtain ⟨b, s'⟩ := a
      have ha := bmap_answered hl h hip hbn e
      refine Or.inr ⟨b, s', rfl, ha, fun k bn' c s'' hk e' => ?_⟩
      obtain ⟨g, -, -⟩ := bmap_spec hl (h.whole hip) h.reserved hbn e
      have hk' := hk.extended g.toExtended
      have ha' := bmap_answered hl ha.wellFormed hk' (bmap_lt e') e'
      have hnum : ∀ k, (s'.inode k).inum = (s.inode k).inum := fun k => (g.toExtended.copies.1 k).2
      have hin := (h.slot ip hip).2
      -- the block that was returned first is still where it was
      have hstill : blockOf sb s'' (s.inode ip).inum (slotOf bn) = b :=
        (ha'.stays _ hin _ (by rw [ha.entered]; exact ha.inUse.1)).trans ha.entered
      constructor
      · intro hc
        obtain ⟨h1, h2⟩ := ha'.alone _ hin _ (hstill.trans hc.symm)
        rw [hnum] at h1
        exact ⟨(h.one ip k hip hk h1).symm, (slotOf_inj hbn (bmap_lt e') h2).symm⟩
      · intro ⟨h1, h2⟩
        rw [← ha'.entered, hnum, h1, h2]
        exact hstill

end

/-! ## The root directory and a link -/

theorem atRoot_cached {disk : Mem} {k : Nat} : Cached (atRoot disk).fs k ↔ k = 0 := by
  refine ⟨fun h => atRoot_ref h.1, fun e => ?_⟩
  rw [e]
  exact ⟨Int.one_pos, rfl⟩

theorem linkCycle_dinodeOf (i : Nat) : dinodeOf smallDisk (atRoot linkCycle).fs i =
    inodeOf smallDisk linkCycle i := by
  unfold dinodeOf
  split
  · rename_i k e
    have hk : Cached (atRoot linkCycle).fs k ∧ ((atRoot linkCycle).fs.inode k).inum = i := by
      simpa using List.find?_some e
    obtain rfl := atRoot_cached.mp hk.1
    rw [← hk.2]
    rfl
  · rfl

/-- Inode 1 has block 10 and inode 2 block 11. -/
theorem linkCycle_blockOf {i : Nat} (hi : i < 15) {p : Slot} (h0 : blockOf smallDisk (atRoot linkCycle).fs i p ≠ 0) :
    p = .addr 0 ∧ (i = 1 ∨ i = 2) ∧ blockOf smallDisk (atRoot linkCycle).fs i p = i + 9 := by
  have hrest : ∀ i < 15, ∀ j : Fin (NDIRECT + 2), j ≠ 0 → (inodeOf smallDisk linkCycle i).addrs j = 0 := by decide
  have hfirst : ∀ i < 15, (inodeOf smallDisk linkCycle i).addrs 0 = 0 ∨ (i = 1 ∨ i = 2) ∧
    (inodeOf smallDisk linkCycle i).addrs 0 = i + 9 := by decide
  have e : blockOf smallDisk (atRoot linkCycle).fs i p =
    if p = .addr 0 then (inodeOf smallDisk linkCycle i).addrs 0 else 0 := by
    unfold blockOf
    rw [linkCycle_dinodeOf]
    exact at_single (hrest i hi) p
  rw [e] at h0 ⊢
  split at h0
  · rename_i hp
    rw [if_pos hp]
    exact ⟨hp, (hfirst i hi).resolve_left h0⟩
  · exact absurd rfl h0

theorem atRoot_wellFormed : WellFormed smallDisk (atRoot linkCycle).fs := by
  have hused : used smallDisk linkCycle 10 = true ∧ used smallDisk linkCycle 11 = true := by decide
  refine ⟨?_, fun k hk => ?_, fun k k' hk hk' _ => (atRoot_cached.mp hk).trans (atRoot_cached.mp hk').symm,
    fun i hi p h0 => ?_, fun i hi j hj p q h0 e => ?_⟩
  · exact (by decide : ∀ c < 4, used smallDisk linkCycle c = true)
  · rw [atRoot_cached.mp hk]
    decide
  · obtain ⟨-, hi, e⟩ := linkCycle_blockOf hi h0
    rw [e]
    rcases hi with rfl | rfl
    · exact ⟨by decide, by decide, hused.1⟩
    · exact ⟨by decide, by decide, hused.2⟩
  · obtain ⟨hp, -, e1⟩ := linkCycle_blockOf hi h0
    obtain ⟨hq, -, e2⟩ := linkCycle_blockOf hj (by rw [← e]; exact h0)
    exact ⟨by omega, hp.trans hq.symm⟩

/-- The root directory gets a second block. -/
theorem bmap_is_block_map_root : ∃ b s', bmap smallDisk 0 1 (atRoot linkCycle).fs = .ok (b, s') ∧
    Answered smallDisk 0 1 b (atRoot linkCycle).fs s' := by
  have hrun : (bmap smallDisk 0 1 (atRoot linkCycle).fs).toOption.map (·.1) = some 8 := by decide +kernel
  have hip : Cached (atRoot linkCycle).fs 0 := atRoot_cached.mpr rfl
  rcases (bmap_is_block_map smallDisk_layout atRoot_wellFormed hip).2 (by decide : 1 < MAXFILE) with ⟨e, -⟩ |
    ⟨b, s', e, ha, -⟩
  · rw [e] at hrun
    cases hrun
  · exact ⟨b, s', e, ha⟩

end Xv6Labs.Fs.Disk
