/-
  Xv6Labs.Fs.Trunc — what itrunc gives back.

  For the blocks that the doubly-indirect block names, itrunc reads the entries through `bi`,
  which is 0 then, and the entries of each of them from the doubly-indirect block itself.

  - `itrunc_releases`: it returns, with all blocks of the inode free and nothing else changed,
    exactly when the inode has no doubly-indirect block.
  - `itrunc_faults`: an empty doubly-indirect block is enough for the fault.
-/

import Xv6Labs.Fs.Blocks

namespace Xv6Labs.Fs.Disk

open Lib

section

variable {sb : Superblock} {ip : Nat} {s s' s0 : St} {F : Slot → Prop}

/-! ## Blocks given back so far -/

/-- The blocks in the slots `F` of the inode of `s0` were freed, and the disk is otherwise that
    of `s0`. -/
structure Freed (sb : Superblock) (ip : Nat) (s0 s : St) (F : Slot → Prop) : Prop where
  bits : ∀ c, used sb s.disk c = true ↔ used sb s0.disk c = true ∧
    ¬ (c ≠ 0 ∧ ∃ p, F p ∧ (s0.inode ip).d.at s0.disk p = c)
  rest : ∀ x, x < sb.bmapstart * BSIZE ∨ dataStart sb * BSIZE ≤ x → s.disk x = s0.disk x

theorem Freed.start (s0 : St) : Freed sb ip s0 s0 fun _ => False := by
  refine ⟨fun c => ⟨fun h => ⟨h, fun hc => ?_⟩, fun h => h.1⟩, fun _ _ => rfl⟩
  obtain ⟨-, -, hf, -⟩ := hc
  exact hf

theorem Freed.congr {G : Slot → Prop} (h : Freed sb ip s0 s F)
    (hg : ∀ p, (s0.inode ip).d.at s0.disk p ≠ 0 → (F p ↔ G p)) : Freed sb ip s0 s G := by
  refine ⟨fun c => (h.bits c).trans (and_congr_right fun _ =>
    not_congr (and_congr_right fun hc => exists_congr fun p => ?_)), h.rest⟩
  exact and_congr_left fun e => hg p (by rw [e]; exact hc)

/-- A word of a data block. -/
theorem Freed.same_word (h : Freed sb ip s0 s F) {b j : Nat} (hb : dataStart sb ≤ b) :
    word s.disk b j = word s0.disk b j := by
  have hle := Nat.mul_le_mul_right BSIZE hb
  unfold Disk.word
  exact Mem.loadLE_agree fun x h1 _ => h.rest x (Or.inr (Nat.le_trans hle (Nat.le_trans (Nat.le_add_right _ _) h1)))

/-- Freeing the block in a slot whose block was not freed yet. -/
theorem Freed.free_one (h : Freed sb ip s0 s F) (hw : Whole sb s0.disk (s0.inode ip).d) {q : Slot}
    (hq : (s0.inode ip).d.at s0.disk q ≠ 0) (hn : ¬ F q) :
    ∃ s', bfree sb ((s0.inode ip).d.at s0.disk q) s = .ok s' ∧ s'.inode = s.inode ∧ Freed sb ip s0 s' fun p => F p ∨
      p = q := by
  obtain ⟨h1, h2, h3⟩ := hw.data q hq
  have hu : used sb s.disk ((s0.inode ip).d.at s0.disk q) = true := by
    refine (h.bits _).mpr ⟨h3, fun hc => ?_⟩
    obtain ⟨-, p, hp, e⟩ := hc
    exact hn (hw.apart q p hq e.symm ▸ hp)
  refine ⟨_, bfree_spec hu, rfl, fun c => ?_, fun x hx => ?_⟩
  · show used sb (clearBit _ _ _) c = true ↔ _
    rw [used_clearBit, Bool.and_eq_true, h.bits c, Bool.not_eq_true', decide_eq_false_iff_not, and_assoc]
    refine and_congr_right fun _ => ?_
    rw [← not_or]
    refine not_congr ?_
    constructor
    · intro hc
      rcases hc with ⟨h0, p, hp, e⟩ | e
      · exact ⟨h0, p, Or.inl hp, e⟩
      · exact ⟨e ▸ hq, q, Or.inr rfl, e⟩
    · intro hc
      obtain ⟨h0, p, hp | hp, e⟩ := hc
      · exact Or.inl ⟨h0, p, hp, e⟩
      · exact Or.inr (hp ▸ e)
  · have hb := byteOf_bounds h2
    exact (clearBit_ne (by omega)).trans (h.rest x hx)

/-! ## The loops -/

theorem truncEntries_spec (hw : Whole sb s0.disk (s0.inode ip).d) {b : Nat} (hb : dataStart sb ≤ b)
    (slot : Fin NINDIRECT → Slot)
    (hslot : ∀ j, (s0.inode ip).d.at s0.disk (slot j) = word s0.disk b j) (hinj : ∀ i j, slot i = slot j → i = j) :
    ∀ n j (s : St) F, j + n = NINDIRECT → Freed sb ip s0 s F → (∀ i, j ≤ i.val → ¬ F (slot i)) →
      ∃ s', truncEntries sb b n j s = .ok s' ∧ s'.inode = s.inode ∧ Freed sb ip s0 s' fun p => F p ∨ ∃ i, j ≤ i.val ∧
        p = slot i := by
  intro n
  induction n with
  | zero =>
    intro j s F hj h _
    refine ⟨s, rfl, rfl, h.congr fun p _ => ⟨Or.inl, fun hp => ?_⟩⟩
    rcases hp with hp | ⟨i, hi, -⟩
    · exact hp
    · have := i.isLt
      omega
  | succ n ih =>
    intro j s F hj h hF
    have hlt : j < NINDIRECT := by omega
    have hword := h.same_word (j := j) hb
    have hs := hslot ⟨j, hlt⟩
    dsimp only at hs
    -- the entries from `j` on are that at `j` and those after it
    have hsplit : ∀ p, (∃ i : Fin NINDIRECT, j ≤ i.val ∧ p = slot i) ↔ p = slot ⟨j, hlt⟩ ∨ ∃ i : Fin NINDIRECT,
      j + 1 ≤ i.val ∧ p = slot i := fun p => by
      constructor
      · intro hp
        obtain ⟨i, hi, e⟩ := hp
        by_cases hij : i.val = j
        · exact Or.inl (e.trans (congrArg slot (Fin.ext hij)))
        · exact Or.inr ⟨i, by omega, e⟩
      · intro hp
        rcases hp with e | ⟨i, hi, e⟩
        · exact ⟨⟨j, hlt⟩, Nat.le_refl _, e⟩
        · exact ⟨i, by omega, e⟩
    unfold truncEntries
    rw [hword, ← hs]
    by_cases hz : (s0.inode ip).d.at s0.disk (slot ⟨j, hlt⟩) = 0
    · rw [if_pos hz]
      obtain ⟨s', e, hi, h'⟩ := ih (j + 1) s F (by omega) h fun i hi => hF i (by omega)
      refine ⟨s', e, hi, h'.congr fun p hp => ?_⟩
      rw [hsplit p]
      refine or_congr_right ⟨Or.inr, fun hc => ?_⟩
      rcases hc with hc | hc
      · rw [hc] at hp
        exact absurd hz hp
      · exact hc
    · rw [if_neg hz]
      obtain ⟨s1, e1, hi1, h1⟩ := h.free_one hw hz (hF ⟨j, hlt⟩ (Nat.le_refl _))
      obtain ⟨s', e, hi, h'⟩ := ih (j + 1) s1 _ (by omega) h1 fun i hi hc => by
        rcases hc with hc | hc
        · exact hF i (by omega) hc
        · have := hinj _ _ hc
          rw [this] at hi
          exact absurd hi (Nat.not_succ_le_self j)
      refine ⟨s', by rw [e1, ok_bind]; exact e, hi.trans hi1, h'.congr fun p _ => ?_⟩
      rw [hsplit p, or_assoc]

/-- The table of `s0` but for the addresses of `ip`. -/
def Addrs (ip : Nat) (s0 s : St) (a : Fin (NDIRECT + 2) → Nat) : Prop :=
  s.inode = Function.update s0.inode ip { s0.inode ip with d := { (s0.inode ip).d with addrs := a } }

theorem Addrs.at {a : Fin (NDIRECT + 2) → Nat} (h : Addrs ip s0 s a) :
    s.inode ip = { s0.inode ip with d := { (s0.inode ip).d with addrs := a } } := by
  rw [h, Function.update_self]

theorem Addrs.clear {a : Fin (NDIRECT + 2) → Nat} (h : Addrs ip s0 s a) (i : Fin (NDIRECT + 2)) :
    Addrs ip s0 (clearAddr ip i s) (Function.update a i 0) := by
  unfold Addrs clearAddr St.setD St.setInode
  dsimp only
  rw [h.at, h, Function.update_idem]

/-- The direct blocks from `i` on. -/
def direct (i : Nat) (p : Slot) : Prop := ∃ j : Fin (NDIRECT + 2), i ≤ j.val ∧ j.val < NDIRECT ∧ p = .addr j

theorem truncDirect_spec (hw : Whole sb s0.disk (s0.inode ip).d) : ∀ n i (s : St) a F, i + n = NDIRECT →
    Freed sb ip s0 s F → Addrs ip s0 s a →
    (∀ j, i ≤ j.val → a j = (s0.inode ip).d.addrs j) → (∀ p, direct i p → ¬ F p) →
      ∃ s' a', truncDirect sb ip n i s = .ok s' ∧ Addrs ip s0 s' a' ∧ (Freed sb ip s0 s' fun p => F p ∨ direct i p) ∧
        ∀ j, a' j = if i ≤ j.val ∧ j.val < NDIRECT then 0 else a j := by
  intro n
  induction n with
  | zero =>
    intro i s a F hi h ha _ _
    refine ⟨s, a, rfl, ha, h.congr fun p _ => ⟨Or.inl, fun hp => ?_⟩, fun j => (if_neg (by omega)).symm⟩
    rcases hp with hp | ⟨j, h1, h2, -⟩
    · exact hp
    · omega
  | succ n ih =>
    intro i s a F hi h ha hsame hF
    have hlt : i < NDIRECT := by omega
    have hd : ∀ p, direct i p ↔ p = .addr ⟨i, by omega⟩ ∨ direct (i + 1) p := fun p => by
      constructor
      · intro hp
        obtain ⟨j, h1, h2, e⟩ := hp
        by_cases hij : j.val = i
        · exact Or.inl (e.trans (congrArg Slot.addr (Fin.ext hij)))
        · exact Or.inr ⟨j, by omega, h2, e⟩
      · intro hp
        rcases hp with e | ⟨j, h1, h2, e⟩
        · exact ⟨⟨i, by omega⟩, Nat.le_refl _, hlt, e⟩
        · exact ⟨j, by omega, h2, e⟩
    have hai : (s.inode ip).d.addrs ⟨i, by omega⟩ = (s0.inode ip).d.at s0.disk (.addr ⟨i, by omega⟩) := by
      rw [ha.at]
      exact hsame _ (Nat.le_refl _)
    unfold truncDirect
    rw [dif_pos hlt, hai]
    by_cases hz : (s0.inode ip).d.at s0.disk (.addr ⟨i, by omega⟩) = 0
    · rw [if_pos hz]
      obtain ⟨s', a', e, ha', h', hval⟩ := ih (i + 1) s a F (by omega) h ha (fun j hj => hsame j (by omega))
        fun p hp => hF p ((hd p).mpr (Or.inr hp))
      refine ⟨s', a', e, ha', h'.congr fun p hp => ?_, fun j => ?_⟩
      · rw [hd p]
        refine or_congr_right ⟨Or.inr, fun hc => ?_⟩
        rcases hc with hc | hc
        · rw [hc] at hp
          exact absurd hz hp
        · exact hc
      · rw [hval j]
        by_cases hij : j.val = i
        · have hj : a j = 0 := by
            rw [hsame j (by omega), show j = ⟨i, by omega⟩ from Fin.ext hij]
            exact hz
          rw [if_neg (by omega), if_pos (by omega), hj]
        · have : (i + 1 ≤ j.val ∧ j.val < NDIRECT) ↔ (i ≤ j.val ∧ j.val < NDIRECT) := by omega
          simp only [this]
    · rw [if_neg hz]
      obtain ⟨s1, e1, hi1, h1⟩ := h.free_one hw hz (hF _ ((hd _).mpr (Or.inl rfl)))
      have ha1 : Addrs ip s0 s1 a := by
        unfold Addrs
        rw [hi1]
        exact ha
      obtain ⟨s', a', e, ha', h', hval⟩ := ih (i + 1) (clearAddr ip ⟨i, by omega⟩ s1)
        (Function.update a ⟨i, by omega⟩ 0) _ (by omega) ⟨h1.bits, h1.rest⟩
        (ha1.clear _) (fun j hj => by
          rw [Function.update_of_ne fun e => by rw [e] at hj; exact Nat.not_succ_le_self i hj]
          exact hsame j (by omega))
        fun p hp hc => by
          rcases hc with hc | hc
          · exact hF p ((hd p).mpr (Or.inr hp)) hc
          · obtain ⟨j, h2, h3, e2⟩ := hp
            rw [hc] at e2
            have := congrArg (fun x => match x with | Slot.addr j => j.val | _ => 0) e2
            dsimp only at this
            omega
      refine ⟨s', a', by rw [e1, ok_bind]; exact e, ha', h'.congr fun p _ => by rw [hd p, or_assoc], fun j => ?_⟩
      rw [hval j]
      by_cases hij : j.val = i
      · rw [show j = ⟨i, by omega⟩ from Fin.ext hij, Function.update_self, ite_self, if_pos ⟨Nat.le_refl i, hlt⟩]
      · rw [Function.update_of_ne fun e => hij (by rw [e])]
        have : (i + 1 ≤ j.val ∧ j.val < NDIRECT) ↔ (i ≤ j.val ∧ j.val < NDIRECT) := by omega
        simp only [this]

/-! ## The indirect blocks -/

theorem at_ind {disk : Mem} {d : Dinode} (h : d.addrs 11 ≠ 0) (j : Fin NINDIRECT) :
    d.at disk (.ind j) = word disk (d.addrs 11) j := if_neg h

theorem truncIndirect_spec (hw : Whole sb s0.disk (s0.inode ip).d) {a : Fin (NDIRECT + 2) → Nat}
    (h : Freed sb ip s0 s (direct 0)) (ha : Addrs ip s0 s a) (h11 : a 11 = (s0.inode ip).d.addrs 11) :
    ∃ s' a', truncIndirect sb ip s = .ok s' ∧ Addrs ip s0 s' a' ∧
      (Freed sb ip s0 s' fun p => (direct 0 p ∨ ∃ j, p = .ind j) ∨ p = .addr 11) ∧
      a' = Function.update a 11 0 := by
  have hb : (s.inode ip).d.addrs 11 = (s0.inode ip).d.addrs 11 := by
    rw [ha.at]
    exact h11
  unfold truncIndirect
  dsimp only
  rw [hb]
  by_cases hz : (s0.inode ip).d.addrs 11 = 0
  · rw [if_pos hz]
    refine ⟨s, a, rfl, ha, h.congr fun p hp => ⟨fun hd => Or.inl (Or.inl hd), fun hd => ?_⟩, ?_⟩
    · rcases hd with (hd | ⟨j, e⟩) | e
      · exact hd
      · rw [e] at hp
        exact absurd (if_pos hz) hp
      · rw [e] at hp
        exact absurd hz hp
    · rw [← Function.update_eq_self 11 a, Function.update_idem, h11, hz]
  · rw [if_neg hz]
    have hnd : ∀ j : Fin NINDIRECT, ¬ direct 0 (.ind j) := fun j hd => by
      obtain ⟨k, -, -, e⟩ := hd
      cases e
    have hdata : dataStart sb ≤ (s0.inode ip).d.addrs 11 := (hw.data (.addr 11) hz).1
    obtain ⟨s1, e1, hi1, h1⟩ := truncEntries_spec hw hdata .ind (fun j => at_ind hz j)
      (fun i j e => Slot.ind.inj e) NINDIRECT 0 s _ (Nat.zero_add _) h
      fun i _ => hnd i
    obtain ⟨s2, e2, hi2, h2⟩ := h1.free_one hw (q := .addr 11) hz fun hc => by
      rcases hc with hc | ⟨i, -, e⟩
      · obtain ⟨k, -, hk, e⟩ := hc
        cases e
        exact absurd hk (by decide)
      · cases e
    have ha2 : Addrs ip s0 s2 a := by
      unfold Addrs
      rw [hi2, hi1]
      exact ha
    refine ⟨clearAddr ip 11 s2, _, ?_, ha2.clear 11, ⟨(h2.congr fun p _ => ?_).bits, h2.rest⟩, rfl⟩
    · rw [e1, ok_bind]
      show (bfree sb ((s0.inode ip).d.at s0.disk (.addr 11)) s1 >>= _) = _
      rw [e2, ok_bind]
    · refine or_congr_left (or_congr_right (exists_congr fun j => ?_))
      exact ⟨fun hj => hj.2, fun hj => ⟨Nat.zero_le _, hj⟩⟩

/-- With a doubly-indirect block there is a fault at the first entry. -/
theorem truncIndirect2_faults (h : (s.inode ip).d.addrs 12 ≠ 0) : truncIndirect2 sb ip s = .error "kerneltrap" := by
  unfold truncIndirect2
  dsimp only
  rw [if_neg h]
  rfl

/-! ## itrunc -/

/-- All blocks of the inode are free and nothing else changed, but for the inode itself. -/
structure Released (sb : Superblock) (ip : Nat) (s s' : St) : Prop where
  bits : ∀ c, used sb s'.disk c = true ↔ used sb s.disk c = true ∧ ¬ (s.inode ip).d.owns s.disk c
  inode : s'.inode = Function.update s.inode ip
    { s.inode ip with d := { (s.inode ip).d with size := 0, addrs := fun _ => 0 } }
  saved : loadDinode s'.disk (dinode sb (s.inode ip).inum) = { (s.inode ip).d with size := 0, addrs := fun _ => 0 }
  others : ∀ inum < sb.ninodes, inum ≠ (s.inode ip).inum →
    loadDinode s'.disk (dinode sb inum) = loadDinode s.disk (dinode sb inum)
  rest : ∀ x, x < sb.bmapstart * BSIZE ∨ dataStart sb * BSIZE ≤ x →
    x < dinode sb (s.inode ip).inum ∨ dinode sb (s.inode ip).inum + 64 ≤ x → s'.disk x = s.disk x

/-- Without a doubly-indirect block, blocks are in addrs or in the indirect block. -/
theorem slot_cases {disk : Mem} {d : Dinode} (h12 : d.addrs 12 = 0) {p : Slot} (hp : d.at disk p ≠ 0) :
    (direct 0 p ∨ ∃ j, p = .ind j) ∨ p = .addr 11 := by
  have hmid : ∀ i, entry disk (d.addrs 12) i = 0 := fun i => if_pos h12
  cases p with
  | addr i =>
    by_cases h : i.val < NDIRECT
    · exact Or.inl (Or.inl ⟨i, Nat.zero_le _, h, rfl⟩)
    · by_cases h11 : i = 11
      · exact Or.inr (congrArg Slot.addr h11)
      · have h2 : i = 12 := Fin.ext (by
          have := i.isLt
          have : i.val ≠ 11 := fun e => h11 (Fin.ext e)
          show i.val = 12
          simp only [NDIRECT] at *
          omega)
        rw [h2] at hp
        exact absurd h12 hp
  | ind j => exact Or.inl (Or.inr ⟨j, rfl⟩)
  | mid i => exact absurd (hmid i) hp
  | leaf i j => exact absurd (if_pos (hmid i)) hp

/-- itrunc of an inode without a doubly-indirect block. -/
theorem itrunc_spec (hl : Layout sb) (hw : Whole sb s.disk (s.inode ip).d) (hin : (s.inode ip).inum < sb.ninodes)
    (h12 : (s.inode ip).d.addrs 12 = 0) :
    ∃ s', itrunc sb ip s = .ok s' ∧ Released sb ip s s' := by
  have hstart : Addrs ip s s (s.inode ip).d.addrs := (Function.update_eq_self ip s.inode).symm
  obtain ⟨s1, a1, e1, ha1, h1, hv1⟩ := truncDirect_spec hw NDIRECT 0 s _ _ (Nat.zero_add _) (Freed.start s) hstart
    (fun _ _ => rfl) fun _ _ hf => hf
  have h1' := h1.congr (G := direct 0) fun p _ => ⟨fun hp => hp.resolve_left id, Or.inr⟩
  obtain ⟨s2, a2, e2, ha2, h2, rfl⟩ := truncIndirect_spec hw h1' ha1 (hv1 11)
  -- all addresses are zero now
  have hzero : Function.update a1 11 0 = fun _ => 0 := by
    funext j
    by_cases hj : j = 11
    · rw [hj, Function.update_self]
    · rw [Function.update_of_ne hj, hv1 j]
      split
      · rfl
      · have h12' : j = 12 := by
          have hlt := j.isLt
          have hne : j.val ≠ 11 := fun e => hj (Fin.ext e)
          refine Fin.ext ?_
          simp only [NDIRECT] at *
          show j.val = 12
          omega
        rw [h12']
        exact h12
  rw [hzero] at ha2
  have e3 : truncIndirect2 sb ip s2 = .ok s2 := by
    unfold truncIndirect2
    dsimp only
    rw [ha2.at, if_pos rfl]
  have hinode : (s2.setD ip { (s2.inode ip).d with size := 0 }).inode =
      Function.update s.inode ip { s.inode ip with d := { (s.inode ip).d with size := 0, addrs := fun _ => 0 } } := by
    unfold St.setD St.setInode
    dsimp only
    rw [ha2.at, ha2, Function.update_idem]
  have hself := congrFun hinode ip
  rw [Function.update_self] at hself
  have hbound := dinode_bound hl hin
  refine ⟨iupdate sb ip (s2.setD ip { (s2.inode ip).d with size := 0 }), ?_, ?_, hinode, ?_, ?_, ?_⟩
  · unfold itrunc
    rw [e1, ok_bind, e2, ok_bind, e3, ok_bind]
  · intro c
    -- the dinode lies before the bitmap
    have hbyte : ∀ d, used sb (storeDinode s2.disk (dinode sb (s.inode ip).inum) d) c = used sb s2.disk c := fun d =>
      used_congr (storeDinode_ne (Or.inr (Nat.le_trans hbound (Nat.le_add_right _ _))))
    show used sb (storeDinode s2.disk (dinode sb _) _) c = true ↔ _
    rw [hself, hbyte, h2.bits c]
    refine and_congr_right fun _ => not_congr (and_congr_right fun hc => exists_congr fun p => ?_)
    refine ⟨fun hp => hp.2, fun hp => ⟨?_, hp⟩⟩
    rw [← hp] at hc
    exact slot_cases h12 hc
  · show loadDinode (storeDinode s2.disk (dinode sb _) _) _ = _
    rw [hself]
    exact loadDinode_storeDinode ⟨Nat.two_pow_pos 32, fun _ => Nat.two_pow_pos 32⟩
  · intro inum hi hne
    show loadDinode (storeDinode s2.disk (dinode sb _) _) _ = _
    rw [hself]
    refine loadDinode_congr fun x h3 h4 => ?_
    have hb := dinode_bound hl hi
    dsimp only
    rw [storeDinode_ne (by rw [dinode_eq] at h3 h4 ⊢; omega)]
    exact h2.rest x (Or.inl (by omega))
  · intro x hx hne
    show storeDinode s2.disk (dinode sb _) _ x = _
    rw [hself, storeDinode_ne hne]
    exact h2.rest x hx

/-- itrunc does not return if there is a doubly-indirect block. -/
theorem itrunc_single (hw : Whole sb s.disk (s.inode ip).d) (e : itrunc sb ip s = .ok s') :
    (s.inode ip).d.addrs 12 = 0 := by
  by_contra h12
  have hstart : Addrs ip s s (s.inode ip).d.addrs := (Function.update_eq_self ip s.inode).symm
  obtain ⟨s1, a1, e1, ha1, h1, hv1⟩ := truncDirect_spec hw NDIRECT 0 s _ _ (Nat.zero_add _) (Freed.start s) hstart
    (fun _ _ => rfl) fun _ _ hf => hf
  have h1' := h1.congr (G := direct 0) fun p _ => ⟨fun hp => hp.resolve_left id, Or.inr⟩
  obtain ⟨s2, a2, e2, ha2, h2, rfl⟩ := truncIndirect_spec hw h1' ha1 (hv1 11)
  have h12' : (s2.inode ip).d.addrs 12 ≠ 0 := by
    rw [ha2.at]
    dsimp only
    rw [Function.update_of_ne (by decide), hv1 12]
    exact h12
  unfold itrunc at e
  rw [e1, ok_bind, e2, ok_bind, truncIndirect2_faults h12'] at e
  cases e

/-- itrunc of a well-formed inode returns with all its blocks free, and nothing else changed,
    exactly when it has no doubly-indirect block. -/
theorem itrunc_releases (hl : Layout sb) (hw : Whole sb s.disk (s.inode ip).d)
    (hin : (s.inode ip).inum < sb.ninodes) :
    (∃ s', itrunc sb ip s = .ok s' ∧ Released sb ip s s') ↔ (s.inode ip).d.addrs 12 = 0 := by
  constructor
  · rintro ⟨s', e, -⟩
    exact itrunc_single hw e
  · exact itrunc_spec hl hw hin

end

/-- Block 10 is in use, and all blocks are zero. -/
def oneUsed : Mem := fun x => if x = 3073 then 4 else 0

/-- A locked inode that has block 10 as address `i`. -/
def oneAddr (i : Fin (NDIRECT + 2)) : St :=
  ⟨oneUsed, [], fun _ => ⟨1, 2, 1, true, true, ⟨T_FILE, 0, 0, 1, 0, Function.update (fun _ => 0) i 10⟩⟩⟩

theorem oneUsed_word (j : Fin NINDIRECT) : word oneUsed 10 j = 0 := by
  refine Mem.loadLE_zero fun x h1 _ => if_neg ?_
  unfold BSIZE at h1
  omega

theorem oneAddr_at (i : Fin (NDIRECT + 2)) (p : Slot) :
    (((oneAddr i).inode 0).d.at (oneAddr i).disk p) = if p = .addr i then 10 else 0 := by
  have hentry : ∀ (k : Fin (NDIRECT + 2)) (j : Fin NINDIRECT), entry oneUsed (Function.update (fun _ => 0) i 10 k) j =
    0 := fun k j => by
    unfold entry
    split
    · rfl
    · rename_i h
      by_cases hk : k = i
      · rw [hk, Function.update_self]
        exact oneUsed_word j
      · rw [Function.update_of_ne hk] at h
        exact absurd rfl h
  cases p with
  | addr k =>
    show Function.update (fun _ => 0) i 10 k = _
    by_cases hk : k = i
    · subst hk
      rw [if_pos rfl, Function.update_self]
    · rw [if_neg fun e => hk (Slot.addr.inj e), Function.update_of_ne hk]
  | ind j => exact hentry 11 j
  | mid j => exact hentry 12 j
  | leaf j k =>
    show entry oneUsed (entry oneUsed (Function.update (fun _ => 0) i 10 12) j) k = 0
    rw [hentry 12 j]
    rfl

theorem oneAddr_whole (i : Fin (NDIRECT + 2)) : Whole smallDisk (oneAddr i).disk ((oneAddr i).inode 0).d := by
  have hp : ∀ p, ((oneAddr i).inode 0).d.at (oneAddr i).disk p ≠ 0 → p = .addr i := fun p h => by
    by_contra hn
    rw [oneAddr_at, if_neg hn] at h
    exact h rfl
  refine ⟨fun p h => ?_, fun p q h e => ?_⟩
  · rw [oneAddr_at, if_pos (hp p h)]
    exact ⟨by decide, by decide, (by decide : used smallDisk oneUsed 10 = true)⟩
  · rw [hp p h, hp q (e ▸ h)]

/-- An inode with an indirect block that is empty. -/
theorem itrunc_releases_indirect : ∃ s', itrunc smallDisk 0 (oneAddr 11) = .ok s' ∧
    Released smallDisk 0 (oneAddr 11) s' :=
  (itrunc_releases smallDisk_layout (oneAddr_whole 11) (by decide)).mpr rfl

/-- With an empty doubly-indirect block itrunc faults. -/
theorem itrunc_faults : ¬ ∀ (sb : Superblock) (ip : Nat) (s : St), Layout sb → Whole sb s.disk (s.inode ip).d →
    (s.inode ip).inum < sb.ninodes →
    ∃ s', itrunc sb ip s = .ok s' ∧ Released sb ip s s' := by
  intro h
  obtain ⟨s', e, -⟩ := h smallDisk 0 (oneAddr 12) smallDisk_layout (oneAddr_whole 12) (by decide)
  have hrun : (itrunc smallDisk 0 (oneAddr 12)).toOption.isSome = false := by decide +kernel
  rw [e] at hrun
  cases hrun

end Xv6Labs.Fs.Disk
