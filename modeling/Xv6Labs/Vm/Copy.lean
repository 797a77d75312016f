/-
  Xv6Labs.Vm.Copy — the eager `uvmcopy` of the pagetables and mmap labs.

  `uvmcopy_spec`: into a table with nothing mapped in the range, uvmcopy panics only at a
  parent page it cannot pass (no table for it, or an invalid entry where those are not
  skipped) or, out of memory, in the uvmunmap that takes the copy back; otherwise it copies
  exactly the mapped pages with their flags and bytes, or leaves the child as it was.
-/

import Xv6Labs.Vm.Free

namespace Xv6Labs.Vm

open Lib

variable {κ : Type} {A : Lab κ} {H : AllocSpec A} {B : Nat → Prop} {s s' s0 : Mach κ} {live : List Nat}
    {k k' k0 : Nat → Kind}
  {old new : Nat}

/-- The pages below `c` that `old` maps. -/
def Below (m : Mem) (old c : Nat) (v : Nat) : Prop := v < c ∧ (lookup m old v).isSome = true

/-- The copy's flags and bytes. -/
def copyPerm (m : Mem) (old v : Nat) : Nat := PTE_FLAGS (leaf m old v)
def copyByte (m : Mem) (old va : Nat) : UInt8 := (byteAt m old va).getD 0

/-- uvmunmap of the first `c` pages of the copy gets past every hole: the 2 MiB region of
    the hole has a table in the child. -/
def RollsBack (A : Lab κ) (m : Mem) (old new c : Nat) : Prop :=
  ∀ v < c, (lookup m old v).isSome = true ∨
    A.skips = true ∧ ((∃ u < c, u / 512 = v / 512 ∧ (lookup m old u).isSome = true) ∨
      (slotFrom m v 2 new).isSome = true)

theorem flags_small (w : Nat) : PTE_FLAGS w < 1024 := Nat.mod_lt _ (by decide)

theorem flags_or_v {w : Nat} (h : vbit w = true) : PTE_FLAGS w ||| PTE_V = PTE_FLAGS w := by
  apply Nat.eq_of_testBit_eq
  intro i
  rw [Nat.testBit_or]
  cases i with
  | zero =>
    have : (PTE_FLAGS w).testBit 0 = true := by unfold PTE_FLAGS; rw [testBit_mod (by decide)]; exact h
    rw [this]; rfl
  | succ i => simp [PTE_V, Nat.testBit_succ]

theorem uvmunmap_zero (t c : Nat) (s : Mach κ) (hc : c ≤ MAXVA / 4096) :
    uvmunmap A t 0 c true s = unmapLoop A t true c 0 s := by
  unfold MAXVA at hc
  unfold uvmunmap
  rw [if_neg (by decide)]
  congr 1
  unfold PGSIZE u64
  omega

/-- Taking back a copy of the first `c` pages. -/
theorem Grown.rollback {c : Nat}
    (g : Grown B live s0 k0 new (Below s0.mem old c) (copyPerm s0.mem old) (copyByte s0.mem old) s k)
    (h0 : VmInv H B s0 live k0) (h : VmInv H B s live k) (hnew : new ∈ live) (hc : c ≤ MAXVA / 4096)
    (hempty : ∀ v < c, Vm.lookup s0.mem new v = none) :
    (∃ s' k', uvmunmap A new 0 c true s = .ok s' ∧ VmInv H B s' live k' ∧ Kept live s0 k0 s' k' ∧
        H.fails s'.kmem = H.fails s.kmem) ∨
      (¬ RollsBack A s0.mem old new c) ∧ ∃ e, uvmunmap A new 0 c true s = .error e := by
  have hr : ∀ v, InRange (0 / 4096) c v ↔ v < c := fun v => by unfold InRange; omega
  have hown : OwnRange B s.mem new (0 / 4096) c := fun v hv hi w hw => by
    by_cases hb : Below s0.mem old c v
    · obtain ⟨p, hp, hb', e⟩ := g.here v hb
      rw [e] at hw
      rw [← Option.some.inj hw, pte2pa_mkpte hp (g.small v hb)]
      exact hb'
    · rw [g.lookup new hnew v hv (fun e => hb e.2), hempty v ((hr v).mp hi)] at hw
      cases hw
  rw [uvmunmap_zero new c s hc]
  rcases unmapLoop_spec hnew c 0 s k rfl h hown with ⟨-, s', k', e, h', hcl, hf⟩ | ⟨⟨i, hi, hn⟩, he⟩
  · refine Or.inl ⟨s', k', e, h', ?_, hf⟩
    exact g.cleared hcl (fun v hv => (hr v).mpr hv.1) (fun v _ hi => hempty v ((hr v).mp hi))
  · refine Or.inr ⟨fun hroll => hn ?_, he⟩
    rw [Nat.zero_div, Nat.zero_add]
    have hv : i < VPN := by unfold MAXVA at hc; unfold VPN; omega
    refine ⟨by omega, ?_⟩
    rcases hroll i hi with hm | ⟨hs, hm⟩
    · obtain ⟨p, -, -, e⟩ := g.here i ⟨hi, hm⟩
      exact Or.inl (by rw [e]; rfl)
    · refine Or.inr ⟨hs, (h.tab.slot_isSome hnew hv).mpr ?_⟩
      rcases hm with ⟨u, hu, he, hm⟩ | hm
      · -- a page of the same region was copied
        obtain ⟨p, -, -, e⟩ := g.here u ⟨hu, hm⟩
        obtain ⟨q, hq, -, -⟩ := h.tab.leaf_valid hnew
          (Nat.lt_trans hu (by unfold MAXVA at hc; unfold VPN; omega : c < VPN))
          (by rw [(lookup_some.mp e).1]; exact (lookup_some.mp e).2)
        exact ⟨q, by rw [← he]; exact hq⟩
      · obtain ⟨q, hq⟩ := (h0.tab.slot_isSome hnew hv).mp hm
        exact ⟨q, g.node new hnew q 0 _ hq⟩

/-- How uvmcopy's loop ends when it has `n` pages to go from page `c` on: copied, taken
    back, or a panic. -/
def Copies (H : AllocSpec A) (B : Nat → Prop) (live : List Nat) (s0 : Mach κ) (k0 : Nat → Kind) (old new n c : Nat)
    (s : Mach κ) : Prop :=
  (∃ s' k', uvmcopyLoop A old new n (c * 4096) s = .ok (0, s') ∧ VmInv H B s' live k' ∧
      Grown B live s0 k0 new (Below s0.mem old (c + n)) (copyPerm s0.mem old) (copyByte s0.mem old) s' k' ∧
      H.fails s'.kmem = H.fails s.kmem ∧
      ∀ i < n, c + i < MAXVA / 4096 ∧ ((lookup s0.mem old (c + i)).isSome = true ∨ A.skips = true)) ∨
    (∃ s' k', uvmcopyLoop A old new n (c * 4096) s = .ok (-1, s') ∧ VmInv H B s' live k' ∧ Kept live s0 k0 s' k' ∧
      H.fails s.kmem < H.fails s'.kmem) ∨
    ((∃ i < n, ¬ CanUnmap A s0.mem old (c + i) ∨
        ((lookup s0.mem old (c + i)).isSome = true ∧ ¬ RollsBack A s0.mem old new (c + i))) ∧
      ∃ e, uvmcopyLoop A old new n (c * 4096) s = .error e)

/-- One page dealt with. -/
theorem Copies.step {n c : Nat} {s1 : Mach κ}
    (hcan : c < MAXVA / 4096 ∧ ((lookup s0.mem old c).isSome = true ∨ A.skips = true))
    (hf : H.fails s1.kmem = H.fails s.kmem)
    (hrun : uvmcopyLoop A old new (n + 1) (c * 4096) s = uvmcopyLoop A old new n ((c + 1) * 4096) s1)
    (h : Copies H B live s0 k0 old new n (c + 1) s1) : Copies H B live s0 k0 old new (n + 1) c s := by
  have hshift : ∀ i, c + 1 + i = c + (i + 1) := fun i => by omega
  unfold Copies
  rw [hrun]
  rcases h with ⟨s', k', e', h', g', hf', hall⟩ | ⟨s', k', e', h', kp, hf'⟩ | ⟨⟨i, hi, hb⟩, he⟩
  · refine Or.inl ⟨s', k', e', h', by rw [← hshift]; exact g', by omega, fun i hi => ?_⟩
    cases i with
    | zero => exact hcan
    | succ i => rw [← hshift]; exact hall i (by omega)
  · exact Or.inr (Or.inl ⟨s', k', e', h', kp, by omega⟩)
  · exact Or.inr (Or.inr ⟨⟨i + 1, by omega, by rw [← hshift]; exact hb⟩, he⟩)

theorem below_succ_none {m : Mem} {c : Nat} (h : lookup m old c = none) : Below m old (c + 1) = Below m old c := by
  funext v
  refine propext ⟨fun hb => ⟨?_, hb.2⟩, fun hb => ⟨by have := hb.1; omega, hb.2⟩⟩
  have : v ≠ c := by rintro rfl; have := hb.2; rw [h] at this; cases this
  have := hb.1
  omega

theorem below_succ_some {m : Mem} {c w : Nat} (h : lookup m old c = some w) (v : Nat) :
    Below m old (c + 1) v ↔ Below m old c v ∨ v = c := by
  constructor
  · intro hb
    by_cases e : v = c
    · exact Or.inr e
    · exact Or.inl ⟨by have := hb.1; omega, hb.2⟩
  · rintro (hb | rfl)
    · exact ⟨by have := hb.1; omega, hb.2⟩
    · exact ⟨by omega, by rw [h]; rfl⟩

/-- A page that `old` does not map. -/
theorem uvmcopyLoop_hole (new n : Nat) {c : Nat} (hva : c * 4096 < MAXVA) (hl : lookup s.mem old c = none) :
    (A.skips = true ∧ (slotFrom s.mem c 2 old).isSome = true ∧
        uvmcopyLoop A old new (n + 1) (c * 4096) s = uvmcopyLoop A old new n ((c + 1) * 4096) s) ∨
      (¬ (A.skips = true ∧ (slotFrom s.mem c 2 old).isSome = true)) ∧
        ∃ e, uvmcopyLoop A old new (n + 1) (c * 4096) s = .error e := by
  have hpage : c * 4096 / 4096 = c := by omega
  have hnext : c * 4096 + PGSIZE = (c + 1) * 4096 := by unfold PGSIZE; omega
  have hwalk : walk A old (c * 4096) false s = .ok (slotFrom s.mem c 2 old, s) := by rw [walk_false hva, hpage]
  have hz : leaf s.mem old c &&& PTE_V = 0 := by
    apply Classical.byContradiction; intro e
    have := (vbit_eq _).mp e
    rw [lookup_none.mp hl] at this; cases this
  rw [← hnext]
  cases hs : slotFrom s.mem c 2 old with
  | none =>
    refine Or.inr ⟨by simp, "uvmcopy: pte should exist", ?_⟩
    rw [uvmcopyLoop, hwalk, hs]
    rfl
  | some a =>
    have ha : s.mem.loadLE a 8 = leaf s.mem old c := by rw [leaf, hs]; rfl
    have hrun : uvmcopyLoop A old new (n + 1) (c * 4096) s =
        if A.skips then uvmcopyLoop A old new n (c * 4096 + PGSIZE) s else .error "uvmcopy: page not present" := by
      rw [uvmcopyLoop, hwalk, hs]
      show (if s.mem.loadLE a 8 &&& PTE_V = 0 then _ else _) = _
      rw [ha, if_pos hz]
    rw [hrun]
    by_cases hk : A.skips = true
    · exact Or.inl ⟨hk, rfl, if_pos hk⟩
    · exact Or.inr ⟨by simp [hk], _, if_neg hk⟩

/-- A page that `old` maps, with memory for the copy. -/
theorem uvmcopyLoop_page {n i a w p : Nat} {s1 s2 : Mach κ} {r : Int} (hwalk : walk A old i false s = .ok (some a, s))
    (ha : s.mem.loadLE a 8 = w) (hw : vbit w = true) (hk : A.kalloc s = (some p, s1))
    (hm : mappages A new i PGSIZE p (PTE_FLAGS w) { s1 with mem := s1.mem.move p (PTE2PA w) PGSIZE } = .ok (r, s2)) :
    uvmcopyLoop A old new (n + 1) i s =
      if r ≠ 0 then (A.kfree p s2).bind fun s => (uvmunmap A new 0 (i / PGSIZE) true s).map fun s => (-1, s)
      else uvmcopyLoop A old new n (i + PGSIZE) s2 := by
  have hv : ¬ (w &&& PTE_V = 0) := (vbit_eq w).mpr hw
  rw [uvmcopyLoop, hwalk]
  show (if s.mem.loadLE a 8 &&& PTE_V = 0 then _ else _) = _
  rw [ha, if_neg hv, hk]
  show (mappages A new i PGSIZE p (PTE_FLAGS w) { s1 with mem := s1.mem.move p (PTE2PA w) PGSIZE } >>= _) = _
  rw [hm]
  rfl

/-- Without memory for the copy. -/
theorem uvmcopyLoop_full {n i a w : Nat} {s1 : Mach κ} (hwalk : walk A old i false s = .ok (some a, s))
    (ha : s.mem.loadLE a 8 = w) (hw : vbit w = true) (hk : A.kalloc s = (none, s1)) :
    uvmcopyLoop A old new (n + 1) i s = (uvmunmap A new 0 (i / PGSIZE) true s1).map fun s => (-1, s) := by
  have hv : ¬ (w &&& PTE_V = 0) := (vbit_eq w).mpr hw
  rw [uvmcopyLoop, hwalk]
  show (if s.mem.loadLE a 8 &&& PTE_V = 0 then _ else _) = _
  rw [ha, if_neg hv, hk]
  rfl

theorem move_off (m : Mem) {p : Nat} (src : Nat) (hp : p % 4096 = 0) (x : Nat) (hx : pageOf x ≠ p) :
    m.move p src PGSIZE x = m x := by
  have := pageOf_mem hp hx
  exact Mem.agree_move (b := x) (n := 1) m src (by unfold PGSIZE; omega) x (Nat.le_refl _) (by omega)

/-- uvmcopy's loop. -/
theorem uvmcopyLoop_spec (h0 : VmInv H B s0 live k0) (hold : old ∈ live) (hnew : new ∈ live) (hne : old ≠ new) :
    ∀ n c (s : Mach κ) k,
    Grown B live s0 k0 new (Below s0.mem old c) (copyPerm s0.mem old) (copyByte s0.mem old) s k → VmInv H B s live k →
    c ≤ MAXVA / 4096 → (∀ v < c + n, v < VPN → lookup s0.mem new v = none) → Copies H B live s0 k0 old new n c s := by
  intro n
  induction n with
  | zero =>
    intro c s k g h _ _
    exact Or.inl ⟨s, k, rfl, h, by rw [Nat.add_zero]; exact g, rfl, fun i hi => by omega⟩
  | succ n ih =>
    intro c s k g h hc hempty
    have hpage : c * 4096 / 4096 = c := by omega
    have hnext : c * 4096 + PGSIZE = (c + 1) * 4096 := by unfold PGSIZE; omega
    by_cases hva : c * 4096 < MAXVA
    · have hcm : c < MAXVA / 4096 := by unfold MAXVA at hva ⊢; omega
      have hv : c < VPN := hpage ▸ vpn_of_lt hva
      have hlk : lookup s.mem old c = lookup s0.mem old c := g.lookup old hold c hv (fun e => hne e.1)
      have hrest : ∀ v < c + 1 + n, v < VPN → lookup s0.mem new v = none := fun v hv' => hempty v (by omega)
      cases hl : lookup s0.mem old c with
      | none =>
        have hcan : CanUnmap A s0.mem old c ↔ A.skips = true ∧ (slotFrom s0.mem c 2 old).isSome = true := by
          unfold CanUnmap; simp [hcm, hl]
        rcases uvmcopyLoop_hole (A := A) new n hva (hlk.trans hl) with ⟨hs, hi, hrun⟩ | ⟨hn, he⟩
        · exact .step ⟨hcm, Or.inr hs⟩ rfl hrun (ih (c + 1) s k (by rw [below_succ_none hl]; exact g) h hcm hrest)
        · refine Or.inr (Or.inr ⟨⟨0, by omega, Or.inl fun hc' => hn ⟨(hcan.mp hc').1, ?_⟩⟩, he⟩)
          obtain ⟨q, hq⟩ := (h0.tab.slot_isSome hold hv).mp (hcan.mp hc').2
          exact (h.tab.slot_isSome hold hv).mpr ⟨q, g.node old hold q 0 _ hq⟩
      | some w =>
        obtain ⟨hleaf, hw⟩ := lookup_some.mp (hlk.trans hl)
        obtain ⟨a, -, hs, ha⟩ := h.tab.slot_valid hold hv (by rw [hleaf]; exact hw)
        rw [hleaf] at ha
        have hwalk : walk A old (c * 4096) false s = .ok (some (a + 8 * (c % 512)), s) := by
          rw [walk_false hva, hpage, hs]
        have hci : c * 4096 / PGSIZE = c := hpage
        have hnc : ¬ Below s0.mem old c c := fun hb => by have := hb.1; omega
        have hn : lookup s.mem new c = none := by
          rw [g.lookup new hnew c hv (fun e => hnc e.2)]; exact hempty c (by omega) hv
        have hbelow : ∀ v < c, lookup s0.mem new v = none := fun v hv' => hempty v (by omega) (by omega)
        -- out of memory: what was copied so far is taken back
        have back : ∀ s1 k1, VmInv H B s1 live k1 → Kept live s k s1 k1 → H.fails s.kmem < H.fails s1.kmem →
            uvmcopyLoop A old new (n + 1) (c * 4096) s = (uvmunmap A new 0 c true s1).map (fun s => (-1, s)) →
            Copies H B live s0 k0 old new (n + 1) c s := by
          intro s1 k1 h1 kp hf1 hrun
          rcases (g.kept hnew kp).rollback h0 h1 hnew hc hbelow with ⟨s', k', e', h', kp', hf'⟩ | ⟨hb, e, he⟩
          · exact Or.inr (Or.inl ⟨s', k', by rw [hrun, e']; rfl, h', kp', by omega⟩)
          · exact Or.inr (Or.inr ⟨⟨0, by omega, Or.inr ⟨by rw [Nat.add_zero, hl]; rfl, hb⟩⟩,
              e, by rw [hrun, he]; rfl⟩)
        rcases hk : A.kalloc s with ⟨_ | p, s1⟩
        · obtain ⟨h1, -, -, hf1⟩ := h.kalloc_none hk
          refine back s1 k h1 (kept_kalloc_none h hk) (by omega) ?_
          rw [uvmcopyLoop_full hwalk ha hw hk, hci]
        · obtain ⟨hfree, hp, -, -⟩ := h.kalloc_some hk
          obtain ⟨_, _, _, hd, hfl⟩ := h.tab.leaf_valid hold hv (by rw [hleaf]; exact hw)
          rw [hleaf] at hd hfl
          have hpne : PTE2PA w ≠ p := fun e => by
            rw [e] at hd
            rcases hd with e' | e'
            · rw [hfree] at e'; cases e'
            · exact h.not_lent hfree e'
          rcases kalloc_map h hnew (by omega : c * 4096 % 4096 = 0) hva (by rw [hpage]; exact hn) (flags_small w)
              (by rw [flags_or_v hw]; exact hfl) hk (move_off s1.mem (PTE2PA w) hp.1) with
            ⟨s2, s3, k3, e2, e3, h3, kp, hf⟩ | ⟨s2, k2, e2, h2, fl, hf⟩
          · refine back s3 k3 h3 kp (by omega) ?_
            rw [uvmcopyLoop_page hwalk ha hw hk e2, if_pos (by decide), e3, hci]
            rfl
          · rw [hpage] at fl
            have hrun : uvmcopyLoop A old new (n + 1) (c * 4096) s = uvmcopyLoop A old new n ((c + 1) * 4096) s2 := by
              rw [uvmcopyLoop_page hwalk ha hw hk e2, if_neg (by decide), hnext]
            refine .step ⟨hcm, Or.inl (by rw [hl]; rfl)⟩ (by omega) hrun (ih (c + 1) s2 k2 ?_ h2 hcm hrest)
            refine g.filled hnew fl hcm hn hnc (below_succ_some hl) ?_ (flags_small w) (fun va hva' => ?_)
            · rw [copyPerm, (lookup_some.mp hl).1]
            · have hbyte := g.byteAt old hold va (by rw [hva']; exact hv) (fun e => hne e.1)
              have hsame : s1.mem (PTE2PA w + va % 4096) = s.mem (PTE2PA w + va % 4096) := by
                rw [(H.kalloc_some h.alloc hk).2.2.1]
                exact set_off s.mem 5 hp.1 _
                  (by rw [pageOf_add (pte2pa_mod _) (Nat.mod_lt _ (by decide))]; exact hpne)
              rw [copyByte, ← hbyte, byteAt, hva', hlk.trans hl]
              show s1.mem.move p (PTE2PA w) PGSIZE (p + va % 4096) = s.mem (PTE2PA w + va % 4096)
              rw [Mem.move_in _ _ (by omega) (by unfold PGSIZE; omega), Nat.add_sub_cancel_left, hsame]
    · refine Or.inr (Or.inr ⟨⟨0, by omega, Or.inl fun hcan => ?_⟩, "walk", ?_⟩)
      · have := hcan.1
        unfold MAXVA at hva this; omega
      · simp only [uvmcopyLoop, walk, if_pos (by omega : c * 4096 ≥ MAXVA), bind, Except.bind]

/-- `uvmcopy` into a table with nothing mapped in the range. -/
theorem uvmcopy_spec (h : VmInv H B s live k) (hold : old ∈ live) (hnew : new ∈ live) (hne : old ≠ new) (sz : Nat)
    (hempty : ∀ v < (sz + PGSIZE - 1) / PGSIZE, v < VPN → lookup s.mem new v = none) :
    Copies H B live s k old new ((sz + PGSIZE - 1) / PGSIZE) 0 s :=
  uvmcopyLoop_spec h hold hnew hne _ 0 s k (.refl B live s k new (fun v hv => by have := hv.1; omega) _ _) h
    (Nat.zero_le _)
    (fun v hv => hempty v (by omega))

end Xv6Labs.Vm
