/-
  Xv6Labs.Vm.Grow — `mappages` of one held page, `uvmdealloc`, `uvmalloc`, `uvmcreate`.

  - `mappages_held`: a page the kernel holds, entered at an unmapped virtual page, becomes
    that virtual page's contents; at a mapped one mappages panics; without memory for the
    tables it answers -1 and only table pages were added.
  - `uvmallocLoop_spec`: growing maps zeroed pages over exactly the range, or panics at a
    page that cannot be mapped, or fails and takes back what it had mapped.
  - `uvmcreate_spec`: an empty table.
-/

import Xv6Labs.Vm.Unmap

namespace Xv6Labs.Vm

open Lib

variable {κ : Type} {A : Lab κ} {H : AllocSpec A} {B : Nat → Prop} {s s' : Mach κ} {live : List Nat}
    {k k' : Nat → Kind}

/-! ## mappages of a held page -/

/-- `p` was entered at virtual page `v` of table `t` with flags `perm`. -/
structure Mapped (live : List Nat) (s : Mach κ) (k : Nat → Kind) (t v p perm : Nat) (s' : Mach κ)
    (k' : Nat → Kind) : Prop where
  leaf : ∀ t' ∈ live, ∀ v' < VPN, leaf s'.mem t' v' = if t' = t ∧ v' = v then mkpte p perm else Vm.leaf s.mem t' v'
  here : k' p = .data v
  kind : ∀ r, k r ≠ .free → r ≠ p → k' r = k r
  new : ∀ r, k r = .free → k' r = .free ∨ ∃ t l i, k' r = .node t l i
  bytes : ∀ x, (k (pageOf x)).plain = true → s'.mem x = s.mem x

theorem Mapped.lookup {t v p perm : Nat} (hm : Mapped live s k t v p perm s' k') (hperm : perm < 1024) {t' v' : Nat}
    (ht' : t' ∈ live) (hv' : v' < VPN) :
    lookup s'.mem t' v' = if t' = t ∧ v' = v then some (mkpte p perm) else Vm.lookup s.mem t' v' := by
  unfold Vm.lookup
  rw [hm.leaf t' ht' v' hv']
  split
  · rw [if_pos (vbit_mkpte hperm)]
  · rfl

theorem Mapped.byteAt {t v p perm : Nat} (hm : Mapped live s k t v p perm s' k') (h : VmInv H B s live k)
    (hp : IsPage p) (hk : k p = .held) (hperm : perm < 1024) {t' va : Nat} (ht' : t' ∈ live) (hva : va / 4096 < VPN) :
    byteAt s'.mem t' va = if t' = t ∧ va / 4096 = v then some (s.mem (p + va % 4096)) else byteAt s.mem t' va := by
  have hl := hm.lookup hperm ht' hva
  split
  · rename_i e
    rw [if_pos e] at hl
    unfold Vm.byteAt
    rw [hl, Option.map_some, pte2pa_mkpte hp hperm,
      hm.bytes _ (by rw [pageOf_add hp.1 (Nat.mod_lt _ (by decide)), hk]; rfl)]
  · rename_i e
    rw [if_neg e] at hl
    refine h.tab.byteAt_same ht' hva hl (fun x hx => hm.bytes x ?_)
    rcases hx with e | e
    · rw [e]; rfl
    · rcases h.tab.lent _ e with e | e <;> rw [e] <;> rfl

theorem mappages_past {t va pa perm : Nat} (hal : va % 4096 = 0) (hva : MAXVA ≤ va) :
    mappages A t va PGSIZE pa perm s = .error "walk" := by
  have e1 : PGROUNDDOWN va = va := by unfold PGROUNDDOWN PGSIZE; omega
  have hone : mapOne A t va pa perm s = .error "walk" := by simp only [mapOne, walk, if_pos hva, bind, Except.bind]
  have hloop : ∀ n, mappagesLoop A t perm n va pa s = .error "walk" := by
    intro n; cases n <;> simp only [mappagesLoop, hone, bind, Except.bind]
  simp only [mappages, e1]
  rw [if_neg (by decide)]
  exact hloop _

theorem mappages_remap (h : VmInv H B s live k) {t va pa perm : Nat} (ht : t ∈ live) (hal : va % 4096 = 0)
    (hva : va < MAXVA)
    (hw : vbit (leaf s.mem t (va / 4096)) = true) : mappages A t va PGSIZE pa perm s = .error "mappages: remap" := by
  rw [mappages_page hal hva, mapOne_remap h ht hva hw]; rfl

theorem mappages_held (h : VmInv H B s live k) {t va p perm : Nat} (ht : t ∈ live) (hal : va % 4096 = 0)
    (hva : va < MAXVA)
    (hw : vbit (leaf s.mem t (va / 4096)) = false) (hp : k p = .held) (hb : ¬ B p) (hperm : perm < 1024)
    (hflag : perm ||| PTE_V ≠ PTE_V) :
    (∃ s1 k1, mappages A t va PGSIZE p perm s = .ok (-1, s1) ∧ VmInv H B s1 live k1 ∧ Grows live s k s1 k1 ∧
        H.fails s1.kmem = H.fails s.kmem + 1) ∨
      ∃ s2 k2, mappages A t va PGSIZE p perm s = .ok (0, s2) ∧ VmInv H B s2 live k2 ∧
        Mapped live s k t (va / 4096) p perm s2 k2 ∧ H.fails s2.kmem = H.fails s.kmem := by
  have hv := vpn_of_lt hva
  rw [mappages_page hal hva]
  obtain ⟨s1, k1, h1, g1, ⟨e, hf⟩ | ⟨q, hq, hf, e⟩⟩ := mapOne_ok h p perm ht hva hw
  · exact Or.inl ⟨s1, k1, by rw [e]; rfl, h1, g1.toGrows, hf⟩
  · have hp1 : k1 p = .held := by rw [g1.kind p (by rw [hp]; simp), hp]
    obtain ⟨h2, lf⟩ := h1.mapHeld ht hv hq (by rw [g1.leaf t ht _ hv]; exact hw) hp1 hb hperm hflag
    refine Or.inr ⟨_, _, by rw [e]; rfl, h2,
      ⟨fun t' ht' v' hv' => ?_, Function.update_self .., fun r hr hne => ?_, fun r hr => ?_,
      fun x hx => ?_⟩, hf⟩
    · rw [lf t' ht' v' hv', g1.leaf t' ht' v' hv']
    · rw [Function.update_of_ne hne, g1.kind r hr]
    · rw [Function.update_of_ne (by rintro rfl; rw [hp] at hr; cases hr)]
      exact g1.new r hr
    · have hqi := h1.tab.nodePage hq
      have hne : pageOf x ≠ q := by
        intro e
        have : k1 (pageOf x) = k (pageOf x) := g1.kind _ (by intro e; rw [e] at hx; cases hx)
        rw [e, hq] at this
        rw [e, ← this] at hx; cases hx
      have := pageOf_mem hqi.1 hne
      show s1.mem.storeLE (q + 8 * (va / 4096 % 512)) 8 (mkpte p perm) x = s.mem x
      rw [Mem.storeLE_ne (by omega)]
      exact g1.bytes x hx

/-- With its table there, mappages of one page needs no memory. -/
theorem mappages_slot {t va pa perm a : Nat} {r : Int} (hal : va % 4096 = 0) (hva : va < MAXVA)
    (hs : slotFrom s.mem (va / 4096) 2 t = some a) (e : mappages A t va PGSIZE pa perm s = .ok (r, s')) : r = 0 := by
  have hw : walk A t va true s = .ok (some a, s) := by
    unfold walk
    rw [if_neg (by omega), walkFrom_of_slot va true 2 t s _ hs]
  have hone : mapOne A t va pa perm s = if s.mem.loadLE a 8 &&& PTE_V ≠ 0 then .error "mappages: remap"
      else .ok (true, { s with mem := s.mem.storeLE a 8 (PA2PTE pa ||| perm ||| PTE_V) }) := by
    rw [mapOne, hw]; rfl
  rw [mappages_page hal hva, hone] at e
  split at e
  · cases e
  · exact (Prod.mk.inj (Except.ok.inj e)).1.symm

/-! ## A fresh page -/

/-- Nothing a user can see changed, and no page in use was put to another. -/
structure Kept (live : List Nat) (s : Mach κ) (k : Nat → Kind) (s' : Mach κ) (k' : Nat → Kind) : Prop where
  lookup : ∀ t ∈ live, ∀ v < VPN, lookup s'.mem t v = Vm.lookup s.mem t v
  byteAt : ∀ t ∈ live, ∀ va, va / 4096 < VPN → byteAt s'.mem t va = Vm.byteAt s.mem t va
  held : ∀ r, k' r = .held ↔ k r = .held
  node : ∀ t ∈ live, ∀ q l i, k q = .node t l i → k' q = .node t l i

/-- A page that was free is mapped at `v` with flags `perm` and contents `f`. -/
structure Filled (B : Nat → Prop) (live : List Nat) (s : Mach κ) (k : Nat → Kind) (t v perm : Nat) (f : Nat → UInt8)
    (s' : Mach κ) (k' : Nat → Kind) : Prop where
  here : ∃ p, IsPage p ∧ ¬ B p ∧ k' p = .data v ∧ lookup s'.mem t v = some (mkpte p perm)
  alone : Private s'.mem live t v
  lookup : ∀ t' ∈ live, ∀ v' < VPN, ¬ (t' = t ∧ v' = v) → lookup s'.mem t' v' = Vm.lookup s.mem t' v'
  byteAt : ∀ t' ∈ live, ∀ va, va / 4096 < VPN →
    byteAt s'.mem t' va = if t' = t ∧ va / 4096 = v then some (f (va % 4096)) else Vm.byteAt s.mem t' va
  held : ∀ r, k' r = .held ↔ k r = .held
  node : ∀ t ∈ live, ∀ q l i, k q = .node t l i → k' q = .node t l i

theorem Kept.refl (live : List Nat) (s : Mach κ) (k : Nat → Kind) : Kept live s k s k :=
  ⟨fun _ _ _ _ => rfl, fun _ _ _ _ => rfl, fun _ => Iff.rfl, fun _ _ _ _ _ h => h⟩

theorem Kept.trans {s'' : Mach κ} {k'' : Nat → Kind} (h : Kept live s k s' k') (h' : Kept live s' k' s'' k'') :
    Kept live s k s'' k'' :=
  ⟨fun t ht v hv => (h'.lookup t ht v hv).trans (h.lookup t ht v hv),
    fun t ht va hva => (h'.byteAt t ht va hva).trans (h.byteAt t ht va hva), fun r => (h'.held r).trans (h.held r),
    fun t ht q l i hq => h'.node t ht q l i (h.node t ht q l i hq)⟩

theorem kept_kalloc_none (h : VmInv H B s live k) (e : A.kalloc s = (none, s')) : Kept live s k s' k := by
  obtain ⟨-, e1, -, -⟩ := h.kalloc_none e
  exact ⟨fun _ _ _ _ => by rw [e1], fun _ _ _ _ => by rw [e1], fun _ => Iff.rfl, fun _ _ _ _ _ h => h⟩

/-- `kalloc`, and the page overwritten. -/
theorem VmInv.kalloc_fill (h : VmInv H B s live k) {p : Nat} (e : A.kalloc s = (some p, s')) {m : Mem}
    (hm : ∀ x, pageOf x ≠ p → m x = s'.mem x) :
    k p = .free ∧ IsPage p ∧ ¬ B p ∧ VmInv H B { s' with mem := m } live (Function.update k p .held) ∧
      (∀ t ∈ live, ∀ v < VPN, leaf m t v = leaf s.mem t v) ∧ (∀ x, pageOf x ≠ p → m x = s.mem x) ∧
      H.fails s'.kmem = H.fails s.kmem := by
  obtain ⟨hf, hp, h1, lf1, by1, e1⟩ := h.kalloc_some e
  obtain ⟨h2, lf2⟩ := h1.frame { s' with mem := m } rfl fun q hq x hx hy => by
    have hqp : IsPage q := h1.tab.page q (by intro e; rw [e] at hq; cases hq)
    have hne : q ≠ p := by rintro rfl; rw [Function.update_self] at hq; cases hq
    exact hm x (by have := hqp.1; have := hp.1; unfold pageOf; omega)
  exact ⟨hf, hp, h.not_lent hf, h2, fun t ht v hv => (lf2 t ht v hv).trans (lf1 t ht v hv),
    fun x hx => (hm x hx).trans (by1 x hx), e1⟩

theorem set_off (m : Mem) (c : UInt8) {p : Nat} (hp : p % 4096 = 0) (x : Nat) (hx : pageOf x ≠ p) :
    m.set p c PGSIZE x = m x := by
  have := pageOf_mem hp hx
  exact Mem.agree_set (b := x) (n := 1) m c (by unfold PGSIZE; omega) x (Nat.le_refl _) (by omega)

/-- A fresh page, filled and entered at an unmapped virtual page: it is mapped there, or
    there was no memory for the tables and giving it back leaves everything as it was. -/
theorem kalloc_map (h : VmInv H B s live k) {t va p perm : Nat} {s1 : Mach κ} {m : Mem} (ht : t ∈ live)
    (hal : va % 4096 = 0)
    (hva : va < MAXVA) (hw : lookup s.mem t (va / 4096) = none) (hperm : perm < 1024) (hflag : perm ||| PTE_V ≠ PTE_V)
    (e : A.kalloc s = (some p, s1)) (hm : ∀ x, pageOf x ≠ p → m x = s1.mem x) :
    (∃ s2 s3 k3, mappages A t va PGSIZE p perm { s1 with mem := m } = .ok (-1, s2) ∧ A.kfree p s2 = .ok s3 ∧
        VmInv H B s3 live k3 ∧ Kept live s k s3 k3 ∧ H.fails s3.kmem = H.fails s.kmem + 1) ∨
      ∃ s2 k2, mappages A t va PGSIZE p perm { s1 with mem := m } = .ok (0, s2) ∧ VmInv H B s2 live k2 ∧
        Filled B live s k t (va / 4096) perm (fun o => m (p + o)) s2 k2 ∧ H.fails s2.kmem = H.fails s.kmem := by
  have hv := vpn_of_lt hva
  obtain ⟨hf, hp, hb, h1, lf1, by1, ef⟩ := h.kalloc_fill e hm
  have hw1 : vbit (leaf m t (va / 4096)) = false := by rw [lf1 t ht _ hv]; exact lookup_none.mp hw
  have hk1 : ∀ {r}, r ≠ p → Function.update k p .held r = k r := fun e => Function.update_of_ne e _ _
  -- a page in use is not the fresh one
  have old : ∀ {r}, k r ≠ .free → r ≠ p := by rintro r hr rfl; exact hr hf
  have byteAt1 : ∀ t' ∈ live, ∀ va', va' / 4096 < VPN → byteAt m t' va' = byteAt s.mem t' va' :=
    fun t' ht' va' hva' =>
    h.tab.byteAt_same ht' hva' (lookup_congr (lf1 t' ht' _ hva')) fun x hx => by1 x (old (by
      rcases hx with e | e
      · rw [e]; simp
      · rcases h.tab.lent _ e with e | e <;> rw [e] <;> simp))
  rcases mappages_held h1 ht hal hva hw1 (Function.update_self ..) hb hperm hflag with
    ⟨s2, k2, e2, h2, g2, hf2⟩ | ⟨s2, k2, e2, h2, m2, hf2⟩
  · have hp2 : k2 p = .held := by rw [g2.kind p (by rw [Function.update_self]; simp), Function.update_self]
    obtain ⟨s3, e3, h3, lf3, by3, hf3⟩ := h2.kfree_held hp2 hb
    have kinds : ∀ r, k r ≠ .free → Function.update k2 p .free r = k r := fun r hr => by
      rw [Function.update_of_ne (old hr), g2.kind r (by rwa [hk1 (old hr)]), hk1 (old hr)]
    have plain : ∀ x, (k (pageOf x)).plain = true → s3.mem x = s.mem x := fun x hx => by
      have hne : pageOf x ≠ p := old (by intro e; rw [e] at hx; cases hx)
      rw [by3 x hne, g2.bytes x (by rwa [hk1 hne])]
      exact by1 x hne
    refine Or.inl ⟨s2, s3, _, e2, e3, h3, ⟨fun t' ht' v hv' => ?_, fun t' ht' va' hva' => ?_, fun r => ?_,
      fun t' _ q l i hq => ?_⟩,
      by rw [hf3, hf2]; simp only [ef]⟩
    · exact lookup_congr ((lf3 t' ht' v hv').trans ((g2.leaf t' ht' v hv').trans (lf1 t' ht' v hv')))
    · refine h.tab.byteAt_same ht' hva'
        (lookup_congr ((lf3 t' ht' _ hva').trans ((g2.leaf t' ht' _ hva').trans (lf1 t' ht' _ hva'))))
        fun x hx => plain x ?_
      rcases hx with e | e
      · rw [e]; rfl
      · rcases h.tab.lent _ e with e | e <;> rw [e] <;> rfl
    · by_cases hr : k r = .free
      · rw [hr]
        by_cases hrp : r = p
        · subst hrp; simp
        · rw [Function.update_of_ne hrp]
          rcases g2.new r (by rw [hk1 hrp]; exact hr) with e | ⟨_, _, _, e⟩ <;> rw [e] <;> simp
      · rw [kinds r hr]
    · rw [kinds q (by rw [hq]; simp), hq]
  · have kinds : ∀ r, k r ≠ .free → k2 r = k r := fun r hr => by
      rw [m2.kind r (by rwa [hk1 (old hr)]) (old hr), hk1 (old hr)]
    refine Or.inr ⟨s2, k2, e2, h2, ⟨⟨p, hp, hb, m2.here, ?_⟩, ?_, fun t' ht' v hv' hne => ?_,
      fun t' ht' va' hva' => ?_, fun r => ?_,
      fun t' _ q l i hq => by rw [kinds q (by rw [hq]; simp), hq]⟩, by rw [hf2]; simp only [ef]⟩
    · rw [m2.lookup hperm ht hv, if_pos ⟨rfl, rfl⟩]
    · -- whoever maps the fresh page is `t`
      intro w1 hw1 t' ht' w2 hw2 e
      rw [m2.lookup hperm ht hv, if_pos ⟨rfl, rfl⟩] at hw1
      obtain rfl := Option.some.inj hw1
      apply Classical.byContradiction
      intro hne
      rw [m2.lookup hperm ht' hv, if_neg (fun e => hne e.1)] at hw2
      have hl : lookup m t' (va / 4096) = lookup s.mem t' (va / 4096) := lookup_congr (lf1 t' ht' _ hv)
      have hw2 : lookup s.mem t' (va / 4096) = some w2 := hl ▸ hw2
      obtain ⟨rfl, hv2⟩ := lookup_some.mp hw2
      obtain ⟨_, _, _, hd, _⟩ := h.tab.leaf_valid ht' hv hv2
      rw [e, pte2pa_mkpte hp hperm, hf] at hd
      rcases hd with hd | hd
      · cases hd
      · exact hb hd
    · rw [m2.lookup hperm ht' hv', if_neg hne]
      exact lookup_congr (lf1 t' ht' v hv')
    · rw [m2.byteAt h1 hp (Function.update_self ..) hperm ht' hva']
      split
      · rfl
      · exact byteAt1 t' ht' va' hva'
    · by_cases hr : k r = .free
      · rw [hr]
        by_cases hrp : r = p
        · subst hrp; rw [m2.here]; simp
        · rcases m2.new r (by rw [hk1 hrp]; exact hr) with e | ⟨_, _, _, e⟩ <;> rw [e] <;> simp
      · rw [kinds r hr]

/-! ## uvmdealloc -/

/-- How many pages uvmdealloc asks uvmunmap for, and gets. -/
def deallocN (oldsz newsz : Nat) : Nat :=
  if newsz ≥ oldsz then 0
  else if PGROUNDUP newsz < PGROUNDUP oldsz then
    (u64 (PGROUNDUP newsz + u64
      (sext32 ((PGROUNDUP oldsz - PGROUNDUP newsz) / PGSIZE) * PGSIZE)) - PGROUNDUP newsz) / PGSIZE
  else 0

theorem pgroundup_mod (n : Nat) : PGROUNDUP n % 4096 = 0 := by unfold PGROUNDUP PGSIZE; omega

theorem uvmdealloc_eq (t oldsz newsz : Nat) (s : Mach κ) : uvmdealloc A t oldsz newsz s =
    (unmapLoop A t true (deallocN oldsz newsz) (PGROUNDUP newsz) s).map
      fun s => (if newsz ≥ oldsz then oldsz else newsz, s) := by
  unfold uvmdealloc deallocN
  by_cases h1 : newsz ≥ oldsz
  · simp only [h1, if_true, unmapLoop, Except.map]
  · simp only [h1, if_false]
    by_cases h2 : PGROUNDUP newsz < PGROUNDUP oldsz
    · simp only [h2, if_true, uvmunmap, bind, Except.bind]
      rw [if_neg (by rw [show PGSIZE = 4096 from rfl, pgroundup_mod]; simp)]
      cases unmapLoop A t true _ (PGROUNDUP newsz) s <;> rfl
    · simp only [h2, if_false, unmapLoop, Except.map]

theorem pgroundup_of_aligned {n : Nat} (h : n % 4096 = 0) (hn : n < 2 ^ 63) : PGROUNDUP n = n := by
  unfold PGROUNDUP PGSIZE u64; omega

/-- Between page-aligned sizes below MAXVA the count is the number of pages between them. -/
theorem deallocN_aligned {a o : Nat} (ha : a % 4096 = 0) (ho : o % 4096 = 0) (hle : o ≤ a) (hlt : a ≤ MAXVA) :
    deallocN a o = a / 4096 - o / 4096 := by
  unfold MAXVA at hlt
  have ea : PGROUNDUP a = a := pgroundup_of_aligned ha (by omega)
  have eo : PGROUNDUP o = o := pgroundup_of_aligned ho (by omega)
  unfold deallocN
  rw [ea, eo]
  by_cases h1 : o ≥ a
  · rw [if_pos h1]; omega
  · rw [if_neg h1, if_pos (by omega), sext32_of_lt (by unfold PGSIZE; omega)]
    unfold PGSIZE u64; omega

/-! ## uvmalloc -/

/-- The virtual pages `D` of table `t`, unmapped before, are mapped to fresh pages of
    its own, `v` with flags `perm v`; the user reads `f` there, and elsewhere what it was. -/
structure Grown (B : Nat → Prop) (live : List Nat) (s : Mach κ) (k : Nat → Kind) (t : Nat) (D : Nat → Prop)
    (perm : Nat → Nat) (f : Nat → UInt8) (s' : Mach κ) (k' : Nat → Kind) : Prop where
  fresh : ∀ v, D v → v < MAXVA / 4096 ∧ lookup s.mem t v = none
  small : ∀ v, D v → perm v < 1024
  here : ∀ v, D v → ∃ p, IsPage p ∧ ¬ B p ∧ lookup s'.mem t v = some (mkpte p (perm v))
  alone : ∀ v, D v → Private s'.mem live t v
  inside : ∀ va, D (va / 4096) → byteAt s'.mem t va = some (f va)
  lookup : ∀ t' ∈ live, ∀ v < VPN, ¬ (t' = t ∧ D v) → lookup s'.mem t' v = Vm.lookup s.mem t' v
  byteAt : ∀ t' ∈ live, ∀ va, va / 4096 < VPN → ¬ (t' = t ∧ D (va / 4096)) →
    byteAt s'.mem t' va = Vm.byteAt s.mem t' va
  held : ∀ r, k' r = .held ↔ k r = .held
  node : ∀ t ∈ live, ∀ q l i, k q = .node t l i → k' q = .node t l i

section

variable {s0 : Mach κ} {k0 : Nat → Kind} {t : Nat} {D : Nat → Prop} {perm : Nat → Nat} {f : Nat → UInt8}

theorem Grown.refl (B : Nat → Prop) (live : List Nat) (s : Mach κ) (k : Nat → Kind) (t : Nat) (hD : ∀ v, ¬ D v)
    (perm : Nat → Nat) (f : Nat → UInt8) : Grown B live s k t D perm f s k :=
  ⟨fun v h => absurd h (hD v), fun v h => absurd h (hD v), fun v h => absurd h (hD v), fun v h => absurd h (hD v),
    fun _ h => absurd h (hD _), fun _ _ _ _ _ => rfl,
    fun _ _ _ _ _ => rfl, fun _ => Iff.rfl, fun _ _ _ _ _ h => h⟩

theorem Grown.vpn (g : Grown B live s0 k0 t D perm f s k) {v : Nat} (hv : D v) : v < VPN := by
  have := (g.fresh v hv).1
  unfold MAXVA at this; unfold VPN; omega

theorem Grown.filled (g : Grown B live s0 k0 t D perm f s k) (ht : t ∈ live) {v perm' : Nat} {f' : Nat → UInt8}
    {D' : Nat → Prop}
    (hm : Filled B live s k t v perm' f' s' k') (hv : v < MAXVA / 4096) (hn : Vm.lookup s.mem t v = none) (hd : ¬ D v)
    (hD : ∀ v', D' v' ↔ D v' ∨ v' = v) (hp : perm' = perm v)
    (hs : perm' < 1024) (hf : ∀ va, va / 4096 = v → f' (va % 4096) = f va) :
    Grown B live s0 k0 t D' perm f s' k' := by
  have hvp : v < VPN := by unfold MAXVA at hv; unfold VPN; omega
  have hne : ∀ {v'}, D v' → ¬ (t = t ∧ v' = v) := by rintro v' hv' ⟨-, rfl⟩; exact hd hv'
  refine ⟨fun v' hv' => ?_, fun v' hv' => ?_, fun v' hv' => ?_, fun v' hv' => ?_, fun va hva => ?_,
    fun t' ht' v' hv' hc => ?_, fun t' ht' va hva hc => ?_,
    fun r => (hm.held r).trans (g.held r), fun t' ht' q l i hq => hm.node t' ht' q l i (g.node t' ht' q l i hq)⟩
  · rcases (hD v').mp hv' with e | rfl
    · exact g.fresh v' e
    · exact ⟨hv, (g.lookup t ht v' hvp (fun e => hd e.2)).symm.trans hn⟩
  · rcases (hD v').mp hv' with e | rfl
    · exact g.small v' e
    · rw [← hp]; exact hs
  · rcases (hD v').mp hv' with e | rfl
    · obtain ⟨p, h1, h2, h3⟩ := g.here v' e
      exact ⟨p, h1, h2, (hm.lookup t ht v' (g.vpn e) (hne e)).trans h3⟩
    · obtain ⟨p, h1, h2, -, h3⟩ := hm.here
      exact ⟨p, h1, h2, by rw [← hp]; exact h3⟩
  · rcases (hD v').mp hv' with e | rfl
    · have hne' : v' ≠ v := by rintro rfl; exact hd e
      exact (g.alone v' e).congr (hm.lookup t ht v' (g.vpn e) (hne e)) fun t' ht' =>
        ⟨ht', Or.inl (hm.lookup t' ht' v' (g.vpn e) (fun e => hne' e.2))⟩
    · exact hm.alone
  · rcases (hD _).mp hva with e | e
    · rw [hm.byteAt t ht va (g.vpn e), if_neg (hne e)]; exact g.inside va e
    · rw [hm.byteAt t ht va (by rw [e]; exact hvp), if_pos ⟨rfl, e⟩, hf va e]
  · have hc1 : ¬ (t' = t ∧ D v') := fun e => hc ⟨e.1, (hD v').mpr (Or.inl e.2)⟩
    have hc2 : ¬ (t' = t ∧ v' = v) := fun e => hc ⟨e.1, (hD v').mpr (Or.inr e.2)⟩
    exact (hm.lookup t' ht' v' hv' hc2).trans (g.lookup t' ht' v' hv' hc1)
  · have hc1 : ¬ (t' = t ∧ D (va / 4096)) := fun e => hc ⟨e.1, (hD _).mpr (Or.inl e.2)⟩
    have hc2 : ¬ (t' = t ∧ va / 4096 = v) := fun e => hc ⟨e.1, (hD _).mpr (Or.inr e.2)⟩
    rw [hm.byteAt t' ht' va hva, if_neg hc2]
    exact g.byteAt t' ht' va hva hc1

theorem Grown.kept (g : Grown B live s0 k0 t D perm f s k) (ht : t ∈ live) (hk : Kept live s k s' k') :
    Grown B live s0 k0 t D perm f s' k' := by
  refine ⟨g.fresh, g.small, fun v hv => ?_, fun v hv => ?_, fun va hva => ?_, fun t' ht' v hv hc => ?_,
    fun t' ht' va hva hc => ?_,
    fun r => (hk.held r).trans (g.held r), fun t' ht' q l i hq => hk.node t' ht' q l i (g.node t' ht' q l i hq)⟩
  · rw [hk.lookup t ht v (g.vpn hv)]; exact g.here v hv
  · exact (g.alone v hv).congr (hk.lookup t ht v (g.vpn hv)) fun t' ht' =>
      ⟨ht', Or.inl (hk.lookup t' ht' v (g.vpn hv))⟩
  · rw [hk.byteAt t ht va (g.vpn hva)]; exact g.inside va hva
  · rw [hk.lookup t' ht' v hv]; exact g.lookup t' ht' v hv hc
  · rw [hk.byteAt t' ht' va hva]; exact g.byteAt t' ht' va hva hc

/-- Clearing a range that holds all of the new pages, and nothing that was mapped before. -/
theorem Grown.cleared (g : Grown B live s0 k0 t D perm f s k) {v0 n : Nat} (hc : Cleared live s k t v0 n s' k')
    (hD : ∀ v, D v → InRange v0 n v) (hn : ∀ v < VPN, InRange v0 n v → Vm.lookup s0.mem t v = none) :
      Kept live s0 k0 s' k' := by
  refine ⟨fun t' ht' v hv => ?_, fun t' ht' va hva => ?_, fun r => ?_,
    fun t' ht' q l i hq => hc.node_iff.mpr (g.node t' ht' q l i hq)⟩
  · rw [hc.lookup t' ht' v hv]
    split
    · rename_i e; rw [e.1, hn v hv e.2]
    · rename_i e; exact g.lookup t' ht' v hv fun e' => e ⟨e'.1, hD v e'.2⟩
  · rw [hc.byteAt t' ht' va hva]
    split
    · rename_i e
      unfold Vm.byteAt
      rw [e.1, hn _ hva e.2]; rfl
    · rename_i e; exact g.byteAt t' ht' va hva fun e' => e ⟨e'.1, hD _ e'.2⟩
  · rw [← g.held r]
    rcases hc.kind r with e | ⟨⟨v, e1⟩, e2⟩
    · rw [e]
    · rw [e1, e2]; simp

/-- Taking back what was mapped over `[o, a)`. -/
theorem Grown.dealloc {o a : Nat} (g : Grown B live s0 k0 t (InRange (o / 4096) (a / 4096 - o / 4096)) perm f s k)
    (h : VmInv H B s live k) (ht : t ∈ live) (ho : o % 4096 = 0) (ha : a % 4096 = 0) (hle : o ≤ a)
    (hmax : a ≤ MAXVA ∨ a = o) :
    ∃ r s' k', uvmdealloc A t a o s = .ok (r, s') ∧ VmInv H B s' live k' ∧ Kept live s0 k0 s' k' ∧
      H.fails s'.kmem = H.fails s.kmem := by
  rcases Nat.eq_or_lt_of_le hle with rfl | hlt
  · refine ⟨o, s, k, by unfold uvmdealloc; rw [if_pos (Nat.le_refl _)], h, ?_, rfl⟩
    exact g.cleared (.refl live s k t 0) (fun v hv => by unfold InRange at *; omega)
      (fun v _ hv => by unfold InRange at hv; omega)
  · have hmax : a ≤ MAXVA := hmax.resolve_right (by omega)
    have hup : PGROUNDUP o = o := pgroundup_of_aligned ho (by unfold MAXVA at hmax; omega)
    rw [uvmdealloc_eq, hup, deallocN_aligned ha ho hle hmax]
    have hown : OwnRange B s.mem t (o / 4096) (a / 4096 - o / 4096) := fun v hv hr w hw => by
      obtain ⟨p, hp, hb, e⟩ := g.here v hr
      rw [e] at hw
      rw [← Option.some.inj hw, pte2pa_mkpte hp (g.small v hr)]; exact hb
    rcases unmapLoop_spec ht _ o s k ho h hown with ⟨-, s', k', e, h', hc, hf⟩ | ⟨⟨i, hi, hn⟩, -⟩
    · exact ⟨_, s', k', by rw [e]; rfl, h', g.cleared hc (fun v hv => hv) (fun v _ hv => (g.fresh v hv).2), hf⟩
    · have hr : InRange (o / 4096) (a / 4096 - o / 4096) (o / 4096 + i) := ⟨by omega, by omega⟩
      obtain ⟨p, -, -, e⟩ := g.here _ hr
      exact absurd ⟨(g.fresh _ hr).1, Or.inl (by rw [e]; rfl)⟩ hn

/-- mappages can enter a page here. -/
def CanMap (m : Mem) (t v : Nat) : Prop := v < MAXVA / 4096 ∧ lookup m t v = none

theorem uvmallocLoop_spec (ht : t ∈ live) {o : Nat} (newsz : Nat) (ho : o % 4096 = 0) : ∀ n a (s : Mach κ) k,
    Grown B live s0 k0 t (InRange (o / 4096) (a / 4096 - o / 4096)) (fun _ => userPerm) (fun _ => 0) s k →
    VmInv H B s live k → a % 4096 = 0 → o ≤ a → a ≤ MAXVA ∨ a = o →
    ((∃ e, uvmallocLoop A t o newsz n a s = .error e) ∧ ∃ i < n, ¬ CanMap s0.mem t (a / 4096 + i)) ∨
      (∃ s' k', uvmallocLoop A t o newsz n a s = .ok (newsz, s') ∧ VmInv H B s' live k' ∧
        Grown B live s0 k0 t (InRange (o / 4096) (a / 4096 - o / 4096 + n)) (fun _ => userPerm) (fun _ => 0) s' k' ∧
        H.fails s'.kmem = H.fails s.kmem) ∨
      ∃ s' k', uvmallocLoop A t o newsz n a s = .ok (0, s') ∧ VmInv H B s' live k' ∧ Kept live s0 k0 s' k' ∧
        H.fails s.kmem < H.fails s'.kmem := by
  intro n
  induction n with
  | zero =>
    intro a s k g h _ _ _
    exact Or.inr (Or.inl ⟨s, k, rfl, h, by rw [Nat.add_zero]; exact g, rfl⟩)
  | succ n ih =>
    intro a s k g h ha hle hmax
    rcases e : A.kalloc s with ⟨_ | p, s1⟩
    · -- out of memory: take back what was mapped
      obtain ⟨h1, -, -, hf1⟩ := h.kalloc_none e
      obtain ⟨r, s', k', e2, h2, kp, hf2⟩ := (g.kept ht (kept_kalloc_none h e)).dealloc h1 ht ho ha hle hmax
      exact Or.inr (Or.inr ⟨s', k', by simp only [uvmallocLoop, e, e2, bind, Except.bind], h2, kp, by omega⟩)
    · have hnew : ¬ InRange (o / 4096) (a / 4096 - o / 4096) (a / 4096) := by unfold InRange; omega
      by_cases hva : a < MAXVA
      · have hv := vpn_of_lt hva
        have hvm : a / 4096 < MAXVA / 4096 := by unfold MAXVA at hva ⊢; omega
        have hsame : Vm.lookup s.mem t (a / 4096) = Vm.lookup s0.mem t (a / 4096) :=
          g.lookup t ht _ hv fun e => hnew e.2
        have hm := set_off s1.mem 0 (h.kalloc_some e).2.1.1
        by_cases hn : Vm.lookup s.mem t (a / 4096) = none
        · rcases kalloc_map h ht ha hva hn (show userPerm < 1024 by decide) (by decide) e hm with
            ⟨s2, s3, k3, e2, e3, h3, kp, hf⟩ | ⟨s2, k2, e2, h2, fl, hf⟩
          · obtain ⟨r, s', k', e4, h4, kp', hf4⟩ := (g.kept ht kp).dealloc h3 ht ho ha hle hmax
            refine Or.inr (Or.inr ⟨s', k', ?_, h4, kp', by omega⟩)
            simp only [uvmallocLoop, e]
            rw [e2]
            simp only [bind, Except.bind]
            rw [if_pos (by decide), e3]
            simp only [e4]
          · have hrun : uvmallocLoop A t o newsz (n + 1) a s = uvmallocLoop A t o newsz n (a + PGSIZE) s2 := by
              simp only [uvmallocLoop, e]
              rw [e2]
              simp only [bind, Except.bind]
              rw [if_neg (by decide)]
            have hz : ∀ va, va / 4096 = a / 4096 → s1.mem.set p 0 PGSIZE (p + va % 4096) = 0 := fun va _ =>
              Mem.set_in _ 0 (by omega) (by unfold PGSIZE; omega)
            have hnext : (a + PGSIZE) / 4096 = a / 4096 + 1 := by unfold PGSIZE; omega
            have g2 : Grown B live s0 k0 t (InRange (o / 4096) ((a + PGSIZE) / 4096 - o / 4096)) (fun _ => userPerm)
              (fun _ => 0)
                s2 k2 := by
              refine g.filled ht fl hvm hn hnew (fun v' => ?_) rfl (by decide) hz
              rw [hnext]; unfold InRange; omega
            rw [hrun]
            rcases ih (a + PGSIZE) s2 k2 g2 h2 (by unfold PGSIZE; omega) (by omega)
              (Or.inl (by unfold PGSIZE; unfold MAXVA at hva ⊢; omega)) with ⟨he, i, hi, hc⟩ |
                ⟨s', k', e', h', g', hf'⟩ | ⟨s', k', e', h', kp, hf'⟩
            · exact Or.inl ⟨he, i + 1, by omega, by rw [hnext] at hc; rwa [Nat.add_comm i 1, ← Nat.add_assoc]⟩
            · refine Or.inr (Or.inl ⟨s', k', e', h', ?_, by omega⟩)
              rwa [hnext, show a / 4096 + 1 - o / 4096 + n = a / 4096 - o / 4096 + (n + 1) by omega] at g'
            · exact Or.inr (Or.inr ⟨s', k', e', h', kp, by omega⟩)
        · -- the page is mapped already
          refine Or.inl ⟨⟨"mappages: remap", ?_⟩, 0, by omega, fun hc => hn (hsame.trans hc.2)⟩
          obtain ⟨_, _, _, h1, lf, _, _⟩ := h.kalloc_fill e hm
          have hw : vbit (leaf (s1.mem.set p 0 PGSIZE) t (a / 4096)) = true := by
            rw [lf t ht _ hv]
            cases hb : vbit (leaf s.mem t (a / 4096)) with
            | true => rfl
            | false => exact absurd (lookup_none.mpr hb) hn
          simp only [uvmallocLoop, e]
          rw [mappages_remap h1 ht ha hva hw]
          rfl
      · refine Or.inl ⟨⟨"walk", ?_⟩, 0, by omega, fun hc => ?_⟩
        · simp only [uvmallocLoop, e]
          rw [mappages_past ha (by omega)]
          rfl
        · have := hc.1
          unfold MAXVA at hva this; omega

end

/-- `uvmalloc`: a panic at a page that cannot be mapped, the pages of the range mapped
    and zeroed, or no memory and nothing changed. -/
theorem uvmalloc_spec (h : VmInv H B s live k) {t : Nat} (ht : t ∈ live) (oldsz newsz : Nat) (hle : oldsz ≤ newsz) :
    let v0 := PGROUNDUP oldsz / 4096
    let n := (newsz - PGROUNDUP oldsz + PGSIZE - 1) / PGSIZE
    ((∃ e, uvmalloc A t oldsz newsz s = .error e) ∧ ∃ i < n, ¬ CanMap s.mem t (v0 + i)) ∨
      (∃ s' k', uvmalloc A t oldsz newsz s = .ok (newsz, s') ∧ VmInv H B s' live k' ∧
        Grown B live s k t (InRange v0 n) (fun _ => userPerm) (fun _ => 0) s' k' ∧ H.fails s'.kmem = H.fails s.kmem) ∨
      ∃ s' k', uvmalloc A t oldsz newsz s = .ok (0, s') ∧ VmInv H B s' live k' ∧ Kept live s k s' k' ∧
        H.fails s.kmem < H.fails s'.kmem := by
  have := uvmallocLoop_spec (A := A) (H := H) (B := B) ht newsz (pgroundup_mod oldsz)
    ((newsz - PGROUNDUP oldsz + PGSIZE - 1) / PGSIZE) (PGROUNDUP oldsz) s k
    (.refl B live s k t (fun v hv => by unfold InRange at hv; omega) _ _) h (pgroundup_mod oldsz) (Nat.le_refl _)
      (Or.inr rfl)
  rw [Nat.sub_self, Nat.zero_add] at this
  unfold uvmalloc
  rw [if_neg (by omega)]
  exact this

end Xv6Labs.Vm
