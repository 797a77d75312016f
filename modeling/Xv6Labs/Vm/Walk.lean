/-
  Xv6Labs.Vm.Walk — `walk`, and the single-entry steps the loops of vm.c are made of.

  - `walkFrom_false`: without allocation, walk reads and changes nothing.
  - `walk_alloc`: with it, at most table pages are added (`Grows`), whether it succeeds
    or runs out of memory on the way.
  - `mapOne_ok`/`mapOne_remap`: one round of mappages.
  - `VmInv.mapHeld`: entering a held page into an invalid leaf makes it a user page.
  - `unmapOne_free`: one round of uvmunmap on a user page drops one owner, and the page
    with the last.
-/

import Xv6Labs.Vm.Inv

namespace Xv6Labs.Vm

open Lib

/-- The valid leaf entry of virtual page `v`, if there is one. -/
def lookup (m : Mem) (t v : Nat) : Option Nat := if vbit (leaf m t v) then some (leaf m t v) else none

/-- The byte at `va` under root `t`, if its page is mapped. -/
def byteAt (m : Mem) (t va : Nat) : Option UInt8 :=
  (lookup m t (va / 4096)).map fun w => m (PTE2PA w + va % 4096)

/-- No other table maps the page `t` has at `v`. -/
def Private (m : Mem) (live : List Nat) (t v : Nat) : Prop :=
  ∀ w, lookup m t v = some w → ∀ t' ∈ live, ∀ w', lookup m t' v = some w' → PTE2PA w' = PTE2PA w → t' = t

theorem lookup_some {m : Mem} {t v w : Nat} : lookup m t v = some w ↔ leaf m t v = w ∧ vbit w = true := by
  unfold lookup
  split
  · rename_i h
    constructor
    · intro e; rw [Option.some.injEq] at e; exact ⟨e, e ▸ h⟩
    · rintro ⟨e, _⟩; rw [e]
  · rename_i h
    constructor
    · intro e; cases e
    · rintro ⟨rfl, e⟩; exact absurd e h

theorem lookup_none {m : Mem} {t v : Nat} : lookup m t v = none ↔ vbit (leaf m t v) = false := by
  unfold lookup
  cases vbit (leaf m t v) <;> simp

theorem lookup_congr {m m' : Mem} {t v : Nat} (h : leaf m' t v = leaf m t v) : lookup m' t v = lookup m t v := by
  unfold lookup; rw [h]

theorem Private.congr {m m' : Mem} {live live' : List Nat} {t v : Nat} (h : Private m live t v)
    (ht : lookup m' t v = lookup m t v)
    (hl : ∀ t' ∈ live', t' ∈ live ∧ (lookup m' t' v = lookup m t' v ∨ lookup m' t' v = none)) :
      Private m' live' t v := by
  intro w hw t' ht' w' hw' e
  obtain ⟨hm, e' | e'⟩ := hl t' ht'
  · exact h w (ht ▸ hw) t' hm w' (e' ▸ hw') e
  · rw [e'] at hw'; cases hw'

theorem maps_lookup (m : Mem) (v p t : Nat) : maps m v p t = (lookup m t v).any fun w => PTE2PA w == p := by
  unfold maps lookup
  cases vbit (leaf m t v) <;> simp

variable {κ : Type} {A : Lab κ} {H : AllocSpec A} {B : Nat → Prop} {s s' : Mach κ} {live : List Nat}
    {k k' : Nat → Kind}

theorem pte2pa_mod (w : Nat) : PTE2PA w % 4096 = 0 := by unfold PTE2PA u64; omega

/-- The same page mapped, and no byte of it changed. -/
theorem Tab.byteAt_pa {m m' : Mem} (h : Tab B m live k) {t va : Nat} (ht : t ∈ live) (hva : va / 4096 < VPN)
    (hl : (lookup m' t (va / 4096)).map PTE2PA = (lookup m t (va / 4096)).map PTE2PA)
    (hb : ∀ x, k (pageOf x) = .data (va / 4096) ∨ B (pageOf x) → m' x = m x) : byteAt m' t va = byteAt m t va := by
  have e : ∀ m : Mem, byteAt m t va = ((lookup m t (va / 4096)).map PTE2PA).map fun p => m (p + va % 4096) :=
    fun m => by
    unfold byteAt; rw [Option.map_map]; rfl
  rw [e, e, hl]
  cases hw : lookup m t (va / 4096) with
  | none => rfl
  | some w =>
    obtain ⟨rfl, hv⟩ := lookup_some.mp hw
    obtain ⟨_, _, _, hd, _⟩ := h.leaf_valid ht hva hv
    simp only [Option.map_some, Option.some.injEq]
    exact hb _ (by rwa [pageOf_add (pte2pa_mod _) (Nat.mod_lt _ (by decide))])

/-- A leaf that did not change over a page that did not change. -/
theorem Tab.byteAt_same {m m' : Mem} (h : Tab B m live k) {t va : Nat} (ht : t ∈ live) (hva : va / 4096 < VPN)
    (hl : lookup m' t (va / 4096) = lookup m t (va / 4096))
    (hb : ∀ x, k (pageOf x) = .data (va / 4096) ∨ B (pageOf x) → m' x = m x) : byteAt m' t va = byteAt m t va :=
  h.byteAt_pa ht hva (by rw [hl]) hb

/-! ## walk without allocation -/

theorem mkpte_zero (p : Nat) : PA2PTE p ||| PTE_V = mkpte p 0 := by unfold mkpte; rw [Nat.or_zero]

theorem vpn_of_lt {va : Nat} (h : va < MAXVA) : va / 4096 < VPN := by
  unfold MAXVA at h; unfold VPN; omega

theorem walkFrom_succ (va : Nat) (b : Bool) (l q : Nat) (s : Mach κ) :
    walkFrom A va b (l + 1) q s =
      if vbit (pte s.mem q (va / 4096 / 512 ^ (l + 1) % 512)) then
        walkFrom A va b l (PTE2PA (pte s.mem q (va / 4096 / 512 ^ (l + 1) % 512))) s
      else if !b then (none, s)
      else match A.kalloc s with
        | (none, s) => (none, s)
        | (some p, s) => walkFrom A va b l p
            { s with mem := (s.mem.set p 0 4096).storeLE (q + 8 * (va / 4096 / 512 ^ (l + 1) % 512)) 8 (mkpte p 0) } := by
  simp only [walkFrom, px_succ, vbit_eq, mkpte_zero]
  rfl

theorem walkFrom_false (va : Nat) : ∀ l q (s : Mach κ),
    walkFrom A va false l q s = (slotFrom s.mem (va / 4096) l q, s) := by
  intro l
  induction l with
  | zero => intro q s; rfl
  | succ l ih =>
    intro q s
    rw [walkFrom_succ, slotFrom]
    split
    · exact ih _ s
    · rfl

theorem walk_false {t va : Nat} (hva : va < MAXVA) :
    walk A t va false s = .ok (slotFrom s.mem (va / 4096) 2 t, s) := by
  unfold walk
  rw [if_neg (by omega), walkFrom_false]

/-- With every table there, allocation does not happen. -/
theorem walkFrom_of_slot (va : Nat) (b : Bool) : ∀ l q (s : Mach κ) a, slotFrom s.mem (va / 4096) l q = some a →
    walkFrom A va b l q s = (some a, s) := by
  intro l
  induction l with
  | zero => intro q s a h; simp only [slotFrom, Option.some.injEq] at h; rw [← h]; rfl
  | succ l ih =>
    intro q s a h
    rw [slotFrom] at h
    rw [walkFrom_succ]
    split at h
    · rename_i hv
      rw [if_pos hv]
      exact ih _ s a h
    · cases h

/-! ## walk with allocation -/

theorem VmInv.frame (h : VmInv H B s live k) (s' : Mach κ) (hk : s'.kmem = s.kmem)
    (hm : ∀ q, (k q).plain = false → Mem.Agree s.mem s'.mem q 4096) :
    VmInv H B s' live k ∧ ∀ t ∈ live, ∀ v < VPN, leaf s'.mem t v = leaf s.mem t v := by
  have fr : ∀ q t l i, k q = .node t l i → Mem.Agree s.mem s'.mem q 4096 := fun q t l i hq => hm q (by rw [hq]; rfl)
  have lf : ∀ t ∈ live, ∀ v < VPN, leaf s'.mem t v = leaf s.mem t v := fun t ht v hv => h.tab.leaf_frame fr ht hv
  have ho := own_congr lf h.vpn
  refine ⟨⟨h.tab.frame fr, h.nodup, h.ext,
    by rw [ho]; exact h.alloc_frame hk (fun q hq => hm q (by rw [hq]; rfl)), fun p v hp => ?_, h.vpn, by rw [ho]; exact h.capped⟩, lf⟩
  rw [List.countP_congr fun t ht => by rw [maps_congr (lf t ht v (h.vpn p v hp))]]
  exact h.used p v hp

/-- Writing a table entry is nothing to the allocator. -/
theorem VmInv.alloc_store (h : VmInv H B s live k) {q t l i j w : Nat} (hq : k q = .node t l i) (hj : j < 512) :
    H.Inv { s with mem := s.mem.storeLE (q + 8 * j) 8 w } (own s.mem live k) :=
  h.alloc_frame rfl fun p hp => agree_store_page s.mem (h.tab.page p (by rw [hp]; simp)).1 (h.tab.nodePage hq).1 hj
    (by rintro rfl; rw [hq] at hp; cases hp)

/-- Linking a zeroed held page below an invalid entry. -/
theorem VmInv.link (h : VmInv H B s live k) {p q t l i j : Nat} (hq : k q = .node t (l + 1) i) (hj : j < 512)
    (hv : vbit (pte s.mem q j) = false) (hp : k p = .held) (hb : ¬ B p)
    (hz : ∀ x, p ≤ x → x < p + 4096 → s.mem x = 0) :
    VmInv H B { s with mem := s.mem.storeLE (q + 8 * j) 8 (mkpte p 0) } live
      (Function.update k p (.node t l (512 * i + j))) ∧
      ∀ t' ∈ live, ∀ v < VPN, leaf (s.mem.storeLE (q + 8 * j) 8 (mkpte p 0)) t' v = leaf s.mem t' v := by
  obtain ⟨tab, lf⟩ := h.tab.link hq hj hv hp hb hz
  have hd : ∀ {r v}, Function.update k p (.node t l (512 * i + j)) r = .data v ↔ k r = .data v :=
    fun {_ v} => update_node (by rw [hp]; simp) (by simp)
  have ho : own (s.mem.storeLE (q + 8 * j) 8 (mkpte p 0)) live (Function.update k p (.node t l (512 * i + j))) =
      own s.mem live k := by
    rw [own_congr lf (fun r v hr => h.vpn r v (hd.mp hr)), own_update]
    refine Function.update_eq_self_iff.mpr ?_
    simp [own, hp, ownK]
  refine ⟨⟨tab, h.nodup, fun r => ?_, by rw [ho]; exact h.alloc_store hq hj, fun r v hr => ?_,
    fun r v hr => h.vpn r v (hd.mp hr), by rw [ho]; exact h.capped⟩, lf⟩
  · by_cases e : r = p
    · subst e
      have := h.page_of (p := r) (by rw [hp]; simp)
      simp [this]
    · rw [Function.update_of_ne e]; exact h.ext r
  · rw [List.countP_congr fun t ht => by rw [maps_congr (lf t ht v (h.vpn r v (hd.mp hr)))]]
    exact h.used r v (hd.mp hr)

/-- `kalloc`, zeroing the page and linking it: one step of an allocating walk. -/
theorem VmInv.addTable (h : VmInv H B s live k) {p q t l i j : Nat} (e : A.kalloc s = (some p, s'))
    (hq : k q = .node t (l + 1) i) (hj : j < 512) (hv : vbit (pte s.mem q j) = false) :
    ∃ k', VmInv H B { s' with mem := (s'.mem.set p 0 4096).storeLE (q + 8 * j) 8 (mkpte p 0) } live k' ∧
      GrowsIn live t s k { s' with mem := (s'.mem.set p 0 4096).storeLE (q + 8 * j) 8 (mkpte p 0) } k' ∧
      k' p = .node t l (512 * i + j) ∧ H.fails s'.kmem = H.fails s.kmem := by
  obtain ⟨hf, hpp, h1, lf1, by1, e1⟩ := h.kalloc_some e
  have hqp : q ≠ p := by rintro rfl; rw [hf] at hq; cases hq
  have hqi := h.tab.nodePage hq
  have hk1 : ∀ {r}, r ≠ p → Function.update k p .held r = k r := fun e => Function.update_of_ne e _ _
  have ag0 : ∀ r, IsPage r → r ≠ p → Mem.Agree s'.mem (s'.mem.set p 0 4096) r 4096 := fun r hr hne =>
    agree_set_page _ 0 hr.1 hpp.1 hne
  obtain ⟨h2, lf2⟩ := h1.frame { s' with mem := s'.mem.set p 0 4096 } rfl fun r hr =>
    ag0 r (h1.tab.page r (by intro e; rw [e] at hr; cases hr))
      (by rintro rfl; rw [Function.update_self] at hr; cases hr)
  have hv2 : vbit (pte (s'.mem.set p 0 4096) q j) = false := by
    have hag : Mem.Agree s.mem s'.mem q 4096 := by
      rw [(H.kalloc_some h.alloc e).2.2.1]
      exact agree_set_page _ 5 hqi.1 hpp.1 hqp
    rw [pte_agree (hag.trans (ag0 q hqi hqp)) hj]; exact hv
  obtain ⟨h3, lf3⟩ := h2.link (by rw [hk1 hqp]; exact hq) hj hv2 (Function.update_self ..)
    (h.not_lent hf) (fun x hx hy => Mem.set_in _ 0 hx hy)
  have honly : ∀ r, k r = .free → Function.update (Function.update k p .held) p (.node t l (512 * i + j)) r = .free ∨
      ∃ l' i', Function.update (Function.update k p .held) p (.node t l (512 * i + j)) r = .node t l' i' :=
        fun r hr => by
    by_cases hne : r = p
    · subst hne; exact Or.inr ⟨_, _, Function.update_self ..⟩
    · rw [Function.update_of_ne hne, hk1 hne]; exact Or.inl hr
  refine ⟨_, h3,
    ⟨⟨fun r hr => ?_, fun r hr => (honly r hr).imp_right fun h => ⟨t, h⟩, fun t' ht' v hv' => ?_, fun x hx => ?_⟩,
    honly⟩, Function.update_self .., e1⟩
  · have hne : r ≠ p := by rintro rfl; exact hr hf
    rw [Function.update_of_ne hne, hk1 hne]
  · exact (lf3 t' ht' v hv').trans ((lf2 t' ht' v hv').trans (lf1 t' ht' v hv'))
  · have hxp : pageOf x ≠ p := by intro e; rw [e, hf] at hx; cases hx
    have hxq : pageOf x ≠ q := by intro e; rw [e, hq] at hx; cases hx
    have hin := pageOf_mem hpp.1 hxp
    have hin' := pageOf_mem hqi.1 hxq
    show (s'.mem.set p 0 4096).storeLE (q + 8 * j) 8 (mkpte p 0) x = s.mem x
    rw [Mem.storeLE_ne (by omega), Mem.agree_set (b := x) (n := 1) s'.mem 0 (by omega) x (Nat.le_refl _) (by omega)]
    exact by1 x hxp

theorem walkFrom_alloc {t va : Nat} : ∀ l q (s : Mach κ) k, l ≤ 2 → VmInv H B s live k →
    k q = .node t l (va / 4096 / 512 ^ (l + 1)) → ∀ r s', walkFrom A va true l q s = (r, s') →
    ∃ k', VmInv H B s' live k' ∧ GrowsIn live t s k s' k' ∧
      (r = none ∧ H.fails s'.kmem = H.fails s.kmem + 1 ∨
        ∃ p, k' p = .node t 0 (va / 4096 / 512) ∧ r = some (p + 8 * (va / 4096 % 512)) ∧
          H.fails s'.kmem = H.fails s.kmem) := by
  intro l
  induction l with
  | zero =>
    intro q s k _ h hq r s' e
    simp only [walkFrom, Prod.mk.injEq] at e
    obtain ⟨rfl, rfl⟩ := e
    exact ⟨k, h, .refl .., Or.inr ⟨q, by simpa using hq, rfl, rfl⟩⟩
  | succ l ih =>
    intro q s k hl h hq r s' e
    simp only [walkFrom_succ, Bool.not_true, Bool.false_eq_true, if_false] at e
    have hj : va / 4096 / 512 ^ (l + 1) % 512 < 512 := Nat.mod_lt _ (by decide)
    split at e
    · rename_i hv
      obtain ⟨p, hp, hw⟩ := h.tab.down q t l _ _ hq hj hv
      rw [child_index] at hp
      rw [hw, pte2pa_mkpte (h.tab.nodePage hp) (by decide)] at e
      exact ih p s k (by omega) h hp r s' e
    · rename_i hv
      -- a missing table: one page more, or none left
      rcases ha : A.kalloc s with ⟨_ | p, s1⟩
      · rw [ha] at e
        simp only [Prod.mk.injEq] at e
        obtain ⟨rfl, rfl⟩ := e
        obtain ⟨h1, e1, -, e2⟩ := h.kalloc_none ha
        exact ⟨k, h1, ⟨⟨fun _ _ => rfl, fun _ => Or.inl, fun _ _ _ _ => by rw [e1], fun _ _ => by rw [e1]⟩,
          fun _ => Or.inl⟩, Or.inl ⟨rfl, e2⟩⟩
      · rw [ha] at e
        obtain ⟨k1, h1, g1, hp, e1⟩ := h.addTable ha hq hj (by simpa using hv)
        rw [child_index] at hp
        obtain ⟨k2, h2, g2, hr⟩ := ih p _ k1 (by omega) h1 hp r s' e
        refine ⟨k2, h2, g1.trans g2, ?_⟩
        rwa [← e1]

/-- `walk` with allocation, below MAXVA. -/
theorem walk_alloc (h : VmInv H B s live k) {t va : Nat} (ht : t ∈ live) (hva : va < MAXVA) :
    ∃ r s' k', walk A t va true s = .ok (r, s') ∧ VmInv H B s' live k' ∧ GrowsIn live t s k s' k' ∧
      (r = none ∧ H.fails s'.kmem = H.fails s.kmem + 1 ∨
        ∃ p, k' p = .node t 0 (va / 4096 / 512) ∧ r = some (p + 8 * (va / 4096 % 512)) ∧
          H.fails s'.kmem = H.fails s.kmem) := by
  have hv := vpn_of_lt hva
  rcases e : walkFrom A va true 2 t s with ⟨r, s'⟩
  obtain ⟨k', h'⟩ := walkFrom_alloc 2 t s k (Nat.le_refl _) h (h.tab.rootNode ht hv) r s' e
  exact ⟨r, s', k', by unfold walk; rw [if_neg (by omega), e], h'⟩

/-! ## One round of mappages -/

/-- Where the leaf entry of a valid virtual page is. -/
theorem Tab.slot_valid {m : Mem} (h : Tab B m live k) {t v : Nat} (ht : t ∈ live) (hv : v < VPN)
    (hw : vbit (leaf m t v) = true) :
    ∃ q, k q = .node t 0 (v / 512) ∧ slotFrom m v 2 t = some (q + 8 * (v % 512)) ∧
      m.loadLE (q + 8 * (v % 512)) 8 = leaf m t v := by
  obtain ⟨q, hq, e, _⟩ := h.leaf_valid ht hv hw
  exact ⟨q, hq, h.slot_node ht hv hq, e.symm⟩

theorem mapOne_remap (h : VmInv H B s live k) {t va pa perm : Nat} (ht : t ∈ live) (hva : va < MAXVA)
    (hw : vbit (leaf s.mem t (va / 4096)) = true) : mapOne A t va pa perm s = .error "mappages: remap" := by
  obtain ⟨q, _, hs, hl⟩ := h.tab.slot_valid ht (vpn_of_lt hva) hw
  have e : walk A t va true s = .ok (some (q + 8 * (va / 4096 % 512)), s) := by
    unfold walk
    rw [if_neg (by omega), walkFrom_of_slot va true 2 t s _ hs]
  simp only [mapOne, e, bind, Except.bind, hl, vbit_eq, hw, if_true]

theorem mapOne_ok (h : VmInv H B s live k) {t va : Nat} (pa perm : Nat) (ht : t ∈ live) (hva : va < MAXVA)
    (hw : vbit (leaf s.mem t (va / 4096)) = false) :
    ∃ s1 k1, VmInv H B s1 live k1 ∧ GrowsIn live t s k s1 k1 ∧
      (mapOne A t va pa perm s = .ok (false, s1) ∧ H.fails s1.kmem = H.fails s.kmem + 1 ∨
        ∃ q, k1 q = .node t 0 (va / 4096 / 512) ∧ H.fails s1.kmem = H.fails s.kmem ∧ mapOne A t va pa perm s =
          .ok (true, { s1 with mem := s1.mem.storeLE (q + 8 * (va / 4096 % 512)) 8 (mkpte pa perm) })) := by
  obtain ⟨r, s1, k1, e, h1, g1, ⟨rfl, hf⟩ | ⟨q, hq, rfl, hf⟩⟩ := walk_alloc h ht hva
  · exact ⟨s1, k1, h1, g1, Or.inl ⟨by simp only [mapOne, e, bind, Except.bind], hf⟩⟩
  · refine ⟨s1, k1, h1, g1, Or.inr ⟨q, hq, hf, ?_⟩⟩
    have hl : vbit (s1.mem.loadLE (q + 8 * (va / 4096 % 512)) 8) = false := by
      have := h1.tab.leaf_node ht (vpn_of_lt hva) hq
      rw [g1.leaf t ht _ (vpn_of_lt hva), pte] at this
      rw [← this]; exact hw
    simp only [mapOne, e, bind, Except.bind, vbit_eq, hl, Bool.false_eq_true, if_false, mkpte]

theorem mappages_page {t va pa perm : Nat} (hal : va % 4096 = 0) (hva : va < MAXVA) :
    mappages A t va PGSIZE pa perm s = (mapOne A t va pa perm s).map fun x => (if x.1 then 0 else -1, x.2) := by
  unfold MAXVA at hva
  have e1 : PGROUNDDOWN va = va := by unfold PGROUNDDOWN PGSIZE; omega
  have e2 : PGROUNDDOWN (u64 (va + PGSIZE - 1)) = va := by unfold PGROUNDDOWN PGSIZE u64; omega
  have e3 : u64 (va + 2 ^ 64 - va) / PGSIZE = 0 := by rw [Nat.add_sub_cancel_left]; rfl
  simp only [mappages, e1, e2, e3, mappagesLoop]
  rw [if_neg (by decide)]
  cases mapOne A t va pa perm s <;> rfl

/-! ## A held page becomes a user page -/

theorem VmInv.maps_data (h : VmInv H B s live k) {t v p : Nat} (ht : t ∈ live) (hv : v < VPN)
    (hm : maps s.mem v p t = true) : k p = .data v ∨ B p := by
  simp only [maps, Bool.and_eq_true, beq_iff_eq] at hm
  obtain ⟨_, _, _, hd, _⟩ := h.tab.leaf_valid ht hv hm.1
  rwa [hm.2] at hd

theorem VmInv.mapHeld (h : VmInv H B s live k) {t v p q perm : Nat} (ht : t ∈ live) (hv : v < VPN)
    (hq : k q = .node t 0 (v / 512)) (hn : vbit (leaf s.mem t v) = false) (hp : k p = .held) (hb : ¬ B p)
    (hperm : perm < 1024) (hflag : perm ||| PTE_V ≠ PTE_V) :
    VmInv H B { s with mem := s.mem.storeLE (q + 8 * (v % 512)) 8 (mkpte p perm) } live
      (Function.update k p (.data v)) ∧
      ∀ t' ∈ live, ∀ v' < VPN, leaf (s.mem.storeLE (q + 8 * (v % 512)) 8 (mkpte p perm)) t' v' =
        if t' = t ∧ v' = v then mkpte p perm else leaf s.mem t' v' := by
  have hpg : H.page p := h.page_of (by rw [hp]; simp)
  have hpp := H.page_ok p hpg
  have hj : v % 512 < 512 := Nat.mod_lt _ (by decide)
  have hqp : q ≠ p := by rintro rfl; rw [hp] at hq; cases hq
  have tab1 : Tab B s.mem live (Function.update k p (.data v)) :=
    h.tab.rekind hpp hb (by rw [hp]; simp) (by simp) (fun v' e => by rw [hp] at e; cases e)
  have hq1 : Function.update k p (.data v) q = .node t 0 (v / 512) := by rw [Function.update_of_ne hqp]; exact hq
  have hok : vbit (mkpte p perm) = true →
      LeafOk B (Function.update k p (.data v)) (512 * (v / 512) + v % 512) (mkpte p perm) := fun _ => by
    rw [div_mod_512]
    refine ⟨Or.inl ?_, ?_⟩
    · rw [pte2pa_mkpte hpp hperm, Function.update_self]
    · unfold PTE_FLAGS; rw [mkpte_mod hperm]; exact hflag
  have hlt := mkpte_lt hpp hperm
  have tab2 := tab1.setLeaf hq1 hj hlt hok
  have lf : ∀ t' ∈ live, ∀ v' < VPN, leaf (s.mem.storeLE (q + 8 * (v % 512)) 8 (mkpte p perm)) t' v' =
      if t' = t ∧ v' = v then mkpte p perm else leaf s.mem t' v' := by
    intro t' ht' v' hv'
    rw [tab1.setLeaf_leaf hq1 hj hlt hok ht' hv', div_mod_512]
  -- what each table maps to `r` afterwards
  have hmaps : ∀ r v' t', t' ∈ live → v' < VPN →
      maps (s.mem.storeLE (q + 8 * (v % 512)) 8 (mkpte p perm)) v' r t' =
        if t' = t ∧ v' = v then r == p else maps s.mem v' r t' := by
    intro r v' t' ht' hv'
    unfold maps
    rw [lf t' ht' v' hv']
    split
    · rw [vbit_mkpte hperm, pte2pa_mkpte hpp hperm, Bool.true_and, Bool.beq_comm]
    · rfl
  have hmt : ∀ r, maps s.mem v r t = false := fun r => by simp [maps, hn]
  have hcnt : ∀ r v', k r = .data v' → live.countP (maps (s.mem.storeLE (q + 8 * (v % 512)) 8 (mkpte p perm)) v' r) =
      live.countP (maps s.mem v' r) := by
    intro r v' hr
    refine List.countP_congr fun t' ht' => ?_
    rw [hmaps r v' t' ht' (h.vpn r v' hr)]
    have hne : (r == p) = false := by simp; rintro rfl; rw [hp] at hr; cases hr
    split
    · rename_i e; rw [e.1, e.2, hmt, hne]
    · rfl
  have hone : live.countP (maps (s.mem.storeLE (q + 8 * (v % 512)) 8 (mkpte p perm)) v p) = 1 := by
    have h0 : live.countP (maps s.mem v p) = 0 := by
      rw [List.countP_eq_zero]
      intro t' ht' hm
      rcases h.maps_data ht' hv hm with e | e
      · rw [hp] at e; cases e
      · exact hb e
    have := countP_flip (q := maps (s.mem.storeLE (q + 8 * (v % 512)) 8 (mkpte p perm)) v p) h.nodup ht (hmt p)
      (by rw [hmaps p v t ht hv]; simp)
      (fun t' ht' hne => by rw [hmaps p v t' ht' hv]; simp [hne])
    omega
  have hown : own (s.mem.storeLE (q + 8 * (v % 512)) 8 (mkpte p perm)) live (Function.update k p (.data v)) =
      own s.mem live k := by
    funext r
    by_cases e : r = p
    · subst e; simp [own, ownK, hp, hone]
    · simp only [own, Function.update_of_ne e]
      cases hr : k r with
      | data v' => exact hcnt r v' hr
      | _ => rfl
  refine ⟨⟨tab2, h.nodup, fun r => ?_, by rw [hown]; exact h.alloc_store hq hj, fun r v' hr => ?_, fun r v' hr => ?_,
    by rw [hown]; exact h.capped⟩, lf⟩
  · by_cases e : r = p
    · subst e; simp [hpg]
    · rw [Function.update_of_ne e]; exact h.ext r
  · by_cases e : r = p
    · subst e
      simp only [Function.update_self, Kind.data.injEq] at hr
      rw [← hr, hone]; omega
    · rw [Function.update_of_ne e] at hr
      rw [hcnt r v' hr]; exact h.used r v' hr
  · by_cases e : r = p
    · subst e
      simp only [Function.update_self, Kind.data.injEq] at hr
      rwa [← hr]
    · rw [Function.update_of_ne e] at hr
      exact h.vpn r v' hr

/-! ## A leaf set to a page in use -/

/-- The leaf of `v` under `t` is set to the user page `p`, which it had already or which
    another table has there; the allocator counts the users that then are. -/
theorem VmInv.setData (h : VmInv H B s live k) (s1 : Mach κ) {t v p q perm : Nat} (ht : t ∈ live) (hv : v < VPN)
    (hq : k q = .node t 0 (v / 512)) (hp : k p = .data v) (hold : ∀ w, lookup s.mem t v = some w → PTE2PA w = p)
    (hperm : perm < 1024) (hflag : perm ||| PTE_V ≠ PTE_V)
    (hm : s1.mem = s.mem.storeLE (q + 8 * (v % 512)) 8 (mkpte p perm))
    (ha : H.Inv s1 (Function.update (own s.mem live k) p (live.countP (maps s1.mem v p))))
    (hcap : live.countP (maps s1.mem v p) ≤ H.cap) :
    VmInv H B s1 live k ∧
      ∀ t' ∈ live, ∀ v' < VPN, leaf s1.mem t' v' = if t' = t ∧ v' = v then mkpte p perm else leaf s.mem t' v' := by
  have hpp : IsPage p := h.tab.page p (by rw [hp]; simp)
  have hj : v % 512 < 512 := Nat.mod_lt _ (by decide)
  have hok : vbit (mkpte p perm) = true → LeafOk B k (512 * (v / 512) + v % 512) (mkpte p perm) := fun _ => by
    rw [div_mod_512]
    refine ⟨Or.inl ?_, ?_⟩
    · rw [pte2pa_mkpte hpp hperm]; exact hp
    · unfold PTE_FLAGS; rw [mkpte_mod hperm]; exact hflag
  have hlt := mkpte_lt hpp hperm
  have lf : ∀ t' ∈ live, ∀ v' < VPN,
      leaf s1.mem t' v' = if t' = t ∧ v' = v then mkpte p perm else leaf s.mem t' v' := by
    intro t' ht' v' hv'
    rw [hm, h.tab.setLeaf_leaf hq hj hlt hok ht' hv', div_mod_512]
  -- no page but `p` is mapped more or less often than before
  have hcnt : ∀ r v', r ≠ p → v' < VPN → live.countP (maps s1.mem v' r) = live.countP (maps s.mem v' r) := by
    intro r v' hne hv'
    refine List.countP_congr fun t' ht' => ?_
    unfold maps
    rw [lf t' ht' v' hv']
    split
    · rename_i e
      rw [e.1, e.2, pte2pa_mkpte hpp hperm]
      have hf : (p == r) = false := by simp; exact fun e => hne e.symm
      have : vbit (leaf s.mem t v) = true → PTE2PA (leaf s.mem t v) = p :=
        fun hw => hold _ (lookup_some.mpr ⟨rfl, hw⟩)
      cases hw : vbit (leaf s.mem t v) with
      | true => rw [this hw, hf]; simp
      | false => simp [hf]
    · rfl
  have hown : own s1.mem live k = Function.update (own s.mem live k) p (live.countP (maps s1.mem v p)) := by
    funext r
    by_cases e : r = p
    · subst e; simp [own, hp, ownK]
    · rw [Function.update_of_ne e]
      unfold own
      cases hr : k r with
      | data v' => exact hcnt r v' e (h.vpn r v' hr)
      | _ => rfl
  refine ⟨⟨by rw [hm]; exact h.tab.setLeaf hq hj hlt hok, h.nodup, h.ext, by rw [hown]; exact ha, fun r v' hr => ?_,
    h.vpn,
    fun r => ?_⟩, lf⟩
  · by_cases e : r = p
    · subst e
      obtain rfl := Kind.data.inj (hp.symm.trans hr)
      refine List.countP_pos_iff.mpr ⟨t, ht, ?_⟩
      unfold maps
      rw [lf t ht v hv, if_pos ⟨rfl, rfl⟩, vbit_mkpte hperm, pte2pa_mkpte hpp hperm]
      simp
    · rw [hcnt r v' e (h.vpn r v' hr)]; exact h.used r v' hr
  · rw [hown]
    by_cases e : r = p
    · subst e; rw [Function.update_self]; exact hcap
    · rw [Function.update_of_ne e]; exact h.capped r

/-- The flags of a leaf change. -/
theorem VmInv.reflag (h : VmInv H B s live k) {t v q w perm : Nat} (ht : t ∈ live) (hv : v < VPN)
    (hq : k q = .node t 0 (v / 512)) (hl : lookup s.mem t v = some w) (hp : k (PTE2PA w) = .data v)
    (hperm : perm < 1024) (hflag : perm ||| PTE_V ≠ PTE_V) :
    VmInv H B { s with mem := s.mem.storeLE (q + 8 * (v % 512)) 8 (mkpte (PTE2PA w) perm) } live k ∧
      ∀ t' ∈ live, ∀ v' < VPN, leaf (s.mem.storeLE (q + 8 * (v % 512)) 8 (mkpte (PTE2PA w) perm)) t' v' =
        if t' = t ∧ v' = v then mkpte (PTE2PA w) perm else leaf s.mem t' v' := by
  have hpp : IsPage (PTE2PA w) := h.tab.page _ (by rw [hp]; simp)
  have hj : v % 512 < 512 := Nat.mod_lt _ (by decide)
  have hcnt : live.countP (maps (s.mem.storeLE (q + 8 * (v % 512)) 8 (mkpte (PTE2PA w) perm)) v (PTE2PA w)) =
      own s.mem live k (PTE2PA w) := by
    rw [own, hp]
    refine List.countP_congr fun t' ht' => ?_
    unfold maps
    rw [h.tab.setLeaf_leaf hq hj (mkpte_lt hpp hperm) ?_ ht' hv, div_mod_512]
    · split
      · rename_i e
        rw [e.1, vbit_mkpte hperm, pte2pa_mkpte hpp hperm, (lookup_some.mp hl).1, (lookup_some.mp hl).2]
      · rfl
    · intro _
      rw [div_mod_512]
      exact ⟨Or.inl
        (by rw [pte2pa_mkpte hpp hperm]; exact hp), by unfold PTE_FLAGS; rw [mkpte_mod hperm]; exact hflag⟩
  refine h.setData _ ht hv hq hp (fun w' hw' => by rw [hl] at hw'; rw [Option.some.inj hw']) hperm hflag rfl ?_ ?_
  · rw [hcnt, Function.update_eq_self]
    exact h.alloc_store hq hj
  · rw [hcnt]; exact h.capped _

end Xv6Labs.Vm
