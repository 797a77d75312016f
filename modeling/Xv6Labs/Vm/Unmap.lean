/-
  Xv6Labs.Vm.Unmap — `uvmunmap` and `uvmdealloc`.

  - `VmInv.unmapData`: clearing one leaf that maps a user page, after `kfree`, drops one
    owner of the page; with the last owner the page is free.
  - `unmapLoop_spec`: over any number of pages, uvmunmap(…, 1) either meets an unmapped
    page and panics or clears exactly its range, in every case keeping the invariant.
-/

import Xv6Labs.Vm.Walk

namespace Xv6Labs.Vm

open Lib

variable {κ : Type} {A : Lab κ} {H : AllocSpec A} {B : Nat → Prop} {s s' : Mach κ} {live : List Nat}
    {k k' : Nat → Kind}

theorem Tab.node0_lt {m : Mem} (h : Tab B m live k) {q t i : Nat} (hq : k q = .node t 0 i) : i < 512 ^ 2 := by
  obtain ⟨r, hr⟩ := h.node_above hq 2 (Nat.le_refl _)
  have := ((h.up r t _ _ hr).2.2.1 rfl).2
  exact (Nat.div_eq_zero_iff_lt (by decide)).mp this

/-- When no live table maps `p` at its virtual page, no leaf entry points at it. -/
theorem Tab.noLeaf {m : Mem} (h : Tab B m live k) {p v : Nat} (hp : k p = .data v) (hb : ¬ B p)
    (h0 : live.countP (maps m v p) = 0) : NoLeaf m k p := by
  intro q t i j hq hj hv e
  have hlt := h.node0_lt hq
  have ht := (h.up q t 0 i hq).1
  have hi : (512 * i + j) / 512 = i := by omega
  have hl : leaf m t (512 * i + j) = pte m q j := by
    rw [h.leaf_node ht (by unfold VPN; omega) (by rw [hi]; exact hq), show (512 * i + j) % 512 = j by omega]
  rcases (h.leafs q t i j hq hj hv).1 with hd | hd
  · rw [e, hp] at hd
    obtain rfl := Kind.data.inj hd
    refine (List.countP_eq_zero.mp h0) t ht ?_
    simp [maps, hl, hv, e]
  · rw [e] at hd; exact hb hd

/-- What one cleared user leaf leaves behind. -/
structure Unmapped (live : List Nat) (B : Nat → Prop) (s : Mach κ) (k : Nat → Kind) (t v : Nat) (s' : Mach κ)
    (k' : Nat → Kind) : Prop where
  leaf : ∀ t' ∈ live, ∀ v' < VPN, leaf s'.mem t' v' = if t' = t ∧ v' = v then 0 else Vm.leaf s.mem t' v'
  kind : ∀ r, k' r = k r ∨ k r = .data v ∧ k' r = .free
  bytes : ∀ x, (k' (pageOf x)).plain = true → s'.mem x = s.mem x

theorem VmInv.unmapData (h : VmInv H B s live k) {t v q : Nat} (ht : t ∈ live) (hv : v < VPN)
    (hq : k q = .node t 0 (v / 512)) (hw : vbit (leaf s.mem t v) = true) (hb : ¬ B (PTE2PA (leaf s.mem t v))) :
    ∃ s1 k', A.kfree (PTE2PA (leaf s.mem t v)) s = .ok s1 ∧
      VmInv H B { s1 with mem := s1.mem.storeLE (q + 8 * (v % 512)) 8 0 } live k' ∧
      Unmapped live B s k t v { s1 with mem := s1.mem.storeLE (q + 8 * (v % 512)) 8 0 } k' ∧
      H.fails s1.kmem = H.fails s.kmem := by
  have hj : v % 512 < 512 := Nat.mod_lt _ (by decide)
  obtain ⟨_, _, _, hd, _⟩ := h.tab.leaf_valid ht hv hw
  have hp : k (PTE2PA (leaf s.mem t v)) = .data v := hd.resolve_right hb
  have hmt : maps s.mem v (PTE2PA (leaf s.mem t v)) t = true := by simp [maps, hw]
  have hmr : ∀ r, r ≠ PTE2PA (leaf s.mem t v) → maps s.mem v r t = false := fun r hr => by
    simp [maps, Ne.symm hr]
  generalize PTE2PA (leaf s.mem t v) = p at *
  have hpg : H.page p := h.page_of (by rw [hp]; simp)
  have hpp := H.page_ok p hpg
  have hqp : q ≠ p := by rintro rfl; rw [hp] at hq; cases hq
  have hqi := h.tab.nodePage hq
  have hown : own s.mem live k p = live.countP (maps s.mem v p) := by simp [own, hp, ownK]
  obtain ⟨s1, e1, ha, hf, hx, hx1⟩ := H.kfree_ok h.alloc hpg (by rw [hown]; exact h.used p v hp) (h.capped p)
  rw [hown] at ha hx1
  replace ha : H.Inv { s1 with mem := s1.mem.storeLE (q + 8 * (v % 512)) 8 0 }
      (Function.update (own s.mem live k) p (live.countP (maps s.mem v p) - 1)) := by
    refine H.frame ha rfl fun r hr h0 => agree_store_page s1.mem (H.page_ok r hr).1 hqi.1 hj ?_
    rintro rfl
    rw [Function.update_of_ne hqp] at h0
    have := h.own_zero hr h0
    rw [hq] at this; cases this
  have fr : ∀ r t' l' i', k r = .node t' l' i' → Mem.Agree s.mem s1.mem r 4096 := by
    intro r t' l' i' hr x h1 h2
    have hri := h.tab.nodePage hr
    have hne : r ≠ p := by rintro rfl; rw [hp] at hr; cases hr
    exact hx x (by have := hri.1; have := hpp.1; omega)
  have tab1 := h.tab.frame fr
  have tab2 : Tab B (s1.mem.storeLE (q + 8 * (v % 512)) 8 0) live k :=
    tab1.setLeaf hq hj (by decide) (fun e => by cases e)
  have lf : ∀ t' ∈ live, ∀ v' < VPN, leaf (s1.mem.storeLE (q + 8 * (v % 512)) 8 0) t' v' =
      if t' = t ∧ v' = v then 0 else leaf s.mem t' v' := by
    intro t' ht' v' hv'
    rw [tab1.setLeaf_leaf hq hj (by decide) (fun e => by cases e) ht' hv', div_mod_512, h.tab.leaf_frame fr ht' hv']
  have hmaps : ∀ r v' t', t' ∈ live → v' < VPN → maps (s1.mem.storeLE (q + 8 * (v % 512)) 8 0) v' r t' =
      if t' = t ∧ v' = v then false else maps s.mem v' r t' := by
    intro r v' t' ht' hv'
    unfold maps
    rw [lf t' ht' v' hv']
    split <;> rfl
  have hcnt : ∀ r v', r ≠ p → k r = .data v' →
      live.countP (maps (s1.mem.storeLE (q + 8 * (v % 512)) 8 0) v' r) = live.countP (maps s.mem v' r) := by
    intro r v' hne hr
    refine List.countP_congr fun t' ht' => ?_
    rw [hmaps r v' t' ht' (h.vpn r v' hr)]
    split
    · rename_i e; rw [e.1, e.2, hmr r hne]
    · rfl
  have hdec : live.countP (maps s.mem v p) = live.countP (maps (s1.mem.storeLE (q + 8 * (v % 512)) 8 0) v p) + 1 :=
    countP_flip h.nodup ht (by rw [hmaps p v t ht hv]; simp) hmt
      (fun t' ht' hne => by rw [hmaps p v t' ht' hv]; simp [hne])
  have bytes : ∀ x, pageOf x ≠ q → (pageOf x = p → 1 < live.countP (maps s.mem v p)) →
      s1.mem.storeLE (q + 8 * (v % 512)) 8 0 x = s.mem x := by
    intro x hxq hxp
    have := pageOf_mem hqi.1 hxq
    rw [Mem.storeLE_ne (by omega)]
    by_cases e : pageOf x = p
    · rw [hx1 (hxp e)]
    · exact hx x (pageOf_mem hpp.1 e)
  by_cases hc : live.countP (maps s.mem v p) = 1
  · -- the last owner: the page is free now
    have h0 : live.countP (maps (s1.mem.storeLE (q + 8 * (v % 512)) 8 0) v p) = 0 := by omega
    have hkp : ∀ {r}, r ≠ p → Function.update k p .free r = k r := fun e => Function.update_of_ne e _ _
    have hdat : ∀ {r v'}, Function.update k p .free r = .data v' → r ≠ p ∧ k r = .data v' := by
      intro r v' hr
      have hne : r ≠ p := by rintro rfl; rw [Function.update_self] at hr; cases hr
      exact ⟨hne, hkp hne ▸ hr⟩
    have hownk : own (s1.mem.storeLE (q + 8 * (v % 512)) 8 0) live (Function.update k p .free) =
        Function.update (own s.mem live k) p 0 := by
      funext r
      by_cases e : r = p
      · subst e; simp [own, ownK]
      · rw [Function.update_of_ne e]
        simp only [own, hkp e]
        cases hr : k r with
        | data v' => exact hcnt r v' e hr
        | _ => rfl
    refine ⟨s1, Function.update k p .free, e1,
      ⟨?_, h.nodup, fun r => ?_, ?_, fun r v' hr => ?_, fun r v' hr => ?_, fun r => ?_⟩,
      ⟨lf, fun r => ?_, fun x hx' => bytes x ?_ ?_⟩, hf⟩
    · exact tab2.rekind hpp hb (by rw [hp]; simp) (by simp) (fun v' e => tab2.noLeaf hp hb h0)
    · by_cases e : r = p
      · subst e; simp [hpg]
      · rw [hkp e]; exact h.ext r
    · rw [hownk]; simpa [hc] using ha
    · obtain ⟨hne, hr'⟩ := hdat hr
      rw [hcnt r v' hne hr']; exact h.used r v' hr'
    · exact h.vpn r v' (hdat hr).2
    · rw [hownk]
      by_cases e : r = p
      · subst e; simp
      · rw [Function.update_of_ne e]; exact h.capped r
    · by_cases e : r = p
      · subst e; exact Or.inr ⟨hp, Function.update_self ..⟩
      · exact Or.inl (hkp e)
    · intro e; rw [e, hkp hqp, hq] at hx'; cases hx'
    · intro e; rw [e, Function.update_self] at hx'; cases hx'
  · have hpos := h.used p v hp
    have hownk : own (s1.mem.storeLE (q + 8 * (v % 512)) 8 0) live k =
        Function.update (own s.mem live k) p (live.countP (maps s.mem v p) - 1) := by
      funext r
      by_cases e : r = p
      · subst e
        rw [Function.update_self]
        simp only [own, ownK, hp]; omega
      · rw [Function.update_of_ne e]
        simp only [own]
        cases hr : k r with
        | data v' => exact hcnt r v' e hr
        | _ => rfl
    refine ⟨s1, k, e1, ⟨tab2, h.nodup, h.ext, by rw [hownk]; exact ha, fun r v' hr => ?_, h.vpn, fun r => ?_⟩,
      ⟨lf, fun r => Or.inl rfl, fun x hx' => bytes x (by intro e; rw [e, hq] at hx'; cases hx') (fun _ => by omega)⟩,
        hf⟩
    · by_cases e : r = p
      · subst e
        rw [hp] at hr
        obtain rfl := Kind.data.inj hr
        show 0 < live.countP (maps (s1.mem.storeLE (q + 8 * (v % 512)) 8 0) v r)
        omega
      · rw [hcnt r v' e hr]; exact h.used r v' hr
    · rw [hownk]
      by_cases e : r = p
      · subst e
        rw [Function.update_self]
        have := h.capped r
        rw [hown] at this; omega
      · rw [Function.update_of_ne e]; exact h.capped r

/-! ## uvmunmap -/

theorem Unmapped.lookup {t v : Nat} (hu : Unmapped live B s k t v s' k') {t' v' : Nat} (ht' : t' ∈ live)
    (hv' : v' < VPN) :
    lookup s'.mem t' v' = if t' = t ∧ v' = v then none else Vm.lookup s.mem t' v' := by
  unfold Vm.lookup
  rw [hu.leaf t' ht' v' hv']
  split <;> rfl

theorem Unmapped.byteAt {t v : Nat} (hu : Unmapped live B s k t v s' k') (h' : VmInv H B s' live k')
    {t' va : Nat} (ht' : t' ∈ live) (hva : va / 4096 < VPN) :
    byteAt s'.mem t' va = if t' = t ∧ va / 4096 = v then none else byteAt s.mem t' va := by
  have hl := hu.lookup ht' hva
  split
  · rename_i e
    rw [if_pos e] at hl
    unfold Vm.byteAt
    rw [hl]; rfl
  · rename_i e
    rw [if_neg e] at hl
    symm
    refine h'.tab.byteAt_same ht' hva hl.symm (fun x hx => (hu.bytes x ?_).symm)
    rcases hx with e' | e'
    · rw [e']; rfl
    · rcases h'.tab.lent _ e' with e' | e' <;> rw [e'] <;> rfl

/-- One round of uvmunmap with `do_free` on a mapped user page. -/
theorem unmapOne_free (h : VmInv H B s live k) {t va : Nat} (ht : t ∈ live) (hva : va < MAXVA)
    (hw : vbit (leaf s.mem t (va / 4096)) = true) (hb : ¬ B (PTE2PA (leaf s.mem t (va / 4096)))) :
    ∃ s' k', unmapOne A t va true s = .ok s' ∧ VmInv H B s' live k' ∧ Unmapped live B s k t (va / 4096) s' k' ∧
      H.fails s'.kmem = H.fails s.kmem := by
  have hv := vpn_of_lt hva
  obtain ⟨q, hq, hs, hl⟩ := h.tab.slot_valid ht hv hw
  obtain ⟨_, _, _, _, hfl⟩ := h.tab.leaf_valid ht hv hw
  obtain ⟨s1, k', e1, h1, hu, hf⟩ := h.unmapData ht hv hq hw hb
  refine ⟨_, k', ?_, h1, hu, hf⟩
  have hne : ¬ (leaf s.mem t (va / 4096) &&& PTE_V = 0) := (vbit_eq _).mpr hw
  simp only [unmapOne, walk_false hva, bind, Except.bind, hs, hl, hne, hfl, if_false, if_true, e1]

/-- One round on an unmapped page panics, or passes over it in the mmap lab. -/
theorem unmapOne_invalid {t va : Nat} (hva : va < MAXVA)
    (hw : vbit (leaf s.mem t (va / 4096)) = false) (b : Bool) :
    ¬ (A.skips = true ∧ (slotFrom s.mem (va / 4096) 2 t).isSome = true) ∧ (∃ e, unmapOne A t va b s = .error e) ∨
      A.skips = true ∧ (slotFrom s.mem (va / 4096) 2 t).isSome = true ∧ unmapOne A t va b s = .ok s := by
  have hz : leaf s.mem t (va / 4096) &&& PTE_V = 0 := by
    apply Classical.byContradiction; intro e
    rw [(vbit_eq _).mp e] at hw; cases hw
  simp only [unmapOne, walk_false hva, bind, Except.bind]
  cases hs : slotFrom s.mem (va / 4096) 2 t with
  | none => exact Or.inl ⟨by simp, _, rfl⟩
  | some a =>
    have hl : s.mem.loadLE a 8 = leaf s.mem t (va / 4096) := by rw [leaf, hs]; rfl
    simp only [hl, hz, if_true]
    by_cases hk : A.skips = true
    · exact Or.inr ⟨hk, rfl, by simp [hk]⟩
    · exact Or.inl ⟨by simp [hk], _, by simp [hk]; rfl⟩

theorem unmapOne_past {t va : Nat} (hva : MAXVA ≤ va) (b : Bool) : unmapOne A t va b s = .error "walk" := by
  simp only [unmapOne, walk, if_pos hva, bind, Except.bind]

/-- Virtual pages `[v0, v0 + n)`. -/
def InRange (v0 n v : Nat) : Prop := v0 ≤ v ∧ v < v0 + n

instance (v0 n v : Nat) : Decidable (InRange v0 n v) := inferInstanceAs (Decidable (_ ∧ _))

/-- What clearing the user leaves of a range does: the range reads as unmapped, all
    else as before. -/
structure Cleared (live : List Nat) (s : Mach κ) (k : Nat → Kind) (t v0 n : Nat) (s' : Mach κ)
    (k' : Nat → Kind) : Prop where
  lookup : ∀ t' ∈ live, ∀ v < VPN, lookup s'.mem t' v = if t' = t ∧ InRange v0 n v then none else Vm.lookup s.mem t' v
  byteAt : ∀ t' ∈ live, ∀ va, va / 4096 < VPN →
    Vm.byteAt s'.mem t' va = if t' = t ∧ InRange v0 n (va / 4096) then none else Vm.byteAt s.mem t' va
  kind : ∀ r, k' r = k r ∨ (∃ v, k r = .data v) ∧ k' r = .free
  bytes : ∀ x, k (pageOf x) = .held ∨ k (pageOf x) = .ext → s'.mem x = s.mem x

/-- uvmunmap gets past this page. -/
def CanUnmap (A : Lab κ) (m : Mem) (t v : Nat) : Prop :=
  v < MAXVA / 4096 ∧ ((lookup m t v).isSome = true ∨ A.skips = true ∧ (slotFrom m v 2 t).isSome = true)

/-- No lent page is mapped in the range. -/
def OwnRange (B : Nat → Prop) (m : Mem) (t v0 n : Nat) : Prop :=
  ∀ v < VPN, InRange v0 n v → ∀ w, lookup m t v = some w → ¬ B (PTE2PA w)

theorem Tab.slot_isSome {m : Mem} (h : Tab B m live k) {t v : Nat} (ht : t ∈ live) (hv : v < VPN) :
    (slotFrom m v 2 t).isSome = true ↔ ∃ q, k q = .node t 0 (v / 512) := by
  constructor
  · intro hs
    apply Classical.byContradiction; intro hn
    rw [h.slot_none ht hv (fun q e => hn ⟨q, e⟩)] at hs; cases hs
  · rintro ⟨q, hq⟩
    rw [h.slot_node ht hv hq]; rfl

theorem Cleared.refl (live : List Nat) (s : Mach κ) (k : Nat → Kind) (t v0 : Nat) : Cleared live s k t v0 0 s k := by
  have hn : ∀ v, ¬ InRange v0 0 v := by intro v hv; obtain ⟨_, _⟩ := hv; omega
  exact ⟨fun t' ht' v hv => by rw [if_neg fun e => hn _ e.2], fun t' ht' va hva => by rw [if_neg fun e => hn _ e.2],
    fun _ => Or.inl rfl, fun _ _ => rfl⟩

theorem inRange_succ (v0 n v : Nat) : InRange v0 (n + 1) v ↔ v = v0 ∨ InRange (v0 + 1) n v := by
  unfold InRange; omega

theorem inRange_one (v0 v : Nat) : InRange v0 1 v ↔ v = v0 := by unfold InRange; omega

/-- One page cleared. -/
theorem Unmapped.cleared {t v : Nat} (hu : Unmapped live B s k t v s' k') (h' : VmInv H B s' live k') :
    Cleared live s k t v 1 s' k' := by
  refine ⟨fun t' ht' v' hv' => ?_, fun t' ht' va hva => ?_, fun r => ?_, fun x hx => hu.bytes x ?_⟩
  · simp only [hu.lookup ht' hv', inRange_one]
  · simp only [hu.byteAt h' ht' hva, inRange_one]
  · exact (hu.kind r).imp_right fun e => ⟨⟨_, e.1⟩, e.2⟩
  · have e : k' (pageOf x) = k (pageOf x) := (hu.kind _).resolve_right fun e => by
      rcases hx with e' | e' <;> rw [e'] at e <;> cases e.1
    rw [e]; rcases hx with e' | e' <;> rw [e'] <;> rfl

/-- One page that was not mapped. -/
theorem cleared_invalid (k : Nat → Kind) {t v : Nat} (hw : Vm.lookup s.mem t v = none) :
    Cleared live s k t v 1 s k := by
  refine ⟨fun t' ht' v' hv' => ?_, fun t' ht' va hva => ?_, fun r => Or.inl rfl, fun x hx => rfl⟩
  · split
    · rename_i e; rw [e.1, (inRange_one _ _).mp e.2, hw]
    · rfl
  · split
    · rename_i e; unfold Vm.byteAt; rw [e.1, (inRange_one _ _).mp e.2, hw]; rfl
    · rfl

theorem Cleared.trans {t v0 n n' : Nat} {s1 : Mach κ} {k1 : Nat → Kind} (hc : Cleared live s k t v0 n s1 k1)
    (hc' : Cleared live s1 k1 t (v0 + n) n' s' k') : Cleared live s k t v0 (n + n') s' k' := by
  have hr : ∀ v, InRange v0 (n + n') v ↔ InRange v0 n v ∨ InRange (v0 + n) n' v := by
    intro v; unfold InRange; omega
  refine ⟨fun t' ht' v hv => ?_, fun t' ht' va hva => ?_, fun r => ?_, fun x hx => ?_⟩
  · rw [hc'.lookup t' ht' v hv, hc.lookup t' ht' v hv]
    by_cases e : t' = t <;> by_cases e1 : InRange v0 n v <;> by_cases e2 :
      InRange (v0 + n) n' v <;> simp [hr, e, e1, e2]
  · rw [hc'.byteAt t' ht' va hva, hc.byteAt t' ht' va hva]
    by_cases e : t' = t <;> by_cases e1 : InRange v0 n (va / 4096) <;>
      by_cases e2 : InRange (v0 + n) n' (va / 4096) <;> simp [hr, e, e1, e2]
  · rcases hc.kind r with e1 | ⟨hd, e1⟩
    · rw [← e1]; exact hc'.kind r
    · refine Or.inr ⟨hd, ?_⟩
      rcases hc'.kind r with e2 | e2
      · rw [e2, e1]
      · exact e2.2
  · have e1 : k1 (pageOf x) = k (pageOf x) := (hc.kind _).resolve_right fun e => by
      obtain ⟨⟨v, e⟩, _⟩ := e
      rcases hx with e' | e' <;> rw [e'] at e <;> cases e
    rw [hc'.bytes x (by rw [e1]; exact hx), hc.bytes x hx]

theorem Cleared.node_iff {t v0 n : Nat} (hc : Cleared live s k t v0 n s' k') {q t' l i : Nat} :
    k' q = .node t' l i ↔ k q = .node t' l i := by
  rcases hc.kind q with e | ⟨⟨v, e1⟩, e2⟩
  · rw [e]
  · rw [e1, e2]; simp

theorem Cleared.canUnmap {t v0 n v : Nat} (hc : Cleared live s k t v0 n s' k') (h : VmInv H B s live k)
    (h' : VmInv H B s' live k') (ht : t ∈ live) (hn : ¬ InRange v0 n v) :
    CanUnmap A s'.mem t v ↔ CanUnmap A s.mem t v := by
  unfold CanUnmap
  refine and_congr_right fun hv => ?_
  have hv' : v < VPN := by unfold MAXVA at hv; unfold VPN; omega
  rw [hc.lookup t ht v hv', if_neg (fun e => hn e.2), h.tab.slot_isSome ht hv', h'.tab.slot_isSome ht hv']
  refine or_congr_right (and_congr_right fun _ => ?_)
  exact exists_congr fun q => hc.node_iff

/-- uvmunmap's loop with `do_free`: it panics at the first page it cannot pass, and
    otherwise clears the range. -/
theorem unmapLoop_spec {t : Nat} (ht : t ∈ live) : ∀ n va (s : Mach κ) k, va % 4096 = 0 → VmInv H B s live k →
    OwnRange B s.mem t (va / 4096) n →
    (∀ i < n, CanUnmap A s.mem t (va / 4096 + i)) ∧
        (∃ s' k', unmapLoop A t true n va s = .ok s' ∧ VmInv H B s' live k' ∧
          Cleared live s k t (va / 4096) n s' k' ∧ H.fails s'.kmem = H.fails s.kmem) ∨
      (∃ i < n, ¬ CanUnmap A s.mem t (va / 4096 + i)) ∧ ∃ e, unmapLoop A t true n va s = .error e := by
  intro n
  induction n with
  | zero =>
    intro va s k _ h _
    exact Or.inl ⟨fun i hi => absurd hi (by omega), s, k, rfl, h, .refl .., rfl⟩
  | succ n ih =>
    intro va s k hal h hown
    have hnext : (va + PGSIZE) / 4096 = va / 4096 + 1 := by unfold PGSIZE; omega
    -- a page that cannot be passed ends the run
    have bad : ∀ e, ¬ CanUnmap A s.mem t (va / 4096) → unmapOne A t va true s = .error e →
        (∃ i < n + 1, ¬ CanUnmap A s.mem t (va / 4096 + i)) ∧ ∃ e, unmapLoop A t true (n + 1) va s = .error e :=
      fun e hc he => ⟨⟨0, by omega, hc⟩, e, by simp only [unmapLoop, he, bind, Except.bind]⟩
    -- a page that can leaves the rest of the range to do
    have good : ∀ s1 k1, CanUnmap A s.mem t (va / 4096) → unmapOne A t va true s = .ok s1 → VmInv H B s1 live k1 →
        Cleared live s k t (va / 4096) 1 s1 k1 → H.fails s1.kmem = H.fails s.kmem →
        (∀ i < n + 1, CanUnmap A s.mem t (va / 4096 + i)) ∧
            (∃ s' k', unmapLoop A t true (n + 1) va s = .ok s' ∧ VmInv H B s' live k' ∧
              Cleared live s k t (va / 4096) (n + 1) s' k' ∧ H.fails s'.kmem = H.fails s.kmem) ∨
          (∃ i < n + 1, ¬ CanUnmap A s.mem t (va / 4096 + i)) ∧ ∃ e, unmapLoop A t true (n + 1) va s = .error e := by
      intro s1 k1 hc0 e1 h1 first hf
      have hcan : ∀ i, CanUnmap A s1.mem t (va / 4096 + 1 + i) ↔ CanUnmap A s.mem t (va / 4096 + (i + 1)) :=
        fun i => by
        rw [show va / 4096 + (i + 1) = va / 4096 + 1 + i by omega]
        exact first.canUnmap h h1 ht (by unfold InRange; omega)
      have hown1 : OwnRange B s1.mem t ((va + PGSIZE) / 4096) n := by
        intro v hv hr w hw
        rw [hnext] at hr
        rw [first.lookup t ht v hv, if_neg (by unfold InRange at hr ⊢; omega)] at hw
        exact hown v hv (by unfold InRange at hr ⊢; omega) w hw
      have hrun : unmapLoop A t true (n + 1) va s = unmapLoop A t true n (va + PGSIZE) s1 := by
        simp only [unmapLoop, e1, bind, Except.bind]
      rw [hrun]
      rcases ih (va + PGSIZE) s1 k1 (by unfold PGSIZE; omega) h1 hown1 with ⟨hall, s', k', e', h', hc, hf'⟩ |
        ⟨⟨i, hi, hb⟩, he⟩
      · rw [hnext] at hall hc
        refine Or.inl ⟨fun i hi => ?_, s', k', e',
          h', by rw [Nat.add_comm n 1]; exact first.trans hc, by rw [hf', hf]⟩
        cases i with
        | zero => exact hc0
        | succ i => exact (hcan i).mp (hall i (by omega))
      · rw [hnext] at hb
        exact Or.inr ⟨⟨i + 1, by omega, fun hc => hb ((hcan i).mpr hc)⟩, he⟩
    by_cases hva : va < MAXVA
    · have hv : va / 4096 < MAXVA / 4096 := by unfold MAXVA at hva ⊢; omega
      cases hw : vbit (leaf s.mem t (va / 4096)) with
      | true =>
        obtain ⟨s1, k1, e1, h1, hu, hf⟩ := unmapOne_free h ht hva hw
          (hown _ (vpn_of_lt hva) (by unfold InRange; omega) _ (lookup_some.mpr ⟨rfl, hw⟩))
        exact good s1 k1 ⟨hv, Or.inl (by rw [lookup, hw]; rfl)⟩ e1 h1 (hu.cleared h1) hf
      | false =>
        rcases unmapOne_invalid (A := A) (s := s) hva hw true with ⟨hn, e, he⟩ | ⟨hs, hi, e1⟩
        · refine Or.inr (bad e (fun hc => ?_) he)
          rcases hc.2 with e | e
          · rw [lookup_none.mpr hw] at e; cases e
          · exact hn e
        · exact good s k ⟨hv, Or.inr ⟨hs, hi⟩⟩ e1 h (cleared_invalid k (lookup_none.mpr hw)) rfl
    · refine Or.inr (bad _ (fun hc => ?_) (unmapOne_past (by omega) true))
      have := hc.1
      unfold MAXVA at hva this; omega

theorem uvmunmap_one {t a : Nat} (hal : a % 4096 = 0) (ha : a < MAXVA) (b : Bool) :
    uvmunmap A t a 1 b s = unmapOne A t a b s := by
  unfold MAXVA at ha
  have hn : (u64 (a + u64 (1 * PGSIZE)) - a) / PGSIZE = 1 := by unfold PGSIZE u64; omega
  unfold uvmunmap
  rw [if_neg (by unfold PGSIZE; omega), hn, unmapLoop]
  cases unmapOne A t a b s <;> rfl

end Xv6Labs.Vm
