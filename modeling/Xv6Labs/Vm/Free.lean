/-
  Xv6Labs.Vm.Free — `uvmcreate`, `freewalk`, `uvmfree`.

  - `uvmcreate_spec`: one more table, empty.
  - `freewalk_spec`: a table without leaf mappings is given back page by page and no
    other table notices; with one left freewalk panics.

  freewalk works bottom up: while it is below a table page the tables are not well
  formed, since the page above still points at what was freed. So `freewalk_sub` says
  what freeing one subtree does to the bytes and to the allocator only; clearing the entry
  above makes the tables well formed again (`VmInv.prune`).
-/

import Xv6Labs.Vm.Grow

namespace Xv6Labs.Vm

open Lib

variable {κ : Type} {A : Lab κ} {H : AllocSpec A} {B : Nat → Prop} {s s' : Mach κ} {live : List Nat}
    {k k' : Nat → Kind}

/-! ## uvmcreate -/

/-- A zeroed page the kernel holds is an empty page table. -/
theorem VmInv.newTable (h : VmInv H B s live k) {p : Nat} (hp : k p = .held) (hb : ¬ B p)
    (hz : ∀ x, p ≤ x → x < p + 4096 → s.mem x = 0) :
    VmInv H B s (live ++ [p]) (Function.update k p (.node p 2 0)) ∧ ∀ v < VPN, leaf s.mem p v = 0 := by
  have hpg : H.page p := h.page_of (by rw [hp]; simp)
  have hpl : p ∉ live := fun e => by rw [h.tab.root p e] at hp; cases hp
  have old : ∀ {r}, r ≠ p → Function.update k p (.node p 2 0) r = k r := fun e => Function.update_of_ne e _ _
  have hkn : ∀ {r t l i}, k r = .node t l i → r ≠ p := by rintro r t l i hr rfl; rw [hp] at hr; cases hr
  have new : ∀ {r t l i}, Function.update k p (.node p 2 0) r = .node t l i → r = p ∧ t = p ∧ l = 2 ∧ i = 0 ∨
    k r = .node t l i := by
    intro r t l i hr
    by_cases e : r = p
    · subst e
      rw [Function.update_self] at hr
      obtain ⟨e1, e2, e3⟩ := Kind.node.inj hr
      exact Or.inl ⟨rfl, e1.symm, e2.symm, e3.symm⟩
    · exact Or.inr (old e ▸ hr)
  have tab : Tab B s.mem (live ++ [p]) (Function.update k p (.node p 2 0)) := by
    refine ⟨fun r hr => ?_, fun r hr => ?_, fun t ht => ?_, fun r t l i hr => ?_, fun q t l i j hq hj hv => ?_,
      fun q t i j hq hj hv => ?_⟩
    · by_cases e : r = p
      · subst e; exact H.page_ok r hpg
      · exact h.tab.page r (old e ▸ hr)
    · rw [old (by rintro rfl; exact hb hr)]; exact h.tab.lent r hr
    · rcases List.mem_append.mp ht with ht | ht
      · rw [old (hkn (h.tab.root t ht))]; exact h.tab.root t ht
      · obtain rfl := List.mem_singleton.mp ht
        exact Function.update_self ..
    · rcases new hr with ⟨rfl, rfl, rfl, rfl⟩ | hr
      · exact ⟨by simp, by omega, fun _ => ⟨rfl, rfl⟩, fun e => by omega⟩
      · obtain ⟨h1, h2, h3, h4⟩ := h.tab.up r t l i hr
        refine ⟨List.mem_append_left _ h1, h2, h3, fun hl => ?_⟩
        obtain ⟨q, hq, hw⟩ := h4 hl
        exact ⟨q, by rw [old (hkn hq)]; exact hq, hw⟩
    · rcases new hq with ⟨rfl, -⟩ | hq
      · rw [pte_zero hz hj] at hv; cases hv
      · obtain ⟨r, hr, hw⟩ := h.tab.down q t l i j hq hj hv
        exact ⟨r, by rw [old (hkn hr)]; exact hr, hw⟩
    · rcases new hq with ⟨-, -, e, -⟩ | hq
      · cases e
      · obtain ⟨hd, hf⟩ := h.tab.leafs q t i j hq hj hv
        refine ⟨hd.imp_left fun hd => ?_, hf⟩
        rw [old (by intro e; rw [e, hp] at hd; cases hd)]; exact hd
  have lf : ∀ v < VPN, leaf s.mem p v = 0 := fun v hv => by
    refine tab.leaf_none (by simp) hv fun q hq => ?_
    rcases new hq with ⟨-, -, e, -⟩ | hq
    · cases e
    · exact hpl (h.tab.up q p 0 _ hq).1
  have hcnt : ∀ v < VPN, ∀ r, (live ++ [p]).countP (maps s.mem v r) = live.countP (maps s.mem v r) := fun v hv r => by
    rw [List.countP_append]
    simp [maps, lf v hv, vbit_zero]
  have hdat : ∀ {r v}, Function.update k p (.node p 2 0) r = .data v ↔ k r = .data v :=
    fun {_ v} => update_node (by rw [hp]; simp) (by simp)
  have ho : own s.mem (live ++ [p]) (Function.update k p (.node p 2 0)) = own s.mem live k := by
    funext r
    by_cases e : r = p
    · subst e; simp [own, hp, ownK]
    · simp only [own, old e]
      cases hr : k r with
      | data v => exact hcnt v (h.vpn r v hr) r
      | _ => rfl
  refine ⟨⟨tab, ?_, fun r => ?_, by rw [ho]; exact h.alloc, fun r v hr => ?_, fun r v hr => h.vpn r v (hdat.mp hr),
    by rw [ho]; exact h.capped⟩, lf⟩
  · rw [List.nodup_append]
    exact ⟨h.nodup, by simp, fun a ha b hb' => by rw [List.mem_singleton.mp hb']; rintro rfl; exact hpl ha⟩
  · by_cases e : r = p
    · subst e; simp [hpg]
    · rw [old e]; exact h.ext r
  · rw [hcnt v (h.vpn r v (hdat.mp hr)) r]; exact h.used r v (hdat.mp hr)

theorem uvmcreate_spec (h : VmInv H B s live k) :
    (∃ s', uvmcreate A s = (none, s') ∧ VmInv H B s' live k ∧ Kept live s k s' k ∧
      H.fails s'.kmem = H.fails s.kmem + 1) ∨
      ∃ p s' k', uvmcreate A s = (some p, s') ∧ p ∉ live ∧ VmInv H B s' (live ++ [p]) k' ∧ Kept live s k s' k' ∧
        (∀ v < VPN, lookup s'.mem p v = none) ∧ H.fails s'.kmem = H.fails s.kmem ∧ AddsTables p k k' := by
  rcases e : A.kalloc s with ⟨_ | p, s1⟩
  · obtain ⟨h1, -, -, hf⟩ := h.kalloc_none e
    exact Or.inl ⟨s1, by simp only [uvmcreate, e], h1, kept_kalloc_none h e, hf⟩
  · obtain ⟨hfree, hp, hb, h1, lf1, by1, hf⟩ := h.kalloc_fill e (set_off s1.mem 0 (h.kalloc_some e).2.1.1)
    obtain ⟨h2, lf2⟩ := h1.newTable (Function.update_self ..) hb (fun x hx hy => Mem.set_in _ 0 hx hy)
    have hpl : p ∉ live := fun e => by rw [h.tab.root p e] at hfree; cases hfree
    have old : ∀ {r}, k r ≠ .free → r ≠ p := by rintro r hr rfl; exact hr hfree
    refine Or.inr ⟨p, _, _, by simp only [uvmcreate, e], hpl, h2, ⟨fun t ht v hv => lookup_congr (lf1 t ht v hv),
      fun t ht va hva => ?_, fun r => ?_, fun t _ q l i hq => ?_⟩,
        fun v hv => lookup_none.mpr (by rw [lf2 v hv]; rfl), hf, fun r => ?_⟩
    · refine h.tab.byteAt_same ht hva (lookup_congr (lf1 t ht _ hva)) fun x hx => by1 x (old ?_)
      rcases hx with e | e
      · rw [e]; simp
      · rcases h.tab.lent _ e with e | e <;> rw [e] <;> simp
    · by_cases e : r = p
      · subst e; simp [hfree]
      · rw [Function.update_of_ne e, Function.update_of_ne e]
    · have hne := old (r := q) (by rw [hq]; simp)
      rw [Function.update_of_ne hne, Function.update_of_ne hne, hq]
    · by_cases e : r = p
      · subst e
        exact Or.inr ⟨hfree, 2, 0, Function.update_self ..⟩
      · rw [Function.update_of_ne e, Function.update_of_ne e]
        exact Or.inl rfl

theorem uvmcreate_some (h : VmInv H B s live k) {p : Nat} (e : uvmcreate A s = (some p, s')) :
    ∃ k', p ∉ live ∧ VmInv H B s' (live ++ [p]) k' ∧ Kept live s k s' k' ∧ (∀ v < VPN, lookup s'.mem p v = none) ∧
      AddsTables p k k' := by
  rcases uvmcreate_spec (A := A) h with ⟨s1, e1, -⟩ | ⟨q, s1, k1, e1, hn, v1, kp, hz, -, a⟩
  · rw [e] at e1
    cases e1
  · rw [e] at e1
    obtain ⟨ep, es⟩ := Prod.mk.inj e1
    cases es
    cases ep
    exact ⟨k1, hn, v1, kp, hz, a⟩

/-! ## Subtrees -/

/-- A table page of `t` at or below its page of level `l` and index `c`. -/
def Sub (t l c : Nat) : Kind → Prop
  | .node t' l' i => t' = t ∧ l' ≤ l ∧ i / 512 ^ (l - l') = c
  | _ => False

instance (t l c : Nat) (x : Kind) : Decidable (Sub t l c x) :=
  match x with
  | .node .. => inferInstanceAs (Decidable (_ ∧ _ ∧ _))
  | .ext | .free | .held | .data _ => inferInstanceAs (Decidable False)

theorem sub_self (t l c : Nat) : Sub t l c (.node t l c) := ⟨rfl, Nat.le_refl _, by simp⟩

/-- What is above a page of the subtree is in it too, or is the page above the subtree. -/
theorem sub_up {t l c t' l' i' j' : Nat} (h : Sub t l c (.node t' l' (512 * i' + j'))) (hj : j' < 512) :
    Sub t l c (.node t' (l' + 1) i') ∨ t' = t ∧ l' = l ∧ 512 * i' + j' = c := by
  obtain ⟨e1, e2, e3⟩ := h
  rcases Nat.eq_or_lt_of_le e2 with rfl | hlt
  · exact Or.inr ⟨e1, rfl, by simpa using e3⟩
  · refine Or.inl ⟨e1, hlt, ?_⟩
    rw [show l - l' = (l - (l' + 1)) + 1 by omega, Nat.pow_succ', ← Nat.div_div_eq_div_mul,
      show (512 * i' + j') / 512 = i' by omega] at e3
    exact e3

theorem sub_down {t l c t' l' i : Nat} (h : Sub t l c (.node t' (l' + 1) (i / 512))) : Sub t l c (.node t' l' i) := by
  obtain ⟨e1, e2, e3⟩ := h
  refine ⟨e1, by omega, ?_⟩
  rw [show l - l' = (l - (l' + 1)) + 1 by omega, Nat.pow_succ', ← Nat.div_div_eq_div_mul]
  exact e3

/-- A page of a smaller subtree. -/
theorem sub_mono {t l i j : Nat} {x : Kind} (h : Sub t l (512 * i + j) x) (hj : j < 512) : Sub t (l + 1) i x := by
  cases x with
  | node t' l' i' =>
    obtain ⟨e1, e2, e3⟩ := h
    refine ⟨e1, by omega, ?_⟩
    rw [show l + 1 - l' = (l - l') + 1 by omega, Nat.pow_succ, ← Nat.div_div_eq_div_mul, e3]; omega
  | ext => exact h
  | free => exact h
  | held => exact h
  | data v => exact h

/-- The pages of a subtree given back. -/
def prune (k : Nat → Kind) (t l c : Nat) : Nat → Kind := fun r => if Sub t l c (k r) then .free else k r

theorem prune_node {t l c t' l' i r : Nat} (h : prune k t l c r = .node t' l' i) :
    k r = .node t' l' i ∧ ¬ Sub t l c (k r) := by
  unfold prune at h
  split at h
  · cases h
  · exact ⟨h, by assumption⟩

theorem prune_of_not {t l c r : Nat} (h : ¬ Sub t l c (k r)) : prune k t l c r = k r := if_neg h

theorem prune_data {t l c v r : Nat} : prune k t l c r = .data v ↔ k r = .data v := by
  unfold prune
  split
  · rename_i h
    constructor
    · intro e; cases e
    · intro e; rw [e] at h; cases h
  · rfl

/-- No leaf is mapped under the subtree. -/
def Bare (m : Mem) (t l c : Nat) : Prop := ∀ v < VPN, v / 512 ^ (l + 1) = c → lookup m t v = none

/-- Entry `j` of a level-`l+1` page is cleared after what is below it was given back:
    the tables are well formed again. -/
theorem VmInv.prune (h : VmInv H B s live k) {q t l i j : Nat} {s1 : Mach κ} (hq : k q = .node t (l + 1) i)
    (hj : j < 512) (hbare : Bare s.mem t l (512 * i + j))
    (hm : ∀ x, ¬ Sub t l (512 * i + j) (k (pageOf x)) → s1.mem x = s.mem x)
    (ha : H.Inv s1 (fun r => if Sub t l (512 * i + j) (k r) then 0 else own s.mem live k r)) :
    VmInv H B { s1 with mem := s1.mem.storeLE (q + 8 * j) 8 0 } live (Vm.prune k t l (512 * i + j)) ∧
      ∀ t' ∈ live, ∀ v < VPN, lookup (s1.mem.storeLE (q + 8 * j) 8 0) t' v = lookup s.mem t' v := by
  have hqi := h.tab.nodePage hq
  have hqs : ¬ Sub t l (512 * i + j) (k q) := by rw [hq]; rintro ⟨-, e, -⟩; omega
  have agree : ∀ {r}, IsPage r → ¬ Sub t l (512 * i + j) (k r) → Mem.Agree s.mem s1.mem r 4096 :=
    fun {r} hr hn x h1 h2 =>
    hm x (by rwa [show pageOf x = r by unfold pageOf; have := hr.1; omega])
  have other : ∀ {r j'}, IsPage r → ¬ Sub t l (512 * i + j) (k r) → j' < 512 → (r = q → j' ≠ j) →
      pte (s1.mem.storeLE (q + 8 * j) 8 0) r j' = pte s.mem r j' := by
    intro r j' hr hn hj' hne
    rw [← pte_agree (agree hr hn) hj']
    by_cases e : r = q
    · rw [e]; exact pte_store_ne _ (hne e)
    · exact pte_agree (agree_store_page _ hr.1 hqi.1 hj e) hj'
  have zero : pte (s1.mem.storeLE (q + 8 * j) 8 0) q j = 0 := pte_store_same _ q j 0 (by decide)
  have tab : Tab B (s1.mem.storeLE (q + 8 * j) 8 0) live (Vm.prune k t l (512 * i + j)) := by
    refine ⟨fun r hr => ?_, fun r hr => ?_, fun t' ht' => ?_, fun r t' l' i' hr => ?_, fun u t' l' i' j' hu hj' hv =>
      ?_,
      fun u t' i' j' hu hj' hv => ?_⟩
    · apply h.tab.page r
      intro e; apply hr
      rw [prune_of_not (by rw [e]; exact id), e]
    · rcases h.tab.lent r hr with e | e
      · exact Or.inl (by rw [prune_of_not (by rw [e]; exact id), e])
      · exact Or.inr (by rw [prune_of_not (by rw [e]; exact id), e])
    · have e := h.tab.root t' ht'
      have hl : l + 1 ≤ 2 := (h.tab.up q t _ _ hq).2.1
      rw [prune_of_not (by rw [e]; rintro ⟨-, e', -⟩; omega), e]
    · obtain ⟨hr, hn⟩ := prune_node hr
      obtain ⟨h1, h2, h3, h4⟩ := h.tab.up r t' l' i' hr
      refine ⟨h1, h2, h3, fun hl => ?_⟩
      obtain ⟨u, hu, hw⟩ := h4 hl
      have hun : ¬ Sub t l (512 * i + j) (k u) := fun e => hn (by rw [hr]; rw [hu] at e; exact sub_down e)
      refine ⟨u, by rw [prune_of_not hun, hu], ?_⟩
      rw [other (h.tab.nodePage hu) hun (Nat.mod_lt _ (by decide)), hw]
      -- the cleared entry pointed into the subtree
      rintro rfl e
      rw [hq] at hu
      obtain ⟨e1, e2, e3⟩ := Kind.node.inj hu
      have e2 : l' = l := by omega
      refine hn ?_
      rw [hr, ← e1, e2, show i' = 512 * i + j by omega]
      exact sub_self ..
    · obtain ⟨hku, hn⟩ := prune_node hu
      by_cases e : u = q ∧ j' = j
      · rw [e.1, e.2, zero] at hv; cases hv
      · rw [other (h.tab.nodePage hku) hn hj' (fun e1 e2 => e ⟨e1, e2⟩)] at hv ⊢
        obtain ⟨p, hp, hw⟩ := h.tab.down u t' l' i' j' hku hj' hv
        have hpn : ¬ Sub t l (512 * i + j) (k p) := by
          rw [hp]
          intro hs
          rcases sub_up hs hj' with hs | ⟨rfl, rfl, e'⟩
          · exact hn (by rw [hku]; exact hs)
          · refine e ⟨h.tab.node_unique hku ?_, by omega⟩
            rw [hq, show i' = i by omega]
        exact ⟨p, by rw [prune_of_not hpn, hp], hw⟩
    · obtain ⟨hu, hn⟩ := prune_node hu
      have hne : u ≠ q := by rintro rfl; rw [hq] at hu; cases hu
      rw [other (h.tab.nodePage hu) hn hj' (fun e => absurd e hne)] at hv ⊢
      obtain ⟨hd, hf⟩ := h.tab.leafs u t' i' j' hu hj' hv
      exact ⟨hd.imp_left fun hd => prune_data.mpr hd, hf⟩
  have lk : ∀ t' ∈ live, ∀ v < VPN, lookup (s1.mem.storeLE (q + 8 * j) 8 0) t' v = lookup s.mem t' v := by
    intro t' ht' v hv
    by_cases hs : Sub t l (512 * i + j) (.node t' 0 (v / 512))
    · obtain ⟨rfl, -, e⟩ := hs
      rw [Nat.sub_zero, Nat.div_div_eq_div_mul, ← Nat.pow_succ'] at e
      rw [hbare v hv e, lookup_none, tab.leaf_none ht' hv]
      · rfl
      · intro r hr
        obtain ⟨hr, hn⟩ := prune_node hr
        refine hn ?_
        rw [hr]
        refine ⟨rfl, by omega, ?_⟩
        rw [Nat.sub_zero, Nat.div_div_eq_div_mul, ← Nat.pow_succ']; exact e
    · apply lookup_congr
      by_cases hr : ∃ r, k r = .node t' 0 (v / 512)
      · obtain ⟨r, hr⟩ := hr
        have hn : ¬ Sub t l (512 * i + j) (k r) := by rw [hr]; exact hs
        rw [h.tab.leaf_node ht' hv hr, tab.leaf_node ht' hv (by rw [prune_of_not hn]; exact hr),
          other (h.tab.nodePage hr) hn (Nat.mod_lt _ (by decide)) (fun e => by rw [e, hq] at hr; cases hr)]
      · rw [h.tab.leaf_none ht' hv (fun r e => hr ⟨r, e⟩), tab.leaf_none ht' hv (fun r e => hr ⟨r, (prune_node e).1⟩)]
  have hmp : ∀ v < VPN, ∀ r, live.countP (maps (s1.mem.storeLE (q + 8 * j) 8 0) v r) = live.countP (maps s.mem v r) :=
    fun v hv r => List.countP_congr fun t' ht' => by rw [maps_lookup, maps_lookup, lk t' ht' v hv]
  have ho : own (s1.mem.storeLE (q + 8 * j) 8 0) live (Vm.prune k t l (512 * i + j)) =
      fun r => if Sub t l (512 * i + j) (k r) then 0 else own s.mem live k r := by
    funext r
    unfold own Vm.prune
    split
    · rfl
    · cases hr : k r with
      | data v => exact hmp v (h.vpn r v hr) r
      | _ => rfl
  refine ⟨⟨tab, h.nodup, fun r => ?_, ?_, fun r v hr => ?_, fun r v hr => h.vpn r v (prune_data.mp hr), fun r => ?_⟩,
    lk⟩
  · rw [← h.ext r]
    unfold Vm.prune
    split
    · rename_i hs
      constructor
      · intro e; cases e
      · intro e; rw [e] at hs; cases hs
    · rfl
  · rw [ho]
    refine H.frame ha rfl fun r hr h0 => agree_store_page _ (H.page_ok r hr).1 hqi.1 hj ?_
    rintro rfl
    simp only [hqs, if_false] at h0
    have := h.own_zero hr h0
    rw [hq] at this; cases this
  · rw [hmp v (h.vpn r v (prune_data.mp hr)) r]; exact h.used r v (prune_data.mp hr)
  · rw [ho]
    show (if Sub t l (512 * i + j) (k r) then 0 else own s.mem live k r) ≤ H.cap
    split
    · exact Nat.zero_le _
    · exact h.capped r

/-! ## freewalk -/

/-- Every leaf of the table has one of the flags freewalk tells leaves by. -/
def RwxLeaves (m : Mem) (t : Nat) : Prop :=
  ∀ v < VPN, ∀ w, lookup m t v = some w → w &&& (PTE_R ||| PTE_W ||| PTE_X) ≠ 0

/-- The last page of a subtree is given back. -/
theorem VmInv.freeTop (h : VmInv H B s live k) {q t l i : Nat} (hq : k q = .node t l i)
    (hone : ∀ r, Sub t l i (k r) → r = q) :
    ∃ s', A.kfree q s = .ok s' ∧ (∀ x, ¬ Sub t l i (k (pageOf x)) → s'.mem x = s.mem x) ∧
      H.Inv s' (fun r => if Sub t l i (k r) then 0 else own s.mem live k r) ∧ H.fails s'.kmem = H.fails s.kmem := by
  have hpg : H.page q := h.page_of (by rw [hq]; simp)
  have ho : own s.mem live k q = 1 := by simp [own, hq, ownK]
  obtain ⟨s', e, ha, hf, hx, -⟩ := H.kfree_ok h.alloc hpg (by omega) (h.capped q)
  have hs : Sub t l i (k q) := by rw [hq]; exact sub_self ..
  refine ⟨s', e, fun x hn => hx x (pageOf_mem (H.page_ok q hpg).1 (by rintro rfl; exact hn hs)), ?_, hf⟩
  rw [ho] at ha
  convert ha using 1
  funext r
  by_cases e : r = q
  · subst e; simp [hs]
  · rw [Function.update_of_ne e, if_neg (fun h => e (hone r h))]

/-- A table page whose entries are all invalid has nothing below it. -/
theorem Tab.sub_one {m : Mem} (h : Tab B m live k) {q t l i : Nat} (hq : k q = .node t (l + 1) i)
    (hz : ∀ j < 512, vbit (pte m q j) = false) (r : Nat) (hr : Sub t (l + 1) i (k r)) : r = q := by
  cases hk : k r with
  | node t' l' i' =>
    rw [hk] at hr
    obtain ⟨rfl, hl, e⟩ := hr
    rcases Nat.eq_or_lt_of_le hl with rfl | hlt
    · exact h.node_unique hk (by rw [hq]; simpa using e.symm)
    · have hl2 := (h.up q t' _ _ hq).2.1
      obtain ⟨p, hp⟩ := h.node_above hk (l - l') (by omega)
      obtain ⟨u, hu, hw⟩ := (h.up p t' _ _ hp).2.2.2 (by omega)
      rw [Nat.div_div_eq_div_mul, ← Nat.pow_succ, show (l - l').succ = l + 1 - l' by omega, e,
        show l' + (l - l') + 1 = l + 1 by omega] at hu
      have := hz _ (Nat.mod_lt (i' / 512 ^ (l - l')) (by decide : 0 < 512))
      rw [h.node_unique hq hu, hw, vbit_mkpte (by decide)] at this
      cases this
  | ext => rw [hk] at hr; cases hr
  | free => rw [hk] at hr; cases hr
  | held => rw [hk] at hr; cases hr
  | data v => rw [hk] at hr; cases hr

/-- freewalk's loop over a page of leaf entries. -/
theorem freewalkLoop_leafs (down : Nat → Mach κ → Except String (Mach κ)) {q : Nat}
    (hx : ∀ j < 512, vbit (pte s.mem q j) = true → pte s.mem q j &&& (PTE_R ||| PTE_W ||| PTE_X) ≠ 0) :
    ∀ n ≤ 512, ((∀ j, 512 - n ≤ j → j < 512 → vbit (pte s.mem q j) = false) ∧ freewalkLoop down q n s = .ok s) ∨
      (∃ j < 512, vbit (pte s.mem q j) = true) ∧ ∃ e, freewalkLoop down q n s = .error e := by
  intro n
  induction n with
  | zero => intro _; exact Or.inl ⟨fun j h1 h2 => by omega, rfl⟩
  | succ n ih =>
    intro hn
    have hw : s.mem.loadLE (q + 8 * (511 - n)) 8 = pte s.mem q (511 - n) := rfl
    simp only [freewalkLoop, hw, vbit_eq]
    cases hv : vbit (pte s.mem q (511 - n)) with
    | true =>
      rw [if_neg (fun e => hx _ (by omega) hv e.2), if_pos rfl]
      exact Or.inr ⟨⟨511 - n, by omega, hv⟩, _, rfl⟩
    | false =>
      rw [if_neg (fun e => by cases e.1), if_neg (by simp)]
      rcases ih (by omega) with ⟨hz, e⟩ | he
      · refine Or.inl ⟨fun j h1 h2 => ?_, e⟩
        by_cases hj : j = 511 - n
        · rw [hj]; exact hv
        · exact hz j (by omega) h2
      · exact Or.inr he

/-- What the table pages below `q` that were given back leave. -/
structure Freed (live : List Nat) (s : Mach κ) (k : Nat → Kind) (q t l i : Nat) (s' : Mach κ)
    (k' : Nat → Kind) : Prop where
  kind : ∀ r, k' r = k r ∨ Sub t l i (k r) ∧ r ≠ q ∧ k' r = .free
  bytes : ∀ x, ¬ Sub t l i (k (pageOf x)) → s'.mem x = s.mem x
  lookup : ∀ t' ∈ live, ∀ v < VPN, lookup s'.mem t' v = Vm.lookup s.mem t' v

theorem Freed.refl (live : List Nat) (s : Mach κ) (k : Nat → Kind) (q t l i : Nat) : Freed live s k q t l i s k :=
  ⟨fun _ => Or.inl rfl, fun _ _ => rfl, fun _ _ _ _ => rfl⟩

theorem Freed.trans {q t l i : Nat} {s1 : Mach κ} {k1 : Nat → Kind} (h : Freed live s k q t l i s1 k1)
    (h' : Freed live s1 k1 q t l i s' k') : Freed live s k q t l i s' k' := by
  refine ⟨fun r => ?_, fun x hx => ?_, fun t' ht' v hv => (h'.lookup t' ht' v hv).trans (h.lookup t' ht' v hv)⟩
  · rcases h.kind r with e | ⟨e1, e2, e3⟩
    · rw [← e]; exact h'.kind r
    · refine Or.inr ⟨e1, e2, ?_⟩
      rcases h'.kind r with e | e
      · rw [e, e3]
      · exact e.2.2
  · have hx1 : ¬ Sub t l i (k1 (pageOf x)) := by
      rcases h.kind (pageOf x) with e | e
      · rwa [e]
      · exact absurd e.1 hx
    rw [h'.bytes x hx1, h.bytes x hx]

theorem bare_congr {m m' : Mem} {t l c : Nat} (h : ∀ v < VPN, lookup m' t v = lookup m t v) : Bare m' t l c ↔
    Bare m t l c := by
  constructor
  · intro hb v hv e; rw [← h v hv]; exact hb v hv e
  · intro hb v hv e; rw [h v hv]; exact hb v hv e

theorem rwx_congr {m m' : Mem} {t : Nat} (h : ∀ v < VPN, lookup m' t v = lookup m t v) (hx : RwxLeaves m t) :
    RwxLeaves m' t := by
  intro v hv w hw; rw [h v hv] at hw; exact hx v hv w hw

/-- What freeing the subtree of table page `p` must do. -/
def FreesSub (H : AllocSpec A) (B : Nat → Prop) (live : List Nat) (t l : Nat)
    (down : Nat → Mach κ → Except String (Mach κ)) : Prop :=
  ∀ q i s k, VmInv H B s live k → k q = .node t l i → RwxLeaves s.mem t →
    (Bare s.mem t l i ∧ ∃ s', down q s = .ok s' ∧
        (∀ x, ¬ Sub t l i (k (pageOf x)) → s'.mem x = s.mem x) ∧
        H.Inv s' (fun r => if Sub t l i (k r) then 0 else own s.mem live k r) ∧ H.fails s'.kmem = H.fails s.kmem) ∨
      (¬ Bare s.mem t l i) ∧ ∃ e, down q s = .error e

/-- freewalk's loop over a page of pointers to tables; the entries before the current one
    are clear. -/
theorem freewalkLoop_tables {t l q i : Nat} {down : Nat → Mach κ → Except String (Mach κ)} (ht : t ∈ live)
    (hdown : FreesSub H B live t l down) : ∀ n ≤ 512, ∀ (s : Mach κ) k, VmInv H B s live k → k q = .node t (l + 1) i →
      RwxLeaves s.mem t →
    (∀ j < 512 - n, vbit (pte s.mem q j) = false) →
    ((∀ j, 512 - n ≤ j → j < 512 → Bare s.mem t l (512 * i + j)) ∧ ∃ s' k',
        freewalkLoop down q n s = .ok s' ∧ VmInv H B s' live k' ∧
        Freed live s k q t (l + 1) i s' k' ∧ (∀ j < 512, vbit (pte s'.mem q j) = false) ∧
        H.fails s'.kmem = H.fails s.kmem) ∨
      (∃ j < 512, ¬ Bare s.mem t l (512 * i + j)) ∧
        ∃ e, freewalkLoop down q n s = .error e := by
  intro n
  induction n with
  | zero =>
    intro _ s k h _ _ hz
    exact Or.inl ⟨fun j h1 h2 => by omega, s, k, rfl, h, .refl .., hz, rfl⟩
  | succ n ihn =>
    intro hn s k h hq hrwx hz
    have hw : s.mem.loadLE (q + 8 * (511 - n)) 8 = pte s.mem q (511 - n) := rfl
    have hj : 511 - n < 512 := by omega
    simp only [freewalkLoop, hw, vbit_eq]
    cases hv : vbit (pte s.mem q (511 - n)) with
    | true =>
      obtain ⟨p, hp, hwp⟩ := h.tab.down q t l i _ hq hj hv
      have hpa : PTE2PA (pte s.mem q (511 - n)) = p := by rw [hwp, pte2pa_mkpte (h.tab.nodePage hp) (by decide)]
      have hfl : pte s.mem q (511 - n) &&& (PTE_R ||| PTE_W ||| PTE_X) = 0 := by rw [hwp]; exact mkpte_table p
      rw [if_pos ⟨rfl, hfl⟩, hpa]
      rcases hdown p (512 * i + (511 - n)) s k h hp hrwx with ⟨hb, s1, e1, hm1, ha1, hf1⟩ | ⟨hb, e, he⟩
      · obtain ⟨h2, lk2⟩ := h.prune hq hj hb hm1 ha1
        have hqs : ¬ Sub t l (512 * i + (511 - n)) (k q) := by rw [hq]; rintro ⟨-, e, -⟩; omega
        have hqi := h.tab.nodePage hq
        have first : Freed live s k q t (l + 1) i { s1 with mem := s1.mem.storeLE (q + 8 * (511 - n)) 8 0 }
            (Vm.prune k t l (512 * i + (511 - n))) := by
          refine ⟨fun r => ?_, fun x hx => ?_, lk2⟩
          · unfold Vm.prune
            split
            · rename_i hs
              exact Or.inr ⟨sub_mono hs hj, by rintro rfl; exact hqs hs, rfl⟩
            · exact Or.inl rfl
          · have hne : pageOf x ≠ q := by rintro e; rw [e, hq] at hx; exact hx (sub_self ..)
            have := pageOf_mem hqi.1 hne
            show s1.mem.storeLE (q + 8 * (511 - n)) 8 0 x = s.mem x
            rw [Mem.storeLE_ne (by omega)]
            exact hm1 x fun hs => hx (sub_mono hs hj)
        have hag : Mem.Agree s.mem s1.mem q 4096 := fun x h1 h2 =>
          hm1 x (by rwa [show pageOf x = q by unfold pageOf; have := hqi.1; omega])
        have hz2 : ∀ j < 512 - n, vbit (pte (s1.mem.storeLE (q + 8 * (511 - n)) 8 0) q j) = false := fun j hj' => by
          by_cases e : j = 511 - n
          · rw [e, pte_store_same _ q _ 0 (by decide)]; rfl
          · rw [pte_store_ne _ e, pte_agree hag (by omega)]; exact hz j (by omega)
        have hrun : (do
            let s ← down p s
            freewalkLoop down q n { s with mem := s.mem.storeLE (q + 8 * (511 - n)) 8 0 }) =
            freewalkLoop down q n { s1 with mem := s1.mem.storeLE (q + 8 * (511 - n)) 8 0 } := by
          rw [e1]; rfl
        rw [hrun]
        have bc : ∀ c, Bare (s1.mem.storeLE (q + 8 * (511 - n)) 8 0) t l c ↔ Bare s.mem t l c := fun c =>
          bare_congr fun v hv => lk2 t ht v hv
        rcases ihn (by omega) _ _ h2 (by rw [prune_of_not hqs]; exact hq) (rwx_congr (lk2 t ht) hrwx) hz2 with
          ⟨hball, s', k', e', h', fr, hz', hf'⟩ | ⟨⟨j, hj', hb'⟩, e', he'⟩
        · refine Or.inl ⟨fun j h1 h2 => ?_, s', k', e', h', first.trans fr, hz', by rw [hf']; exact hf1⟩
          by_cases e : j = 511 - n
          · rw [e]; exact hb
          · exact (bc _).mp (hball j (by omega) h2)
        · exact Or.inr ⟨⟨j, hj', fun hb'' => hb' ((bc _).mpr hb'')⟩, e', he'⟩
      · refine Or.inr ⟨⟨511 - n, hj, hb⟩, e, ?_⟩
        rw [he]; rfl
    | false =>
      rw [if_neg (fun e => by cases e.1), if_neg (by simp)]
      have hz2 : ∀ j < 512 - n, vbit (pte s.mem q j) = false := fun j hj' => by
        by_cases e : j = 511 - n
        · rw [e]; exact hv
        · exact hz j (by omega)
      have hb : Bare s.mem t l (512 * i + (511 - n)) := by
        intro v hv' hvi
        have hl2 := (h.tab.up q t _ _ hq).2.1
        rw [lookup_none, h.tab.leaf_none ht hv' (h.tab.no_node (l := l) (q := q) ?_ (by omega) ?_)]
        · rfl
        · rw [hq, show l + 2 = l + 1 + 1 from rfl, Nat.pow_succ, ← Nat.div_div_eq_div_mul, hvi,
            show (512 * i + (511 - n)) / 512 = i by omega]
        · rw [hvi, show (512 * i + (511 - n)) % 512 = 511 - n by omega]; exact hv
      rcases ihn (by omega) s k h hq hrwx hz2 with ⟨hball, s', k', e', h', fr, hz', hf'⟩ | he
      · refine Or.inl ⟨fun j h1 h2 => ?_, s', k', e', h', fr, hz', hf'⟩
        by_cases e : j = 511 - n
        · rw [e]; exact hb
        · exact hball j (by omega) h2
      · exact Or.inr he

/-- Freeing one subtree, at any depth that is enough for its levels. -/
theorem freewalk_sub {t : Nat} (ht : t ∈ live) : ∀ l d, FreesSub H B live t l (freewalkDepth A (l + 1 + d)) := by
  intro l
  induction l with
  | zero =>
    intro d q i s k h hq hrwx
    have hi := h.tab.node0_lt hq
    -- the entries of the page are the leaves of the subtree
    have hlf : ∀ j < 512, leaf s.mem t (512 * i + j) = pte s.mem q j := fun j hj => by
      rw [h.tab.leaf_node ht (by unfold VPN; omega) (by rw [hq, show (512 * i + j) / 512 = i by omega]),
        show (512 * i + j) % 512 = j by omega]
    have hlk : ∀ j < 512, lookup s.mem t (512 * i + j) =
      if vbit (pte s.mem q j) then some (pte s.mem q j) else none := fun j hj => by
      unfold lookup; rw [hlf j hj]
    have hx : ∀ j < 512, vbit (pte s.mem q j) = true → pte s.mem q j &&& (PTE_R ||| PTE_W ||| PTE_X) ≠ 0 :=
      fun j hj hv =>
      hrwx (512 * i + j) (by unfold VPN; omega) _ (by rw [hlk j hj, hv]; rfl)
    rw [show 0 + 1 + d = d + 1 by omega]
    rcases freewalkLoop_leafs (freewalkDepth A d) hx 512 (Nat.le_refl _) with ⟨hz, e⟩ | ⟨⟨j, hj, hv⟩, e, he⟩
    · obtain ⟨s', e', hm, ha, hf⟩ := h.freeTop hq fun r hr => by
        cases hk : k r with
        | node t' l' i' =>
          rw [hk] at hr
          obtain ⟨rfl, hl, e⟩ := hr
          obtain rfl : l' = 0 := by omega
          exact h.tab.node_unique hk (by rw [hq]; simpa using e.symm)
        | ext => rw [hk] at hr; cases hr
        | free => rw [hk] at hr; cases hr
        | held => rw [hk] at hr; cases hr
        | data v => rw [hk] at hr; cases hr
      refine Or.inl ⟨fun v hv hvi => ?_, s', ?_, hm, ha, hf⟩
      · rw [show v = 512 * i + v % 512 by omega, hlk _ (Nat.mod_lt _ (by decide)),
          hz _ (by omega) (Nat.mod_lt _ (by decide))]
        rfl
      · simp only [freewalkDepth, e, bind, Except.bind]; exact e'
    · refine Or.inr ⟨fun hb => ?_, e, by simp only [freewalkDepth, he, bind, Except.bind]⟩
      have := hb (512 * i + j) (by unfold VPN; omega) (by omega)
      rw [hlk j hj, hv] at this
      cases this
  | succ l ih =>
    intro d q i s k h hq hrwx
    rw [show l + 1 + 1 + d = l + 1 + d + 1 by omega]
    rcases freewalkLoop_tables ht (ih d) 512 (Nat.le_refl _) s k h hq hrwx (fun j hj => by omega) with
      ⟨hball, s1, k1, e1, h1, fr, hz, hf1⟩ | ⟨⟨j, hj, hb⟩, e, he⟩
    · have hq1 : k1 q = .node t (l + 1) i := by
        rcases fr.kind q with e | e
        · rw [e, hq]
        · exact absurd rfl e.2.1
      have hone := h1.tab.sub_one hq1 hz
      obtain ⟨s', e', hm, ha, hf⟩ := h1.freeTop hq1 hone
      -- what was below `q` is free by now
      have hsub : ∀ r, Sub t (l + 1) i (k1 r) → Sub t (l + 1) i (k r) := fun r hr => by
        rw [hone r hr, hq]; exact sub_self ..
      refine Or.inl ⟨fun v hv hvi => ?_, s', ?_, fun x hx => ?_, ?_, by rw [hf, hf1]⟩
      · refine hball (v / 512 ^ (l + 1) % 512) (by omega) (Nat.mod_lt _ (by decide)) v hv ?_
        rw [← hvi, child_index]
      · simp only [freewalkDepth, e1, bind, Except.bind]; exact e'
      · rw [hm x (fun hs => hx (hsub _ hs)), fr.bytes x hx]
      · convert ha using 1
        funext r
        by_cases hs : Sub t (l + 1) i (k r)
        · rw [if_pos hs]
          by_cases hs1 : Sub t (l + 1) i (k1 r)
          · rw [if_pos hs1]
          · rw [if_neg hs1]
            rcases fr.kind r with e | ⟨-, -, e⟩
            · rw [e] at hs1; exact absurd hs hs1
            · simp [own, e, ownK]
        · rw [if_neg hs, if_neg (fun hs1 => hs (hsub r hs1))]
          have ek : k1 r = k r := by
            rcases fr.kind r with e | e
            · exact e
            · exact absurd e.1 hs
          unfold own
          rw [ek]
          cases hr : k r with
          | data v =>
            exact List.countP_congr fun t' ht' => by rw [maps_lookup, maps_lookup, fr.lookup t' ht' v (h.vpn r v hr)]
          | _ => rfl
    · refine Or.inr ⟨fun hb' => hb fun v hv hvi => hb' v hv ?_, e, ?_⟩
      · rw [Nat.pow_succ, ← Nat.div_div_eq_div_mul, hvi]; omega
      · simp only [freewalkDepth, he, bind, Except.bind]

/-! ## A whole table -/

theorem Tab.sub_root {m : Mem} (h : Tab B m live k) {t r t' l i : Nat} (hr : k r = .node t' l i) :
    Sub t 2 0 (k r) ↔ t' = t := by
  rw [hr]
  refine ⟨fun hs => hs.1, fun e => ⟨e, (h.up r t' l i hr).2.1, ?_⟩⟩
  have hl := (h.up r t' l i hr).2.1
  obtain ⟨u, hu⟩ := h.node_above hr (2 - l) (by omega)
  exact ((h.up u t' _ _ hu).2.2.1 (by omega)).2

/-- A table without leaf mappings whose pages were given back is gone. -/
theorem VmInv.dropTable (h : VmInv H B s live k) {t : Nat} {s' : Mach κ} (ht : t ∈ live)
    (hbare : ∀ v < VPN, lookup s.mem t v = none) (hm : ∀ x, ¬ Sub t 2 0 (k (pageOf x)) → s'.mem x = s.mem x)
    (ha : H.Inv s' (fun r => if Sub t 2 0 (k r) then 0 else own s.mem live k r)) :
    VmInv H B s' (live.erase t) (Vm.prune k t 2 0) ∧ Kept (live.erase t) s k s' (Vm.prune k t 2 0) := by
  have mem : ∀ {t'}, t' ∈ live.erase t ↔ t' ≠ t ∧ t' ∈ live := fun {t'} => h.nodup.mem_erase_iff
  have agree : ∀ {r t' l i}, k r = .node t' l i → t' ≠ t → Mem.Agree s.mem s'.mem r 4096 :=
    fun {r t' l i} hr hn x h1 h2 => by
    have hri := h.tab.nodePage hr
    refine hm x ?_
    rw [show pageOf x = r by unfold pageOf; have := hri.1; omega, h.tab.sub_root hr]
    exact hn
  have hnode : ∀ {r t' l i}, Vm.prune k t 2 0 r = .node t' l i ↔ k r = .node t' l i ∧ t' ≠ t := by
    intro r t' l i
    constructor
    · intro hr
      obtain ⟨hr, hn⟩ := prune_node hr
      exact ⟨hr, fun e => hn ((h.tab.sub_root hr).mpr e)⟩
    · rintro ⟨hr, hn⟩
      rw [prune_of_not (fun hs => hn ((h.tab.sub_root hr).mp hs)), hr]
  have hplain : ∀ {r}, k r = .held ∨ k r = .ext → Vm.prune k t 2 0 r = k r := by
    rintro r (e | e) <;> exact prune_of_not (by rw [e]; exact id)
  have tab : Tab B s'.mem (live.erase t) (Vm.prune k t 2 0) := by
    refine ⟨fun r hr => ?_, fun r hr => ?_, fun t' ht' => ?_, fun r t' l i hr => ?_, fun q t' l i j hq hj hv => ?_,
      fun q t' i j hq hj hv => ?_⟩
    · exact h.tab.page r (fun e => hr (by rw [hplain (Or.inr e), e]))
    · have := h.tab.lent r hr
      rwa [hplain this]
    · obtain ⟨hn, ht'⟩ := mem.mp ht'
      exact hnode.mpr ⟨h.tab.root t' ht', hn⟩
    · obtain ⟨hr, hn⟩ := hnode.mp hr
      obtain ⟨h1, h2, h3, h4⟩ := h.tab.up r t' l i hr
      refine ⟨mem.mpr ⟨hn, h1⟩, h2, h3, fun hl => ?_⟩
      obtain ⟨q, hq, hw⟩ := h4 hl
      exact ⟨q, hnode.mpr ⟨hq, hn⟩, by rw [pte_agree (agree hq hn) (Nat.mod_lt _ (by decide)), hw]⟩
    · obtain ⟨hq, hn⟩ := hnode.mp hq
      rw [pte_agree (agree hq hn) hj] at hv ⊢
      obtain ⟨p, hp, hw⟩ := h.tab.down q t' l i j hq hj hv
      exact ⟨p, hnode.mpr ⟨hp, hn⟩, hw⟩
    · obtain ⟨hq, hn⟩ := hnode.mp hq
      rw [pte_agree (agree hq hn) hj] at hv ⊢
      obtain ⟨hd, hf⟩ := h.tab.leafs q t' i j hq hj hv
      exact ⟨hd.imp_left fun hd => prune_data.mpr hd, hf⟩
  have lf : ∀ t' ∈ live.erase t, ∀ v < VPN, leaf s'.mem t' v = leaf s.mem t' v := by
    intro t' ht' v hv
    obtain ⟨hn, htl⟩ := mem.mp ht'
    by_cases hr : ∃ r, k r = .node t' 0 (v / 512)
    · obtain ⟨r, hr⟩ := hr
      rw [h.tab.leaf_node htl hv hr, tab.leaf_node ht' hv (hnode.mpr ⟨hr, hn⟩),
        pte_agree (agree hr hn) (Nat.mod_lt _ (by decide))]
    · rw [h.tab.leaf_none htl hv (fun r e => hr ⟨r, e⟩), tab.leaf_none ht' hv (fun r e => hr ⟨r, (hnode.mp e).1⟩)]
  have hcnt : ∀ v < VPN, ∀ r, (live.erase t).countP (maps s'.mem v r) = live.countP (maps s.mem v r) := by
    intro v hv r
    rw [(List.perm_cons_erase ht).countP_eq, List.countP_cons_of_neg (by rw [maps_lookup, hbare v hv]; simp)]
    exact List.countP_congr fun t' ht' => by rw [maps_congr (lf t' ht' v hv)]
  have ho : own s'.mem (live.erase t) (Vm.prune k t 2 0) = fun r =>
    if Sub t 2 0 (k r) then 0 else own s.mem live k r := by
    funext r
    unfold own Vm.prune
    split
    · rfl
    · cases hr : k r with
      | data v => exact hcnt v (h.vpn r v hr) r
      | _ => rfl
  refine ⟨⟨tab, h.nodup.erase t, fun r => ?_, by rw [ho]; exact ha, fun r v hr => ?_,
    fun r v hr => h.vpn r v (prune_data.mp hr),
    fun r => ?_⟩, ⟨fun t' ht' v hv => lookup_congr (lf t' ht' v hv), fun t' ht' va hva => ?_, fun r => ?_,
      fun t' ht' q l i hq => ?_⟩⟩
  · rw [← h.ext r]
    unfold Vm.prune
    split
    · rename_i hs
      constructor
      · intro e; cases e
      · intro e; rw [e] at hs; cases hs
    · rfl
  · rw [hcnt v (h.vpn r v (prune_data.mp hr)) r]; exact h.used r v (prune_data.mp hr)
  · rw [ho]
    show (if Sub t 2 0 (k r) then 0 else own s.mem live k r) ≤ H.cap
    split
    · exact Nat.zero_le _
    · exact h.capped r
  · refine h.tab.byteAt_same (mem.mp ht').2 hva (lookup_congr (lf t' ht' _ hva)) fun x hx => hm x ?_
    rcases hx with e | e
    · rw [e]; exact id
    · rcases h.tab.lent _ e with e | e <;> rw [e] <;> exact id
  · unfold Vm.prune
    split
    · rename_i hs
      constructor
      · intro e; cases e
      · intro e; rw [e] at hs; cases hs
    · rfl
  · exact hnode.mpr ⟨hq, (mem.mp ht').1⟩

/-- A table without leaf mappings is given back. -/
theorem freewalk_bare (h : VmInv H B s live k) {t : Nat} (ht : t ∈ live) (hn : ∀ v < VPN, lookup s.mem t v = none) :
    ∃ s', freewalk A t s = .ok s' ∧ VmInv H B s' (live.erase t) (prune k t 2 0) ∧
      Kept (live.erase t) s k s' (prune k t 2 0) ∧
      H.fails s'.kmem = H.fails s.kmem := by
  have hx : RwxLeaves s.mem t := fun v hv w hw => by
    rw [hn v hv] at hw
    cases hw
  rcases freewalk_sub ht 2 61 t 0 s k h (h.tab.root t ht) hx with ⟨-, s', e, hm, ha, hf⟩ | ⟨hb, -⟩
  · obtain ⟨h', hk⟩ := h.dropTable ht hn hm ha
    exact ⟨s', e, h', hk, hf⟩
  · exact absurd (fun v hv _ => hn v hv) hb

theorem freewalk_spec (h : VmInv H B s live k) {t : Nat} (ht : t ∈ live) (hx : RwxLeaves s.mem t) :
    ((∀ v < VPN, lookup s.mem t v = none) ∧ ∃ s' k', freewalk A t s = .ok s' ∧ VmInv H B s' (live.erase t) k' ∧
        Kept (live.erase t) s k s' k' ∧ H.fails s'.kmem = H.fails s.kmem) ∨
      (¬ ∀ v < VPN, lookup s.mem t v = none) ∧ ∃ e, freewalk A t s = .error e := by
  have hb : Bare s.mem t 2 0 ↔ ∀ v < VPN, lookup s.mem t v = none :=
    ⟨fun hb v hv => hb v hv (root_index hv), fun hb v hv _ => hb v hv⟩
  rcases freewalk_sub ht 2 61 t 0 s k h (h.tab.root t ht) hx with ⟨hbare, -⟩ | he
  · obtain ⟨s', e, h', hk, hf⟩ := freewalk_bare h ht (hb.mp hbare)
    exact Or.inl ⟨hb.mp hbare, s', _, e, h', hk, hf⟩
  · exact Or.inr ⟨fun hn => he.1 (hb.mpr hn), he.2⟩

/-! ## uvmfree -/

theorem Cleared.kept {t v0 n : Nat} (hc : Cleared live s k t v0 n s' k') (hn : live.Nodup) :
    Kept (live.erase t) s k s' k' := by
  refine ⟨fun t' ht' v hv => ?_, fun t' ht' va hva => ?_, fun r => ?_, fun t' _ q l i hq => hc.node_iff.mpr hq⟩
  · obtain ⟨hne, ht'⟩ := hn.mem_erase_iff.mp ht'
    rw [hc.lookup t' ht' v hv, if_neg (fun e => hne e.1)]
  · obtain ⟨hne, ht'⟩ := hn.mem_erase_iff.mp ht'
    rw [hc.byteAt t' ht' va hva, if_neg (fun e => hne e.1)]
  · rcases hc.kind r with e | ⟨⟨v, e1⟩, e2⟩
    · rw [e]
    · rw [e1, e2]; simp

theorem uvmfree_eq (t sz : Nat) (s : Mach κ) : uvmfree A t sz s =
    (unmapLoop A t true (if sz > 0 then PGROUNDUP sz / 4096 else 0) 0 s).bind (freewalk A t) := by
  unfold uvmfree
  by_cases h : sz > 0
  · have hlt : PGROUNDUP sz < 2 ^ 64 := Nat.lt_of_le_of_lt (Nat.div_mul_le_self _ _) (u64_lt _)
    have hcount : (u64 (0 + u64 (PGROUNDUP sz / PGSIZE * PGSIZE)) - 0) / PGSIZE = PGROUNDUP sz / 4096 := by
      have e : PGROUNDUP sz / PGSIZE * PGSIZE = PGROUNDUP sz := by have := pgroundup_mod sz; unfold PGSIZE; omega
      rw [e, Nat.zero_add, u64_of_lt hlt, u64_of_lt hlt, Nat.sub_zero]
    simp only [if_pos h, uvmunmap, hcount]
    rfl
  · simp only [if_neg h]
    rfl

/-- `uvmfree` gives a table back that maps all of the pages below `sz` (those it can pass
    over apart) and none above, and panics on any other. -/
theorem uvmfree_spec (h : VmInv H B s live k) {t : Nat} (sz : Nat) (ht : t ∈ live) (hx : RwxLeaves s.mem t)
    (hown : OwnRange B s.mem t 0 (PGROUNDUP sz / 4096)) :
    let n := if sz > 0 then PGROUNDUP sz / 4096 else 0
    let fits := (∀ i < n, CanUnmap A s.mem t i) ∧ ∀ v < VPN, n ≤ v → lookup s.mem t v = none
    (fits ∧ ∃ s' k', uvmfree A t sz s = .ok s' ∧ VmInv H B s' (live.erase t) k' ∧ Kept (live.erase t) s k s' k' ∧
        H.fails s'.kmem = H.fails s.kmem) ∨
      ¬ fits ∧ ∃ e, uvmfree A t sz s = .error e := by
  rw [uvmfree_eq]
  have hown' : OwnRange B s.mem t (0 / 4096) (if sz > 0 then PGROUNDUP sz / 4096 else 0) := fun v hv hr w hw => by
    refine hown v hv ?_ w hw
    split at hr
    · exact hr
    · unfold InRange at hr; omega
  generalize hn : (if sz > 0 then PGROUNDUP sz / 4096 else 0) = n at hown' ⊢
  rcases unmapLoop_spec ht n 0 s k rfl h hown' with ⟨hall, s1, k1, e1, h1, hc, hf1⟩ | ⟨⟨i, hi, hb⟩, e, he⟩
  · have hr : ∀ v, InRange (0 / 4096) n v ↔ v < n := fun v => by unfold InRange; omega
    have hlk : ∀ v < VPN, lookup s1.mem t v = if v < n then none else lookup s.mem t v := fun v hv => by
      rw [hc.lookup t ht v hv]
      by_cases e : v < n
      · rw [if_pos ⟨rfl, (hr v).mpr e⟩, if_pos e]
      · rw [if_neg (fun e' => e ((hr v).mp e'.2)), if_neg e]
    have hx1 : RwxLeaves s1.mem t := fun v hv w hw => by
      rw [hlk v hv] at hw
      split at hw
      · cases hw
      · exact hx v hv w hw
    have hbare : (∀ v < VPN, lookup s1.mem t v = none) ↔ ∀ v < VPN, n ≤ v → lookup s.mem t v = none := by
      refine forall₂_congr fun v hv => ?_
      rw [hlk v hv]
      by_cases e : v < n
      · simp [e]
      · simp [e, Nat.le_of_not_lt e]
    have hbind : (unmapLoop A t true n 0 s).bind (freewalk A t) = freewalk A t s1 := by rw [e1]; rfl
    rw [hbind]
    simp only [Nat.zero_div, Nat.zero_add] at hall
    rcases freewalk_spec h1 ht hx1 with ⟨hb, s', k', e', h', hk, hf⟩ | ⟨hb, he⟩
    · exact Or.inl ⟨⟨hall, hbare.mp hb⟩, s', k', e', h', (hc.kept h.nodup).trans hk, by rw [hf, hf1]⟩
    · exact Or.inr ⟨fun hfits => hb (hbare.mpr hfits.2), he⟩
  · simp only [Nat.zero_div, Nat.zero_add] at hb
    exact Or.inr ⟨fun hfits => hb (hfits.1 i hi), e, by rw [he]; rfl⟩

end Xv6Labs.Vm
