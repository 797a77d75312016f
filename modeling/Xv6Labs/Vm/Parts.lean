/-
  Xv6Labs.Vm.Parts — one address space, over different parts of the memory.

  A space is well formed over a set of pages: its own, and those that are free. Which other
  pages the set has does not matter, so two spaces that share only free pages can each be
  followed over a set of their own, and brought together again (`Alive.review`).
-/

import Xv6Labs.Vm.Leak

namespace Xv6Labs.Plain

open Lib Vm

variable {I : Image} {b : Bool} {P P' : List Nat} {hP : ∀ p ∈ P, Page I p} {hP' : ∀ p ∈ P', Page I p} {B : Nat → Prop}
  {s s' : Mach Kmem} {live : List Nat} {k k' : Nat → Kind} {t sz : Nat}

/-- The free list is the pages counted as free. -/
theorem VmInv.freeList (h : VmInv (partSpec I b P hP) B s live k) : ∃ free, FreeList I s free ∧ ∀ p, p ∈ free ↔
    k p = .free := by
  obtain ⟨free, hl, hf⟩ := h.alloc
  refine ⟨free, hl, fun p => ⟨fun hp => ?_, fun hp => ?_⟩⟩
  · obtain ⟨h1, h2⟩ := within_zero ((hf p (hl.page p hp)).mp hp)
    exact h.own_zero h1 h2
  · have h1 : p ∈ P := h.page_of (by simp [hp])
    apply (hf p (hP p h1)).mpr
    simp [within, h1, Vm.own, hp, ownK]

/-- `k'` differs from `k` in what is free and what is not looked at. -/
structure Reviewed (k k' : Nat → Kind) : Prop where
  keep : ∀ p, k p ≠ .free → k p ≠ .ext → k' p = k p
  rest : ∀ p, k p = .free ∨ k p = .ext → k' p = .free ∨ k' p = .ext

theorem Reviewed.iff (h : Reviewed k k') {p : Nat} {x : Kind} (h1 : x ≠ .free) (h2 : x ≠ .ext) : k' p = x ↔
    k p = x := by
  by_cases e : k p = .free ∨ k p = .ext
  · rcases e with e | e <;> rcases h.rest p (by simp [e]) with e' | e' <;> simp [e, e', h1.symm, h2.symm]
  · rw [h.keep p (fun e' => e (Or.inl e')) fun e' => e (Or.inr e')]

theorem Reviewed.node (h : Reviewed k k') {p l i : Nat} : k' p = .node t l i ↔ k p = .node t l i :=
  h.iff (by simp) (by simp)

theorem Reviewed.data (h : Reviewed k k') {p v : Nat} : k' p = .data v ↔ k p = .data v := h.iff (by simp) (by simp)

theorem VmInv.review (h : VmInv (partSpec I b P hP) B s live k) (hr : Reviewed k k')
    (hext : ∀ p, k' p = .ext ↔ p ∉ P') (hB : ∀ p, B p → p ∉ P')
    (hm : ∀ q t l i, k q = .node t l i → Mem.Agree s.mem s'.mem q 4096) {free : List Nat} (hfree : FreeList I s' free)
    (hf : ∀ p, p ∈ free ↔ k' p = .free) :
    VmInv (partSpec I b P' hP') B s' live k' ∧ ∀ t ∈ live, ∀ v < VPN, leaf s'.mem t v = leaf s.mem t v := by
  have tab := h.tab.frame hm
  have lf : ∀ t ∈ live, ∀ v < VPN, leaf s'.mem t v = leaf s.mem t v := fun t ht v hv => h.tab.leaf_frame hm ht hv
  have hused : ∀ p v, k p = .data v → 0 < live.countP (maps s'.mem v p) := fun p v hp => by
    rw [List.countP_congr fun t ht => by rw [maps_congr (lf t ht v (h.vpn p v hp))]]
    exact h.used p v hp
  have hin : ∀ {p}, k' p ≠ .ext → p ∈ P' := fun {p} hp => by
    by_contra hn
    exact hp ((hext p).mpr hn)
  refine ⟨⟨⟨fun p hp => (hP' p (hin hp)).isPage, fun p hp => Or.inr ((hext p).mpr (hB p hp)),
    fun t ht => hr.node.mpr (tab.root t ht), fun p t l i hp => ?_,
    fun q t l i j hq hj hv => ?_, fun q t i j hq hj hv => ?_⟩, h.nodup, hext, ⟨free, hfree, fun p hp => ?_⟩,
      fun p v hp => hused p v (hr.data.mp hp),
    fun p v hp => h.vpn p v (hr.data.mp hp), fun p => ?_⟩, lf⟩
  · obtain ⟨h1, h2, h3, h4⟩ := tab.up p t l i (hr.node.mp hp)
    refine ⟨h1, h2, h3, fun hl => ?_⟩
    obtain ⟨q, hq, hw⟩ := h4 hl
    exact ⟨q, hr.node.mpr hq, hw⟩
  · obtain ⟨p, hp, hw⟩ := tab.down q t l i j (hr.node.mp hq) hj hv
    exact ⟨p, hr.node.mpr hp, hw⟩
  · obtain ⟨h1, h2⟩ := tab.leafs q t i j (hr.node.mp hq) hj hv
    exact ⟨h1.imp_left hr.data.mpr, h2⟩
  · rw [hf]
    constructor
    · intro e
      have h1 : p ∈ P' := hin (by simp [e])
      simp [within, h1, Vm.own, e, ownK]
    · intro e
      obtain ⟨h1, h2⟩ := within_zero e
      unfold Vm.own at h2
      cases hk : k' p with
      | free => rfl
      | ext => exact absurd h1 ((hext p).mp hk)
      | data v =>
        have := hused p v (hr.data.mp hk)
        rw [hk, ownK] at h2
        omega
      | held => simp [hk, ownK] at h2
      | node t l i => simp [hk, ownK] at h2
  · have hc := h.capped p
    unfold Vm.own at hc ⊢
    cases hk : k' p with
    | data v =>
      rw [hr.data.mp hk, ownK] at hc
      rw [ownK, List.countP_congr fun t ht => by rw [maps_congr (lf t ht v (h.vpn p v (hr.data.mp hk)))]]
      exact hc
    | _ => simp [ownK, partSpec]

/-- The same space over the pages `P'`, when only other pages changed. -/
theorem Alive.review (h : Alive (partSpec I b P hP) B s t sz k) (hr : Reviewed k k')
    (hext : ∀ p, k' p = .ext ↔ p ∉ P') (hB : ∀ p, B p → p ∉ P')
    (hm : ∀ q t l i, k q = .node t l i → Mem.Agree s.mem s'.mem q 4096) {free : List Nat} (hfree : FreeList I s' free)
    (hf : ∀ p, p ∈ free ↔ k' p = .free) :
    Alive (partSpec I b P' hP') B s' t sz k' ∧ ∀ v < VPN, lookup s'.mem t v = lookup s.mem t v := by
  obtain ⟨h1, lf⟩ := VmInv.review h.inv hr hext hB hm hfree hf
  have hl : ∀ v < VPN, lookup s'.mem t v = lookup s.mem t v := fun v hv => lookup_congr (lf t (by simp) v hv)
  exact ⟨⟨h1, h.sized.congr hl, fun p hp => h.held p ((hr.iff (by simp) (by simp)).mp hp)⟩, hl⟩

/-- The old space is freed, and a new one on pages that were free is the process's. -/
theorem Alive.replace (h : Alive (partSpec I false P hP) B s t sz k) {free : List Nat} (hfree : FreeList I s free)
    {t2 sz2 : Nat} {k2 : Nat → Kind} {s2 : Mach Kmem}
    (h2 : Alive (partSpec I false free hfree.page) B s2 t2 sz2 k2) (hB : ∀ p, B p → p ∉ P)
    (hm : ∀ q t l i, k q = .node t l i → Mem.Agree s.mem s2.mem q 4096) :
    ∃ s3 k3 free3, proc_freepagetable (lab I false) t sz s2 = .ok s3 ∧ Alive (partSpec I false P hP) B s3 t2 sz2 k3 ∧
      (∀ v < VPN, lookup s3.mem t2 v = lookup s2.mem t2 v) ∧ FreeList I s3 free3 ∧ (∀ p ∈ P, p ∉ free → p ∈ free3) ∧
      SameOutside (· ∈ P) s2.mem s3.mem ∧ ∀ va, va / 4096 < VPN → byteAt s3.mem t2 va = byteAt s2.mem t2 va := by
  have hf : ∀ p, p ∈ free ↔ k p = .free := by
    obtain ⟨free', hl, hf⟩ := VmInv.freeList h.inv
    rw [hfree.unique hl]
    exact hf
  have hsub : ∀ {p}, p ∈ free → p ∈ P := fun {p} hp => h.inv.page_of (by simp [(hf p).mp hp])
  have hin2 : ∀ {p}, k2 p ≠ .ext → p ∈ free := fun {p} hp => h2.inv.page_of hp
  -- the old space's pages, and those the new space did not take
  let Q := P.filter fun p => p ∉ free ∨ k2 p = .free
  have hQ : ∀ p, p ∈ Q ↔ p ∈ P ∧ (p ∉ free ∨ k2 p = .free) := fun p => by simp [Q]
  obtain ⟨free2, hl2, hf2⟩ := VmInv.freeList h2.inv
  have hold : Alive (partSpec I false Q fun p hp => hP p ((hQ p).mp hp).1) B s2 t sz
    (fun p => if p ∈ Q then k p else .ext) := by
    refine (Alive.review h ⟨fun p h1 h3 => ?_, fun p hp => ?_⟩ (fun p => ?_)
      (fun p hp hq => hB p hp ((hQ p).mp hq).1) hm hl2 fun p => ?_).1
    · have hp : p ∈ P := h.inv.page_of h3
      exact if_pos ((hQ p).mpr ⟨hp, Or.inl fun e => h1 ((hf p).mp e)⟩)
    · split
      · exact hp
      · exact Or.inr rfl
    · by_cases hq : p ∈ Q
      · rw [if_pos hq, h.inv.ext]
        exact ⟨fun e => absurd ((hQ p).mp hq).1 e, fun e => absurd hq e⟩
      · simp [hq]
    · rw [hf2]
      constructor
      · intro e
        have hp := hin2 (p := p) (by simp [e])
        rw [if_pos ((hQ p).mpr ⟨hsub hp, Or.inr e⟩)]
        exact (hf p).mp hp
      · intro e
        split at e
        · rename_i hq
          exact ((hQ p).mp hq).2.resolve_left fun hn => hn ((hf p).mpr e)
        · cases e
  obtain ⟨s3, k3, e3, hg, ho⟩ := hold.proc_freepagetable
  obtain ⟨free3, hl3, hf3⟩ := gone_freeList hg
  have hnew : Alive (partSpec I false P hP) B s3 t2 sz2
    (fun p => if p ∈ P then (if p ∈ Q then .free else k2 p) else .ext) ∧
      ∀ v < VPN, lookup s3.mem t2 v = lookup s2.mem t2 v := by
    refine Alive.review h2 ⟨fun p h1 h3 => ?_, fun p hp => ?_⟩ (fun p => ?_) hB (fun q t' l i hq => ?_) hl3 fun p =>
      ?_
    · have hp := hin2 h3
      rw [if_pos (hsub hp), if_neg fun hq => ((hQ p).mp hq).2.elim (fun hn => hn hp) h1]
    · by_cases h1 : p ∈ P
      · by_cases hq : p ∈ Q
        · simp [h1, hq]
        · simpa [h1, hq] using hp
      · simp [h1]
    · by_cases h1 : p ∈ P
      · by_cases hq : p ∈ Q
        · simp [h1, hq]
        · have hp : p ∈ free := by
            by_contra hn
            exact hq ((hQ p).mpr ⟨h1, Or.inl hn⟩)
          simp only [h1, hq, if_true, if_false, not_true, iff_false]
          exact fun e => (h2.inv.ext p).mp e hp
      · simp [h1]
    · have hn : q ∉ Q := fun hQq => by
        rcases ((hQ q).mp hQq).2 with hn | e
        · exact hn (hin2 (by simp [hq]))
        · simp [hq] at e
      exact ho.agree (h2.inv.tab.nodePage hq).1 hn
    · rw [hf3]
      constructor
      · intro hq
        simp [hq, ((hQ p).mp hq).1]
      · intro e
        by_cases h1 : p ∈ P
        · by_cases hq : p ∈ Q
          · exact hq
          · have e2 : k2 p = .free := by simpa [h1, hq] using e
            exact (hQ p).mpr ⟨h1, Or.inr e2⟩
        · simp [h1] at e
  refine ⟨s3, _, free3, e3, hnew.1, hnew.2, hl3, fun p hp hn => (hf3 p).mpr ((hQ p).mpr ⟨hp, Or.inl hn⟩),
    fun x hx => ho x fun hq => hx ((hQ _).mp hq).1, fun va hva => ?_⟩
  -- the new space's pages are not among the old one's
  refine h2.inv.tab.byteAt_same (by simp) hva (hnew.2 _ hva) fun x hx => ho x fun hq => ?_
  obtain ⟨h1, h3⟩ := (hQ _).mp hq
  rcases hx with hd | hb
  · rcases h3 with hn | e
    · exact hn (hin2 (by simp [hd]))
    · simp [hd] at e
  · exact hB _ hb h1

end Xv6Labs.Plain
