/-
  Xv6Labs.Vm.Outside — what the page-table operations leave alone.

  The allocator's pages may be a part of the machine's memory. Whatever an operation does,
  and wherever kalloc fails, the bytes of all other pages stay as they were.
-/

import Xv6Labs.Vm.Copy

namespace Xv6Labs.Vm

open Lib

variable {κ : Type} {A : Lab κ} {H : AllocSpec A} {B : Nat → Prop} {s s' s0 : Mach κ} {live : List Nat}
    {k k' k0 : Nat → Kind} {t : Nat}

/-- The bytes outside are as they were. -/
def SameOutside (P : Nat → Prop) (m m' : Mem) : Prop := ∀ x, ¬ P (pageOf x) → m' x = m x

variable {P : Nat → Prop} {m m' m'' : Mem}

theorem SameOutside.refl (P : Nat → Prop) (m : Mem) : SameOutside P m m := fun _ _ => rfl

theorem SameOutside.trans (h : SameOutside P m m') (h' : SameOutside P m' m'') : SameOutside P m m'' :=
  fun x hx => (h' x hx).trans (h x hx)

theorem SameOutside.agree (h : SameOutside P m m') {q : Nat} (hq : q % 4096 = 0) (hn : ¬ P q) :
    Mem.Agree m m' q 4096 :=
  fun x h1 h2 => h x (by rwa [show pageOf x = q by unfold pageOf; omega])

/-- Only the bytes of one page inside change. -/
theorem SameOutside.one {p : Nat} (hp : P p) (h : ∀ x, pageOf x ≠ p → m' x = m x) : SameOutside P m m' := by
  intro x hx
  apply h
  intro e
  exact hx (e ▸ hp)

/-! ## One page -/

theorem VmInv.kalloc_outside (h : VmInv H B s live k) {r : Option Nat} (e : A.kalloc s = (r, s')) :
    SameOutside H.page s.mem s'.mem := by
  cases r with
  | none =>
    rw [(h.kalloc_none e).2.1]
    exact .refl _ _
  | some p =>
    obtain ⟨hf, -, -, -, hx, -⟩ := h.kalloc_some e
    exact .one (h.page_of (by simp [hf])) hx

theorem VmInv.kfree_outside (h : VmInv H B s live k) {p : Nat} (hp : k p = .held) (hb : ¬ B p)
    (e : A.kfree p s = .ok s') : SameOutside H.page s.mem s'.mem := by
  obtain ⟨s1, e1, -, -, hx, -⟩ := h.kfree_held hp hb
  rw [e] at e1
  cases e1
  exact .one (h.page_of (by simp [hp])) hx

theorem Grows.outside (g : Grows live s k s' k') (h : VmInv H B s live k) : SameOutside H.page s.mem s'.mem := by
  intro x hx
  apply g.bytes
  rw [(h.ext _).mpr hx]
  rfl

theorem Mapped.outside {v p perm : Nat} (g : Mapped live s k t v p perm s' k') (h : VmInv H B s live k) :
    SameOutside H.page s.mem s'.mem := by
  intro x hx
  apply g.bytes
  rw [(h.ext _).mpr hx]
  rfl

theorem Cleared.outside {v n : Nat} (c : Cleared live s k t v n s' k') (h : VmInv H B s live k) :
    SameOutside H.page s.mem s'.mem := by
  intro x hx
  apply c.bytes
  exact Or.inr ((h.ext _).mpr hx)

/-- A table's entry is written. -/
theorem VmInv.store_outside (h : VmInv H B s live k) {q l i j w : Nat} (hq : k q = .node t l i) (hj : j < 512) :
    SameOutside H.page s.mem (s.mem.storeLE (q + 8 * j) 8 w) := by
  refine .one (h.page_of (p := q) (by simp [hq])) fun x hx => Mem.storeLE_ne ?_
  have := pageOf_mem (h.tab.nodePage hq).1 hx
  omega

/-! ## uvmdealloc and uvmalloc -/

theorem unmapLoop_outside (h : VmInv H B s live k) (ht : t ∈ live) {n va : Nat} (hva : va % 4096 = 0)
    (hown : OwnRange B s.mem t (va / 4096) n)
    (e : unmapLoop A t true n va s = .ok s') : SameOutside H.page s.mem s'.mem := by
  rcases unmapLoop_spec ht n va s k hva h hown with ⟨-, s1, k1, e1, -, hc, -⟩ | ⟨-, m, e1⟩
  · rw [e] at e1
    cases e1
    exact hc.outside h
  · cases e.symm.trans e1

theorem Grown.dealloc_outside {o a r : Nat} {perm : Nat → Nat} {f : Nat → UInt8}
    (g : Grown B live s0 k0 t (InRange (o / 4096) (a / 4096 - o / 4096)) perm f s k) (h : VmInv H B s live k)
    (ht : t ∈ live) (ho : o % 4096 = 0) (ha : a % 4096 = 0) (hle : o ≤ a) (hmax : a ≤ MAXVA ∨ a = o)
    (e : uvmdealloc A t a o s = .ok (r, s')) :
    SameOutside H.page s.mem s'.mem := by
  rcases Nat.eq_or_lt_of_le hle with rfl | hlt
  · unfold uvmdealloc at e
    rw [if_pos (Nat.le_refl _)] at e
    cases e
    exact .refl _ _
  · have hmax : a ≤ MAXVA := hmax.resolve_right (by omega)
    have hup : PGROUNDUP o = o := pgroundup_of_aligned ho (by unfold MAXVA at hmax; omega)
    rw [uvmdealloc_eq, hup, deallocN_aligned ha ho hle hmax] at e
    have hown : OwnRange B s.mem t (o / 4096) (a / 4096 - o / 4096) := fun v _ hr w hw => by
      obtain ⟨p, hp, hb, hl⟩ := g.here v hr
      rw [hl] at hw
      rwa [← Option.some.inj hw, pte2pa_mkpte hp (g.small v hr)]
    cases e1 : unmapLoop A t true (a / 4096 - o / 4096) o s with
    | error m =>
      rw [e1] at e
      cases e
    | ok s1 =>
      rw [e1] at e
      cases e
      exact unmapLoop_outside h ht ho hown e1

/-- A fresh page that is mapped, or given back for want of a table. -/
theorem kalloc_map_outside (h : VmInv H B s live k) {va p perm : Nat} {s1 s2 : Mach κ} {m : Mem} {r : Int}
    (ht : t ∈ live) (hal : va % 4096 = 0)
    (hva : va < MAXVA) (hw : lookup s.mem t (va / 4096) = none) (hperm : perm < 1024) (hflag : perm ||| PTE_V ≠ PTE_V)
    (e : A.kalloc s = (some p, s1)) (hm : ∀ x, pageOf x ≠ p → m x = s1.mem x)
    (e2 : mappages A t va PGSIZE p perm { s1 with mem := m } = .ok (r, s2)) :
    SameOutside H.page s.mem s2.mem ∧ (r ≠ 0 → ∀ s3, A.kfree p s2 = .ok s3 → SameOutside H.page s.mem s3.mem) := by
  obtain ⟨hf, hp, hb, h1, lf1, by1, -⟩ := h.kalloc_fill e hm
  have ho : SameOutside H.page s.mem m := .one (h.page_of (by simp [hf])) by1
  have hw1 : vbit (leaf m t (va / 4096)) = false := by
    rw [lf1 t ht _ (vpn_of_lt hva)]
    exact lookup_none.mp hw
  rcases mappages_held h1 ht hal hva hw1 (Function.update_self ..) hb hperm hflag with ⟨s3, k3, e3, h3, g3, -⟩ |
    ⟨s3, k3, e3, -, m3, -⟩
  · rw [e2] at e3
    cases e3
    have ho2 := ho.trans (g3.outside h1)
    have hk : k3 p = .held := by rw [g3.kind p (by simp), Function.update_self]
    exact ⟨ho2, fun _ s4 e4 => ho2.trans (h3.kfree_outside hk hb e4)⟩
  · rw [e2] at e3
    cases e3
    exact ⟨ho.trans (m3.outside h1), fun hr => absurd rfl hr⟩

theorem uvmallocLoop_outside (s0 : Mach κ) (k0 : Nat → Kind) (ht : t ∈ live) {o : Nat} (newsz : Nat)
    (ho : o % 4096 = 0) : ∀ n a (s : Mach κ) k,
    Grown B live s0 k0 t (InRange (o / 4096) (a / 4096 - o / 4096)) (fun _ => userPerm) (fun _ => 0) s k →
      VmInv H B s live k →
    a % 4096 = 0 → o ≤ a → a ≤ MAXVA ∨ a = o → ∀ {r s'}, uvmallocLoop A t o newsz n a s = .ok (r, s') →
      SameOutside H.page s.mem s'.mem := by
  intro n
  induction n with
  | zero =>
    intro a s k _ _ _ _ _ r s' e
    cases e
    exact .refl _ _
  | succ n ih =>
    intro a s k g h ha hle hmax r s' e
    simp only [uvmallocLoop] at e
    rcases ek : A.kalloc s with ⟨_ | p, s1⟩
    · obtain ⟨h1, -, -, -⟩ := h.kalloc_none ek
      have g1 := g.kept ht (kept_kalloc_none h ek)
      rw [ek] at e
      dsimp only at e
      cases ed : uvmdealloc A t a o s1 with
      | error m =>
        rw [ed] at e
        cases e
      | ok x =>
        rw [ed] at e
        cases e
        exact (h.kalloc_outside ek).trans (g1.dealloc_outside h1 ht ho ha hle hmax ed)
    · have hnew : ¬ InRange (o / 4096) (a / 4096 - o / 4096) (a / 4096) := by
        unfold InRange
        omega
      have hm := set_off s1.mem 0 (h.kalloc_some ek).2.1.1
      rw [ek] at e
      dsimp only at e
      cases em : mappages A t a PGSIZE p userPerm { s1 with mem := s1.mem.set p 0 PGSIZE } with
      | error m =>
        rw [em] at e
        cases e
      | ok x =>
        rw [em, ok_bind] at e
        have hva : a < MAXVA := by
          by_contra hge
          rw [mappages_past ha (by omega)] at em
          cases em
        have hv := vpn_of_lt hva
        have hn : Vm.lookup s.mem t (a / 4096) = none := by
          by_contra hn
          obtain ⟨_, _, _, h1, lf, _, _⟩ := h.kalloc_fill ek hm
          have hw : vbit (leaf (s1.mem.set p 0 PGSIZE) t (a / 4096)) = true := by
            rw [lf t ht _ hv]
            by_contra hb
            exact hn (lookup_none.mpr (by simpa using hb))
          rw [mappages_remap h1 ht ha hva hw] at em
          cases em
        obtain ⟨ho2, ho3⟩ := kalloc_map_outside h ht ha hva hn (show userPerm < 1024 by decide) (by decide) ek hm em
        have hvm : a / 4096 < MAXVA / 4096 := by
          unfold MAXVA at hva ⊢
          omega
        rcases kalloc_map h ht ha hva hn (show userPerm < 1024 by decide) (by decide) ek hm with
          ⟨s2, s3, k3, e2, e3, h3, kp, -⟩ | ⟨s2, k2, e2, h2, fl, -⟩
        · -- no memory for a table
          rw [em] at e2
          cases e2
          rw [if_pos (show (-1 : Int) ≠ 0 by decide)] at e
          dsimp only at e
          rw [e3, ok_bind] at e
          cases ed : uvmdealloc A t a o s3 with
          | error m =>
            rw [ed] at e
            cases e
          | ok y =>
            rw [ed] at e
            cases e
            exact (ho3 (show (-1 : Int) ≠ 0 by decide) s3 e3).trans
              ((g.kept ht kp).dealloc_outside h3 ht ho ha hle hmax ed)
        · rw [em] at e2
          cases e2
          rw [if_neg (show ¬ (0 : Int) ≠ 0 by decide)] at e
          have hz : ∀ va, va / 4096 = a / 4096 → s1.mem.set p 0 PGSIZE (p + va % 4096) = 0 := fun va _ =>
            Mem.set_in _ 0 (by omega) (by unfold PGSIZE; omega)
          have hnext : (a + PGSIZE) / 4096 = a / 4096 + 1 := by
            unfold PGSIZE
            omega
          have g2 : Grown B live s0 k0 t (InRange (o / 4096) ((a + PGSIZE) / 4096 - o / 4096)) (fun _ => userPerm)
            (fun _ => 0) s2 k2 := by
            refine g.filled ht fl hvm hn hnew (fun v' => ?_) rfl (by decide) hz
            rw [hnext]
            unfold InRange
            omega
          refine ho2.trans (ih (a + PGSIZE) s2 k2 g2 h2 (by unfold PGSIZE; omega) (by omega) (Or.inl ?_) e)
          unfold PGSIZE
          unfold MAXVA at hva ⊢
          omega

theorem uvmalloc_outside (h : VmInv H B s live k) (ht : t ∈ live) {oldsz newsz r : Nat}
    (e : uvmalloc A t oldsz newsz s = .ok (r, s')) :
    SameOutside H.page s.mem s'.mem := by
  unfold uvmalloc at e
  split at e
  · cases e
    exact .refl _ _
  · exact uvmallocLoop_outside s k ht newsz (pgroundup_mod oldsz) _ _ s k
      (.refl B live s k t (fun v hv => by unfold InRange at hv; omega) _ _) h
      (pgroundup_mod oldsz) (Nat.le_refl _) (Or.inr rfl) e

/-! ## uvmcreate and uvmfree -/

theorem uvmcreate_outside (h : VmInv H B s live k) {r : Option Nat} (e : uvmcreate A s = (r, s')) :
    SameOutside H.page s.mem s'.mem := by
  unfold uvmcreate at e
  rcases ek : A.kalloc s with ⟨_ | p, s1⟩
  · rw [ek] at e
    cases e
    exact h.kalloc_outside ek
  · rw [ek] at e
    cases e
    obtain ⟨hf, -, -, -, -, hx, -⟩ := h.kalloc_fill ek (set_off s1.mem 0 (h.kalloc_some ek).2.1.1)
    exact .one (h.page_of (by simp [hf])) hx

theorem freewalk_outside (h : VmInv H B s live k) (ht : t ∈ live) (hx : RwxLeaves s.mem t)
    (e : freewalk A t s = .ok s') : SameOutside H.page s.mem s'.mem := by
  rcases freewalk_sub (A := A) ht 2 61 t 0 s k h (h.tab.root t ht) hx with ⟨-, s1, e1, hm, -⟩ | ⟨-, m, e1⟩
  · rw [show freewalkDepth A (2 + 1 + 61) t s = freewalk A t s from rfl, e] at e1
    cases e1
    intro x hx
    apply hm
    rw [(h.ext _).mpr hx]
    exact id
  · cases e.symm.trans e1

theorem uvmfree_outside (h : VmInv H B s live k) (ht : t ∈ live) {sz : Nat} (hx : RwxLeaves s.mem t)
    (hown : OwnRange B s.mem t 0 (PGROUNDUP sz / 4096))
    (e : uvmfree A t sz s = .ok s') : SameOutside H.page s.mem s'.mem := by
  rw [uvmfree_eq] at e
  have hown' : OwnRange B s.mem t (0 / 4096) (if sz > 0 then PGROUNDUP sz / 4096 else 0) := fun v hv hr w hw => by
    refine hown v hv ?_ w hw
    split at hr
    · exact hr
    · unfold InRange at hr
      omega
  generalize (if sz > 0 then PGROUNDUP sz / 4096 else 0) = n at e hown'
  rcases unmapLoop_spec ht n 0 s k rfl h hown' with ⟨-, s1, k1, e1, h1, hc, -⟩ | ⟨-, m, e1⟩
  · rw [e1] at e
    refine (hc.outside h).trans (freewalk_outside h1 ht (fun v hv w hw => ?_) e)
    rw [hc.lookup t ht v hv] at hw
    split at hw
    · cases hw
    · exact hx v hv w hw
  · rw [e1] at e
    cases e

end Xv6Labs.Vm
