/-
  Xv6Labs.Vm.Inv — page tables over an allocator that counts owners.

  `AllocSpec` is what vm.c relies on of `kalloc` and `kfree`: the allocator's state
  agrees with a count of owners for each page (`Inv`); `kalloc` hands out a page with
  none, `kfree` drops one owner of a page that has between 1 and `cap`, and touches the
  page's bytes only with the last. The plain allocators have `cap = 1`, the
  reference-counting one 256.

  `VmInv` is the invariant of the whole memory: well-formed tables (`Tab`) and an
  allocator whose counts are `own`: one for a table page or a held page, and for a user
  page the number of live tables that map it.
-/

import Xv6Labs.Lib.Lists
import Xv6Labs.Vm.Tables

namespace Xv6Labs.Vm

open Lib

structure AllocSpec {κ : Type} (A : Lab κ) where
  page : Nat → Prop
  page_ok : ∀ p, page p → IsPage p
  cap : Nat
  cap_pos : 1 ≤ cap
  /-- How many times `kalloc` returned null so far. -/
  fails : κ → Nat
  Inv : Mach κ → (Nat → Nat) → Prop
  /-- Only the bytes of pages without owners are the allocator's. -/
  frame : ∀ {s s' : Mach κ} {own}, Inv s own → s'.kmem = s.kmem →
    (∀ p, page p → own p = 0 → Mem.Agree s.mem s'.mem p 4096) → Inv s' own
  kalloc_none : ∀ {s s' : Mach κ} {own}, Inv s own → A.kalloc s = (none, s') →
    s'.mem = s.mem ∧ Inv s' own ∧ (∀ p, page p → own p ≠ 0) ∧ fails s'.kmem = fails s.kmem + 1
  kalloc_some : ∀ {s s' : Mach κ} {own p}, Inv s own → A.kalloc s = (some p, s') →
    page p ∧ own p = 0 ∧ s'.mem = s.mem.set p 5 4096 ∧ Inv s' (Function.update own p 1) ∧
      fails s'.kmem = fails s.kmem
  kfree_ok : ∀ {s : Mach κ} {own p}, Inv s own → page p → 0 < own p → own p ≤ cap →
    ∃ s', A.kfree p s = .ok s' ∧ Inv s' (Function.update own p (own p - 1)) ∧ fails s'.kmem = fails s.kmem ∧
      (∀ x, x < p ∨ p + 4096 ≤ x → s'.mem x = s.mem x) ∧ (1 < own p → s'.mem = s.mem)

/-- The table `t` maps virtual page `v` to page `p`. -/
def maps (m : Mem) (v p t : Nat) : Bool := vbit (leaf m t v) && PTE2PA (leaf m t v) == p

def ownK (m : Mem) (live : List Nat) (p : Nat) : Kind → Nat
  | .ext | .free => 0
  | .held | .node .. => 1
  | .data v => live.countP (maps m v p)

/-- The owners of each page. -/
def own (m : Mem) (live : List Nat) (k : Nat → Kind) (p : Nat) : Nat := ownK m live p (k p)

structure VmInv {κ : Type} {A : Lab κ} (H : AllocSpec A) (B : Nat → Prop) (s : Mach κ) (live : List Nat)
    (k : Nat → Kind) : Prop where
  tab : Tab B s.mem live k
  nodup : live.Nodup
  ext : ∀ p, k p = .ext ↔ ¬ H.page p
  alloc : H.Inv s (own s.mem live k)
  used : ∀ p v, k p = .data v → 0 < live.countP (maps s.mem v p)
  vpn : ∀ p v, k p = .data v → v < VPN
  capped : ∀ p, own s.mem live k p ≤ H.cap

/-- A page whose bytes belong to somebody and are no table. -/
def Kind.plain : Kind → Bool
  | .free | .node .. => false
  | _ => true

def pageOf (x : Nat) : Nat := x / 4096 * 4096

theorem pageOf_add {p o : Nat} (hp : p % 4096 = 0) (ho : o < 4096) : pageOf (p + o) = p := by
  unfold pageOf; omega

theorem pageOf_mem {p x : Nat} (hp : p % 4096 = 0) (h : pageOf x ≠ p) : x < p ∨ p + 4096 ≤ x := by
  unfold pageOf at h; omega

/-- From `s` to `s'` only table pages were added: no leaf entry and no byte of a page in
    use changed. -/
structure Grows {κ : Type} (live : List Nat) (s : Mach κ) (k : Nat → Kind) (s' : Mach κ)
    (k' : Nat → Kind) : Prop where
  kind : ∀ p, k p ≠ .free → k' p = k p
  new : ∀ p, k p = .free → k' p = .free ∨ ∃ t l i, k' p = .node t l i
  leaf : ∀ t ∈ live, ∀ v < VPN, leaf s'.mem t v = leaf s.mem t v
  bytes : ∀ x, (k (pageOf x)).plain = true → s'.mem x = s.mem x

section

variable {κ : Type} {A : Lab κ} {H : AllocSpec A} {B : Nat → Prop} {s s' s'' : Mach κ} {live : List Nat}
    {k k' k'' : Nat → Kind}

theorem Grows.refl (live : List Nat) (s : Mach κ) (k : Nat → Kind) : Grows live s k s k :=
  ⟨fun _ _ => rfl, fun _ => Or.inl, fun _ _ _ _ => rfl, fun _ _ => rfl⟩

theorem Grows.trans (h : Grows live s k s' k') (h' : Grows live s' k' s'' k'') : Grows live s k s'' k'' := by
  refine ⟨fun p hp => ?_, fun p hp => ?_, fun t ht v hv => ?_, fun x hx => ?_⟩
  · have e := h.kind p hp
    rw [h'.kind p (by rwa [e]), e]
  · rcases h.new p hp with e | ⟨t, l, i, e⟩
    · exact h'.new p e
    · exact Or.inr ⟨t, l, i, by rw [h'.kind p (by rw [e]; simp), e]⟩
  · rw [h'.leaf t ht v hv, h.leaf t ht v hv]
  · have e : k' (pageOf x) = k (pageOf x) := h.kind _ (by intro e; rw [e] at hx; cases hx)
    rw [h'.bytes x (by rwa [e]), h.bytes x hx]

/-! ## Counting owners -/

/-- The tables added are of `t`. -/
structure GrowsIn (live : List Nat) (t : Nat) (s : Mach κ) (k : Nat → Kind) (s' : Mach κ)
    (k' : Nat → Kind) : Prop extends
    Grows live s k s' k' where
  only : ∀ p, k p = .free → k' p = .free ∨ ∃ l i, k' p = .node t l i

theorem GrowsIn.refl (live : List Nat) (t : Nat) (s : Mach κ) (k : Nat → Kind) : GrowsIn live t s k s k :=
  ⟨.refl .., fun _ => Or.inl⟩

theorem GrowsIn.trans {t : Nat} (h : GrowsIn live t s k s' k') (h' : GrowsIn live t s' k' s'' k'') :
    GrowsIn live t s k s'' k'' := by
  refine ⟨h.toGrows.trans h'.toGrows, fun p hp => ?_⟩
  rcases h.only p hp with e | ⟨l, i, e⟩
  · exact h'.only p e
  · exact Or.inr ⟨l, i, by rw [h'.kind p (by rw [e]; simp), e]⟩

/-- The pages that were free and are not any more are tables of `t`. -/
def AddsTables (t : Nat) (k k' : Nat → Kind) : Prop := ∀ r, k' r = k r ∨ k r = .free ∧ ∃ l i, k' r = .node t l i

theorem AddsTables.trans {t : Nat} (h : AddsTables t k k') (h' : AddsTables t k' k'') : AddsTables t k k'' := by
  intro r
  rcases h' r with e | ⟨hf, e⟩
  · rw [e]
    exact h r
  · rcases h r with e' | ⟨hf', -⟩
    · exact Or.inr ⟨by rw [← e', hf], e⟩
    · exact Or.inr ⟨hf', e⟩

theorem AddsTables.held {t : Nat} (h : AddsTables t k k') (r : Nat) : k' r = .held ↔ k r = .held := by
  rcases h r with e | ⟨hf, l, i, e⟩
  · rw [e]
  · rw [e, hf]
    simp

theorem GrowsIn.adds {t : Nat} (g : GrowsIn live t s k s' k') : AddsTables t k k' := fun r => by
  by_cases hr : k r = .free
  · exact (g.only r hr).imp (fun e => by rw [e, hr]) fun h => ⟨hr, h⟩
  · exact Or.inl (g.kind r hr)

theorem maps_congr {m m' : Mem} {v p t : Nat} (h : leaf m' t v = leaf m t v) : maps m' v p t = maps m v p t := by
  unfold maps; rw [h]

theorem ownK_congr {m m' : Mem} {x : Kind} {p : Nat} (h : ∀ t ∈ live, ∀ v < VPN, leaf m' t v = leaf m t v)
    (hx : ∀ v, x = .data v → v < VPN) : ownK m' live p x = ownK m live p x := by
  cases x with
  | data v => exact List.countP_congr fun t ht => by rw [maps_congr (h t ht v (hx v rfl))]
  | _ => rfl

theorem own_update (m : Mem) (live : List Nat) (k : Nat → Kind) (p : Nat) (x : Kind) :
    own m live (Function.update k p x) = Function.update (own m live k) p (ownK m live p x) := by
  funext r
  by_cases e : r = p
  · subst e; simp [own]
  · simp [own, Function.update_of_ne e]

theorem own_congr {m m' : Mem} (h : ∀ t ∈ live, ∀ v < VPN, leaf m' t v = leaf m t v)
    (hk : ∀ p v, k p = .data v → v < VPN) : own m' live k = own m live k :=
  funext fun p => ownK_congr h (fun v e => hk p v e)

open Classical in
/-- Before the first table is made. -/
theorem VmInv.init (ha : H.Inv s (fun _ => 0)) :
    VmInv H (fun _ => False) s [] (fun p => if H.page p then .free else .ext) := by
  have hk : ∀ p x, (if H.page p then Kind.free else .ext) = x → x = .free ∨ x = .ext := by
    intro p x e
    split at e
    · exact Or.inl e.symm
    · exact Or.inr e.symm
  have hno : ∀ {p t l i}, (if H.page p then Kind.free else .ext) ≠ .node t l i := fun e => by
    rcases hk _ _ e with e | e <;> cases e
  have ho : own s.mem [] (fun p => if H.page p then Kind.free else .ext) = fun _ => 0 := by
    funext p
    unfold own
    by_cases h : H.page p <;> simp [h, ownK]
  refine ⟨⟨fun p hp => ?_, fun _ h => h.elim, fun _ h => absurd h (by simp), fun _ _ _ _ h => absurd h hno,
    fun _ _ _ _ _ h => absurd h hno, fun _ _ _ _ h => absurd h hno⟩, List.nodup_nil, fun p => ?_, by
      rw [ho]; exact ha, fun p v h => ?_, fun p v h => ?_,
    fun p => by rw [ho]; exact Nat.zero_le _⟩
  · split at hp
    · rename_i h; exact H.page_ok p h
    · exact absurd rfl hp
  · split <;> simp [*]
  · rcases hk _ _ h with e | e <;> cases e
  · rcases hk _ _ h with e | e <;> cases e

theorem VmInv.page_of (h : VmInv H B s live k) {p : Nat} (hp : k p ≠ .ext) : H.page p := by
  apply Classical.byContradiction
  intro e; exact hp ((h.ext p).mpr e)

/-- A page without owners is free. -/
theorem VmInv.own_zero (h : VmInv H B s live k) {p : Nat} (hp : H.page p) (ho : own s.mem live k p = 0) :
    k p = .free := by
  unfold own at ho
  cases hk : k p with
  | free => rfl
  | ext => exact absurd hp ((h.ext p).mp hk)
  | data v =>
    have := h.used p v hk
    rw [hk] at ho; simp only [ownK] at ho; omega
  | held => rw [hk] at ho; cases ho
  | node t l i => rw [hk] at ho; cases ho

/-- Bytes outside the free pages are nothing to the allocator. -/
theorem VmInv.alloc_frame (h : VmInv H B s live k) (hk : s'.kmem = s.kmem)
    (hm : ∀ p, k p = .free → Mem.Agree s.mem s'.mem p 4096) : H.Inv s' (own s.mem live k) :=
  H.frame h.alloc hk fun p hp ho => hm p (h.own_zero hp ho)

/-- The bytes change only in pages that are no tables, the allocator by one page: the
    invariant with that page put to another use. -/
theorem VmInv.rekind (h : VmInv H B s live k) {p : Nat} {x : Kind} (hp : H.page p) (hb : ¬ B p)
    (hk : k p = .free ∨ k p = .held) (hx : x = .free ∨ x = .held)
    (hm : ∀ q, IsPage q → q ≠ p → Mem.Agree s.mem s'.mem q 4096)
    (ha : H.Inv s' (Function.update (own s.mem live k) p (ownK s.mem live p x))) :
    VmInv H B s' live (Function.update k p x) ∧ ∀ t ∈ live, ∀ v < VPN, leaf s'.mem t v = leaf s.mem t v := by
  have hkn : ∀ t l i, k p ≠ .node t l i := by rcases hk with e | e <;> simp [e]
  have hkd : ∀ v, k p ≠ .data v := by rcases hk with e | e <;> simp [e]
  have hxd : ∀ v, x ≠ .data v := by rcases hx with e | e <;> simp [e]
  have hxn : ∀ t l i, x ≠ .node t l i := by rcases hx with e | e <;> simp [e]
  have hxe : x ≠ .ext := by rcases hx with e | e <;> simp [e]
  have fr : ∀ q t l i, k q = .node t l i → Mem.Agree s.mem s'.mem q 4096 := fun q t l i hq =>
    hm q (h.tab.nodePage hq) (by rintro rfl; exact hkn _ _ _ hq)
  have lf : ∀ t ∈ live, ∀ v < VPN, leaf s'.mem t v = leaf s.mem t v := fun t ht v hv => h.tab.leaf_frame fr ht hv
  have hdat : ∀ {r v}, Function.update k p x r = .data v ↔ k r = .data v := fun {_ v} => update_node (hkd v) (hxd v)
  have hcnt : ∀ r v, k r = .data v → live.countP (maps s'.mem v r) = live.countP (maps s.mem v r) := fun r v hr =>
    List.countP_congr fun t ht => by rw [maps_congr (lf t ht v (h.vpn r v hr))]
  have howns : own s'.mem live (Function.update k p x) =
    Function.update (own s.mem live k) p (ownK s.mem live p x) := by
    rw [own_congr lf (fun r v hr => h.vpn r v (hdat.mp hr)), own_update]
  refine ⟨⟨?_, h.nodup, ?_, ?_, ?_, ?_, ?_⟩, lf⟩
  · exact (h.tab.frame fr).rekind (H.page_ok p hp) hb hkn hxn (fun v e => absurd e (hkd v))
  · intro r
    by_cases e : r = p
    · subst e; simp [hxe, hp]
    · rw [Function.update_of_ne e]; exact h.ext r
  · rw [howns]; exact ha
  · intro r v hr
    rw [hcnt r v (hdat.mp hr)]
    exact h.used r v (hdat.mp hr)
  · intro r v hr; exact h.vpn r v (hdat.mp hr)
  · intro r
    rw [howns]
    by_cases e : r = p
    · subst e
      have := H.cap_pos
      rcases hx with rfl | rfl <;> simp [ownK] <;> omega
    · rw [Function.update_of_ne e]; exact h.capped r

theorem VmInv.not_lent (h : VmInv H B s live k) {p : Nat} (hp : k p = .free) : ¬ B p := by
  intro hb
  rcases h.tab.lent p hb with e | e <;> rw [hp] at e <;> cases e

theorem VmInv.kalloc_none (h : VmInv H B s live k) (e : A.kalloc s = (none, s')) :
    VmInv H B s' live k ∧ s'.mem = s.mem ∧ (∀ p, k p ≠ .free) ∧ H.fails s'.kmem = H.fails s.kmem + 1 := by
  obtain ⟨e1, e2, e3, e4⟩ := H.kalloc_none h.alloc e
  refine ⟨⟨by rw [e1]; exact h.tab, h.nodup, h.ext, by rw [e1]; exact e2, by rw [e1]; exact h.used, h.vpn,
    by rw [e1]; exact h.capped⟩, e1, fun p hp => e3 p (h.page_of (by rw [hp]; simp)) ?_, e4⟩
  simp [own, hp, ownK]

/-- `kalloc` takes a free page for the kernel. -/
theorem VmInv.kalloc_some (h : VmInv H B s live k) {p : Nat} (e : A.kalloc s = (some p, s')) :
    k p = .free ∧ IsPage p ∧ VmInv H B s' live (Function.update k p .held) ∧
      (∀ t ∈ live, ∀ v < VPN, leaf s'.mem t v = leaf s.mem t v) ∧ (∀ x, pageOf x ≠ p → s'.mem x = s.mem x) ∧
      H.fails s'.kmem = H.fails s.kmem := by
  obtain ⟨hp, h0, e1, e2, e3⟩ := H.kalloc_some h.alloc e
  have hf := h.own_zero hp h0
  have hpp := H.page_ok p hp
  have ag : ∀ q, IsPage q → q ≠ p → Mem.Agree s.mem s'.mem q 4096 := fun q hq hne => by
    rw [e1]; exact agree_set_page s.mem 5 hq.1 hpp.1 hne
  obtain ⟨hv, lf⟩ := h.rekind hp (h.not_lent hf) (Or.inl hf) (Or.inr rfl) ag e2
  refine ⟨hf, hpp, hv, lf, fun x hne => ?_, e3⟩
  rw [e1]
  exact Mem.agree_set (b := x) (n := 1) s.mem 5 (by have := pageOf_mem hpp.1 hne; omega) x (Nat.le_refl _) (by omega)

/-- `kfree` of a page the kernel holds. -/
theorem VmInv.kfree_held (h : VmInv H B s live k) {p : Nat} (hp : k p = .held) (hb : ¬ B p) :
    ∃ s', A.kfree p s = .ok s' ∧ VmInv H B s' live (Function.update k p .free) ∧
      (∀ t ∈ live, ∀ v < VPN, leaf s'.mem t v = leaf s.mem t v) ∧
      (∀ x, pageOf x ≠ p → s'.mem x = s.mem x) ∧ H.fails s'.kmem = H.fails s.kmem := by
  have hpg : H.page p := h.page_of (by rw [hp]; simp)
  have hpp := H.page_ok p hpg
  have ho : own s.mem live k p = 1 := by simp [own, hp, ownK]
  obtain ⟨s', e, ha, hf, hx, -⟩ := H.kfree_ok h.alloc hpg (by omega) (h.capped p)
  rw [ho] at ha
  have ag : ∀ q, IsPage q → q ≠ p → Mem.Agree s.mem s'.mem q 4096 := fun q hq hne x h1 h2 =>
    hx x (by have := hq.1; have := hpp.1; omega)
  obtain ⟨hv, lf⟩ := h.rekind hpg hb (Or.inr hp) (Or.inl rfl) ag ha
  exact ⟨s', e, hv, lf, fun x hne => hx x (pageOf_mem hpp.1 hne), hf⟩

end

end Xv6Labs.Vm
