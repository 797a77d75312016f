/-
  Xv6Labs.Vm.Tables — well-formed page tables.

  A ghost map gives each page its use (`Kind`): outside the allocator, free, held by
  the kernel, the table page `node t l i` (level `l`, covering the virtual pages `v`
  with `v / 512^(l+1) = i`) of the page table rooted at `t`, or the user page `data v`
  mapped at virtual page `v`. `Tab` ties the map to the bytes: every valid entry of an
  inner table points at exactly the table page below it, every table page is pointed at
  by the one above it, and a valid leaf entry maps a user page of its own virtual page
  or one of the lent pages `B` (trampoline, trapframe). Since a page has one kind, table
  pages of different tables or places are different pages.

  `slotFrom`/`leaf` read a table the way `walk` does without allocating; `leaf_node` and
  `leaf_none` say what they read in terms of the kinds, and every later proof uses those.
-/

import Xv6Labs.Vm.Code
import Mathlib.Logic.Function.Basic

namespace Xv6Labs.Vm

open Lib

inductive Kind where
  | ext
  | free
  | held
  | node (t l i : Nat)
  | data (v : Nat)
  deriving DecidableEq

/-- Entry `j` of the table page `q`. -/
def pte (m : Mem) (q j : Nat) : Nat := m.loadLE (q + 8 * j) 8

/-- The leaf slot for virtual page `v`, from the level-`l` table at `pt` down. -/
def slotFrom (m : Mem) (v : Nat) : Nat → Nat → Option Nat
  | 0, pt => some (pt + 8 * (v % 512))
  | l + 1, pt =>
    if vbit (pte m pt (v / 512 ^ (l + 1) % 512)) then slotFrom m v l (PTE2PA (pte m pt (v / 512 ^ (l + 1) % 512)))
    else none

/-- The leaf entry of virtual page `v` under root `t`; 0 when a table is missing. -/
def leaf (m : Mem) (t v : Nat) : Nat := ((slotFrom m v 2 t).map (fun a => m.loadLE a 8)).getD 0

/-- Virtual pages three levels of tables can reach. -/
abbrev VPN : Nat := 512 ^ 3

def LeafOk (B : Nat → Prop) (k : Nat → Kind) (v w : Nat) : Prop :=
  (k (PTE2PA w) = .data v ∨ B (PTE2PA w)) ∧ PTE_FLAGS w ≠ PTE_V

structure Tab (B : Nat → Prop) (m : Mem) (live : List Nat) (k : Nat → Kind) : Prop where
  page : ∀ p, k p ≠ .ext → IsPage p
  lent : ∀ p, B p → k p = .held ∨ k p = .ext
  root : ∀ t ∈ live, k t = .node t 2 0
  up : ∀ p t l i, k p = .node t l i → t ∈ live ∧ l ≤ 2 ∧ (l = 2 → p = t ∧ i = 0) ∧
    (l < 2 → ∃ q, k q = .node t (l + 1) (i / 512) ∧ pte m q (i % 512) = mkpte p 0)
  down : ∀ q t l i j, k q = .node t (l + 1) i → j < 512 → vbit (pte m q j) = true →
    ∃ p, k p = .node t l (512 * i + j) ∧ pte m q j = mkpte p 0
  leafs : ∀ q t i j, k q = .node t 0 i → j < 512 → vbit (pte m q j) = true → LeafOk B k (512 * i + j) (pte m q j)

theorem pte_agree {m m' : Mem} {q j : Nat} (h : Mem.Agree m m' q 4096) (hj : j < 512) : pte m' q j = pte m q j :=
  Mem.loadLE_agree (h.mono (by omega) (by omega))

theorem pte_store_same (m : Mem) (q j w : Nat) (hw : w < 256 ^ 8) : pte (m.storeLE (q + 8 * j) 8 w) q j = w :=
  Mem.loadLE_storeLE_of_lt _ _ _ _ hw

theorem pte_store_ne (m : Mem) {q j j' w : Nat} (h : j' ≠ j) : pte (m.storeLE (q + 8 * j) 8 w) q j' = pte m q j' :=
  Mem.loadLE_agree (Mem.agree_storeLE m (by omega))

theorem pte_zero {m : Mem} {p j : Nat} (h : ∀ x, p ≤ x → x < p + 4096 → m x = 0) (hj : j < 512) : pte m p j = 0 :=
  Mem.loadLE_zero (fun x hx hy => h x (by omega) (by omega))

/-- Writing inside page `q` leaves every other page alone. -/
theorem agree_store_page (m : Mem) {p q j w : Nat} (hp : p % 4096 = 0) (hq : q % 4096 = 0) (hj : j < 512)
    (h : p ≠ q) :
    Mem.Agree m (m.storeLE (q + 8 * j) 8 w) p 4096 := Mem.agree_storeLE m (by omega)

/-- Writing one entry leaves every other entry alone. -/
theorem pte_store_other (m : Mem) {q j w r j' : Nat} (hr : r % 4096 = 0) (hq : q % 4096 = 0) (hj : j < 512)
    (hj' : j' < 512) (hne : r = q → j' ≠ j) : pte (m.storeLE (q + 8 * j) 8 w) r j' = pte m r j' := by
  by_cases e : r = q
  · rw [e]; exact pte_store_ne m (hne e)
  · exact pte_agree (agree_store_page m hr hq hj e) hj'

theorem agree_set_page (m : Mem) {p q : Nat} (c : UInt8) (hp : p % 4096 = 0) (hq : q % 4096 = 0) (h : p ≠ q) :
    Mem.Agree m (m.set q c 4096) p 4096 := Mem.agree_set m c (by omega)

theorem mkpte_inj {p q : Nat} (hp : IsPage p) (hq : IsPage q) (h : mkpte p 0 = mkpte q 0) : p = q := by
  rw [← pte2pa_mkpte hp (show 0 < 1024 by decide), h, pte2pa_mkpte hq (by decide)]

/-! ## Reading a table -/

section Read

variable {B : Nat → Prop} {m m' : Mem} {live : List Nat} {k : Nat → Kind}

theorem Tab.nodePage (h : Tab B m live k) {p t l i : Nat} (hp : k p = .node t l i) : IsPage p :=
  h.page p (by rw [hp]; simp)

/-- Each place of a page table holds at most one table page. -/
theorem Tab.node_unique (h : Tab B m live k) {t l i p p' : Nat} (hp : k p = .node t l i) (hp' : k p' = .node t l i) :
    p = p' := by
  -- from the root down: the two parents are the same page, so the two entries are one
  induction hd : 2 - l generalizing l i p p' with
  | zero =>
    obtain ⟨-, hl, h2, -⟩ := h.up p t l i hp
    obtain ⟨-, -, h2', -⟩ := h.up p' t l i hp'
    have e : l = 2 := by omega
    rw [(h2 e).1, (h2' e).1]
  | succ d ih =>
    obtain ⟨q, hq, hw⟩ := (h.up p t l i hp).2.2.2 (by omega)
    obtain ⟨q', hq', hw'⟩ := (h.up p' t l i hp').2.2.2 (by omega)
    have e : q = q' := ih hq hq' (by omega)
    subst e
    exact mkpte_inj (h.nodePage hp) (h.nodePage hp') (hw.symm.trans hw')

theorem Tab.node_above (h : Tab B m live k) {t l i p : Nat} (hp : k p = .node t l i) :
    ∀ d, l + d ≤ 2 → ∃ q, k q = .node t (l + d) (i / 512 ^ d) := by
  intro d
  induction d with
  | zero => intro _; exact ⟨p, by simpa using hp⟩
  | succ d ih =>
    intro hd
    obtain ⟨q, hq⟩ := ih (by omega)
    obtain ⟨_, _, _, hlt⟩ := h.up q _ _ _ hq
    obtain ⟨q', hq', _⟩ := hlt (by omega)
    exact ⟨q', by rw [hq', Nat.div_div_eq_div_mul, Nat.pow_succ]; rfl⟩

theorem child_index (v l : Nat) : 512 * (v / 512 ^ (l + 2)) + v / 512 ^ (l + 1) % 512 = v / 512 ^ (l + 1) := by
  rw [show 512 ^ (l + 2) = 512 ^ (l + 1) * 512 from Nat.pow_succ .., ← Nat.div_div_eq_div_mul]
  exact Nat.div_add_mod _ _

/-- An invalid entry has no table page below it. -/
theorem Tab.no_node (h : Tab B m live k) {t l v q : Nat} (hq : k q = .node t (l + 1) (v / 512 ^ (l + 2))) (hl : l < 2)
    (hv : vbit (pte m q (v / 512 ^ (l + 1) % 512)) = false) : ∀ p, k p ≠ .node t 0 (v / 512) := by
  intro p hp
  obtain ⟨p1, h1⟩ := h.node_above hp l (by omega)
  rw [Nat.zero_add, Nat.div_div_eq_div_mul, ← Nat.pow_succ'] at h1
  obtain ⟨_, _, _, hlt⟩ := h.up p1 _ _ _ h1
  obtain ⟨q', hq', hw⟩ := hlt (by omega)
  rw [Nat.div_div_eq_div_mul, ← Nat.pow_succ] at hq'
  have e := h.node_unique hq' hq
  subst e
  rw [hw, vbit_mkpte (by decide)] at hv
  cases hv

/-- From a table page down: the leaf slot is in the level-0 page of `v`, if there is one. -/
theorem Tab.slotFrom_node (h : Tab B m live k) {t v : Nat} :
    ∀ l q, l ≤ 2 → k q = .node t l (v / 512 ^ (l + 1)) →
      (∃ p, k p = .node t 0 (v / 512) ∧ slotFrom m v l q = some (p + 8 * (v % 512))) ∨
      ((∀ p, k p ≠ .node t 0 (v / 512)) ∧ slotFrom m v l q = none) := by
  intro l
  induction l with
  | zero => intro q _ hq; exact Or.inl ⟨q, by simpa using hq, rfl⟩
  | succ l ih =>
    intro q hl hq
    simp only [slotFrom]
    split
    · rename_i hv
      obtain ⟨p, hp, hw⟩ := h.down q t l _ _ hq (Nat.mod_lt _ (by decide)) hv
      rw [child_index] at hp
      rw [hw, pte2pa_mkpte (h.nodePage hp) (by decide)]
      exact ih p (by omega) hp
    · rename_i hv
      exact Or.inr ⟨h.no_node hq (by omega) (by simpa using hv), rfl⟩

theorem root_index {v : Nat} (hv : v < VPN) : v / 512 ^ (2 + 1) = 0 := Nat.div_eq_of_lt hv

theorem Tab.rootNode (h : Tab B m live k) {t v : Nat} (ht : t ∈ live) (hv : v < VPN) :
    k t = .node t 2 (v / 512 ^ (2 + 1)) := by rw [root_index hv]; exact h.root t ht

theorem Tab.slot_node (h : Tab B m live k) {t v q : Nat} (ht : t ∈ live) (hv : v < VPN)
    (hq : k q = .node t 0 (v / 512)) :
    slotFrom m v 2 t = some (q + 8 * (v % 512)) := by
  rcases h.slotFrom_node 2 t (Nat.le_refl _) (h.rootNode ht hv) with ⟨p, hp, e⟩ | ⟨hn, _⟩
  · rw [h.node_unique hq hp]; exact e
  · exact absurd hq (hn q)

theorem Tab.leaf_node (h : Tab B m live k) {t v q : Nat} (ht : t ∈ live) (hv : v < VPN)
    (hq : k q = .node t 0 (v / 512)) :
    leaf m t v = pte m q (v % 512) := by
  rw [leaf, h.slot_node ht hv hq]; rfl

theorem Tab.slot_none (h : Tab B m live k) {t v : Nat} (ht : t ∈ live) (hv : v < VPN)
    (hq : ∀ q, k q ≠ .node t 0 (v / 512)) : slotFrom m v 2 t = none := by
  rcases h.slotFrom_node 2 t (Nat.le_refl _) (h.rootNode ht hv) with ⟨p, hp, _⟩ | ⟨_, e⟩
  · exact absurd hp (hq p)
  · exact e

theorem Tab.leaf_none (h : Tab B m live k) {t v : Nat} (ht : t ∈ live) (hv : v < VPN)
    (hq : ∀ q, k q ≠ .node t 0 (v / 512)) : leaf m t v = 0 := by
  rw [leaf, h.slot_none ht hv hq]; rfl

theorem div_mod_512 (v : Nat) : 512 * (v / 512) + v % 512 = v := Nat.div_add_mod v 512

/-- A valid leaf of a live table is a leaf entry of its level-0 page. -/
theorem Tab.leaf_valid (h : Tab B m live k) {t v : Nat} (ht : t ∈ live) (hv : v < VPN)
    (hw : vbit (leaf m t v) = true) :
    ∃ q, k q = .node t 0 (v / 512) ∧ leaf m t v = pte m q (v % 512) ∧ LeafOk B k v (leaf m t v) := by
  by_cases hq : ∃ q, k q = .node t 0 (v / 512)
  · obtain ⟨q, hq⟩ := hq
    have e := h.leaf_node ht hv hq
    refine ⟨q, hq, e, ?_⟩
    have := h.leafs q t _ _ hq (Nat.mod_lt _ (by decide)) (e ▸ hw)
    rwa [div_mod_512, ← e] at this
  · rw [h.leaf_none ht hv (fun q e => hq ⟨q, e⟩)] at hw
    cases hw

/-! ## Writing elsewhere -/

/-- Bytes outside the table pages do not matter. -/
theorem Tab.frame (h : Tab B m live k) (hm : ∀ q t l i, k q = .node t l i → Mem.Agree m m' q 4096) :
    Tab B m' live k := by
  have e : ∀ {q t l i j}, k q = .node t l i → j < 512 → pte m' q j = pte m q j :=
    fun hq hj => pte_agree (hm _ _ _ _ hq) hj
  refine ⟨h.page, h.lent, h.root, ?_, ?_, ?_⟩
  · intro p t l i hp
    obtain ⟨h1, h2, h3, h4⟩ := h.up p t l i hp
    refine ⟨h1, h2, h3, fun hl => ?_⟩
    obtain ⟨q, hq, hw⟩ := h4 hl
    exact ⟨q, hq, by rw [e hq (Nat.mod_lt _ (by decide)), hw]⟩
  · intro q t l i j hq hj hv
    rw [e hq hj] at hv ⊢
    exact h.down q t l i j hq hj hv
  · intro q t i j hq hj hv
    rw [e hq hj] at hv ⊢
    exact h.leafs q t i j hq hj hv

theorem Tab.leaf_frame (h : Tab B m live k) (hm : ∀ q t l i, k q = .node t l i → Mem.Agree m m' q 4096) {t v : Nat}
    (ht : t ∈ live) (hv : v < VPN) : leaf m' t v = leaf m t v := by
  have h' := h.frame hm
  by_cases hq : ∃ q, k q = .node t 0 (v / 512)
  · obtain ⟨q, hq⟩ := hq
    rw [h.leaf_node ht hv hq, h'.leaf_node ht hv hq, pte_agree (hm _ _ _ _ hq) (Nat.mod_lt _ (by decide))]
  · rw [h.leaf_none ht hv (fun q e => hq ⟨q, e⟩), h'.leaf_none ht hv (fun q e => hq ⟨q, e⟩)]

/-! ## Changing a page's use -/

/-- No valid leaf entry points at `p`. -/
def NoLeaf (m : Mem) (k : Nat → Kind) (p : Nat) : Prop :=
  ∀ q t i j, k q = .node t 0 i → j < 512 → vbit (pte m q j) = true → PTE2PA (pte m q j) ≠ p

theorem update_node {p q : Nat} {x y : Kind} (hk : k p ≠ y) (hx : x ≠ y) : Function.update k p x q = y ↔ k q = y := by
  by_cases e : q = p
  · subst e; simp [hk, hx]
  · simp [Function.update_of_ne e]

/-- A page that is no table page may be put to another use that is none either, when no
    leaf maps it. -/
theorem Tab.rekind (h : Tab B m live k) {p : Nat} {x : Kind} (hp : IsPage p) (hb : ¬ B p)
    (hk : ∀ t l i, k p ≠ .node t l i) (hx : ∀ t l i, x ≠ .node t l i) (hm : ∀ v, k p = .data v → NoLeaf m k p) :
    Tab B m live (Function.update k p x) := by
  have e : ∀ {q t l i}, Function.update k p x q = .node t l i ↔ k q = .node t l i :=
    fun {_ t l i} => update_node (hk t l i) (hx t l i)
  refine ⟨?_, ?_, fun t ht => e.mpr (h.root t ht), ?_, ?_, ?_⟩
  · intro q hq
    by_cases eq : q = p
    · rwa [eq]
    · exact h.page q (by rwa [Function.update_of_ne eq] at hq)
  · intro q hq
    rw [Function.update_of_ne (by rintro rfl; exact hb hq)]
    exact h.lent q hq
  · intro q t l i hq
    obtain ⟨h1, h2, h3, h4⟩ := h.up q t l i (e.mp hq)
    refine ⟨h1, h2, h3, fun hl => ?_⟩
    obtain ⟨r, hr, hw⟩ := h4 hl
    exact ⟨r, e.mpr hr, hw⟩
  · intro q t l i j hq hj hv
    obtain ⟨r, hr, hw⟩ := h.down q t l i j (e.mp hq) hj hv
    exact ⟨r, e.mpr hr, hw⟩
  · intro q t i j hq hj hv
    obtain ⟨hd, hf⟩ := h.leafs q t i j (e.mp hq) hj hv
    refine ⟨hd.imp_left fun hd => ?_, hf⟩
    rwa [Function.update_of_ne]
    rintro rfl
    exact hm _ hd q t i j (e.mp hq) hj hv rfl

/-- A zeroed page the kernel holds becomes the table page below an invalid entry. -/
theorem Tab.link (h : Tab B m live k) {p q t l i j : Nat} (hq : k q = .node t (l + 1) i) (hj : j < 512)
    (hv : vbit (pte m q j) = false) (hp : k p = .held) (hb : ¬ B p) (hz : ∀ x, p ≤ x → x < p + 4096 → m x = 0) :
    Tab B (m.storeLE (q + 8 * j) 8 (mkpte p 0)) live (Function.update k p (.node t l (512 * i + j))) ∧
      ∀ t' ∈ live, ∀ v < VPN, leaf (m.storeLE (q + 8 * j) 8 (mkpte p 0)) t' v = leaf m t' v := by
  have hpp : IsPage p := h.page p (by rw [hp]; simp)
  have hqp : IsPage q := h.nodePage hq
  have hne : q ≠ p := by rintro rfl; rw [hp] at hq; cases hq
  obtain ⟨ht, hl2, -, -⟩ := h.up q t _ i hq
  -- what the store did to each entry
  have same : pte (m.storeLE (q + 8 * j) 8 (mkpte p 0)) q j = mkpte p 0 :=
    pte_store_same m q j _ (mkpte_lt hpp (by decide))
  have other : ∀ {r j'}, IsPage r → j' < 512 → (r = q → j' ≠ j) →
      pte (m.storeLE (q + 8 * j) 8 (mkpte p 0)) r j' = pte m r j' := by
    intro r j' hr hj' hne'
    exact pte_store_other m hr.1 hqp.1 hj hj' hne'
  have zero : ∀ {j'}, j' < 512 → pte (m.storeLE (q + 8 * j) 8 (mkpte p 0)) p j' = 0 := by
    intro j' hj'
    rw [other hpp hj' (fun e => absurd e.symm hne)]
    exact pte_zero hz hj'
  have old : ∀ {r}, r ≠ p → Function.update k p (.node t l (512 * i + j)) r = k r :=
    fun e => Function.update_of_ne e _ _
  have tab : Tab B (m.storeLE (q + 8 * j) 8 (mkpte p 0)) live (Function.update k p (.node t l (512 * i + j))) := by
    refine ⟨?_, ?_, ?_, ?_, ?_, ?_⟩
    · intro r hr
      by_cases e : r = p
      · rwa [e]
      · exact h.page r (by rwa [old e] at hr)
    · intro r hr
      rw [old (by rintro rfl; exact hb hr)]
      exact h.lent r hr
    · intro r hr
      rw [old (by rintro rfl; rw [h.root r hr] at hp; cases hp)]
      exact h.root r hr
    · intro r t' l' i' hr
      by_cases e : r = p
      · subst e
        rw [Function.update_self] at hr
        obtain ⟨e1, e2, e3⟩ := Kind.node.inj hr
        subst e1 e2 e3
        refine ⟨ht, by omega, fun e => by omega, fun _ => ⟨q, ?_, ?_⟩⟩
        · rw [old hne, hq, show (512 * i + j) / 512 = i by omega]
        · rw [show (512 * i + j) % 512 = j by omega]; exact same
      · rw [old e] at hr
        obtain ⟨h1, h2, h3, h4⟩ := h.up r t' l' i' hr
        refine ⟨h1, h2, h3, fun hl => ?_⟩
        obtain ⟨u, hu, hw⟩ := h4 hl
        refine ⟨u, by rw [old (by rintro rfl; rw [hp] at hu; cases hu)]; exact hu, ?_⟩
        rw [other (h.nodePage hu) (Nat.mod_lt _ (by decide)), hw]
        -- the entry was valid, so it is not the one written
        rintro rfl e
        rw [e] at hw
        rw [hw, vbit_mkpte (by decide)] at hv
        cases hv
    · intro r t' l' i' j' hr hj' hv'
      by_cases e : r = p
      · rw [e, zero hj'] at hv'; cases hv'
      · rw [old e] at hr
        by_cases eq : r = q ∧ j' = j
        · obtain ⟨rfl, rfl⟩ := eq
          rw [hq] at hr
          obtain ⟨e1, e2, e3⟩ := Kind.node.inj hr
          subst e1 e3
          have e2 : l = l' := by omega
          subst e2
          exact ⟨p, Function.update_self .., same⟩
        · rw [other (h.nodePage hr) hj' (fun e1 e2 => eq ⟨e1, e2⟩)] at hv' ⊢
          obtain ⟨u, hu, hw⟩ := h.down r t' l' i' j' hr hj' hv'
          exact ⟨u, by rw [old (by rintro rfl; rw [hp] at hu; cases hu)]; exact hu, hw⟩
    · intro r t' i' j' hr hj' hv'
      by_cases e : r = p
      · rw [e, zero hj'] at hv'; cases hv'
      · rw [old e] at hr
        have hrq : r ≠ q := by rintro rfl; rw [hq] at hr; have := (Kind.node.inj hr).2.1; omega
        rw [other (h.nodePage hr) hj' (fun e1 => absurd e1 hrq)] at hv' ⊢
        obtain ⟨hd, hf⟩ := h.leafs r t' i' j' hr hj' hv'
        refine ⟨hd.imp_left fun hd => ?_, hf⟩
        rwa [old (by intro e; rw [e, hp] at hd; cases hd)]
  refine ⟨tab, fun t' ht' v hv' => ?_⟩
  by_cases hq0 : ∃ r, k r = .node t' 0 (v / 512)
  · obtain ⟨r, hr⟩ := hq0
    have hrp : r ≠ p := by rintro rfl; rw [hp] at hr; cases hr
    have hrq : r ≠ q := by rintro rfl; rw [hq] at hr; have := (Kind.node.inj hr).2.1; omega
    rw [h.leaf_node ht' hv' hr, tab.leaf_node ht' hv' (by rw [old hrp]; exact hr),
      other (h.nodePage hr) (Nat.mod_lt _ (by decide)) (fun e => absurd e hrq)]
  · rw [h.leaf_none ht' hv' (fun r e => hq0 ⟨r, e⟩)]
    by_cases hq1 : ∃ r, Function.update k p (.node t l (512 * i + j)) r = .node t' 0 (v / 512)
    · obtain ⟨r, hr⟩ := hq1
      rw [tab.leaf_node ht' hv' hr]
      have e : r = p := by
        apply Classical.byContradiction; intro e
        rw [old e] at hr; exact hq0 ⟨r, hr⟩
      rw [e, zero (Nat.mod_lt _ (by decide))]
    · exact tab.leaf_none ht' hv' (fun r e => hq1 ⟨r, e⟩)

/-- A leaf entry is overwritten. -/
theorem Tab.setLeaf (h : Tab B m live k) {q t i j w : Nat} (hq : k q = .node t 0 i) (hj : j < 512) (hw : w < 256 ^ 8)
    (hok : vbit w = true → LeafOk B k (512 * i + j) w) : Tab B (m.storeLE (q + 8 * j) 8 w) live k := by
  have hqp : IsPage q := h.nodePage hq
  have other : ∀ {r j'}, IsPage r → j' < 512 → (r = q → j' ≠ j) →
    pte (m.storeLE (q + 8 * j) 8 w) r j' = pte m r j' := by
    intro r j' hr hj' hne'
    exact pte_store_other m hr.1 hqp.1 hj hj' hne'
  have inner : ∀ {r t' l' i'}, k r = .node t' (l' + 1) i' → r ≠ q := by
    rintro r t' l' i' hr rfl
    rw [hq] at hr; cases hr
  refine ⟨h.page, h.lent, h.root, ?_, ?_, ?_⟩
  · intro r t' l' i' hr
    obtain ⟨h1, h2, h3, h4⟩ := h.up r t' l' i' hr
    refine ⟨h1, h2, h3, fun hl => ?_⟩
    obtain ⟨u, hu, hw'⟩ := h4 hl
    exact ⟨u, hu, by rw [other (h.nodePage hu) (Nat.mod_lt _ (by decide)) (fun e => absurd e (inner hu)), hw']⟩
  · intro r t' l' i' j' hr hj' hv'
    rw [other (h.nodePage hr) hj' (fun e => absurd e (inner hr))] at hv' ⊢
    exact h.down r t' l' i' j' hr hj' hv'
  · intro r t' i' j' hr hj' hv'
    by_cases eq : r = q ∧ j' = j
    · obtain ⟨rfl, rfl⟩ := eq
      rw [hq] at hr
      obtain ⟨e1, -, e3⟩ := Kind.node.inj hr
      subst e1 e3
      rw [pte_store_same m r j' w hw] at hv' ⊢
      exact hok hv'
    · rw [other (h.nodePage hr) hj' (fun e1 e2 => eq ⟨e1, e2⟩)] at hv' ⊢
      exact h.leafs r t' i' j' hr hj' hv'

theorem Tab.setLeaf_leaf (h : Tab B m live k) {q t i j w : Nat} (hq : k q = .node t 0 i) (hj : j < 512)
    (hw : w < 256 ^ 8)
    (hok : vbit w = true → LeafOk B k (512 * i + j) w) {t' v : Nat} (ht' : t' ∈ live) (hv : v < VPN) :
    leaf (m.storeLE (q + 8 * j) 8 w) t' v = if t' = t ∧ v = 512 * i + j then w else leaf m t' v := by
  have tab := h.setLeaf hq hj hw hok
  by_cases hq0 : ∃ r, k r = .node t' 0 (v / 512)
  · obtain ⟨r, hr⟩ := hq0
    rw [h.leaf_node ht' hv hr, tab.leaf_node ht' hv hr]
    by_cases e : t' = t ∧ v = 512 * i + j
    · obtain ⟨rfl, rfl⟩ := e
      rw [if_pos ⟨rfl, rfl⟩]
      rw [show (512 * i + j) / 512 = i by omega] at hr
      rw [h.node_unique hr hq, show (512 * i + j) % 512 = j by omega]
      exact pte_store_same m q j w hw
    · rw [if_neg e]
      by_cases e' : r = q
      · subst e'
        rw [hq] at hr
        obtain ⟨e1, -, e3⟩ := Kind.node.inj hr
        exact pte_store_ne m (fun e2 => e ⟨e1.symm, by omega⟩)
      · exact pte_agree (agree_store_page m (h.nodePage hr).1 (h.nodePage hq).1 hj e') (Nat.mod_lt _ (by decide))
  · rw [h.leaf_none ht' hv (fun r e => hq0 ⟨r, e⟩), tab.leaf_none ht' hv (fun r e => hq0 ⟨r, e⟩), if_neg]
    rintro ⟨rfl, rfl⟩
    exact hq0 ⟨q, by rw [hq, show (512 * i + j) / 512 = i by omega]⟩

end Read

end Xv6Labs.Vm
