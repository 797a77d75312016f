/-
  Xv6Labs.Vm.Space — address spaces as their user sees them.

  A `Space` says which virtual pages are mapped, which of those the user may touch, and
  what bytes are there: no page tables, no physical pages, no sharing. `Views m t sp`: in
  memory `m` the table at `t` shows its user `sp`. The operations of vm.c that work inside
  one table have their meaning on spaces (`alloc`, `dealloc`, `copyin`, `copyout`, `store`,
  `fork`), and the lemmas here say that the code does it.
-/

import Xv6Labs.Vm.Free

namespace Xv6Labs.Vm

open Lib

structure Space where
  /-- Whether a mapped page is the user's. -/
  user : Nat → Option Bool
  byte : Nat → UInt8

/-- What the table at `t` shows its user. -/
structure Views (m : Mem) (t : Nat) (sp : Space) : Prop where
  user : ∀ v < VPN, (lookup m t v).map (fun w => w.testBit 4) = sp.user v
  byte : ∀ va, va / 4096 < VPN → byteAt m t va = (sp.user (va / 4096)).map fun _ => sp.byte va

namespace Space

def empty : Space := ⟨fun _ => none, fun _ => 0⟩

/-- The first `n` pages. -/
def fork (n : Nat) (sp : Space) : Space := ⟨fun v => if v < n then sp.user v else none, sp.byte⟩

def alloc (v0 n : Nat) (sp : Space) : Space :=
  ⟨fun v => if InRange v0 n v then some true else sp.user v,
    fun va => if InRange v0 n (va / 4096) then 0 else sp.byte va⟩

def dealloc (v0 n : Nat) (sp : Space) : Space := ⟨fun v => if InRange v0 n v then none else sp.user v, sp.byte⟩

def put (va : Nat) (bs : List UInt8) (sp : Space) : Space :=
  ⟨sp.user, fun x => if va ≤ x ∧ x < va + bs.length then bs.getD (x - va) 0 else sp.byte x⟩

/-- The user may touch the page of `va`. -/
def allows (sp : Space) (va : Nat) : Bool := decide (va < MAXVA) && sp.user (va / 4096) == some true

/-- A user store of one byte; a fault that cannot be repaired kills the process. -/
def store (va : Nat) (b : UInt8) (sp : Space) : Bool × Space :=
  if sp.allows va then (true, sp.put va [b]) else (false, sp)

def copyoutLoop : Nat → Nat → List UInt8 → Space → Int × Space
  | 0, _, _, sp => (0, sp)
  | rounds + 1, dstva, src, sp =>
    if src.length = 0 then (0, sp)
    else if sp.allows (PGROUNDDOWN dstva) then
      let n := min (PGSIZE - (dstva - PGROUNDDOWN dstva)) src.length
      copyoutLoop rounds (u64 (PGROUNDDOWN dstva + PGSIZE)) (src.drop n) (sp.put dstva (src.take n))
    else (-1, sp)

def copyinLoop (sp : Space) : Nat → Nat → Nat → Int × List UInt8
  | 0, _, _ => (0, [])
  | rounds + 1, srcva, len =>
    if len = 0 then (0, [])
    else if sp.allows (PGROUNDDOWN srcva) then
      let n := min (PGSIZE - (srcva - PGROUNDDOWN srcva)) len
      let (r, bs) := sp.copyinLoop rounds (u64 (PGROUNDDOWN srcva + PGSIZE)) (len - n)
      (r, (List.range n).map (fun i => sp.byte (srcva + i)) ++ bs)
    else (-1, [])

end Space

variable {κ : Type} {A : Lab κ} {H : AllocSpec A} {B : Nat → Prop} {s s' : Mach κ} {live : List Nat}
    {k k' : Nat → Kind}
  {t : Nat} {sp : Space}

theorem Views.congr {m m' : Mem} (h : Views m t sp) (hl : ∀ v < VPN, lookup m' t v = lookup m t v)
    (hb : ∀ va, va / 4096 < VPN → byteAt m' t va = byteAt m t va) : Views m' t sp :=
  ⟨fun v hv => by rw [hl v hv]; exact h.user v hv, fun va hva => by rw [hb va hva]; exact h.byte va hva⟩

theorem Views.isSome {m : Mem} (h : Views m t sp) {v : Nat} (hv : v < VPN) :
    (sp.user v).isSome = (lookup m t v).isSome := by
  rw [← h.user v hv, Option.isSome_map]

theorem lt_vpn {v : Nat} (h : v < MAXVA / 4096) : v < VPN := by unfold MAXVA at h; unfold VPN; omega

theorem Views.canUnmap {m : Mem} (h : Views m t sp) (hs : A.skips = false) {v : Nat} :
    CanUnmap A m t v ↔ v < MAXVA / 4096 ∧ (sp.user v).isSome = true := by
  unfold CanUnmap
  refine and_congr_right fun hv => ?_
  rw [h.isSome (lt_vpn hv), hs]
  simp

theorem Views.canMap {m : Mem} (h : Views m t sp) {v : Nat} : CanMap m t v ↔ v < MAXVA / 4096 ∧ sp.user v = none := by
  unfold CanMap
  refine and_congr_right fun hv => ?_
  rw [← Option.not_isSome_iff_eq_none, ← Option.not_isSome_iff_eq_none, h.isSome (lt_vpn hv)]

theorem Kept.views (hk : Kept live s k s' k') (ht : t ∈ live) (h : Views s.mem t sp) : Views s'.mem t sp :=
  h.congr (hk.lookup t ht) (hk.byteAt t ht)

theorem views_empty {m : Mem} (h : ∀ v < VPN, lookup m t v = none) : Views m t .empty :=
  ⟨fun v hv => by rw [h v hv]; rfl, fun va hva => by unfold byteAt; rw [h _ hva]; rfl⟩

/-! ## uvmalloc, uvmdealloc -/

theorem userPerm_user (p : Nat) : (mkpte p userPerm).testBit 4 = true := by
  rw [mkpte_testBit (by decide) (by decide)]; decide

theorem Grown.views {v0 n : Nat} (g : Grown B live s k t (InRange v0 n) (fun _ => userPerm) (fun _ => 0) s' k')
    (ht : t ∈ live) (h : Views s.mem t sp) : Views s'.mem t (sp.alloc v0 n) := by
  constructor
  · intro v hv
    unfold Space.alloc
    by_cases e : InRange v0 n v
    · obtain ⟨p, -, -, hl⟩ := g.here v e
      simp only [hl, e, if_true, Option.map_some, userPerm_user]
    · simp only [e, if_false]
      rw [g.lookup t ht v hv (fun e' => e e'.2)]
      exact h.user v hv
  · intro va hva
    unfold Space.alloc
    by_cases e : InRange v0 n (va / 4096)
    · simp only [g.inside va e, e, if_true, Option.map_some]
    · simp only [e, if_false]
      rw [g.byteAt t ht va hva (fun e' => e e'.2)]
      exact h.byte va hva

theorem Grown.views_other {D : Nat → Prop} {perm : Nat → Nat} {f : Nat → UInt8} {t' : Nat}
    (g : Grown B live s k t D perm f s' k')
    (ht' : t' ∈ live) (hne : t' ≠ t) (h : Views s.mem t' sp) : Views s'.mem t' sp :=
  h.congr (fun v hv => g.lookup t' ht' v hv (fun e => hne e.1))
    (fun va hva => g.byteAt t' ht' va hva (fun e => hne e.1))

theorem Cleared.views {v0 n : Nat} (c : Cleared live s k t v0 n s' k') (ht : t ∈ live) (h : Views s.mem t sp) :
    Views s'.mem t (sp.dealloc v0 n) := by
  constructor
  · intro v hv
    rw [c.lookup t ht v hv]
    unfold Space.dealloc
    by_cases e : InRange v0 n v
    · simp only [e, and_self, if_true, Option.map_none]
    · simp only [e, and_false, if_false]
      exact h.user v hv
  · intro va hva
    rw [c.byteAt t ht va hva]
    unfold Space.dealloc
    by_cases e : InRange v0 n (va / 4096)
    · simp only [e, and_self, if_true, Option.map_none]
    · simp only [e, and_false, if_false]
      exact h.byte va hva

theorem Cleared.views_other {v0 n t' : Nat} (c : Cleared live s k t v0 n s' k') (ht' : t' ∈ live) (hne : t' ≠ t)
    (h : Views s.mem t' sp) : Views s'.mem t' sp :=
  h.congr (fun v hv => by rw [c.lookup t' ht' v hv, if_neg (fun e => hne e.1)])
    (fun va hva => by rw [c.byteAt t' ht' va hva, if_neg (fun e => hne e.1)])

/-! ## walkaddr, copyin -/

/-- No leaf maps physical page 0, which walkaddr answers for a failure. -/
def NonNull (m : Mem) (t : Nat) : Prop := ∀ v < VPN, ∀ w, lookup m t v = some w → PTE2PA w ≠ 0

/-- walkaddr reads the leaf entry and changes nothing. -/
theorem walkaddr_eq (t va : Nat) (s : Mach κ) : walkaddr A t va s =
    .ok (if va < MAXVA then (match lookup s.mem t (va / 4096) with
      | none => 0
      | some w => if w.testBit 4 then PTE2PA w else 0) else 0, s) := by
  unfold walkaddr
  by_cases hva : va < MAXVA
  · rw [if_neg (by omega), if_pos hva, walk_false hva]
    simp only [bind, Except.bind]
    cases hs : slotFrom s.mem (va / 4096) 2 t with
    | none => simp only [lookup, leaf, hs, Option.map_none, Option.getD_none, vbit_zero, Bool.false_eq_true, if_false]
    | some a =>
      have hl : leaf s.mem t (va / 4096) = s.mem.loadLE a 8 := by rw [leaf, hs]; rfl
      have hu := and_bit_ne_zero (s.mem.loadLE a 8) 4
      have hv := vbit_eq (s.mem.loadLE a 8)
      simp only [lookup, hl]
      cases h1 : vbit (s.mem.loadLE a 8) <;> cases h2 : (s.mem.loadLE a 8).testBit 4 <;> simp_all
  · rw [if_pos (by omega), if_neg hva]

/-- What walkaddr answers, in terms of what the user sees. -/
theorem Views.walkaddr (h : Views s.mem t sp) (hz : NonNull s.mem t) (va : Nat) :
    (sp.allows va = true ∧ va < MAXVA ∧ ∃ w, lookup s.mem t (va / 4096) = some w ∧ w.testBit 4 = true ∧ PTE2PA w ≠ 0 ∧
        walkaddr A t va s = .ok (PTE2PA w, s)) ∨
      sp.allows va = false ∧ walkaddr A t va s = .ok (0, s) := by
  rw [walkaddr_eq]
  by_cases hva : va < MAXVA
  · have hv := vpn_of_lt hva
    have hu := h.user _ hv
    simp only [Space.allows, hva, if_true, decide_true, Bool.true_and]
    cases hl : lookup s.mem t (va / 4096) with
    | none =>
      rw [hl] at hu
      exact Or.inr ⟨by rw [← hu]; rfl, rfl⟩
    | some w =>
      rw [hl] at hu
      rw [← hu]
      cases hb : w.testBit 4 with
      | true => exact Or.inl ⟨by simp [hb], trivial, w, rfl, hb, hz _ hv w hl, by simp only [hb, if_true]⟩
      | false => exact Or.inr ⟨by simp [hb], by simp only [hb, Bool.false_eq_true, if_false]⟩
  · refine Or.inr ⟨by simp [Space.allows, hva], by rw [if_neg hva]⟩

theorem Views.read (h : Views s.mem t sp) {va w : Nat} (hva : va / 4096 < VPN)
    (hl : lookup s.mem t (va / 4096) = some w) :
    s.mem (PTE2PA w + va % 4096) = sp.byte va := by
  have hb := h.byte va hva
  have hu := h.user _ hva
  rw [hl] at hu
  unfold byteAt at hb
  rw [hl, ← hu] at hb
  simpa using hb

theorem copyinLoop_views (h : Views s.mem t sp) (hz : NonNull s.mem t) : ∀ rounds srcva len,
    copyinLoop A t rounds srcva len s = .ok (sp.copyinLoop rounds srcva len) := by
  intro rounds
  induction rounds with
  | zero => intro _ _; rfl
  | succ rounds ih =>
    intro srcva len
    simp only [copyinLoop, Space.copyinLoop]
    split
    · rfl
    · rcases h.walkaddr (A := A) hz (PGROUNDDOWN srcva) with ⟨ha, hva, w, hl, -, hnz, e⟩ | ⟨ha, e⟩
      · simp only [e, ha, bind, Except.bind, hnz, if_false, if_true, ih]
        refine congrArg Except.ok (Prod.ext rfl ?_)
        refine congrArg (· ++ _) (List.map_congr_left fun i hi => ?_)
        -- the byte `i` places further is in the same page
        have hi := List.mem_range.mp hi
        have hp : PGROUNDDOWN srcva = srcva / 4096 * 4096 := rfl
        rw [hp] at hi hva hl ⊢
        unfold PGSIZE at hi
        have hpage : (srcva + i) / 4096 = srcva / 4096 * 4096 / 4096 := by omega
        have hlt : (srcva + i) / 4096 < VPN := by rw [hpage]; exact vpn_of_lt hva
        have := h.read hlt (by rw [hpage]; exact hl)
        rw [← this]
        congr 1
        omega
      · simp only [e, ha, bind, Except.bind, if_true, Bool.false_eq_true, if_false]

/-- `copyin` reads what the user sees. -/
theorem copyin_views (h : Views s.mem t sp) (hz : NonNull s.mem t) (srcva len : Nat) :
    copyin A t srcva len s = .ok (sp.copyinLoop len srcva len) := copyinLoop_views h hz len srcva len

/-! ## Writing user pages -/

theorem copyoutLoop_nil (xlate : Nat → Mach κ → Except String (Nat × Mach κ)) (rounds va : Nat) (s : Mach κ) :
    copyoutLoop xlate rounds va [] s = .ok (0, s) := by
  cases rounds with
  | zero => rfl
  | succ rounds =>
    unfold copyoutLoop
    exact if_pos rfl

/-- One round of copyout. -/
theorem copyoutLoop_round {xlate : Nat → Mach κ → Except String (Nat × Mach κ)} {rounds dstva pa : Nat}
    {src : List UInt8} (hz : src.length ≠ 0) (e : xlate (PGROUNDDOWN dstva) s = .ok (pa, s')) :
    copyoutLoop xlate (rounds + 1) dstva src s =
      if pa = 0 then .ok (-1, s')
      else copyoutLoop xlate rounds (u64 (PGROUNDDOWN dstva + PGSIZE))
        (src.drop (min (PGSIZE - (dstva - PGROUNDDOWN dstva)) src.length))
        ⟨s'.mem.put (pa + (dstva - PGROUNDDOWN dstva))
          (src.take (min (PGSIZE - (dstva - PGROUNDDOWN dstva)) src.length)),
          s'.kmem⟩ := by
  rw [copyoutLoop, if_neg hz]
  dsimp only
  rw [e, ok_bind]

/-- Bytes written into a page in use that is no table. -/
theorem VmInv.write (h : VmInv H B s live k) {p : Nat} {m : Mem} (hp : (k p).plain = true)
    (hm : ∀ x, pageOf x ≠ p → m x = s.mem x) :
    VmInv H B { s with mem := m } live k ∧ ∀ t ∈ live, ∀ v < VPN, leaf m t v = leaf s.mem t v :=
  h.frame _ rfl fun q hq x hx hy => by
    have hqp : IsPage q := h.tab.page q (by intro e; rw [e] at hq; cases hq)
    have hne : q ≠ p := by rintro rfl; rw [hp] at hq; cases hq
    have : pageOf x = q := by unfold pageOf; have := hqp.1; omega
    exact hm x (by rw [this]; exact hne)

theorem VmInv.leaf_data (h : VmInv H (fun _ => False) s live k) (ht : t ∈ live) {v w : Nat} (hv : v < VPN)
    (hl : lookup s.mem t v = some w) : k (PTE2PA w) = .data v := by
  obtain ⟨rfl, hb⟩ := lookup_some.mp hl
  obtain ⟨_, _, _, hd, _⟩ := h.tab.leaf_valid ht hv hb
  exact hd.resolve_right id

theorem VmInv.nonNull (h : VmInv H (fun _ => False) s live k) (ht : t ∈ live) : NonNull s.mem t := fun v hv w hl => by
  have := (h.tab.page _ (by rw [h.leaf_data ht hv hl]; simp)).2.1
  omega

/-- What a write into the page that `t` alone has at `v` leaves. -/
structure Wrote (live : List Nat) (s : Mach κ) (t va : Nat) (bs : List UInt8) (s' : Mach κ) : Prop where
  kmem : s'.kmem = s.kmem
  lookup : ∀ t' ∈ live, ∀ v < VPN, lookup s'.mem t' v = Vm.lookup s.mem t' v
  views : ∀ sp, Views s.mem t sp → Views s'.mem t (sp.put va bs)
  other : ∀ t' ∈ live, t' ≠ t → ∀ sp, Views s.mem t' sp → Views s'.mem t' sp

theorem VmInv.put (h : VmInv H (fun _ => False) s live k) (ht : t ∈ live) {va w : Nat} {bs : List UInt8}
    (hva : va / 4096 < VPN) (hl : lookup s.mem t (va / 4096) = some w) (hpr : Private s.mem live t (va / 4096))
    (hn : va % 4096 + bs.length ≤ 4096) :
    VmInv H (fun _ => False) { s with mem := s.mem.put (PTE2PA w + va % 4096) bs } live k ∧
      Wrote live s t va bs { s with mem := s.mem.put (PTE2PA w + va % 4096) bs } := by
  have hd := h.leaf_data ht hva hl
  have hal := pte2pa_mod w
  have hoff : ∀ x, pageOf x ≠ PTE2PA w → s.mem.put (PTE2PA w + va % 4096) bs x = s.mem x := fun x hx => by
    have := pageOf_mem hal hx
    exact Mem.agree_put (b := x) (n := 1) s.mem bs (by omega) x (Nat.le_refl _) (by omega)
  obtain ⟨h', lf⟩ := h.write (by rw [hd]; rfl) hoff
  have lk : ∀ t' ∈ live, ∀ v < VPN, lookup (s.mem.put (PTE2PA w + va % 4096) bs) t' v = lookup s.mem t' v :=
    fun t' ht' v hv =>
    lookup_congr (lf t' ht' v hv)
  refine ⟨h', rfl, lk, fun sp hsp => ?_, fun t' ht' hne sp hsp => ?_⟩
  · refine ⟨fun v hv => by rw [lk t ht v hv]; exact hsp.user v hv, fun x hx => ?_⟩
    unfold byteAt
    rw [lk t ht _ hx]
    cases hw : lookup s.mem t (x / 4096) with
    | none =>
      have := hsp.user _ hx
      rw [hw] at this
      show none = (sp.user (x / 4096)).map _
      rw [← this]; rfl
    | some w' =>
      have hu := hsp.user _ hx
      rw [hw] at hu
      show some (s.mem.put (PTE2PA w + va % 4096) bs (PTE2PA w' + x % 4096)) = (sp.user (x / 4096)).map _
      rw [← hu, Option.map_map, Option.map_some]
      refine congrArg some ?_
      simp only [Space.put, Function.comp, ← hsp.read hx hw]
      unfold Mem.put
      by_cases e : x / 4096 = va / 4096
      · -- the same page, so the same offset
        rw [e, hl] at hw
        obtain rfl := Option.some.inj hw
        by_cases e' : va ≤ x ∧ x < va + bs.length
        · rw [if_pos e', if_pos (by omega)]
          congr 1
          omega
        · rw [if_neg e', if_neg (by omega)]
      · have hne : PTE2PA w' ≠ PTE2PA w := fun e' => by
          have h1 := h.leaf_data ht hx hw
          rw [e', hd] at h1
          exact e (Kind.data.inj h1).symm
        have := pte2pa_mod w'
        rw [if_neg (by omega), if_neg (by omega)]
  · refine hsp.congr (lk t' ht') fun x hx => ?_
    unfold byteAt
    rw [lk t' ht' _ hx]
    cases hw : lookup s.mem t' (x / 4096) with
    | none => rfl
    | some w' =>
      refine congrArg some (hoff _ ?_)
      rw [pageOf_add (pte2pa_mod _) (Nat.mod_lt _ (by decide))]
      intro e
      have h1 := h.leaf_data ht' hx hw
      rw [e, hd] at h1
      have e' := Kind.data.inj h1
      rw [← e'] at hw
      exact hne (hpr w hl t' ht' w' hw e)

end Xv6Labs.Vm
