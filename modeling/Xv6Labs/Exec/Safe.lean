/-
  Xv6Labs.Exec.Safe — exec is all or nothing.

  exec builds the new image from free pages only. While it does (`Built`), the image is a
  well-formed space over the pages that were free, and no byte of any other page changes; so
  `goto bad` has only the image to free, wherever it comes from. At the end the old space is
  freed and the image takes its place (`Alive.replace`).
-/

import Xv6Labs.Exec.Layout
import Xv6Labs.Vm.Parts

namespace Xv6Labs.Vm

open Lib

variable {κ : Type} {A : Lab κ} {H : AllocSpec A} {B : Nat → Prop} {s s' : Mach κ} {k : Nat → Kind} {t sz : Nat}

/-! ## Writing to a user page -/

/-- The bytes at `va` are `bs`. -/
def Holds (m : Mem) (t va : Nat) (bs : List UInt8) : Prop := ∀ j < bs.length, byteAt m t (va + j) = some (bs.getD j 0)

/-- Bytes written into one user page. -/
theorem Alive.put (h : Alive H B s t sz k) {va w : Nat} (bs : List UInt8) (hv : va / 4096 < PGROUNDUP sz / 4096)
    (hl : lookup s.mem t (va / 4096) = some w) (ho : va % 4096 + bs.length ≤ 4096) :
    Alive H B { s with mem := s.mem.put (PTE2PA w + va % 4096) bs } t sz k ∧
      (∀ v < VPN, lookup (s.mem.put (PTE2PA w + va % 4096) bs) t v = lookup s.mem t v) ∧
      SameOutside H.page s.mem (s.mem.put (PTE2PA w + va % 4096) bs) ∧
        Holds (s.mem.put (PTE2PA w + va % 4096) bs) t va bs ∧
      ∀ x, x / 4096 < VPN → x < va ∨ va + bs.length ≤ x → byteAt (s.mem.put (PTE2PA w + va % 4096) bs) t x =
        byteAt s.mem t x := by
  have hvpn := h.sized.user_vpn hv
  obtain ⟨p, perm, hl', hp, hb, hperm, -⟩ := h.sized.user _ hv
  rw [hl] at hl'
  obtain rfl := Option.some.inj hl'
  obtain ⟨hleaf, hvb⟩ := lookup_some.mp hl
  obtain ⟨_, _, _, hd, -⟩ := h.inv.tab.leaf_valid (t := t) (by simp) hvpn (by rwa [hleaf])
  rw [hleaf, pte2pa_mkpte hp hperm] at hd
  have hk : k p = .data (va / 4096) := hd.resolve_right hb
  rw [pte2pa_mkpte hp hperm]
  have hoff : ∀ x, pageOf x ≠ p → s.mem.put (p + va % 4096) bs x = s.mem x := fun x hx => by
    have := pageOf_mem hp.1 hx
    exact Mem.agree_put (b := x) (n := 1) s.mem bs (by omega) x (Nat.le_refl _) (by omega)
  obtain ⟨h', lf⟩ := h.inv.write (by simp [hk, Kind.plain]) hoff
  have hlk : ∀ v < VPN, lookup (s.mem.put (p + va % 4096) bs) t v = lookup s.mem t v :=
    fun v hv => lookup_congr (lf t (by simp) v hv)
  refine ⟨⟨h', h.sized.congr hlk, h.held⟩, hlk, .one (h.inv.page_of (by simp [hk])) hoff, fun j hj => ?_,
    fun x hx hne => ?_⟩
  · have e1 : (va + j) / 4096 = va / 4096 := by omega
    have e2 : p + (va + j) % 4096 = p + va % 4096 + j := by omega
    unfold byteAt
    rw [e1, hlk _ hvpn, hl, Option.map_some, pte2pa_mkpte hp hperm, e2]
    unfold Mem.put
    rw [if_pos ⟨by omega, by omega⟩, Nat.add_sub_cancel_left]
  · unfold byteAt
    rw [hlk _ hx]
    cases hw : lookup s.mem t (x / 4096) with
    | none => rfl
    | some w =>
      rw [Option.map_some, Option.map_some]
      refine congrArg some ?_
      by_cases e : x / 4096 = va / 4096
      · -- the same page, at another offset
        rw [e, hl] at hw
        obtain rfl := Option.some.inj hw
        rw [pte2pa_mkpte hp hperm]
        exact Mem.agree_put (b := p + x % 4096) (n := 1) s.mem bs (by omega) _ (Nat.le_refl _) (by omega)
      · apply hoff
        rw [pageOf_add (pte2pa_mod _) (Nat.mod_lt _ (by decide))]
        intro e'
        obtain ⟨hleaf', hvb'⟩ := lookup_some.mp hw
        obtain ⟨_, _, _, hd', -⟩ := h.inv.tab.leaf_valid (t := t) (by simp) hx (by rwa [hleaf'])
        rw [hleaf', e'] at hd'
        have h1 := hd'.resolve_right hb
        rw [hk] at h1
        exact e (Kind.data.inj h1).symm

/-- walkaddr finds a page the user may touch. -/
theorem Alive.walkaddr (h : Alive H B s t sz k) (va : Nat) {w : Nat} (hv : va / 4096 < PGROUNDUP sz / 4096)
    (hl : lookup s.mem t (va / 4096) = some w)
    (hu : w.testBit 4 = true) : walkaddr A t va s = .ok (PTE2PA w, s) ∧ PTE2PA w ≠ 0 := by
  have hpages := h.sized.pages
  have hmax : va < MAXVA := by
    simp only [TRAPFRAME, TRAMPOLINE, MAXVA, PGSIZE] at hpages ⊢
    omega
  refine ⟨by rw [walkaddr_eq, if_pos hmax, hl]; simp only [hu, if_true], ?_⟩
  obtain ⟨p, perm, hl', hp, -, hperm, -⟩ := h.sized.user _ hv
  rw [hl] at hl'
  obtain rfl := Option.some.inj hl'
  rw [pte2pa_mkpte hp hperm]
  exact Nat.pos_iff_ne_zero.mp hp.2.1

/-- copyout of bytes that end in the page they begin in. -/
theorem Alive.copyout_page (h : Alive H B s t sz k) {va w : Nat} {bs : List UInt8}
    (hv : va / 4096 < PGROUNDUP sz / 4096)
    (hl : lookup s.mem t (va / 4096) = some w) (hu : w.testBit 4 = true) (hn : bs ≠ [])
    (hlen : va % 4096 + bs.length ≤ 4096) :
    copyout A t va bs s = .ok (0, { s with mem := s.mem.put (PTE2PA w + va % 4096) bs }) := by
  have hpage : PGROUNDDOWN va / 4096 = va / 4096 := Nat.mul_div_cancel _ (by decide)
  have hoff : va - PGROUNDDOWN va = va % 4096 := by
    unfold PGROUNDDOWN PGSIZE
    omega
  obtain ⟨e, hz⟩ := h.walkaddr (PGROUNDDOWN va) (by rwa [hpage]) (by rwa [hpage]) hu
  obtain ⟨n, hn'⟩ := Nat.exists_eq_succ_of_ne_zero (show bs.length ≠ 0 by simpa using hn)
  have hmin : min (PGSIZE - va % 4096) bs.length = bs.length := Nat.min_eq_right (by unfold PGSIZE; omega)
  unfold copyout
  rw [hn', copyoutLoop_round (by omega) e, if_neg hz, hoff, hmin, List.drop_length, List.take_length, copyoutLoop_nil]

/-- More user pages cannot be mapped than there are. -/
theorem Alive.few (h : Alive H B s t sz k) (hfin : ∀ p, H.page p → p < PHYSTOP) : PGROUNDUP sz ≤ PHYSTOP := by
  have hpages := h.sized.pages
  have hmod := pgroundup_mod sz
  have h1 := h.inv.few_pages (t := t) (by simp) hfin (n := PGROUNDUP sz / 4096) (by
    simp only [TRAPFRAME, TRAMPOLINE, MAXVA, PGSIZE, VPN] at hpages ⊢
    omega) fun v hv => by
    obtain ⟨p, perm, hl, hp, hb, hperm, -⟩ := h.sized.user v hv
    exact ⟨_, hl, by rwa [pte2pa_mkpte hp hperm]⟩
  simp only [PHYSTOP, KERNBASE] at h1 ⊢
  omega

theorem Alive.round (h : Alive H B s t sz k) : PGROUNDUP (PGROUNDUP sz) = PGROUNDUP sz ∧
    Alive H B s t (PGROUNDUP sz) k := by
  have hsmall := h.sized.small
  have hmod := pgroundup_mod sz
  have hup := pgroundup_small hsmall
  simp only [TRAPFRAME, TRAMPOLINE, MAXVA, PGSIZE] at hsmall
  have e : PGROUNDUP (PGROUNDUP sz) = PGROUNDUP sz := pgroundup_of_aligned hmod (by omega)
  refine ⟨e, h.inv, ⟨?_, ?_, h.sized.lent, ?_⟩, h.held⟩
  · simp only [TRAPFRAME, TRAMPOLINE, MAXVA, PGSIZE]
    omega
  · rw [e]
    exact h.sized.user
  · rw [e]
    exact h.sized.none

end Xv6Labs.Vm

namespace Xv6Labs.Exec

open Lib Vm Plain

variable {I : Image} {P : List Nat} {hP : ∀ p ∈ P, Page I p} {B : Nat → Prop} {s0 s s' : Mach Kmem} {t sz : Nat}

theorem readi_length (ip : Inode) (off n : Nat) : (readi ip off n).length ≤ n :=
  Fs.Disk.readBytes_length ip.bytes off n

/-- The image under `t` is a space of size `sz` over the pages `P`; other pages are as before. -/
structure Built (hP : ∀ p ∈ P, Page I p) (B : Nat → Prop) (s0 : Mach Kmem) (t sz : Nat) (s : Mach Kmem) : Prop where
  alive : ∃ k, Alive (partSpec I false P hP) B s t sz k
  outside : SameOutside (· ∈ P) s0.mem s.mem

/-- Bytes written into one user page of the image. -/
theorem Built.put (h : Built hP B s0 t sz s) {va w : Nat} (bs : List UInt8) (hv : va / 4096 < PGROUNDUP sz / 4096)
    (hl : lookup s.mem t (va / 4096) = some w) (ho : va % 4096 + bs.length ≤ 4096) :
    Built hP B s0 t sz { s with mem := s.mem.put (PTE2PA w + va % 4096) bs } ∧
      (∀ v < VPN, lookup (s.mem.put (PTE2PA w + va % 4096) bs) t v = lookup s.mem t v) ∧
        Holds (s.mem.put (PTE2PA w + va % 4096) bs) t va bs ∧
      ∀ x, x / 4096 < VPN → x < va ∨ va + bs.length ≤ x → byteAt (s.mem.put (PTE2PA w + va % 4096) bs) t x =
        byteAt s.mem t x := by
  obtain ⟨k, ha⟩ := h.alive
  obtain ⟨h1, h2, h3, h4, h5⟩ := ha.put bs hv hl ho
  exact ⟨⟨⟨k, h1⟩, h.outside.trans h3⟩, h2, h4, h5⟩

theorem AllUser.congr {m m' : Mem} (h : AllUser m t sz) (hs : Sized B m t sz)
    (hl : ∀ v < VPN, lookup m' t v = lookup m t v) : AllUser m' t sz := by
  intro v hv
  rw [hl v (hs.user_vpn hv)]
  exact h v hv

/-! ## loadseg -/

/-- In pages that are mapped loadseg does not panic, and it ends. -/
theorem loadsegLoop_built (ip : Inode) {va n : Nat} (off : Nat) (hva : va % 4096 = 0) (hle : va + n ≤ sz) :
    ∀ rounds i (s : Mach Kmem), Built hP B s0 t sz s → AllUser s.mem t sz →
    i % 4096 = 0 → (n + 4095 - i) / 4096 < rounds →
    ∃ r s', loadsegLoop I t va ip off n rounds i s = .ok (r, s') ∧ Built hP B s0 t sz s' ∧ AllUser s'.mem t sz := by
  intro rounds
  induction rounds with
  | zero => exact fun i s _ _ _ hr => absurd hr (Nat.not_lt_zero _)
  | succ rounds ih =>
    intro i s h hu hi hr
    unfold loadsegLoop
    by_cases hlt : i < n
    · rw [if_pos hlt]
      obtain ⟨k, ha⟩ := h.alive
      have hsmall := ha.sized.small
      have hfew := ha.few partSpec_bound
      have hup := pgroundup_small hsmall
      simp only [TRAPFRAME, TRAMPOLINE, MAXVA, PGSIZE] at hsmall
      simp only [PHYSTOP, KERNBASE] at hfew
      have hpage : (va + i) / 4096 < PGROUNDUP sz / 4096 := by omega
      obtain ⟨p, hl⟩ := hu _ hpage
      obtain ⟨e, hz⟩ := ha.walkaddr (va + i) hpage hl (userPerm_user p)
      rw [u64_of_lt (by omega), e, ok_bind]
      dsimp only
      rw [if_neg hz]
      have hn : (if n - i < PGSIZE then n - i else PGSIZE) ≤ 4096 := by
        unfold PGSIZE
        split <;> omega
      generalize (if n - i < PGSIZE then n - i else PGSIZE) = m at hn ⊢
      have hlen := readi_length ip (u32 (off + i)) m
      have hzero : (va + i) % 4096 = 0 := by omega
      obtain ⟨h1, hlk, -⟩ := h.put (readi ip (u32 (off + i)) m) hpage hl (by omega)
      have hu1 := AllUser.congr hu ha.sized hlk
      rw [hzero, Nat.add_zero] at h1 hu1
      have hnext : u32 (i + PGSIZE) = i + 4096 := Nat.mod_eq_of_lt (by unfold PGSIZE; omega)
      split
      · exact ⟨-1, _, rfl, h1, hu1⟩
      · rw [hnext]
        exact ih (i + 4096) _ h1 hu1 (by omega) (by omega)
    · rw [if_neg hlt]
      exact ⟨0, s, rfl, h, hu⟩

theorem loadseg_built (h : Built hP B s0 t sz s) (hu : AllUser s.mem t sz) (ip : Inode) {va n : Nat} (off : Nat)
    (hva : va % 4096 = 0) (hle : va + n ≤ sz) :
    ∃ r s', loadseg I t va ip off n s = .ok (r, s') ∧ Built hP B s0 t sz s' ∧ AllUser s'.mem t sz := by
  obtain ⟨k, ha⟩ := h.alive
  have hfew := ha.few partSpec_bound
  have hup := pgroundup_small ha.sized.small
  simp only [PHYSTOP, KERNBASE] at hfew
  exact loadsegLoop_built ip off hva hle _ 0 s h hu rfl (by omega)

/-! ## The program headers -/

theorem Built.uvmalloc (h : Built hP B s0 t sz s) (newsz : Nat) :
    ∃ r s', uvmalloc (lab I false) t sz newsz s = .ok (r, s') ∧ Built hP B s0 t (if r = 0 then sz else r) s' ∧
      (AllUser s.mem t sz → AllUser s'.mem t (if r = 0 then sz else r)) ∧ (r = 0 ∨ r = max sz newsz) := by
  obtain ⟨k, ha⟩ := h.alive
  obtain ⟨r, s', k', e, h', hu, hr⟩ := ha.uvmalloc partSpec_bound newsz
  exact ⟨r, s', e, ⟨⟨k', h'⟩, h.outside.trans (uvmalloc_outside ha.inv (by simp) e)⟩, hu, hr⟩

/-- Without wrapping around. -/
theorem toNat_add_of_not_lt {a b : UInt64} (h : ¬ a + b < a) : (a + b).toNat = a.toNat + b.toNat := by
  rw [UInt64.lt_iff_toNat_lt, UInt64.toNat_add] at h
  rw [UInt64.toNat_add]
  have := a.toNat_lt
  have := b.toNat_lt
  omega

/-- Whatever the headers say, the loop does not panic. -/
theorem loadLoop_built (F : Format) (ip : Inode) : ∀ n off sz (s : Mach Kmem), Built hP B s0 t sz s →
    AllUser s.mem t sz →
    ∃ ok sz' s', loadLoop I F t ip n off sz s = .ok (ok, sz', s') ∧ Built hP B s0 t sz' s' ∧
      AllUser s'.mem t sz' := by
  intro n
  induction n with
  | zero => exact fun off sz s h hu => ⟨true, sz, s, rfl, h, hu⟩
  | succ n ih =>
    intro off sz s h hu
    unfold loadLoop
    dsimp only
    generalize F.proghdr (readi ip off F.proghdrSize) = ph
    split
    · exact ⟨false, sz, s, rfl, h, hu⟩
    split
    · exact ih _ sz s h hu
    split
    · exact ⟨false, sz, s, rfl, h, hu⟩
    split
    · exact ⟨false, sz, s, rfl, h, hu⟩
    rename_i hmem hwrap
    obtain ⟨r, s1, e1, h1, hu1, hr⟩ := h.uvmalloc (ph.vaddr + ph.memsz).toNat
    rw [e1, ok_bind]
    dsimp only
    by_cases hz : r = 0
    · rw [if_pos hz] at h1 hu1
      rw [if_pos hz]
      exact ⟨false, sz, s1, rfl, h1, hu1 hu⟩
    rw [if_neg hz] at h1 hu1
    rw [if_neg hz]
    split
    · exact ⟨false, r, s1, rfl, h1, hu1 hu⟩
    rename_i hal
    have hfits : ph.vaddr.toNat + u32 ph.filesz.toNat ≤ r := by
      have h2 := hr.resolve_left hz
      rw [toNat_add_of_not_lt hwrap] at h2
      rw [UInt64.lt_iff_toNat_lt] at hmem
      have : u32 ph.filesz.toNat ≤ ph.filesz.toNat := Nat.mod_le _ _
      omega
    obtain ⟨r2, s2, e2, h2, hu2⟩ := loadseg_built h1 (hu1 hu) ip (u32 ph.off.toNat) (Decidable.not_not.mp hal) hfits
    rw [e2, ok_bind]
    dsimp only
    split
    · exact ⟨false, r, s2, rfl, h2, hu2⟩
    · exact ih _ r s2 h2 hu2

/-! ## The stack -/

/-- The user pages end with the guard page and the stack page. -/
structure Guarded (m : Mem) (t sz : Nat) : Prop where
  mod : sz % 4096 = 0
  two : 8192 ≤ sz
  guard : ∃ w, lookup m t (sz / 4096 - 2) = some w ∧ w.testBit 4 = false
  others : ∀ v < sz / 4096, v ≠ sz / 4096 - 2 → ∃ p, lookup m t v = some (mkpte p userPerm)

theorem Guarded.congr {m m' : Mem} (h : Guarded m t sz) (hs : sz ≤ MAXVA)
    (hl : ∀ v < VPN, lookup m' t v = lookup m t v) : Guarded m' t sz := by
  have hlt : ∀ v < sz / 4096, v < VPN := fun v hv => lt_vpn (by
    simp only [MAXVA] at hs ⊢
    omega)
  have h2 := h.two
  refine ⟨h.mod, h2, ?_, fun v hv hne => ?_⟩
  · rw [hl _ (hlt _ (by omega))]
    exact h.guard
  · rw [hl v (hlt v hv)]
    exact h.others v hv hne

/-- Bytes pushed above `stackbase` go to the stack page. -/
theorem Built.push (h : Built hP B s0 t sz s) (hg : Guarded s.mem t sz) {sp : Nat} (bs : List UInt8)
    (h1 : sz - PGSIZE ≤ sp) (h2 : sp + bs.length ≤ sz)
    (hn : bs ≠ []) : ∃ s', copyout (lab I false) t sp bs s = .ok (0, s') ∧ Built hP B s0 t sz s' ∧
      Guarded s'.mem t sz ∧ Holds s'.mem t sp bs ∧
      ∀ x < sz, x < sp ∨ sp + bs.length ≤ x → byteAt s'.mem t x = byteAt s.mem t x := by
  obtain ⟨k, ha⟩ := h.alive
  have hmod := hg.mod
  have htwo := hg.two
  have hpos : 0 < bs.length := List.length_pos_iff.mpr hn
  have hsmall := ha.sized.small
  have hup := pgroundup_small hsmall
  have hmax : sz ≤ MAXVA := by
    simp only [TRAPFRAME, TRAMPOLINE, MAXVA, PGSIZE] at hsmall ⊢
    omega
  unfold PGSIZE at h1
  obtain ⟨p, hl⟩ := hg.others (sp / 4096) (by omega) (by omega)
  have hpage : sp / 4096 < PGROUNDUP sz / 4096 := by omega
  refine ⟨_, ha.copyout_page hpage hl (userPerm_user p) hn (by omega), ?_⟩
  obtain ⟨h3, hlk, h4, h5⟩ := h.put bs hpage hl (by omega)
  exact ⟨h3, hg.congr hmax hlk, h4, fun x hx => h5 x (vpn_of_lt (Nat.lt_of_lt_of_le hx hmax))⟩

/-- The strings from `sp` down, and nothing else below `sz`. -/
structure Pushed (t sz sp : Nat) (argv : List (List UInt8)) (m m' : Mem) : Prop where
  strings : ∀ {i ptr : Nat} {arg : List UInt8}, (pointers sp argv)[i]? = some ptr → argv[i]? = some arg →
    Holds m' t ptr (arg ++ [0])
  rest : ∀ x < sz, x < sp - total argv ∨ sp ≤ x → byteAt m' t x = byteAt m t x

theorem Pushed.cons {sp : Nat} {arg : List UInt8} {argv : List (List UInt8)} {m m1 m2 : Mem}
    (hle : total (arg :: argv) ≤ sp) (hsz : sp ≤ sz) (h1 : Holds m1 t (sp - room (arg.length + 1)) (arg ++ [0]))
    (h2 : ∀ x < sz, x < sp - room (arg.length + 1) ∨ sp - room (arg.length + 1) + (arg ++ [0]).length ≤ x →
      byteAt m1 t x = byteAt m t x)
    (h3 : Pushed t sz (sp - room (arg.length + 1)) argv m1 m2) : Pushed t sz sp (arg :: argv) m m2 := by
  have hroom := le_room (arg.length + 1)
  rw [total] at hle
  refine ⟨fun {i ptr a} hp ha => ?_, fun x hx hout => ?_⟩
  · cases i with
    | zero =>
      obtain rfl := Option.some.inj hp
      obtain rfl := Option.some.inj ha
      intro j hj
      have hlen : (arg ++ [0]).length = arg.length + 1 := by simp
      rw [← h1 j hj]
      exact h3.rest _ (by omega) (Or.inr (by omega))
    | succ i => exact h3.strings hp ha
  · rw [total] at hout
    have hlen : (arg ++ [0]).length = arg.length + 1 := by simp
    rw [h3.rest x hx (by omega), h2 x hx (by omega)]

/-- With room for the strings in `ustack`, they land in the stack page one below the other, or
    do not all fit. -/
theorem pushLoop_built : ∀ argv sp ustack (s : Mach Kmem), Built hP B s0 t sz s → Guarded s.mem t sz →
    (∀ arg ∈ argv, arg.length < PGSIZE) →
    ustack.length + argv.length < MAXARG → sz - PGSIZE ≤ sp → sp ≤ sz → sp % 16 = 0 →
    ∃ s', pushLoop I t (sz - PGSIZE) argv sp ustack s =
        .ok (if sz - PGSIZE + total argv ≤ sp then some (sp - total argv, ustack ++ pointers sp argv) else none, s') ∧
      Built hP B s0 t sz s' ∧ Guarded s'.mem t sz ∧
        (sz - PGSIZE + total argv ≤ sp → Pushed t sz sp argv s.mem s'.mem) := by
  intro argv
  induction argv with
  | nil =>
    intro sp ustack s h hg _ _ h1 h2 _
    refine ⟨s, ?_, h, hg, fun _ => ⟨fun hp => (nomatch hp), fun _ _ _ => rfl⟩⟩
    rw [total, Nat.add_zero, if_pos h1, Nat.sub_zero, pointers, List.append_nil]
    rfl
  | cons arg argv ih =>
    intro sp ustack s h hg ha hroom h1 h2 hmod
    have harg := ha arg (by simp)
    rw [List.length_cons] at hroom
    obtain ⟨k, hk⟩ := h.alive
    have hsmall := hk.sized.small
    have htwo := hg.two
    have hr := le_room (arg.length + 1)
    have hr' := room_mod (arg.length + 1)
    have hpg : PGSIZE = 4096 := rfl
    have hle : room (arg.length + 1) ≤ 4096 := by
      unfold room
      omega
    have hpush : Exec.push sp (arg.length + 1) = sp - room (arg.length + 1) := push_eq hmod (by omega) (by
      simp only [TRAPFRAME, TRAMPOLINE, MAXVA, PGSIZE] at hsmall
      omega)
    unfold pushLoop
    dsimp only
    rw [if_neg (by omega), hpush, total, pointers]
    split
    · rename_i hbase
      rw [if_neg (by omega)]
      exact ⟨s, rfl, h, hg, fun hfit => by omega⟩
    · rename_i hbase
      obtain ⟨s1, e1, h3, hg3, hholds, hrest⟩ :=
        h.push hg (arg ++ [0]) (Nat.le_of_not_lt hbase) (by simp; omega) (by simp)
      rw [e1, ok_bind]
      dsimp only
      rw [if_neg (by decide)]
      obtain ⟨s2, e2, h4, hg4, hpushed⟩ := ih (sp - room (arg.length + 1))
        (ustack ++ [sp - room (arg.length + 1)]) s1 h3 hg3 (fun a h => ha a (by simp [h]))
        (by simp; omega) (Nat.le_of_not_lt hbase) (by omega) (by omega)
      refine ⟨s2, ?_, h4, hg4, fun hfit => Pushed.cons (by rw [total]; omega) h2 hholds hrest (hpushed (by omega))⟩
      rw [e2, List.append_assoc, List.singleton_append, Nat.sub_sub]
      by_cases hfit : sz - PGSIZE + (room (arg.length + 1) + total argv) ≤ sp
      · rw [if_pos hfit, if_pos (by omega)]
      · rw [if_neg hfit, if_neg (by omega)]

/-- The strings and the array of pointers down to `sp`, and nothing else below `sz`. -/
structure Laid (t sz sp : Nat) (argv : List (List UInt8)) (m m' : Mem) : Prop where
  fits : Fits argv
  sp_eq : sp = sz - total argv - room ((argv.length + 1) * 8)
  strings : ∀ {i ptr : Nat} {arg : List UInt8}, (pointers sz argv)[i]? = some ptr → argv[i]? = some arg →
    Holds m' t ptr (arg ++ [0])
  array : Holds m' t sp (words (pointers sz argv ++ [0]))
  rest : ∀ x < sp, byteAt m' t x = byteAt m t x

/-- The stack pages: the size after them, and the machine with the guard page in place. -/
def stackPages (I : Image) (pagetable sz : Nat) (s : Mach Kmem) : Except String (Nat × Mach Kmem) := do
  let (sz1, s) ← uvmalloc (lab I false) pagetable (PGROUNDUP sz) (u64 (PGROUNDUP sz + 2 * PGSIZE)) s
  let s ← uvmclear (lab I false) pagetable (sz1 - 2 * PGSIZE) s
  .ok (sz1, s)

/-- From the end of the segments on. -/
theorem stack_built (h : Built hP B s0 t sz s) (hu : AllUser s.mem t sz) {argv : List (List UInt8)}
    (ha : Accepted argv) :
    ∃ sp sz' s', stack I t sz argv s = .ok (sp, sz', s') ∧ Built hP B s0 t sz' s' ∧
      ∀ a, sp = some a → Guarded s'.mem t sz' ∧ ∃ s3, stackPages I t sz s = .ok (sz', s3) ∧
        Laid t sz' a argv s3.mem s'.mem := by
  obtain ⟨k, hk⟩ := h.alive
  obtain ⟨hround, hk1⟩ := hk.round
  have h1 : Built hP B s0 t (PGROUNDUP sz) s := ⟨⟨k, hk1⟩, h.outside⟩
  have hu1 : AllUser s.mem t (PGROUNDUP sz) := by
    unfold AllUser
    rw [hround]
    exact hu
  have hsmall := hk1.sized.small
  have hmod := pgroundup_mod sz
  have hsum : u64 (PGROUNDUP sz + 2 * PGSIZE) = PGROUNDUP sz + 8192 := u64_of_lt (by
    simp only [TRAPFRAME, TRAMPOLINE, MAXVA, PGSIZE] at hsmall ⊢
    omega)
  unfold stack
  dsimp only
  obtain ⟨r, s2, e2, h2, hu2, hr⟩ := h1.uvmalloc (u64 (PGROUNDUP sz + 2 * PGSIZE))
  rw [e2, ok_bind]
  dsimp only
  by_cases hz : r = 0
  · rw [if_pos hz] at h2
    rw [if_pos hz]
    exact ⟨none, PGROUNDUP sz, s2, rfl, h2, fun _ e => nomatch e⟩
  rw [if_neg hz] at h2 hu2
  rw [if_neg hz]
  have hr : r = PGROUNDUP sz + 8192 := by
    rw [hr.resolve_left hz, hsum]
    omega
  obtain ⟨k2, hk2⟩ := h2.alive
  obtain ⟨e', hk2'⟩ := hk2.round
  have hrsmall := hk2.sized.small
  have hrup : PGROUNDUP r = r := by
    rw [pgroundup_small hrsmall]
    omega
  -- the guard page
  have hva : r - 2 * PGSIZE < PGROUNDUP r := by
    rw [hrup]
    unfold PGSIZE
    omega
  obtain ⟨s3, p, perm, e3, hk3, ho3, hperm, -, hlk3⟩ := hk2.uvmclear hva
  have hpage : (r - 2 * PGSIZE) / 4096 = r / 4096 - 2 := by
    unfold PGSIZE
    omega
  rw [hpage] at hlk3
  have h3 : Built hP B s0 t r s3 := ⟨⟨k2, hk3⟩, h2.outside.trans ho3⟩
  have hg3 : Guarded s3.mem t r := by
    have hvpn : ∀ v < r / 4096, v < VPN := fun v hv => hk2.sized.user_vpn (by rwa [hrup])
    refine ⟨by omega, by omega, ⟨_, by rw [hlk3 _ (hvpn _ (by omega)), if_pos rfl], ?_⟩, fun v hv hne => ?_⟩
    · rw [mkpte_testBit (Nat.lt_of_le_of_lt (clear_le _ _) hperm) (by decide), testBit_clear]
      simp [show PTE_U.testBit 4 = true by decide, show Nat.testBit 1 4 = false by decide]
    · rw [hlk3 v (hvpn v hv), if_neg hne]
      exact hu2 hu1 v (by rwa [hrup])
  have hpages : stackPages I t sz s = .ok (r, s3) := by
    unfold stackPages
    rw [e2, ok_bind]
    dsimp only
    rw [e3, ok_bind]
  rw [e3, ok_bind]
  obtain ⟨hlen, harg⟩ := ha
  have hpg : PGSIZE = 4096 := rfl
  obtain ⟨s4, e4, h4, hg4, hpushed⟩ := pushLoop_built argv r [] s3 h3 hg3 (fun arg h => (harg arg h).2)
    (by simpa using hlen) (Nat.sub_le _ _) (Nat.le_refl _)
    (by omega)
  generalize hpair : (if r - PGSIZE + total argv ≤ r then some (r - total argv, [] ++ pointers r argv) else none) =
    pushed at e4
  rw [e4, ok_bind]
  by_cases hfit : r - PGSIZE + total argv ≤ r
  · rw [if_pos hfit, List.nil_append] at hpair
    subst hpair
    dsimp only
    have hmod16 := total_mod argv
    have hrm := room_mod ((argv.length + 1) * 8)
    have hle := le_room ((argv.length + 1) * 8)
    have hlt := room_lt ((argv.length + 1) * 8)
    have hpush : push (r - total argv) ((argv.length + 1) * 8) = r - total argv - room ((argv.length + 1) * 8) :=
      push_eq (by omega) (by
      unfold MAXARG at hlen
      omega) (by
      simp only [TRAPFRAME, TRAMPOLINE, MAXVA, PGSIZE] at hrsmall
      omega)
    rw [pointers_length, if_neg (by omega), hpush]
    split
    · exact ⟨none, r, s4, rfl, h4, fun _ e => nomatch e⟩
    · rename_i hbase
      have hwords : (words (pointers r argv ++ [0])).length = (argv.length + 1) * 8 := by
        rw [words_length, List.length_append, pointers_length, List.length_singleton]
      have hroom : room ((argv.length + 1) * 8) ≤ r - total argv := by
        unfold MAXARG at hlen
        omega
      obtain ⟨s5, e5, h8, hg8, hholds, hrest⟩ :=
        h4.push hg4 (words (pointers r argv ++ [0])) (Nat.le_of_not_lt hbase) (by omega)
          (List.length_pos_iff.mp (by omega))
      rw [e5, ok_bind]
      dsimp only
      rw [if_neg (by decide)]
      refine ⟨some (r - total argv - room ((argv.length + 1) * 8)), r, s5, rfl, h8, fun a e => ?_⟩
      obtain rfl := Option.some.inj e
      have hp := hpushed hfit
      refine ⟨hg8, s3, hpages, by unfold Fits; omega, rfl, fun {i ptr arg} hptr hi j hj => ?_, hholds, fun x hx => ?_⟩
      · -- the array lies below all strings
        have hb := pointer_bounds (by omega) hptr hi
        rw [← hp.strings hptr hi j hj]
        rw [List.length_append, List.length_singleton] at hj
        exact hrest _ (by omega) (Or.inr (by omega))
      · rw [hrest x (by omega) (Or.inl hx)]
        exact hp.rest x (by omega) (Or.inl (by omega))
  · rw [if_neg hfit] at hpair
    subst hpair
    exact ⟨none, r, s4, rfl, h4, fun _ e => nomatch e⟩

/-! ## exec -/

/-- The pages lent to every space. -/
def Lent (trampoline trapframe p : Nat) : Prop := p = trampoline ∨ p = trapframe

/-- The process's address space is whole, over its own pages and the free ones, `P`. -/
structure Whole (hP : ∀ p ∈ P, Page I p) (trampoline : Nat) (s : State) : Prop where
  alive : ∃ k, Alive (partSpec I false P hP) (Lent trampoline s.proc.trapframe) s.mach s.proc.pagetable s.proc.sz k
  trampoline : IsPage trampoline ∧ trampoline ∉ P
  trapframe : IsPage s.proc.trapframe ∧ s.proc.trapframe ∉ P

/-- The process is what it was, and the pages that were free are. -/
structure Untouched (I : Image) (free : List Nat) (s s' : State) (free' : List Nat) : Prop where
  proc : s'.proc = s.proc
  mem : ∀ x, pageOf x ∉ free → s'.mach.mem x = s.mach.mem x
  freed : ∀ p, p ∈ free' ↔ p ∈ free

/-- The process has a new space, with a guard page; the old one is free. -/
structure Replaced (hP : ∀ p ∈ P, Page I p) (trampoline : Nat) (free : List Nat) (s s' : State)
    (free' : List Nat) : Prop where
  whole : Whole hP trampoline s'
  trapframe : s'.proc.trapframe = s.proc.trapframe
  fresh : s'.proc.pagetable ∈ free
  mapped : ∀ v < VPN, (lookup s'.mach.mem s'.proc.pagetable v).isSome = true ↔ v < PGROUNDUP s'.proc.sz / 4096 ∨
    LentPage v
  guarded : Guarded s'.mach.mem s'.proc.pagetable s'.proc.sz
  freed : ∀ p ∈ P, p ∉ free → p ∈ free'

theorem Sized.mapped {m : Mem} (h : Sized B m t sz) {v : Nat} (hv : v < VPN) : (lookup m t v).isSome = true ↔
    v < PGROUNDUP sz / 4096 ∨ LentPage v := by
  constructor
  · intro hs
    by_contra hn
    rw [not_or] at hn
    rw [h.none v hv (Nat.le_of_not_lt hn.1) hn.2] at hs
    cases hs
  · rintro (hlt | hl)
    · obtain ⟨p, perm, e, -⟩ := h.user v hlt
      rw [e]
      rfl
    · obtain ⟨w, e, -⟩ := h.lent v hl
      rw [e]
      rfl

variable {trampoline : Nat} {x0 x x' : State} {free : List Nat} {path : List UInt8} {argv : List (List UInt8)}

/-- At `bad` the image is freed, and what was free before is. -/
theorem bad_built (hfree : FreeList I x0.mach free) (h : Built hfree.page B x0.mach t sz x.mach)
    (hp : x.proc = x0.proc) (ip : Option Inode) :
    ∃ x' free', bad I (some t) sz ip x = .ok (-1, x') ∧ FreeList I x'.mach free' ∧ Untouched I free x0 x' free' ∧
      x'.ops = (if ip.isSome then x.ops - 1 else x.ops) ∧ x'.locked = (if ip.isSome then false else x.locked) := by
  obtain ⟨k, hk⟩ := h.alive
  obtain ⟨s', k', e, hg, ho⟩ := hk.proc_freepagetable
  obtain ⟨free', hl, hf⟩ := gone_freeList hg
  have hmem := h.outside.trans ho
  cases ip with
  | none => exact ⟨{ x with mach := s' }, free', by simp only [bad, e, ok_bind], hl, ⟨hp, hmem, hf⟩, rfl, rfl⟩
  | some ip => exact ⟨({ x with mach := s' } : State).iunlockput.end_op, free', by simp only [bad, e, ok_bind], hl,
      ⟨hp, hmem, hf⟩, rfl, rfl⟩

/-- The process runs in the image under `t`, with `sp` as its second argument. -/
structure Started (t sz sp : Nat) (m : Mem) (x' : State) : Prop where
  pagetable : x'.proc.pagetable = t
  sz_eq : x'.proc.sz = sz
  a1 : x'.mach.mem.loadLE (x'.proc.trapframe + 120) 8 = sp
  sp_eq : x'.mach.mem.loadLE (x'.proc.trapframe + 48) 8 = sp
  bytes : ∀ va < sz, byteAt x'.mach.mem t va = byteAt m t va

/-- The trapframe lies outside the pages handed out, so writing it breaks neither space. -/
theorem commit_built (hw : Whole hP trampoline x0) (hfree : FreeList I x0.mach free)
    (h : Built hfree.page (Lent trampoline x0.proc.trapframe) x0.mach t sz x.mach)
    (hg : Guarded x.mach.mem t sz) (hp : x.proc = x0.proc) (path : List UInt8) {sp : Nat} (hsp : sp < 2 ^ 64)
    (entry : Nat) :
    ∃ x' free', commit I path t sz sp entry x = .ok x' ∧ FreeList I x'.mach free' ∧
      Replaced hP trampoline free x0 x' free' ∧
      x'.ops = x.ops ∧ x'.locked = x.locked ∧ Started t sz sp x.mach.mem x' := by
  obtain ⟨k, hold⟩ := hw.alive
  obtain ⟨k1, hnew⟩ := h.alive
  obtain ⟨htf, hout⟩ := hw.trapframe
  have hB : ∀ p, Lent trampoline x0.proc.trapframe p → p ∉ P := by
    rintro p (rfl | rfl)
    · exact hw.trampoline.2
    · exact hout
  have hsub : ∀ {p}, p ∈ free → p ∈ P := fun {p} hp => by
    obtain ⟨free', hl, hf⟩ := VmInv.freeList hold.inv
    rw [hfree.unique hl, hf] at hp
    exact hold.inv.page_of (by simp [hp])
  let mem := ((x.mach.mem.storeLE (x0.proc.trapframe + 120) 8 sp).storeLE (x0.proc.trapframe + 24) 8 entry).storeLE
    (x0.proc.trapframe + 48) 8 sp
  have hmem : ∀ a, pageOf a ≠ x0.proc.trapframe → mem a = x.mach.mem a := fun a ha => by
    have := pageOf_mem htf.1 ha
    simp only [mem]
    rw [Mem.storeLE_ne (by omega), Mem.storeLE_ne (by omega), Mem.storeLE_ne (by omega)]
  -- the image is as it was
  have hext : k1 x0.proc.trapframe = .ext := (hnew.inv.ext _).mpr fun hp => hout (hsub hp)
  obtain ⟨h1, lf1⟩ := hnew.inv.write (by simp [hext, Kind.plain]) hmem
  have hlk1 : ∀ v < VPN, lookup mem t v = lookup x.mach.mem t v := fun v hv => lookup_congr (lf1 t (by simp) v hv)
  have hnew1 : Alive (partSpec I false free hfree.page) (Lent trampoline x0.proc.trapframe)
    ⟨mem, x.mach.kmem⟩ t sz k1 := ⟨h1, hnew.sized.congr hlk1, hnew.held⟩
  -- and so are the tables of the old space
  have htables : ∀ q t l i, k q = .node t l i → Mem.Agree x0.mach.mem mem q 4096 := fun q t l i hq a ha hb => by
    have hpage := hold.inv.tab.nodePage hq
    have ha : pageOf a = q := by
      have := hpage.1
      unfold pageOf
      omega
    have hne : q ≠ x0.proc.trapframe := by
      rintro rfl
      exact hout (hold.inv.page_of (by simp [hq]))
    rw [hmem a (by rwa [ha])]
    refine h.outside a fun hf => ?_
    obtain ⟨free', hl, hf'⟩ := VmInv.freeList hold.inv
    rw [hfree.unique hl, hf', ha, hq] at hf
    cases hf
  obtain ⟨s3, k3, free3, e3, h3, hlk3, hl3, hf3, hsame, hbytes⟩ := Alive.replace hold hfree hnew1 hB htables
  have hsmall := hnew.sized.small
  have hmax : sz ≤ MAXVA := by
    simp only [TRAPFRAME, TRAMPOLINE, MAXVA, PGSIZE] at hsmall ⊢
    omega
  have hreg : ∀ off, off + 8 ≤ 4096 → s3.mem.loadLE (x0.proc.trapframe + off) 8 =
    mem.loadLE (x0.proc.trapframe + off) 8 := fun off hoff =>
    Mem.loadLE_agree fun a ha hb => hsame a (by
      rw [show pageOf a = x0.proc.trapframe by
        have := htf.1
        unfold pageOf
        omega]
      exact hout)
  refine ⟨{ x with
    mach := s3
    proc := { x0.proc with pagetable := t, sz := sz, name := safestrcpy x0.proc.name (lastElem path path) 16 } }, free3, ?_, hl3,
    ⟨⟨⟨k3, h3⟩, hw.trampoline, hw.trapframe⟩, rfl, ?_, fun v hv => Sized.mapped h3.sized hv,
      (hg.congr hmax hlk1).congr hmax hlk3, hf3⟩, rfl, rfl,
    rfl, rfl, ?_, ?_, fun va hva => ?_⟩
  · unfold commit
    dsimp only
    rw [hp]
    exact congrArg (· >>= _) e3
  · exact hnew.inv.page_of (by simp [hnew.inv.tab.root t (by simp)])
  · dsimp only
    rw [hreg 120 (by decide)]
    simp only [mem]
    rw [Mem.loadLE_agree (Mem.agree_storeLE _ (by omega)), Mem.loadLE_agree (Mem.agree_storeLE _ (by omega)),
      Mem.loadLE_storeLE_of_lt _ _ _ _ hsp]
  · dsimp only
    rw [hreg 48 (by decide)]
    exact Mem.loadLE_storeLE_of_lt _ _ _ _ hsp
  · have hvpn := vpn_of_lt (Nat.lt_of_lt_of_le hva hmax)
    dsimp only
    rw [hbytes va hvpn]
    -- the trapframe is none of the user's pages
    have hup := pgroundup_small hsmall
    obtain ⟨p, perm, hl, hpage, hnb, hperm, -⟩ := hnew.sized.user (va / 4096) (by omega)
    unfold byteAt
    rw [hlk1 _ hvpn, hl, Option.map_some, Option.map_some, pte2pa_mkpte hpage hperm]
    refine congrArg some (hmem _ ?_)
    rw [pageOf_add hpage.1 (Nat.mod_lt _ (by decide))]
    intro e
    exact hnb (Or.inr e)

/-- What exec has when it commits: the image with its size after the segments, then with the
    strings on its stack. -/
structure Prepared (F : Format) (trampoline : Nat) (ip : Option Inode) (argv : List (List UInt8)) (x : State)
    (t sz0 sz sp : Nat) (s2 s3 : Mach Kmem) : Prop where
  loaded : ∃ f s1, ip = some f ∧ proc_pagetable (lab I false) trampoline x.proc.trapframe x.mach = .ok (some t, s1) ∧
    loadLoop I F t f (F.elfhdr (readi f 0 F.elfhdrSize)).phnum.toNat
      (u32 (F.elfhdr (readi f 0 F.elfhdrSize)).phoff.toNat) 0 s1 = .ok (true, sz0, s2)
  laid : ∃ m, stackPages I t sz0 s2 = .ok (sz, m) ∧ Laid t sz sp argv m.mem s3.mem

/-- exec fails and changes nothing, or starts the image it prepared. -/
theorem exec_cases (hw : Whole hP trampoline x) (hfree : FreeList I x.mach free) (F : Format) (path : List UInt8)
    (ha : Accepted argv) (ip : Option Inode) :
    ∃ r x' free', exec I F trampoline path argv ip x = .ok (r, x') ∧ FreeList I x'.mach free' ∧ x'.ops = x.ops ∧
      (x.locked = false → x'.locked = false) ∧
      (r = -1 ∧ Untouched I free x x' free' ∨ r = argv.length ∧ Replaced hP trampoline free x x' free' ∧
        ∃ t sz0 sz sp s2 s3, Prepared (I := I) F trampoline ip argv x t sz0 sz sp s2 s3 ∧
          Started t sz sp s3.mem x') := by
  have same : ∀ x', x'.proc = x.proc → x'.mach = x.mach → Untouched I free x x' free :=
    fun x' h1 h2 => ⟨h1, fun _ _ => by rw [h2], fun _ => Iff.rfl⟩
  have hB : ∀ p, Lent trampoline x.proc.trapframe p → p ∉ P := by
    rintro p (rfl | rfl)
    · exact hw.trampoline.2
    · exact hw.trapframe.2
  cases ip with
  | none => exact ⟨-1, x.begin_op.end_op, free, rfl, hfree, rfl, id, Or.inl ⟨rfl, same _ rfl rfl⟩⟩
  | some ip =>
    obtain ⟨k, hold⟩ := hw.alive
    have hsub : ∀ p, Lent trampoline x.proc.trapframe p → p ∉ free := fun p hp hf => by
      obtain ⟨free', hl, hf'⟩ := VmInv.freeList hold.inv
      rw [hfree.unique hl, hf'] at hf
      exact hB p hp (hold.inv.page_of (by simp [hf]))
    obtain ⟨k0, hg0⟩ := gone_start hfree hsub
    unfold exec
    dsimp only
    split
    · exact ⟨-1, x.begin_op.ilock.iunlockput.end_op, free, rfl, hfree, rfl, fun _ => rfl,
        Or.inl ⟨rfl, same _ rfl rfl⟩⟩
    split
    · exact ⟨-1, x.begin_op.ilock.iunlockput.end_op, free, rfl, hfree, rfl, fun _ => rfl,
        Or.inl ⟨rfl, same _ rfl rfl⟩⟩
    rcases hg0.proc_pagetable ⟨hw.trampoline.1, Or.inl rfl⟩ ⟨hw.trapframe.1, Or.inr rfl⟩ with ⟨s1, k1, e1, hg1, ho1⟩ |
      ⟨t, s1, k1, e1, h1, ho1⟩
    · obtain ⟨free1, hl1, hf1⟩ := gone_freeList hg1
      exact ⟨-1, ({ x.begin_op.ilock with mach := s1 } : State).iunlockput.end_op, free1, congrArg (· >>= _) e1, hl1,
        rfl, fun _ => rfl,
        Or.inl ⟨rfl, rfl, ho1, hf1⟩⟩
    have hb1 : Built hfree.page (Lent trampoline x.proc.trapframe) x.mach t 0 s1 := ⟨⟨k1, h1⟩, ho1⟩
    obtain ⟨ok, sz2, s2, e2, h2, hu2⟩ := loadLoop_built F ip (F.elfhdr (readi ip 0 F.elfhdrSize)).phnum.toNat
      (u32 (F.elfhdr (readi ip 0 F.elfhdrSize)).phoff.toNat) 0 s1 hb1 fun v hv => absurd hv (Nat.not_lt_zero v)
    rw [show proc_pagetable (lab I false) trampoline x.begin_op.ilock.proc.trapframe x.begin_op.ilock.mach =
      _ from e1, ok_bind]
    dsimp only
    rw [e2, ok_bind]
    cases ok with
    | false =>
      obtain ⟨x', free', e, hl, hun, ho, hlk⟩ :=
        bad_built (x := { x.begin_op.ilock with mach := s2 }) hfree h2 rfl (some ip)
      exact ⟨-1, x', free', e, hl, ho, fun _ => hlk, Or.inl ⟨rfl, hun⟩⟩
    | true =>
      obtain ⟨sp, sz3, s3, e3, h3, hg3⟩ := stack_built h2 hu2 ha
      dsimp only
      have e4 : stack I t sz2 argv ({ x.begin_op.ilock with mach := s2 } : State).iunlockput.end_op.mach =
        .ok (sp, sz3, s3) := e3
      rw [if_neg (by decide), e4, ok_bind]
      dsimp only
      cases sp with
      | none =>
        obtain ⟨x', free', e, hl, hun, ho, hlk⟩ := bad_built
          (x := { ({ x.begin_op.ilock with mach := s2 } : State).iunlockput.end_op with mach := s3 }) hfree h3 rfl none
        exact ⟨-1, x', free', e, hl, ho, fun _ => hlk, Or.inl ⟨rfl, hun⟩⟩
      | some sp =>
        obtain ⟨hguard, m, epages, hlaid⟩ := hg3 sp rfl
        obtain ⟨k3, hk3⟩ := h3.alive
        have hsp : sp < 2 ^ 64 := by
          have hsmall := hk3.sized.small
          have hsp := hlaid.sp_eq
          simp only [TRAPFRAME, TRAMPOLINE, MAXVA, PGSIZE] at hsmall
          omega
        obtain ⟨x', free', e, hl, hre, ho, hlk, hst⟩ :=
          commit_built
            (x := { ({ x.begin_op.ilock with mach := s2 } : State).iunlockput.end_op with mach := s3 }) hw hfree h3
          hguard rfl path hsp (F.elfhdr (readi ip 0 F.elfhdrSize)).entry.toNat
        refine ⟨argv.length, x', free', ?_, hl, ho, fun _ => hlk,
          Or.inr ⟨rfl, hre, t, sz2, sz3, sp, s2, s3, ⟨⟨ip, s1, rfl, e1, e2⟩, m, epages, hlaid⟩, hst⟩⟩
        dsimp only
        rw [e, ok_bind]

/-- exec gives the process a new image and frees the old, or changes nothing; it does not
    panic. -/
theorem exec_all_or_nothing (hw : Whole hP trampoline x) (hfree : FreeList I x.mach free) (F : Format)
    (path : List UInt8) (ha : Accepted argv) (ip : Option Inode) :
    ∃ r x' free', exec I F trampoline path argv ip x = .ok (r, x') ∧ FreeList I x'.mach free' ∧ x'.ops = x.ops ∧
      (x.locked = false → x'.locked = false) ∧
      (r = -1 ∧ Untouched I free x x' free' ∨ r = argv.length ∧ Replaced hP trampoline free x x' free') := by
  obtain ⟨r, x', free', e, hl, ho, hlk, hcases⟩ := exec_cases hw hfree F path ha ip
  refine ⟨r, x', free', e, hl, ho, hlk, ?_⟩
  rcases hcases with h | ⟨h1, h2, -⟩
  · exact Or.inl h
  · exact Or.inr ⟨h1, h2⟩

/-- The little-endian number in `n` bytes at `a`. -/
def littleEndian (bs : List UInt8) (a n : Nat) : Nat :=
  (List.range n).foldr (fun i acc => (bs.getD (a + i) 0).toNat + 256 * acc) 0

/-- The 64-bit ELF layout. -/
def elf64 : Format where
  ELF_MAGIC := 0x464C457F
  ELF_PROG_LOAD := 1
  elfhdrSize := 64
  elfhdr bs := ⟨.ofNat (littleEndian bs 0 4), .ofNat (littleEndian bs 24 8), .ofNat (littleEndian bs 32 8),
    .ofNat (littleEndian bs 56 2)⟩
  proghdrSize := 56
  proghdr bs := ⟨.ofNat (littleEndian bs 0 4), .ofNat (littleEndian bs 8 8), .ofNat (littleEndian bs 16 8),
    .ofNat (littleEndian bs 32 8),
    .ofNat (littleEndian bs 40 8)⟩

def smallImage : Image := ⟨0x80022000, by decide, by decide⟩

def smallPages : List Nat := (List.range 12).map fun i => 0x80022000 + 4096 * i

theorem smallPages_page : ∀ p ∈ smallPages, Page smallImage p :=
  (by decide : ∀ p ∈ smallPages, p % 4096 = 0 ∧ 0x80022000 ≤ p ∧ p < PHYSTOP)

/-- A process with no memory of its own. -/
def small (s : Mach Kmem) (t : Nat) : State := ⟨s, ⟨t, 0, 0x87f00000, []⟩, 0, false⟩

theorem whole_small : ∃ s t free, proc_pagetable (lab smallImage false) 0x80007000 0x87f00000
    (freed smallImage smallPages) = .ok (some t, s) ∧
    Whole smallPages_page 0x80007000 (small s t) ∧ FreeList smallImage s free := by
  have hne : ∀ p ∈ smallPages, p ≠ 0x80007000 ∧ p ≠ 0x87f00000 := by decide
  have hfree : FreeList smallImage (freed smallImage smallPages) smallPages :=
    freed_freeList smallImage smallPages smallPages_page (by decide)
  have h1 : IsPage 0x80007000 ∧ 0x80007000 ∉ smallPages := ⟨by simp [IsPage], fun h => (hne _ h).1 rfl⟩
  have h2 : IsPage 0x87f00000 ∧ 0x87f00000 ∉ smallPages := ⟨by simp [IsPage], fun h => (hne _ h).2 rfl⟩
  obtain ⟨k, hg⟩ := gone_start (B := Lent 0x80007000 0x87f00000) hfree (by
    rintro p (rfl | rfl)
    · exact h1.2
    · exact h2.2)
  have made : (proc_pagetable (lab smallImage false) 0x80007000 0x87f00000 (freed smallImage smallPages)).toOption.any
    (·.1.isSome) = true := by decide +kernel
  rcases hg.proc_pagetable ⟨h1.1, Or.inl rfl⟩ ⟨h2.1, Or.inr rfl⟩ with ⟨s1, k1, e1, -⟩ | ⟨t, s1, k1, e1, ha, -⟩
  · rw [e1] at made
    cases made
  · obtain ⟨free, hl, -⟩ := VmInv.freeList ha.inv
    exact ⟨s1, t, free, e1, ⟨⟨k1, ha⟩, h1, h2⟩, hl⟩

/-- An ELF file of one segment: four bytes for address 0. -/
def oneSegment : List UInt8 :=
  [0x7f, 0x45, 0x4c, 0x46] ++ List.replicate 28 0 ++ [64] ++ List.replicate 23 0 ++ [1] ++ List.replicate 7 0 ++
    [1] ++ List.replicate 7 0 ++ [120] ++
    List.replicate 23 0 ++ [4] ++ List.replicate 7 0 ++ [4] ++ List.replicate 15 0 ++ [1, 2, 3, 4]

def smallFile : Inode := ⟨oneSegment, by simp [oneSegment]⟩

def smallArgs : List (List UInt8) := [[97], [98, 99]]

theorem smallArgs_accepted : Accepted smallArgs := by simp [smallArgs, Accepted, MAXARG, PGSIZE]

/-- The stack pointer and the size of its new image. -/
def smallStack : Option (Option Nat × Nat) :=
  match proc_pagetable (lab smallImage false) 0x80007000 0x87f00000 (freed smallImage smallPages) with
  | .ok (some _, s1) =>
    match proc_pagetable (lab smallImage false) 0x80007000 0x87f00000 s1 with
    | .ok (some t, s2) =>
      match loadLoop smallImage elf64 t smallFile 1 64 0 s2 with
      | .ok (true, sz, s3) => (stack smallImage t sz smallArgs s3).toOption.map fun x => (x.1, x.2.1)
      | _ => none
    | _ => none
  | _ => none

/-- It executes the file: 2 is returned if anything is. -/
theorem small_exec {s : Mach Kmem} {t : Nat} {r : Int} {x' : State}
    (e : proc_pagetable (lab smallImage false) 0x80007000 0x87f00000 (freed smallImage smallPages) = .ok (some t, s))
    (er : exec smallImage elf64 0x80007000 [97] smallArgs (some smallFile) (small s t) = .ok (r, x')) : r = 2 := by
  have hrun : smallStack = some (some 12224, 12288) := by decide +kernel
  have hhdr : (readi smallFile 0 elf64.elfhdrSize).length = elf64.elfhdrSize ∧
    (elf64.elfhdr (readi smallFile 0 elf64.elfhdrSize)).magic = elf64.ELF_MAGIC ∧
      (elf64.elfhdr (readi smallFile 0 elf64.elfhdrSize)).phnum.toNat = 1 ∧
        u32 (elf64.elfhdr (readi smallFile 0 elf64.elfhdrSize)).phoff.toNat = 64 := by
    decide +kernel
  obtain ⟨h1, h2, h3, h4⟩ := hhdr
  unfold smallStack at hrun
  rw [e] at hrun
  dsimp only at hrun
  split at hrun
  · rename_i t2 s2 e2
    split at hrun
    · rename_i sz s3 e3
      obtain ⟨⟨sp, sz', s4⟩, e4, hsp⟩ := Option.map_eq_some_iff.mp hrun
      obtain ⟨rfl, rfl⟩ := Prod.mk.inj hsp
      have e4 : stack smallImage t2 sz smallArgs s3 = .ok (some 12224, 12288, s4) := by
        cases h : stack smallImage t2 sz smallArgs s3 with
        | error m =>
          rw [h] at e4
          cases e4
        | ok y =>
          rw [h] at e4
          exact congrArg Except.ok (Option.some.inj e4)
      have e2 : proc_pagetable (lab smallImage false) 0x80007000 (small s t).begin_op.ilock.proc.trapframe
        (small s t).begin_op.ilock.mach = _ := e2
      unfold exec at er
      dsimp only at er
      rw [if_neg (fun hne => hne h1), if_neg (fun hne => hne h2), e2, ok_bind] at er
      dsimp only at er
      rw [h3, h4, e3, ok_bind] at er
      dsimp only at er
      rw [if_neg (by decide)] at er
      have e4 : stack smallImage t2 sz smallArgs
        ({ (small s t).begin_op.ilock with mach := s3 } : State).iunlockput.end_op.mach = _ := e4
      rw [e4, ok_bind] at er
      obtain ⟨y, -, er⟩ := bind_ok er
      exact (Prod.mk.inj (Except.ok.inj er)).1.symm
    · cases hrun
  · cases hrun

/-- A process with no memory of its own executes a file of one segment with two arguments. -/
theorem exec_all_or_nothing_small : ∃ (x x' : State) (free free' : List Nat), Whole smallPages_page 0x80007000 x ∧
    FreeList smallImage x.mach free ∧
    exec smallImage elf64 0x80007000 [97] smallArgs (some smallFile) x = .ok (2, x') ∧
      FreeList smallImage x'.mach free' ∧
    Replaced smallPages_page 0x80007000 free x x' free' := by
  obtain ⟨s, t, free, e, hw, hl⟩ := whole_small
  obtain ⟨r, x', free', er, hl', -, -, hr⟩ := exec_all_or_nothing hw hl elf64 [97] smallArgs_accepted (some smallFile)
  obtain rfl := small_exec e er
  exact ⟨_, x', free, free', hw, hl, er, hl', (hr.resolve_left fun h => absurd h.1 (by decide)).2⟩

end Xv6Labs.Exec
