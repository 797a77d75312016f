/-
  Xv6Labs.Mmap.Fault — a page fault in a mapped area.

  - `fillPage_spec`: the process is killed for want of memory, or the page is mapped with what
    readi gives there; a page that is mapped already, or a file without an inode, is a panic.
  - `pageFault_ok`: a page fault that returns, in an area or not.
  - `pageFault_outcome`: which of the cases it is, from the state before.
-/

import Xv6Labs.Mmap.Proc
import Xv6Labs.Vm.Need

namespace Xv6Labs.Mmap

open Lib Vm

section

variable {κ : Type} {A : Lab κ} {H : AllocSpec A} {B : Nat → Prop} {live : List Nat} {k : Nat → Kind} {s s' : St κ}

/-! ## Page faults -/

theorem flag_lt (x : Vma) : x.flag < 1024 ∧ x.flag ||| PTE_V ≠ PTE_V := by
  simp only [Vma.flag]
  split <;> split <;> split <;> decide

theorem Filled.congr {m m' : Mach κ} {k' : Nat → Kind} {t v perm : Nat} {f f' : Nat → UInt8}
    (h : Filled B live m k t v perm f m' k') (hf : ∀ o < 4096, f o = f' o) : Filled B live m k t v perm f' m' k' := by
  refine ⟨h.here, h.alone, h.lookup, fun t' ht' va hva => ?_, h.held, h.node⟩
  rw [h.byteAt t' ht' va hva, hf _ (Nat.mod_lt _ (by decide))]

theorem readi_length (ip : List UInt8) (off n : Nat) : (readi ip off n).length ≤ n :=
  Fs.Disk.readBytes_length ip off n

/-- Nothing but the page is written. -/
theorem readPage_off (x : Vma) (ip : List UInt8) (va : Nat) {mem : Nat} (m : Mem) (hp : mem % 4096 = 0) (y : Nat)
    (hy : pageOf y ≠ mem) :
    readPage x ip va mem m y = m y := by
  have h1 := pageOf_mem hp hy
  have h2 := readi_length ip (u32 (toU64 ((va : Int) - x.addr))) PGSIZE
  have h3 : (m.set mem 0 PGSIZE).put mem (readi ip (u32 (toU64 ((va : Int) - x.addr))) PGSIZE) y =
    m.set mem 0 PGSIZE y :=
    Mem.agree_put (b := y) (n := 1) _ _ (by simp only [PGSIZE] at h2 ⊢; omega) y (Nat.le_refl _) (by omega)
  rw [readPage, h3]
  exact set_off m 0 hp y hy

theorem readPage_in (x : Vma) (ip : List UInt8) (va mem : Nat) (m : Mem) {o : Nat} (ho : o < 4096) :
    readPage x ip va mem m (mem + o) = (readi ip (u32 (toU64 ((va : Int) - x.addr))) PGSIZE).getD o 0 := by
  simp only [readPage, Mem.put, Nat.le_add_right, Nat.add_lt_add_iff_left, true_and, Nat.add_sub_cancel_left]
  split
  · rfl
  · rename_i hge
    rw [Mem.set_in m 0 (Nat.le_add_right _ _) (by simp only [PGSIZE]; omega), List.getD_eq_default _ _ (by omega)]

theorem fillPage_eq {x : Vma} {va mem : Nat} {m : Mach κ} {ip : List UInt8} (e : A.kalloc s.m = (some mem, m))
    (hip : (s.file x.file).ip = some ip) :
    fillPage A x va s = enterPage A x va mem s { m with mem := readPage x ip va mem m.mem } := by
  simp only [fillPage, e, hip]

theorem fillPage_empty {x : Vma} {va : Nat} {m : Mach κ} (e : A.kalloc s.m = (none, m)) :
    fillPage A x va s = .ok (St.kill { s with m := m }) := by
  simp only [fillPage, e]

theorem fillPage_ilock {x : Vma} {va mem : Nat} {m : Mach κ} (e : A.kalloc s.m = (some mem, m))
    (hip : (s.file x.file).ip = none) : fillPage A x va s = .error "ilock" := by
  simp only [fillPage, e, hip]

theorem enterPage_error {x : Vma} {va mem : Nat} {m : Mach κ} {msg : String}
    (e : mappages A s.p.pagetable va PGSIZE mem x.flag m = .error msg) :
    enterPage A x va mem s m = .error msg := by
  unfold enterPage
  rw [e, error_bind]

theorem enterPage_fail {x : Vma} {va mem : Nat} {m m1 m2 : Mach κ}
    (e : mappages A s.p.pagetable va PGSIZE mem x.flag m = .ok (-1, m1))
    (e' : A.kfree mem m1 = .ok m2) : enterPage A x va mem s m = .ok (St.kill { s with m := m2 }) := by
  unfold enterPage
  rw [e, ok_bind]
  dsimp only
  rw [if_pos (by decide), e', ok_bind]

theorem enterPage_ok {x : Vma} {va mem : Nat} {m m1 : Mach κ}
    (e : mappages A s.p.pagetable va PGSIZE mem x.flag m = .ok (0, m1)) :
    enterPage A x va mem s m = .ok { s with m := m1 } := by
  unfold enterPage
  rw [e, ok_bind]
  dsimp only
  rw [if_neg (by decide)]

/-- A page that is mapped already has its tables, so mappages gets as far as its remap check. -/
theorem fillPage_remap (h : VmInv H B s.m live k) (ht : s.p.pagetable ∈ live) {x : Vma} {va mem : Nat} {m1 : Mach κ}
    {ip : List UInt8} (hal : va % 4096 = 0)
    (hva : va < MAXVA) (e : A.kalloc s.m = (some mem, m1)) (hip : (s.file x.file).ip = some ip)
    (hw : (lookup s.m.mem s.p.pagetable (va / 4096)).isSome = true) :
      fillPage A x va s = .error "mappages: remap" := by
  obtain ⟨-, -, -, h1, lf, -, -⟩ := h.kalloc_fill e (readPage_off x ip va m1.mem (h.kalloc_some e).2.1.1)
  have hv : vbit (leaf (readPage x ip va mem m1.mem) s.p.pagetable (va / 4096)) = true := by
    obtain ⟨w, hw⟩ := Option.isSome_iff_exists.mp hw
    obtain ⟨rfl, hv⟩ := lookup_some.mp hw
    rw [lf _ ht _ (vpn_of_lt hva)]
    exact hv
  rw [fillPage_eq e hip]
  exact enterPage_error (mappages_remap h1 ht hal hva hv)

/-- A page fault in an area: killed for lack of memory, one of two panics, or the page
    mapped with what readi copied. -/
theorem fillPage_spec (h : VmInv H B s.m live k) (ht : s.p.pagetable ∈ live) (x : Vma) {va : Nat}
    (hal : va % 4096 = 0) (hva : va < MAXVA) :
    (∃ m' k', fillPage A x va s = .ok (St.kill { s with m := m' }) ∧ VmInv H B m' live k' ∧ Kept live s.m k m' k' ∧
        H.fails s.m.kmem < H.fails m'.kmem) ∨
      ((s.file x.file).ip = none ∧ fillPage A x va s = .error "ilock") ∨
      ((lookup s.m.mem s.p.pagetable (va / 4096)).isSome = true ∧ fillPage A x va s = .error "mappages: remap") ∨
      ∃ ip m' k', (s.file x.file).ip = some ip ∧ lookup s.m.mem s.p.pagetable (va / 4096) = none ∧
        fillPage A x va s = .ok { s with m := m' } ∧
        VmInv H B m' live k' ∧
        Filled B live s.m k s.p.pagetable (va / 4096) x.flag
          (fun o => (readi ip (u32 (toU64 ((va : Int) - x.addr))) PGSIZE).getD o 0) m' k' ∧
        H.fails m'.kmem = H.fails s.m.kmem := by
  rcases e : A.kalloc s.m with ⟨_ | mem, m1⟩
  · obtain ⟨h1, -, -, hf⟩ := h.kalloc_none e
    exact Or.inl ⟨m1, k, fillPage_empty e, h1, kept_kalloc_none h e, by omega⟩
  · cases hip : (s.file x.file).ip with
    | none => exact Or.inr (Or.inl ⟨rfl, fillPage_ilock e hip⟩)
    | some ip =>
      have hm := readPage_off x ip va m1.mem (h.kalloc_some e).2.1.1
      by_cases hw : (lookup s.m.mem s.p.pagetable (va / 4096)).isSome = true
      · exact Or.inr (Or.inr (Or.inl ⟨hw, fillPage_remap h ht hal hva e hip hw⟩))
      · rw [fillPage_eq e hip]
        have hn : lookup s.m.mem s.p.pagetable (va / 4096) = none := by simpa using hw
        rcases kalloc_map h ht hal hva hn (flag_lt x).1 (flag_lt x).2 e hm with ⟨m2, m3, k3, e2, e3, h3, hk, hf⟩ |
          ⟨m2, k2, e2, h2, hfill, hf⟩
        · exact Or.inl ⟨m3, k3, enterPage_fail e2 e3, h3, hk, by omega⟩
        · have hbytes := Filled.congr hfill fun o ho => readPage_in x ip va mem m1.mem ho
          exact Or.inr (Or.inr (Or.inr ⟨ip, m2, k2, rfl, hn, enterPage_ok e2, h2, hbytes, hf⟩))

/-- No table covers MAXVA. -/
theorem fillPage_past {x : Vma} {va : Nat} (hal : va % 4096 = 0) (hva : MAXVA ≤ va) (e : fillPage A x va s = .ok s') :
    ∃ m', A.kalloc s.m = (none, m') ∧ s' = St.kill { s with m := m' } := by
  rcases ek : A.kalloc s.m with ⟨_ | mem, m1⟩
  · rw [fillPage_empty ek] at e
    cases e
    exact ⟨m1, rfl, rfl⟩
  · cases hip : (s.file x.file).ip with
    | none =>
      rw [fillPage_ilock ek hip] at e
      cases e
    | some ip =>
      rw [fillPage_eq ek hip, enterPage_error (mappages_past hal hva)] at e
      cases e

/-- The distance of the page of `va` from the start of the area, as readi's `uint off`. -/
def Vma.place (x : Vma) (va : Nat) : Nat := u32 (toU64 ((PGROUNDDOWN va : Int) - x.addr))

/-- A page fault that returns: the process is killed, or the address is in no area, or the first
    area around it has filled the page. -/
theorem pageFault_ok {VMASIZE va sp : Nat} (h : VmInv H B s.m live k) (ht : s.p.pagetable ∈ live)
    (e : pageFault A VMASIZE va sp s = .ok s') :
    (∃ m' k', s' = St.kill { s with m := m' } ∧ VmInv H B m' live k' ∧ Kept live s.m k m' k') ∨
      (s' = s ∧ findVma s.p.vmas va VMASIZE 0 = none) ∨
      ∃ j ip m' k', findVma s.p.vmas va VMASIZE 0 = some j ∧ (s.file (s.p.vmas j).file).ip = some ip ∧ va < s.p.sz ∧
        va < MAXVA ∧
        s' = { s with m := m' } ∧ VmInv H B m' live k' ∧
        Filled B live s.m k s.p.pagetable (va / 4096) (s.p.vmas j).flag
          (fun o => (readi ip ((s.p.vmas j).place va) PGSIZE).getD o 0) m' k' := by
  have hdown : PGROUNDDOWN va % 4096 = 0 ∧ PGROUNDDOWN va ≤ va ∧ PGROUNDDOWN va / 4096 = va / 4096 := by
    unfold PGROUNDDOWN PGSIZE
    omega
  unfold pageFault at e
  split at e
  · cases e
    exact Or.inl ⟨s.m, k, rfl, h, .refl ..⟩
  rename_i hsz
  cases hj : findVma s.p.vmas va VMASIZE 0 with
  | none =>
    rw [hj] at e
    cases e
    exact Or.inr (Or.inl ⟨rfl, rfl⟩)
  | some j =>
    rw [hj] at e
    dsimp only at e
    by_cases hva : va < MAXVA
    · rcases fillPage_spec h ht (s.p.vmas j) hdown.1 (by omega) with ⟨m', k', e', h', hk, -⟩ | ⟨-, e'⟩ | ⟨-, e'⟩ |
        ⟨ip, m', k', hip, -, e', h', hf, -⟩
      · rw [e'] at e
        cases e
        exact Or.inl ⟨m', k', rfl, h', hk⟩
      · rw [e'] at e
        cases e
      · rw [e'] at e
        cases e
      · rw [e'] at e
        cases e
        rw [hdown.2.2] at hf
        exact Or.inr (Or.inr ⟨j, ip, m', k', rfl, hip, by omega, hva, rfl, h', hf⟩)
    · have hpast : MAXVA ≤ PGROUNDDOWN va := by
        have : MAXVA % 4096 = 0 := by decide
        unfold PGROUNDDOWN PGSIZE
        omega
      obtain ⟨m', ek, rfl⟩ := fillPage_past hdown.1 hpast e
      obtain ⟨h', -, -, -⟩ := h.kalloc_none ek
      exact Or.inl ⟨m', k, rfl, h', kept_kalloc_none h ek⟩

end

/-! ## From the state before -/

section

variable {I : Plain.Image} {B : Nat → Prop} {live : List Nat} {k : Nat → Kind} {VMASIZE va sp : Nat}
    {s : St Plain.Kmem}

/-- The test at the start of the branch. -/
def Rejects (va sp : Nat) (s : St Plain.Kmem) : Prop :=
  va ≥ s.p.sz ∨ va > MAXVA ∨ Xv6Labs.PGROUNDUP va = PGROUNDDOWN sp

/-- kalloc has a page for the area, and its file has no inode, the address is MAXVA, or the page
    is mapped already. -/
def Panics (VMASIZE va sp : Nat) (s : St Plain.Kmem) : Prop :=
  ¬ Rejects va sp s ∧ s.m.kmem.freelist ≠ 0 ∧ ∃ j, findVma s.p.vmas va VMASIZE 0 = some j ∧
    ((s.file (s.p.vmas j).file).ip = none ∨ va = MAXVA ∨ (lookup s.m.mem s.p.pagetable (va / 4096)).isSome = true)

/-- kalloc has a page for the bytes, and one for each table that is missing. -/
def Supplied (I : Plain.Image) (va : Nat) (s : St Plain.Kmem) : Prop :=
  ∃ free, Plain.FreeList I s.m free ∧ Plain.missing s.m.mem (va / 4096) 2 s.p.pagetable < free.length

theorem kalloc_freelist (m : Mach Plain.Kmem) : (∃ p m', Plain.kalloc m = (some p, m')) ↔ m.kmem.freelist ≠ 0 := by
  unfold Plain.kalloc
  dsimp only
  split
  · rename_i h
    exact ⟨fun _ => h, fun _ => ⟨_, _, rfl⟩⟩
  · rename_i h
    refine ⟨fun hsome => ?_, fun h' => absurd h' h⟩
    obtain ⟨p, m', e⟩ := hsome
    cases e

theorem Supplied.freelist (h : Supplied I va s) : s.m.kmem.freelist ≠ 0 := by
  obtain ⟨free, hf, hlt⟩ := h
  rcases hf.kalloc with ⟨rfl, -⟩ | ⟨p, l, -, e, -⟩
  · exact absurd hlt (Nat.not_lt_zero _)
  · exact (kalloc_freelist s.m).mp ⟨p, _, e⟩

/-- What a page fault comes to. -/
inductive Outcome (I : Plain.Image) (B : Nat → Prop) (VMASIZE va sp : Nat) (s : St Plain.Kmem) (live : List Nat)
    (k : Nat → Kind) :
    Except String (St Plain.Kmem) → Prop
  | rejected : Rejects va sp s → Outcome I B VMASIZE va sp s live k (.ok s.kill)
  | outside : ¬ Rejects va sp s → findVma s.p.vmas va VMASIZE 0 = none → Outcome I B VMASIZE va sp s live k (.ok s)
  | panics {msg : String} : Panics VMASIZE va sp s → Outcome I B VMASIZE va sp s live k (.error msg)
  | empty {j : Nat} {m' : Mach Plain.Kmem} : ¬ Rejects va sp s → findVma s.p.vmas va VMASIZE 0 = some j →
      s.m.kmem.freelist = 0 → m'.mem = s.m.mem →
      VmInv (Plain.spec I true) B m' live k → Outcome I B VMASIZE va sp s live k (.ok (St.kill { s with m := m' }))
  | short {j : Nat} {ip : List UInt8} {m' : Mach Plain.Kmem} {k' : Nat → Kind} : ¬ Rejects va sp s →
      findVma s.p.vmas va VMASIZE 0 = some j →
      (s.file (s.p.vmas j).file).ip = some ip → va < MAXVA → lookup s.m.mem s.p.pagetable (va / 4096) = none →
        ¬ Supplied I va s →
      VmInv (Plain.spec I true) B m' live k' → Kept live s.m k m' k' →
        Outcome I B VMASIZE va sp s live k (.ok (St.kill { s with m := m' }))
  | filled {j : Nat} {ip : List UInt8} {m' : Mach Plain.Kmem} {k' : Nat → Kind} : ¬ Rejects va sp s →
      findVma s.p.vmas va VMASIZE 0 = some j →
      (s.file (s.p.vmas j).file).ip = some ip → va < MAXVA → lookup s.m.mem s.p.pagetable (va / 4096) = none →
        Supplied I va s →
      VmInv (Plain.spec I true) B m' live k' →
      Filled B live s.m k s.p.pagetable (va / 4096) (s.p.vmas j).flag
        (fun o => (readi ip ((s.p.vmas j).place va) PGSIZE).getD o 0) m' k' →
      Outcome I B VMASIZE va sp s live k (.ok { s with m := m' })

theorem pageFault_rejects (h : Rejects va sp s) : pageFault (Plain.lab I true) VMASIZE va sp s = .ok s.kill :=
  if_pos h

theorem pageFault_none (h : ¬ Rejects va sp s) (hj : findVma s.p.vmas va VMASIZE 0 = none) :
    pageFault (Plain.lab I true) VMASIZE va sp s = .ok s := by
  refine (if_neg h).trans ?_
  rw [hj]

theorem pageFault_some (h : ¬ Rejects va sp s) {j : Nat} (hj : findVma s.p.vmas va VMASIZE 0 = some j) :
    pageFault (Plain.lab I true) VMASIZE va sp s = fillPage (Plain.lab I true) (s.p.vmas j) (PGROUNDDOWN va) s := by
  refine (if_neg h).trans ?_
  rw [hj]

theorem kalloc_empty {m m' : Mach Plain.Kmem} (e : Plain.kalloc m = (none, m')) : m.kmem.freelist = 0 := by
  by_contra hne
  obtain ⟨p, m1, e'⟩ := (kalloc_freelist m).mpr hne
  rw [e] at e'
  cases e'

/-- A page that is not mapped: whether mappages finds its tables decides. -/
theorem fillPage_outcome (h : VmInv (Plain.spec I true) B s.m live k) (ht : s.p.pagetable ∈ live)
    (hrej : ¬ Rejects va sp s) {j mem : Nat} (hj : findVma s.p.vmas va VMASIZE 0 = some j) {ip : List UInt8}
    (hip : (s.file (s.p.vmas j).file).ip = some ip) (hva : va < MAXVA)
    (hn : lookup s.m.mem s.p.pagetable (va / 4096) = none) {m1 : Mach Plain.Kmem}
    (e : Plain.kalloc s.m = (some mem, m1)) :
    Outcome I B VMASIZE va sp s live k (fillPage (Plain.lab I true) (s.p.vmas j) (PGROUNDDOWN va) s) := by
  have hdown : PGROUNDDOWN va % 4096 = 0 ∧ PGROUNDDOWN va < MAXVA ∧ PGROUNDDOWN va / 4096 = va / 4096 := by
    unfold PGROUNDDOWN PGSIZE
    omega
  have hpage : ∀ x, pageOf x ≠ mem → readPage (s.p.vmas j) ip (PGROUNDDOWN va) mem m1.mem x = m1.mem x :=
    readPage_off (s.p.vmas j) ip (PGROUNDDOWN va) m1.mem (h.kalloc_some (A := Plain.lab I true) e).2.1.1
  obtain ⟨free, hf, -⟩ := h.alloc
  have hmiss : (∃ s2, mappages (Plain.lab I true) s.p.pagetable (PGROUNDDOWN va) PGSIZE mem (s.p.vmas j).flag
        { m1 with mem := readPage (s.p.vmas j) ip (PGROUNDDOWN va) mem m1.mem } = .ok (-1, s2)) ↔
      free.length ≤ Plain.missing s.m.mem (PGROUNDDOWN va / 4096) 2 s.p.pagetable :=
    Plain.mappages_missing h ht hdown.1 hdown.2.1 hf e hpage
  rw [hdown.2.2] at hmiss
  rw [fillPage_eq e hip]
  rcases kalloc_map h ht hdown.1 hdown.2.1 (by rw [hdown.2.2]; exact hn) (flag_lt (s.p.vmas j)).1
    (flag_lt (s.p.vmas j)).2 e hpage with ⟨m2, m3, k3, e2, e3, h3, hk, -⟩ | ⟨m2, k2, e2, h2, hfill, -⟩
  · have hshort : ¬ Supplied I va s := by
      intro hs
      obtain ⟨free', hf', hlt⟩ := hs
      have hle := hmiss.mp ⟨m2, e2⟩
      rw [hf.unique hf'] at hle
      omega
    rw [enterPage_fail e2 e3]
    exact .short hrej hj hip hva hn hshort h3 hk
  · have hsup : Plain.missing s.m.mem (va / 4096) 2 s.p.pagetable < free.length := by
      by_contra hge
      obtain ⟨m3, e3⟩ := hmiss.mpr (by omega)
      rw [e2] at e3
      cases e3
    rw [hdown.2.2] at hfill
    rw [enterPage_ok e2]
    exact .filled hrej hj hip hva hn ⟨free, hf, hsup⟩ h2
      (Filled.congr hfill fun o ho => readPage_in (s.p.vmas j) ip (PGROUNDDOWN va) mem m1.mem ho)

theorem pageFault_outcome (h : VmInv (Plain.spec I true) B s.m live k) (ht : s.p.pagetable ∈ live)
    (VMASIZE va sp : Nat) :
    Outcome I B VMASIZE va sp s live k (pageFault (Plain.lab I true) VMASIZE va sp s) := by
  by_cases hrej : Rejects va sp s
  · rw [pageFault_rejects hrej]
    exact .rejected hrej
  cases hj : findVma s.p.vmas va VMASIZE 0 with
  | none =>
    rw [pageFault_none hrej hj]
    exact .outside hrej hj
  | some j =>
    rw [pageFault_some hrej hj]
    have hdown : PGROUNDDOWN va % 4096 = 0 ∧ PGROUNDDOWN va ≤ va ∧ va < PGROUNDDOWN va + 4096 := by
      unfold PGROUNDDOWN PGSIZE
      omega
    rcases e : Plain.kalloc s.m with ⟨_ | mem, m1⟩
    · obtain ⟨h1, hmem, -, -⟩ := h.kalloc_none (A := Plain.lab I true) e
      rw [fillPage_empty (A := Plain.lab I true) e]
      exact .empty hrej hj (kalloc_empty e) hmem h1
    have hfree : s.m.kmem.freelist ≠ 0 := (kalloc_freelist s.m).mp ⟨mem, m1, e⟩
    cases hip : (s.file (s.p.vmas j).file).ip with
    | none =>
      rw [fillPage_ilock (A := Plain.lab I true) e hip]
      exact .panics ⟨hrej, hfree, j, hj, Or.inl hip⟩
    | some ip =>
      by_cases hva : va < MAXVA
      · cases hn : lookup s.m.mem s.p.pagetable (va / 4096) with
        | none => exact fillPage_outcome h ht hrej hj hip hva hn e
        | some w =>
          have hw : (lookup s.m.mem s.p.pagetable (va / 4096)).isSome = true := by rw [hn]; rfl
          have hpn : PGROUNDDOWN va / 4096 = va / 4096 := by omega
          rw [fillPage_remap h ht hdown.1 (by omega) e hip (by rw [hpn]; exact hw)]
          exact .panics ⟨hrej, hfree, j, hj, Or.inr (Or.inr hw)⟩
      · -- no table covers MAXVA
        have hmax : MAXVA % 4096 = 0 := by decide
        have heq : va = MAXVA := by
          unfold Rejects at hrej
          omega
        rw [fillPage_eq e hip, enterPage_error (mappages_past hdown.1 (by omega))]
        exact .panics ⟨hrej, hfree, j, hj, Or.inr (Or.inl heq)⟩

end

end Xv6Labs.Mmap
