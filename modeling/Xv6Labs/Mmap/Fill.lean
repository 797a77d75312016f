/-
  Xv6Labs.Mmap.Fill — which part of its file a mapped page shows.

  A page fault reads the file at the distance of the page from the start of its area.
  `vma->offset` is stored by sys_mmap and read by nobody, and sys_munmap moves the start of an
  area up without moving an offset.

  - `Reached`: the states that page faults and munmaps of prefixes lead to, after the call of
    sys_mmap that made area `i`.
  - `fills_right_part`: exactly when the first touch of a page fills it with the right bytes.
  - `offset_ignored`: a mapping of the second page of a file shows the first.
-/

import Xv6Labs.Mmap.Munmap

namespace Xv6Labs.Mmap

open Lib Vm

/-! ## One munmap -/

section

variable {κ : Type} {A : Lab κ} {VMASIZE addr : Nat} {length r : Int}
    {written : File → Mem → Nat → Nat → Int → Option (List UInt8)} {s s' : St κ}

/-- sys_munmap does nothing, or takes the pages from the start of an entry on. -/
theorem sys_munmap_ok (hal : addr % 4096 = 0) (e : sys_munmap A VMASIZE written addr length s = .ok (r, s')) :
    s' = s ∨ ∃ j m', (s.p.vmas j).addr = addr ∧ unmapLoop A s.p.pagetable true (rounds addr length) addr s.m =
      .ok m' ∧ Shrunk j (PGROUNDUP length) m' s s' := by
  unfold sys_munmap at e
  rw [pgrounddown_of_aligned hal] at e
  dsimp only at e
  split at e
  · cases e
    exact Or.inl rfl
  rename_i j _
  split at e
  · rename_i ha
    obtain ⟨s1, e1, e⟩ := bind_ok e
    cases e
    obtain ⟨m', eu, hs⟩ := unmapVma_inv e1
    rw [uvmunmap_rounds length hal] at eu
    exact Or.inr ⟨j, m', ha, eu, hs⟩
  · cases e
    exact Or.inl rfl

theorem findVma_none {vmas : Nat → Vma} {va : Nat} : ∀ {n j}, findVma vmas va n j = none →
    ∀ l, j ≤ l → l < j + n → (vmas l).used = true → (vmas l).contains va = false := by
  intro n
  induction n with
  | zero => exact fun _ l h1 h2 => absurd h2 (by omega)
  | succ n ih =>
    intro j h l h1 h2 hu
    unfold findVma at h
    split at h
    · cases h
    · rename_i hp
      by_cases e : l = j
      · subst e
        rw [hu, Bool.true_and] at hp
        exact Bool.eq_false_iff.mpr hp
      · exact ih h l (by omega) (by omega) hu

theorem readi_getD {ip : List UInt8} {off o : Nat} (hlen : ip.length < 2 ^ 31) (hoff : off < 2 ^ 32) (ho : o < 4096) :
    (readi ip off PGSIZE).getD o 0 = ip.getD (off + o) 0 := by
  unfold readi Fs.Disk.readBytes
  split
  · rename_i h
    have hout : ip.length ≤ off + o := by
      unfold u32 PGSIZE at h
      omega
    rw [List.getD_eq_default _ _ (Nat.zero_le o), List.getD_eq_default _ _ hout]
  · rw [List.getD_eq_getElem?_getD, List.getD_eq_getElem?_getD, List.getElem?_take_of_lt ho, List.getElem?_drop]

end

/-! ## An area and its file -/

variable {I : Plain.Image} {B : Nat → Prop} {VMASIZE i A f offset va sp : Nat}
    {written : File → Mem → Nat → Nat → Int → Option (List UInt8)}
  {s s' : St Plain.Kmem}

/-- A process whose pages below the trapframe are its own. -/
structure Owned (I : Plain.Image) (B : Nat → Prop) (s : St Plain.Kmem) : Prop where
  vm : ∃ live k, VmInv (Plain.spec I true) B s.m live k ∧ s.p.pagetable ∈ live
  own : ∀ v w, v * 4096 < TRAPFRAME → lookup s.m.mem s.p.pagetable v = some w → ¬ B (PTE2PA w)

variable (I B VMASIZE written) in
/-- Area `i`, which sys_mmap put at `A` for file `f`, after any page faults and any munmaps of
    whole pages from its start on, none of them up to the trapframe. -/
inductive Reached (i A f offset : Nat) : St Plain.Kmem → Prop
  | mmap {s s' : St Plain.Kmem} {length prot flags : Int} {fd : Nat} : Owned I B s → s.p.ofile fd = some f →
      freeVma s.p.vmas VMASIZE 0 = some i →
      sys_mmap VMASIZE length prot flags fd offset s = .ok ((A : Int), s') → Reached i A f offset s'
  | fault {s s' : St Plain.Kmem} (va sp : Nat) : Reached i A f offset s →
      pageFault (Plain.lab I true) VMASIZE va sp s = .ok s' → Reached i A f offset s'
  | munmap {s s' : St Plain.Kmem} {length : Int} : Reached i A f offset s → (s.p.vmas i).used = true → 0 < length →
      length % 4096 = 0 → length < 2 ^ 31 →
      length ≤ (s.p.vmas i).length → ((s.p.vmas i).addr : Int) + length ≤ TRAPFRAME →
      sys_munmap (Plain.lab I true) VMASIZE written (s.p.vmas i).addr length s = .ok (0, s') → Reached i A f offset s'

/-- What the code keeps of the call. -/
structure Entered (I : Plain.Image) (B : Nat → Prop) (VMASIZE i A f offset : Nat) (s : St Plain.Kmem) :
    Prop extends Owned I B s where
  lt : i < VMASIZE
  file : (s.p.vmas i).file = f
  offset : (s.p.vmas i).offset = offset
  start : A ≤ (s.p.vmas i).addr
  aligned : (s.p.vmas i).addr % 4096 = 0

theorem lt_of_below {v : Nat} (h : v * 4096 < TRAPFRAME) : v < VPN := by
  unfold TRAPFRAME TRAMPOLINE MAXVA PGSIZE at h
  unfold VPN
  omega

theorem Owned.fault (h : Owned I B s) (e : pageFault (Plain.lab I true) VMASIZE va sp s = .ok s') :
    Owned I B s' ∧ s'.p.vmas = s.p.vmas := by
  obtain ⟨live, k, hv, ht⟩ := h.vm
  rcases pageFault_ok hv ht e with ⟨m', k', rfl, h', hk⟩ | ⟨rfl, -⟩ | ⟨j, ip, m', k', -, -, -, -, rfl, h', hf⟩
  · refine ⟨⟨⟨live, k', h', ht⟩, fun v w hv' hw => h.own v w hv' ?_⟩, rfl⟩
    rw [← hk.lookup _ ht v (lt_of_below hv')]
    exact hw
  · exact ⟨h, rfl⟩
  · refine ⟨⟨⟨live, k', h', ht⟩, fun v w hv' hw => ?_⟩, rfl⟩
    by_cases ev : v = va / 4096
    · obtain ⟨p, hp, hb, -, hl⟩ := hf.here
      have hw : lookup m'.mem s.p.pagetable v = some w := hw
      rw [ev, hl] at hw
      cases hw
      rw [pte2pa_mkpte hp (flag_lt _).1]
      exact hb
    · refine h.own v w hv' ?_
      rw [← hf.lookup _ ht v (lt_of_below hv') fun e => ev e.2]
      exact hw

theorem Entered.munmap (h : Entered I B VMASIZE i A f offset s) {length : Int} (h0 : 0 < length)
    (h1 : length % 4096 = 0) (h2 : length < 2 ^ 31) (hroom : ((s.p.vmas i).addr : Int) + length ≤ TRAPFRAME)
    (e : sys_munmap (Plain.lab I true) VMASIZE written (s.p.vmas i).addr length s = .ok (0, s')) :
      Entered I B VMASIZE i A f offset s' := by
  rcases sys_munmap_ok h.aligned e with rfl | ⟨j, m', ha, eu, hs⟩
  · exact h
  obtain ⟨live, k, hv, ht⟩ := h.vm
  have hlen : PGROUNDUP length = length := by
    rcases pgroundup_cases h0 h2 with hc | hc <;> omega
  have hrounds : rounds (s.p.vmas i).addr length = (length / 4096).toNat := by
    rw [rounds_of_front h.aligned (by omega) (by omega) (by omega), hlen]
  have hbelow : ∀ v, InRange ((s.p.vmas i).addr / 4096) (rounds (s.p.vmas i).addr length) v → v * 4096 < TRAPFRAME :=
    fun v hv => by
    rw [hrounds] at hv
    unfold InRange at hv
    omega
  have hown : OwnRange B s.m.mem s.p.pagetable ((s.p.vmas i).addr / 4096) (rounds (s.p.vmas i).addr length) :=
    fun v _ hr w hw => h.own v w (hbelow v hr) hw
  rcases unmapLoop_spec ht _ _ s.m k h.aligned hv hown with ⟨-, m1, k1, e1, hv', hcl, -⟩ | ⟨-, msg, e1⟩
  · rw [eu] at e1
    cases e1
    have hbase : Owned I B s' := by
      refine ⟨⟨live, k1, by rw [hs.m]; exact hv', by rw [hs.pagetable]; exact ht⟩, fun v w hlt hw => h.own v w hlt ?_⟩
      rw [hs.m, hs.pagetable, hcl.lookup _ ht v (lt_of_below hlt)] at hw
      split at hw
      · cases hw
      · exact hw
    by_cases hj : i = j
    · subst hj
      have hx : s'.p.vmas i = (s.p.vmas i).shrunk length := by rw [hs.vmas, Function.update_self, hlen]
      have haddr : (((s.p.vmas i).shrunk length).addr : Int) = (s.p.vmas i).addr + length := by
        unfold TRAPFRAME TRAMPOLINE MAXVA PGSIZE at hroom
        exact toU64_of_range (by omega) (by omega)
      have hstart := h.start
      have hal := h.aligned
      refine ⟨hbase, h.lt, by rw [hx]; exact h.file, by rw [hx]; exact h.offset, by rw [hx]; omega, by rw [hx]; omega⟩
    · have hx : s'.p.vmas i = s.p.vmas i := by rw [hs.vmas, Function.update_of_ne hj]
      exact ⟨hbase, h.lt, by rw [hx]; exact h.file, by rw [hx]; exact h.offset, by rw [hx]; exact h.start,
        by rw [hx]; exact h.aligned⟩
  · rw [eu] at e1
    cases e1

theorem Reached.entered (h : Reached I B VMASIZE written i A f offset s) (hal : A % 4096 = 0) :
    Entered I B VMASIZE i A f offset s := by
  induction h with
  | @mmap s s' length prot flags fd h hfd hi e =>
    rcases sys_mmap_cases e with ⟨hr, hr', -⟩ | ⟨-, f', i', hfd', hi', hA, rfl⟩
    · omega
    · rw [hfd] at hfd'
      rw [hi] at hi'
      cases hfd'
      cases hi'
      have hA : A = s.p.sz := Int.ofNat.inj hA
      have hx : Function.update s.p.vmas i (newVma length prot flags fd f offset s) i =
        newVma length prot flags fd f offset s := Function.update_self ..
      have hlt := (freeVma_some hi).2.2
      refine ⟨⟨h.vm, h.own⟩, by omega, ?_, ?_, ?_, ?_⟩ <;> dsimp only <;> rw [hx]
      · rfl
      · rfl
      · exact Nat.le_of_eq hA
      · show s.p.sz % 4096 = 0
        rw [← hA]
        exact hal
  | fault va sp _ e ih =>
    obtain ⟨h', hx⟩ := ih.toOwned.fault e
    exact ⟨h', ih.lt, by rw [hx]; exact ih.file, by rw [hx]; exact ih.offset, by rw [hx]; exact ih.start,
      by rw [hx]; exact ih.aligned⟩
  | munmap _ _ h0 h1 h2 _ hroom e ih => exact ih.munmap h0 h1 h2 hroom e

/-! ## A touch -/

/-- The page that a fault at `va` filled shows the part of the file that belongs there. -/
def ShowsPart (A offset : Nat) (ip : List UInt8) (va : Nat) (s : St Plain.Kmem) : Prop :=
  ∀ o < 4096, byteAt s.m.mem s.p.pagetable (PGROUNDDOWN va + o) = some (ip.getD (offset + (PGROUNDDOWN va - A) + o) 0)

/-- The first area around `va` has, at the distance of the page from its start, the bytes that
    the mapping has at its offset and the distance from `A`. -/
def SamePart (VMASIZE A offset : Nat) (ip : List UInt8) (va : Nat) (s : St Plain.Kmem) : Prop :=
  ∃ j bs, findVma s.p.vmas va VMASIZE 0 = some j ∧ (s.file (s.p.vmas j).file).ip = some bs ∧
    ∀ o < 4096, bs.getD ((s.p.vmas j).place va + o) 0 = ip.getD (offset + (PGROUNDDOWN va - A) + o) 0

theorem not_shown {ip : List UInt8} (hl : lookup s'.m.mem s'.p.pagetable (va / 4096) = none) :
    ¬ ShowsPart A offset ip va s' := by
  intro h
  have h0 := h 0 (by decide)
  have hdiv : (PGROUNDDOWN va + 0) / 4096 = va / 4096 := by
    unfold PGROUNDDOWN PGSIZE
    omega
  unfold byteAt at h0
  rw [hdiv, hl] at h0
  cases h0

theorem Entered.touch (h : Entered I B VMASIZE i A f offset s) {ip : List UInt8}
    (hlen : ∀ g bs, (s.file g).ip = some bs → bs.length < 2 ^ 31)
    (hu : (s.p.vmas i).used = true) (hc : (s.p.vmas i).contains va = true)
    (hnew : lookup s.m.mem s.p.pagetable (va / 4096) = none) :
    (∃ s', pageFault (Plain.lab I true) VMASIZE va sp s = .ok s' ∧ ShowsPart A offset ip va s') ↔
      ¬ Rejects va sp s ∧ va < MAXVA ∧ Supplied I va s ∧ SamePart VMASIZE A offset ip va s := by
  obtain ⟨live, k, hv, ht⟩ := h.vm
  have ho := pageFault_outcome hv ht VMASIZE va sp
  have hdark : ∀ {s1 : St Plain.Kmem}, lookup s1.m.mem s1.p.pagetable (va / 4096) = none →
      ¬ ∃ s', (.ok s1 : Except String (St Plain.Kmem)) = .ok s' ∧ ShowsPart A offset ip va s' := fun {s1} hl hs => by
    obtain ⟨s', e, hs⟩ := hs
    cases e
    exact not_shown hl hs
  generalize pageFault (Plain.lab I true) VMASIZE va sp s = r at ho ⊢
  cases ho with
  | rejected hrej => exact iff_of_false (hdark hnew) fun hcond => hcond.1 hrej
  | outside _ hno =>
    have := findVma_none hno i (Nat.zero_le i) (by have := h.lt; omega) hu
    rw [hc] at this
    cases this
  | panics hp =>
    refine iff_of_false (fun hs => ?_) fun hcond => ?_
    · obtain ⟨s', e, -⟩ := hs
      cases e
    · -- of the three reasons none is left
      obtain ⟨-, -, j, hj, hwhy⟩ := hp
      obtain ⟨-, hmax, -, j', bs, hj', hbs, -⟩ := hcond
      rw [hj] at hj'
      cases hj'
      rcases hwhy with hno | rfl | hw
      · rw [hbs] at hno
        cases hno
      · exact Nat.lt_irrefl _ hmax
      · rw [hnew] at hw
        cases hw
  | @empty _ m' _ _ hfree hmem _ =>
    have hl : lookup m'.mem s.p.pagetable (va / 4096) = none := by
      rw [hmem]
      exact hnew
    exact iff_of_false (hdark hl) fun hcond => hcond.2.2.1.freelist hfree
  | short _ _ _ hmax _ hno _ hkept =>
    exact iff_of_false (hdark ((hkept.lookup _ ht _ (vpn_of_lt hmax)).trans hnew)) fun hcond => hno hcond.2.2.1
  | @filled j bs m' k' hrej hj hbs hmax _ hsup _ hf =>
    have hplace : (s.p.vmas j).place va < 2 ^ 32 := Nat.mod_lt _ (by decide)
    have hbyte : ∀ o < 4096, byteAt m'.mem s.p.pagetable (PGROUNDDOWN va + o) =
      some (bs.getD ((s.p.vmas j).place va + o) 0) := fun o ho => by
      have hdiv : (PGROUNDDOWN va + o) / 4096 = va / 4096 := by
        unfold PGROUNDDOWN PGSIZE
        omega
      have hmod : (PGROUNDDOWN va + o) % 4096 = o := by
        unfold PGROUNDDOWN PGSIZE
        omega
      rw [hf.byteAt _ ht _ (by rw [hdiv]; exact vpn_of_lt hmax), if_pos ⟨rfl, hdiv⟩, hmod,
        readi_getD (hlen _ _ hbs) hplace ho]
    constructor
    · intro hs
      obtain ⟨s', e, hs⟩ := hs
      cases e
      exact ⟨hrej, hmax, hsup, j, bs, hj, hbs, fun o ho => Option.some.inj ((hbyte o ho).symm.trans (hs o ho))⟩
    · intro hcond
      obtain ⟨-, -, -, j', bs', hj', hbs', hsame⟩ := hcond
      rw [hj] at hj'
      cases hj'
      rw [hbs] at hbs'
      cases hbs'
      exact ⟨_, rfl, fun o ho => (hbyte o ho).trans (congrArg some (hsame o ho))⟩

/-- The first touch of a page of the area fills it with the right part of the file exactly if it
    is not taken for a touch next to the stack, there are pages for it, and that part is the
    same as the one at the distance from the area's start. -/
theorem fills_right_part (h : Reached I B VMASIZE written i A f offset s) (hal : A % 4096 = 0)
    (hlen : ∀ g bs, (s.file g).ip = some bs → bs.length < 2 ^ 31)
    (hu : (s.p.vmas i).used = true) (hc : (s.p.vmas i).contains va = true)
    (hnew : lookup s.m.mem s.p.pagetable (va / 4096) = none) :
    ∀ ip, (s.file f).ip = some ip →
      ((∃ s', pageFault (Plain.lab I true) VMASIZE va sp s = .ok s' ∧ ShowsPart A offset ip va s') ↔
      ¬ Rejects va sp s ∧ va < MAXVA ∧ Supplied I va s ∧ SamePart VMASIZE A offset ip va s) :=
  fun _ _ => (h.entered hal).touch hlen hu hc hnew

/-- A fault in an area that returns, and does not kill. -/
theorem Owned.touched (h : Owned I B s) {j : Nat} (hj : findVma s.p.vmas va VMASIZE 0 = some j)
    (e : pageFault (Plain.lab I true) VMASIZE va sp s = .ok s')
    (hk : s'.p.killed = false) : ¬ Rejects va sp s ∧ va < MAXVA ∧ Supplied I va s ∧
      lookup s.m.mem s.p.pagetable (va / 4096) = none := by
  obtain ⟨live, k, hv, ht⟩ := h.vm
  have ho := pageFault_outcome hv ht VMASIZE va sp
  rw [e] at ho
  cases ho with
  | rejected => cases hk
  | outside _ hno =>
    rw [hj] at hno
    cases hno
  | empty => cases hk
  | short => cases hk
  | filled hrej _ _ hmax hn hsup => exact ⟨hrej, hmax, hsup, hn⟩

/-- In the mapping's own area: the file repeats itself at the distance that the offset and the
    munmaps of the front make together. -/
theorem Entered.same_part_iff (h : Entered I B VMASIZE i A f offset s) (hf : findVma s.p.vmas va VMASIZE 0 = some i)
    (h0 : 0 ≤ (s.p.vmas i).length) (h1 : (s.p.vmas i).length < 2 ^ 31) (hva : va < MAXVA) {ip : List UInt8}
    (hip : (s.file f).ip = some ip) :
    SamePart VMASIZE A offset ip va s ↔ ∀ o < 4096,
      ip.getD (PGROUNDDOWN va - (s.p.vmas i).addr + o) 0 =
        ip.getD (offset + ((s.p.vmas i).addr - A) + (PGROUNDDOWN va - (s.p.vmas i).addr) + o) 0 := by
  obtain ⟨-, hc, -⟩ := findVma_some hf
  have hal := h.aligned
  have hstart := h.start
  unfold Vma.contains at hc
  rw [Bool.and_eq_true, decide_eq_true_eq, decide_eq_true_eq] at hc
  unfold MAXVA at hva
  have hend := toU64_of_range (n := ((s.p.vmas i).addr : Int) + (s.p.vmas i).length) (by omega) (by omega)
  have hdown : (s.p.vmas i).addr ≤ PGROUNDDOWN va ∧ PGROUNDDOWN va ≤ va := by
    unfold PGROUNDDOWN PGSIZE
    omega
  have hplace : (s.p.vmas i).place va = PGROUNDDOWN va - (s.p.vmas i).addr := by
    have hdist := toU64_of_range (n := (PGROUNDDOWN va : Int) - (s.p.vmas i).addr) (by omega) (by omega)
    unfold Vma.place u32
    omega
  have hwant : offset + (PGROUNDDOWN va - A) =
    offset + ((s.p.vmas i).addr - A) + (PGROUNDDOWN va - (s.p.vmas i).addr) := by omega
  have hown : (s.file (s.p.vmas i).file).ip = some ip := by rw [h.file]; exact hip
  unfold SamePart
  rw [hwant]
  constructor
  · intro hs o ho
    obtain ⟨j, bs, hj, hbs, hsame⟩ := hs
    rw [hf] at hj
    cases hj
    rw [hown] at hbs
    cases hbs
    have hbyte := hsame o ho
    rw [hplace] at hbyte
    exact hbyte
  · intro hs
    refine ⟨i, ip, hf, hown, fun o ho => ?_⟩
    rw [hplace]
    exact hs o ho

/-- It does at offset 0, while nothing is unmapped. -/
theorem Entered.same_part (h : Entered I B VMASIZE i A f 0 s) (hf : findVma s.p.vmas va VMASIZE 0 = some i)
    (ha : (s.p.vmas i).addr = A)
    (h0 : 0 ≤ (s.p.vmas i).length) (h1 : (s.p.vmas i).length < 2 ^ 31) (hva : va < MAXVA) {ip : List UInt8}
    (hip : (s.file f).ip = some ip) :
    SamePart VMASIZE A 0 ip va s := by
  refine (h.same_part_iff hf h0 h1 hva hip).mpr fun o _ => ?_
  rw [ha, Nat.sub_self, Nat.add_zero, Nat.zero_add]

/-! ## A mapping of the second page of a file -/

/-- A process with an empty page table and an open file. -/
def withFile (m : Mach Plain.Kmem) (t : Nat) (ip : List UInt8) : St Plain.Kmem :=
  ⟨m, ⟨t, 0, fun _ => ⟨false, 0, 0, 0, 0, 0, 0, 0, fun _ => false⟩, fun fd => if fd = 3 then some 0 else none, false⟩,
    fun _ => ⟨1, true, true, some ip⟩⟩

/-- What its first page fault does, in a mapping of one page. -/
def firstFault (offset : Nat) (ip : List UInt8) : Option Bool :=
  match uvmcreate (Plain.lab fewPages true) (Plain.freed fewPages few) with
  | (some t, m) =>
    match sys_mmap 16 4096 1 2 3 offset (withFile m t ip) with
    | .ok (0, s) =>
      match pageFault (Plain.lab fewPages true) 16 0 8192 s with
      | .ok s' => some s'.p.killed
      | .error _ => none
    | _ => none
  | _ => none

theorem few_owned {t : Nat} {m : Mach Plain.Kmem}
    (e : uvmcreate (Plain.lab fewPages true) (Plain.freed fewPages few) = (some t, m)) (ip : List UInt8) :
    Owned fewPages (fun _ => False) (withFile m t ip) := by
  obtain ⟨k, hv⟩ := few_vm e
  exact ⟨⟨[t], k, hv, List.mem_singleton_self t⟩, fun _ _ _ _ h => h⟩

theorem firstFault_some {offset : Nat} {ip : List UInt8} (h : firstFault offset ip = some false) :
    ∃ s s', Reached fewPages (fun _ => False) 16 (fun f _ _ _ _ => f.ip) 0 0 0 offset s ∧
      (∀ g, (s.file g).ip = some ip) ∧ (s.p.vmas 0).used = true ∧
      (s.p.vmas 0).addr = 0 ∧ (s.p.vmas 0).length = 4096 ∧ pageFault (Plain.lab fewPages true) 16 0 8192 s = .ok s' ∧
        s'.p.killed = false := by
  unfold firstFault at h
  split at h
  · rename_i t m e
    split at h
    · rename_i s e1
      split at h
      · rename_i s' e2
        have hr : Reached fewPages (fun _ => False) 16 (fun f _ _ _ _ => f.ip) 0 0 0 offset s :=
          .mmap (few_owned e ip) rfl rfl e1
        cases e1
        refine ⟨_, s', hr, fun g => ?_, rfl, rfl, rfl, e2, Option.some.inj h⟩
        show (Function.update (fun _ => (⟨1, true, true, some ip⟩ : File)) 0 ⟨1 + 1, true, true, some ip⟩ g).ip =
          some ip
        by_cases e0 : g = 0
        · rw [e0, Function.update_self]
        · rw [Function.update_of_ne e0]
      · cases h
    · cases h
  · cases h

/-- A file of one byte, mapped from its start. -/
theorem fills_right_part_start : ∃ s s', Reached fewPages (fun _ => False) 16 (fun f _ _ _ _ => f.ip) 0 0 0 0 s ∧
    pageFault (Plain.lab fewPages true) 16 0 8192 s = .ok s' ∧ ShowsPart 0 0 [1] 0 s' := by
  have hrun : firstFault 0 [1] = some false := by decide +kernel
  obtain ⟨s, s1, hr, hip, hu, ha, hl, e, hk⟩ := firstFault_some hrun
  have hc : (s.p.vmas 0).contains 0 = true := by
    unfold Vma.contains
    rw [ha, hl]
    decide
  have hf : findVma s.p.vmas 0 16 0 = some 0 := by
    unfold findVma
    rw [hu, hc]
    rfl
  have hent := hr.entered (by decide)
  obtain ⟨hrej, hmax, hsup, hn⟩ := hent.toOwned.touched hf e hk
  have hsame := hent.same_part hf ha (by omega) (by omega) (by decide) (hip 0)
  obtain ⟨s', e', hs⟩ := (fills_right_part hr (by decide) (fun g bs hg => by
    rw [hip g] at hg
    cases hg
    decide) hu hc hn [1] (hip 0)).mpr ⟨hrej, hmax, hsup, hsame⟩
  exact ⟨s, s', hr, e', hs⟩

/-- A page of zeros and one byte. -/
def secondPage : List UInt8 := List.replicate 4096 0 ++ [1]

/-- The mapping of its second page shows the zeros. -/
theorem offset_ignored : ¬ ∀ (I : Plain.Image) (B : Nat → Prop) (VMASIZE : Nat) (written : File → Mem → Nat → Nat →
    Int → Option (List UInt8))
    (i A f offset va sp : Nat) (s s' : St Plain.Kmem) (ip : List UInt8), Reached I B VMASIZE written i A f offset s →
      A % 4096 = 0 → offset % 4096 = 0 →
    (∀ g bs, (s.file g).ip = some bs → bs.length < 2 ^ 31) → (s.p.vmas i).used = true →
    (s.p.vmas i).contains va = true →
    pageFault (Plain.lab I true) VMASIZE va sp s = .ok s' → s'.p.killed = false → (s.file f).ip = some ip →
      ShowsPart A offset ip va s' := by
  intro hall
  have hrun : firstFault 4096 secondPage = some false := by decide +kernel
  obtain ⟨s, s', hr, hip, hu, ha, hl, e, hk⟩ := firstFault_some hrun
  have hc : (s.p.vmas 0).contains 0 = true := by
    unfold Vma.contains
    rw [ha, hl]
    decide
  have hlen : ∀ g bs, (s.file g).ip = some bs → bs.length < 2 ^ 31 := fun g bs hg => by
    rw [hip g] at hg
    cases hg
    unfold secondPage
    rw [List.length_append, List.length_replicate]
    decide
  have hs := hall _ _ _ _ 0 0 0 4096 0 8192 s s' secondPage hr (by decide) (by decide) hlen hu hc e hk (hip 0)
  have hf : findVma s.p.vmas 0 16 0 = some 0 := by
    unfold findVma
    rw [hu, hc]
    rfl
  have hent := hr.entered (by decide)
  obtain ⟨-, -, -, hn⟩ := hent.toOwned.touched hf e hk
  obtain ⟨-, -, -, j, bs, hj, hbs, hsame⟩ := (hent.touch hlen hu hc hn).mp ⟨s', e, hs⟩
  rw [hf] at hj
  cases hj
  rw [hip] at hbs
  cases hbs
  have h0 := hsame 0 (by decide)
  have hplace : (s.p.vmas 0).place 0 = 0 := by
    unfold Vma.place
    rw [ha]
    decide
  rw [hplace] at h0
  exact absurd h0 (by decide +kernel)

end Xv6Labs.Mmap
