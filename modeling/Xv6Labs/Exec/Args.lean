/-
  Xv6Labs.Exec.Args — the argument stack of a new program.

  `ArgStack` says what the program may rely on, with memory read through its page table; the
  addresses exec computes (`pointers`) have it.

  - `exec_args`: exec returns -1, always when the strings do not fit, or leaves such a stack
    and has written nothing below the stack page.
-/

import Xv6Labs.Exec.Safe

namespace Xv6Labs.Exec

open Lib Vm Plain

/-- argv of a program of size `sz`: at `a1` the pointers `ptrs` and a null word, at each
    pointer the string with its NUL, all of it in the stack page and no two pieces
    overlapping. -/
structure ArgStack (m : Mem) (t sz a1 : Nat) (argv : List (List UInt8)) (ptrs : List Nat) : Prop where
  aligned : a1 % 16 = 0
  above : sz - PGSIZE ≤ a1
  below : a1 + (argv.length + 1) * 8 ≤ sz
  count : ptrs.length = argv.length
  array : Holds m t a1 (words (ptrs ++ [0]))
  ptr_aligned : ∀ {i p : Nat}, ptrs[i]? = some p → p % 16 = 0
  strings : ∀ {i p : Nat} {arg : List UInt8}, ptrs[i]? = some p → argv[i]? = some arg → Holds m t p (arg ++ [0])
  inside : ∀ {i p : Nat} {arg : List UInt8}, ptrs[i]? = some p → argv[i]? = some arg →
    a1 + (argv.length + 1) * 8 ≤ p ∧ p + (arg.length + 1) ≤ sz
  apart : ∀ {i j p q : Nat} {arg arg' : List UInt8}, i ≠ j → ptrs[i]? = some p → argv[i]? = some arg →
    ptrs[j]? = some q → argv[j]? = some arg' →
    p + (arg.length + 1) ≤ q ∨ q + (arg'.length + 1) ≤ p

variable {I : Image} {P : List Nat} {hP : ∀ p ∈ P, Page I p} {trampoline : Nat} {x : State} {free : List Nat}
    {argv : List (List UInt8)} {t sz sp : Nat}

theorem Laid.argStack {m m' m'' : Mem} (h : Laid t sz sp argv m m') (hmod : sz % 4096 = 0) (htwo : 8192 ≤ sz)
    (hb : ∀ va < sz, byteAt m'' t va = byteAt m' t va) : ArgStack m'' t sz sp argv (pointers sz argv) := by
  have hpg : PGSIZE = 4096 := rfl
  have hfits := h.fits
  have hsp := h.sp_eq
  have hmod16 := total_mod argv
  have hrm := room_mod ((argv.length + 1) * 8)
  have hle := le_room ((argv.length + 1) * 8)
  unfold Fits at hfits
  have hholds : ∀ va bs, Holds m' t va bs → va + bs.length ≤ sz → Holds m'' t va bs := fun va bs hh hend j hj => by
    rw [hb _ (by omega)]
    exact hh j hj
  have hbounds : ∀ {i p : Nat} {arg : List UInt8}, (pointers sz argv)[i]? = some p → argv[i]? = some arg →
      sz - total argv ≤ p ∧ p + (arg.length + 1) ≤ sz := fun hp ha => pointer_bounds (by omega) hp ha
  refine ⟨by omega, by omega, by omega, pointers_length sz argv, hholds _ _ h.array ?_,
    fun hp => pointer_mod (by omega) (by omega) hp, fun hp ha => ?_,
    fun hp ha => ?_, fun {i j p q a b} hij hp ha hq hb => ?_⟩
  · rw [words_length, List.length_append, pointers_length, List.length_singleton]
    omega
  · refine hholds _ _ (h.strings hp ha) ?_
    rw [List.length_append, List.length_singleton]
    exact (hbounds hp ha).2
  · have := hbounds hp ha
    omega
  · rcases Nat.lt_or_gt_of_ne hij with h | h
    · exact Or.inr (pointer_order (by omega) h hp hq hb)
    · exact Or.inl (pointer_order (by omega) h hq hp ha)

/-- The image before the first string is pushed. -/
def Unpushed (I : Image) (F : Format) (trampoline : Nat) (ip : Option Inode) (x : State) (t sz : Nat)
    (s : Mach Kmem) : Prop :=
  ∃ f s1 sz0 s2, ip = some f ∧ proc_pagetable (lab I false) trampoline x.proc.trapframe x.mach = .ok (some t, s1) ∧
    loadLoop I F t f (F.elfhdr (readi f 0 F.elfhdrSize)).phnum.toNat
      (u32 (F.elfhdr (readi f 0 F.elfhdrSize)).phoff.toNat) 0 s1 = .ok (true, sz0, s2) ∧
    stackPages I t sz0 s2 = .ok (sz, s)

/-- exec returns -1, or argc with the strings on the new program's stack; always -1 when they
    do not fit. -/
theorem exec_args (hw : Whole hP trampoline x) (hfree : FreeList I x.mach free) (F : Format) (path : List UInt8)
    (ha : Accepted argv) (ip : Option Inode) :
    ∃ r x', exec I F trampoline path argv ip x = .ok (r, x') ∧ (¬ Fits argv → r = -1) ∧
      (r ≠ -1 → r = argv.length ∧ ∃ a1 ptrs s, x'.mach.mem.loadLE (x'.proc.trapframe + 120) 8 = a1 ∧
        x'.mach.mem.loadLE (x'.proc.trapframe + 48) 8 = a1 ∧
        ArgStack x'.mach.mem x'.proc.pagetable x'.proc.sz a1 argv ptrs ∧
        Unpushed I F trampoline ip x x'.proc.pagetable x'.proc.sz s ∧
        ∀ va < x'.proc.sz - PGSIZE, byteAt x'.mach.mem x'.proc.pagetable va = byteAt s.mem x'.proc.pagetable va) := by
  obtain ⟨r, x', free', e, -, -, -, hcases⟩ := exec_cases hw hfree F path ha ip
  refine ⟨r, x', e, fun hfit => ?_, fun hr => ?_⟩
  · rcases hcases with h | ⟨-, -, t, sz0, sz, sp, s2, s3, hprep, -⟩
    · exact h.1
    · obtain ⟨m, -, hlaid⟩ := hprep.laid
      exact absurd hlaid.fits hfit
  · rcases hcases with h | ⟨hargc, hre, t, sz0, sz, sp, s2, s3, hprep, hst⟩
    · exact absurd h.1 hr
    · obtain ⟨f, s1, hip, e1, e2⟩ := hprep.loaded
      obtain ⟨m, epages, hlaid⟩ := hprep.laid
      have hg := hre.guarded
      rw [hst.pagetable, hst.sz_eq] at hg ⊢
      have harg := hlaid.argStack hg.mod hg.two hst.bytes
      refine ⟨hargc, sp, pointers sz argv, m, hst.a1, hst.sp_eq, harg, ⟨f, s1, sz0, s2, hip, e1, e2, epages⟩,
        fun va hva => ?_⟩
      have := harg.above
      rw [hst.bytes va (by omega)]
      exact hlaid.rest va (by omega)

/-- A small process executes a file of one segment with two arguments. -/
theorem exec_args_small : ∃ (x x' : State) (a1 : Nat) (ptrs : List Nat),
    exec smallImage elf64 0x80007000 [97] smallArgs (some smallFile) x = .ok (2, x') ∧
    x'.mach.mem.loadLE (x'.proc.trapframe + 120) 8 = a1 ∧
      ArgStack x'.mach.mem x'.proc.pagetable x'.proc.sz a1 smallArgs ptrs := by
  obtain ⟨s, t, free, e, hw, hl⟩ := whole_small
  obtain ⟨r, x', er, -, hr⟩ := exec_args hw hl elf64 [97] smallArgs_accepted (some smallFile)
  obtain rfl := small_exec e er
  obtain ⟨-, a1, ptrs, s2, h1, -, hs, -⟩ := hr (by decide)
  exact ⟨_, x', a1, ptrs, er, h1, hs⟩

end Xv6Labs.Exec
