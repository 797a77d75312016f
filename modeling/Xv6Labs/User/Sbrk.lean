/-
  Xv6Labs.User.Sbrk — malloc over sys_sbrk of the pagetables lab's sysproc.c.

  What malloc asks for is a number of bytes in 64 bits, and sbrk's parameter is an int.

  - `malloc_granted`: a request is sound exactly when a free block is large enough or it is for at
    most 2^31 - 32 bytes.
  - `malloc_shrinks`: the next larger one reaches sbrk as -2^31.
-/

import Xv6Labs.User.Consistent

namespace Xv6Labs.Umalloc

open Lib

/-- `p->sz`. It fits the int that sys_sbrk keeps it in: the machine has 128 MB. -/
structure Proc where
  sz : Nat
  fits : sz < 2 ^ 31

/-- `growproc` is the kernel's: the process with its new size, `none` for -1. -/
def sys_sbrk (growproc : Proc → Int → Option Proc) : Sbrk Proc := fun n p =>
  let addr := i32 p.sz
  match growproc p n with
  | none => (toU64 (-1), p)
  | some p => (toU64 addr, p)

variable {σ : Type} {sbrk : Sbrk σ} {base lo nunits nbytes fuel p q r : Nat} {h h' : Heap σ}

/-- sbrk, with a record of the arguments that reached it. -/
def recorded (sbrk : Sbrk σ) : Sbrk (σ × List Int) := fun n s => ((sbrk n s.1).1, ((sbrk n s.1).2, s.2 ++ [n]))

/-- What malloc promises: every argument of sbrk is positive and no less than the units it is for,
    and a block that is returned lies in memory that was granted. -/
def Granted (growproc : Proc → Int → Option Proc) (base lo : Nat) (h : Heap (Proc × List Int))
    (nbytes : Nat) : Prop :=
  ∃ fuel r h' args, malloc (recorded (sys_sbrk growproc)) base fuel nbytes h = some (r, h') ∧
    h'.os.2 = h.os.2 ++ args ∧
    (∀ n ∈ args, 0 < n ∧ ((sizeofHeader * units nbytes : Nat) : Int) ≤ n) ∧
      (r ≠ 0 → lo + sizeofHeader ≤ r ∧ r + nbytes ≤ h'.os.1.sz)

/-! ## What the kernel sees -/

theorem joinUpper_os (h : Heap σ) (bp p : Nat) : (joinUpper h bp p).os = h.os := by
  unfold joinUpper
  split <;> rfl

theorem joinLower_os (h : Heap σ) (bp p : Nat) : (joinLower h bp p).os = h.os := by
  unfold joinLower
  split <;> rfl

theorem free_os (hf : free fuel p h = some h') : h'.os = h.os := by
  unfold free at hf
  simp only at hf
  split at hf
  next => cases hf
  next p' _ =>
    obtain rfl := Option.some.inj hf
    rw [Heap.setFreep_os, joinLower_os, joinUpper_os]

theorem morecore_os (hm : morecore sbrk fuel nunits h = some (p, h')) :
    h'.os = (sbrk (request (asked nunits)) h.os).2 := by
  by_cases hne : (sbrk (request (asked nunits)) h.os).1 = failed
  · unfold asked at hne ⊢
    unfold morecore at hm
    simp only [if_pos hne] at hm
    obtain ⟨-, rfl⟩ := Prod.mk.inj (Option.some.inj hm)
    rfl
  · rw [morecore_granted hne] at hm
    obtain ⟨h1, hf, e⟩ := Option.map_eq_some_iff.mp hm
    obtain ⟨-, rfl⟩ := Prod.mk.inj e
    exact free_os hf

theorem take_os (nunits prevp p : Nat) (h : Heap σ) : (take nunits prevp p h).2.os = h.os := by
  unfold take
  split <;> rfl

/-- The kernel's part changes by calls of sbrk. -/
theorem mallocLoop_os {R : σ → σ → Prop} (hrefl : ∀ s, R s s) (htrans : ∀ s t u, R s t → R t u → R s u)
    (hsbrk : ∀ n s, R s (sbrk n s).2) (hm : mallocLoop sbrk nunits fuel p q h = some (r, h')) : R h.os h'.os := by
  induction fuel generalizing p q h with
  | zero => cases hm
  | succ fuel ih =>
    unfold mallocLoop at hm
    split at hm
    next =>
      have e : h'.os = (take nunits p q h).2.os := by rw [Option.some.inj hm]
      rw [e, take_os]
      exact hrefl _
    next =>
      split at hm
      next =>
        cases hmore : morecore sbrk fuel nunits h with
        | none =>
          simp only [hmore] at hm
          cases hm
        | some x =>
          obtain ⟨p', h1⟩ := x
          simp only [hmore] at hm
          have h01 : R h.os h1.os := by
            rw [morecore_os hmore]
            exact hsbrk _ _
          split at hm
          next =>
            obtain ⟨-, rfl⟩ := Prod.mk.inj (Option.some.inj hm)
            exact h01
          next => exact htrans _ _ _ h01 (ih hm)
      next => exact ih hm

/-- A search that finds nothing reaches sbrk, whatever becomes of it. -/
theorem malloc_reaches_sbrk {hi : Nat} {segs : List Seg} {h h' : Heap (σ × List Int)} (hv : Inv base lo hi h segs)
    (hpos : 0 < nunits) (hnone : ¬ ∃ t ∈ segs, t.isFree = true ∧ nunits ≤ t.units)
    (hm : mallocLoop (recorded sbrk) nunits fuel h.freep (h.ptr h.freep) h = some (r, h')) :
      h.os.2 ++ [request (asked nunits)] <+: h'.os.2 := by
  rcases search (recorded sbrk) nunits hv with ⟨-, -, q, hq, -, -, hle, -⟩ | ⟨hsmall, p, hloop⟩
  · refine absurd ?_ hnone
    rcases List.mem_cons.mp hq with rfl | hq
    · rw [hv.baseSize] at hle
      omega
    · obtain ⟨s, hs, hfree, rfl⟩ := mem_frees.mp hq
      exact ⟨s, hs, hfree, by rwa [(hv.sized s hs).1] at hle⟩
  · have hm' := mallocLoop_mono (k := 1 + (frees segs).length) hm
    rw [← Nat.add_assoc, hloop] at hm'
    unfold mallocLoop at hm'
    rw [if_neg (Nat.not_le.mpr (hsmall _ hv.rover)), if_pos rfl] at hm'
    cases hmore : morecore (recorded sbrk) fuel nunits h with
    | none =>
      simp only [hmore] at hm'
      cases hm'
    | some x =>
      obtain ⟨p', h1⟩ := x
      simp only [hmore] at hm'
      have h1os : h1.os.2 = h.os.2 ++ [request (asked nunits)] := congrArg Prod.snd (morecore_os hmore)
      rw [← h1os]
      split at hm'
      next =>
        obtain ⟨-, rfl⟩ := Prod.mk.inj (Option.some.inj hm')
        exact List.prefix_refl _
      next =>
        exact mallocLoop_os (R := fun s t => s.2 <+: t.2) (fun _ => List.prefix_refl _)
          (fun _ _ _ => List.IsPrefix.trans) (fun _ _ => List.prefix_append ..) hm'

/-- What the narrowing does to the larger requests. -/
theorem request_unsound {nu : Nat} (h1 : 2 ^ 27 ≤ nu) (h2 : nu ≤ 2 ^ 28 + 1) :
    ¬ (0 < request (asked nu) ∧ ((sizeofHeader * nu : Nat) : Int) ≤ request (asked nu)) := by
  have : asked nu = nu := if_neg (by omega)
  rw [this]
  unfold request sizeofHeader i32
  rw [u64_of_lt (by omega)]
  omega

/-! ## Requests -/

variable {growproc : Proc → Int → Option Proc} {h0 : Heap (Proc × List Int)} {live : List (Nat × Nat)}

theorem sys_sbrk_grants (hgrow : ∀ p n p', growproc p n = some p' → 0 < n → (p'.sz : Int) = p.sz + n) :
    Grants (recorded (sys_sbrk growproc)) (fun s => s.1.sz) lo := by
  intro n s hn
  unfold recorded sys_sbrk
  have hs := s.1.fits
  cases hg : growproc s.1 n with
  | none => exact Or.inl ⟨rfl, rfl⟩
  | some p =>
    have hp := p.fits
    have h1 := toU64_of_range (n := s.1.sz) (by omega) (by omega)
    refine Or.inr ⟨?_, hgrow _ _ _ hg hn, by simp only; omega⟩
    simp only
    rw [i32_of_range (by omega) (by omega)]
    omega

/-- From any state of a run of sound requests, a request keeps malloc's promise exactly when it is
    sound itself. -/
theorem malloc_granted (hgrow : ∀ p n p', growproc p n = some p' → 0 < n → (p'.sz : Int) = p.sz + n) (hb : 0 < base)
    (hbl : base + sizeofHeader ≤ lo) (h00 : h0.freep = 0) (hbrk : h0.os.1.sz = lo) {h : Heap (Proc × List Int)}
    (hr : Reaches (recorded (sys_sbrk growproc)) base (Sound base) h0 h live)
    (hn : nbytes < 2 ^ 32) : Granted growproc base lo h nbytes ↔ Listed base h nbytes ∨ nbytes ≤ 2 ^ 31 - 32 := by
  have hlo : lo + 2 ^ 36 ≤ 2 ^ 63 := by
    have := h0.os.1.fits
    omega
  have hg : Grants (recorded (sys_sbrk growproc)) (fun s => s.1.sz) lo := sys_sbrk_grants hgrow
  obtain ⟨segs, ho⟩ := reaches_owned hg hlo hb hbl h00 hbrk (fun _ _ => id) hr
  rw [← roomy_iff ho hn]
  have hu := units_eq hn
  have hinside : ∀ (r : Nat) (h' : Heap (Proc × List Int)) live' segs',
    Owned base lo (fun s => s.1.sz) h' ((r, nbytes) :: live') segs' →
      lo + sizeofHeader ≤ r ∧ r + nbytes ≤ h'.os.1.sz := by
    intro r h' live' segs' ho'
    obtain ⟨s, hs, rfl, hw⟩ := (ho'.owns r nbytes).mp (List.mem_cons_self ..)
    have h1 := ho'.inv.tiles.bounds hs
    have h2 := ho'.inv.usable s hs nbytes hw
    have h3 : s.addr + s.len ≤ h'.os.1.sz := h1.2
    omega
  constructor
  · rintro ⟨fuel, r, h', args, hm, hargs, hgood, -⟩
    by_contra hno
    rw [not_or] at hno
    obtain ⟨hroom, hbig⟩ := hno
    obtain ⟨more, hmore⟩ := malloc_reaches_sbrk ho.inv (by omega) hroom hm
    rw [start_os, hargs, List.append_assoc] at hmore
    have := List.append_cancel_left hmore
    have h1 : 2 ^ 27 ≤ units nbytes := by omega
    exact request_unsound h1 (by omega) (hgood _ (by rw [← this]; simp))
  · intro hok
    by_cases hroom : Roomy segs nbytes
    · obtain ⟨r, h', segs', k, -, hm, ho', hos⟩ :=
        @malloc_roomy _ (recorded (sys_sbrk growproc)) _ _ _ _ _ _ _ hb ho hn hroom
      exact ⟨_, r, h', [], hm 0, by rw [hos, List.append_nil], fun _ h => absurd h List.not_mem_nil,
        fun _ => hinside r h' _ _ ho'⟩
    · have hle := hok.resolve_left hroom
      obtain ⟨r, h', segs', k, hm, ho', hos⟩ := malloc_asks hg hlo hb ho hle hroom
      refine ⟨_, r, h', [request (asked (units nbytes))], hm 0, by rw [hos]; rfl, fun n hn' => ?_, fun hr => ?_⟩
      · have e := List.mem_singleton.mp hn'
        have hask : units nbytes ≤ asked (units nbytes) ∧ asked (units nbytes) < 2 ^ 27 ∧
          0 < asked (units nbytes) := by
          unfold asked
          split <;> omega
        rw [e, request_eq hask.2.1]
        unfold sizeofHeader
        omega
      · rw [if_neg hr] at ho'
        exact hinside r h' _ _ ho'

/-- growproc on a machine with 128 MB. A uint size that would be negative is too large to shrink to,
    and uvmdealloc leaves the process as it is. -/
def growprocSmall (p : Proc) (n : Int) : Option Proc :=
  if h : 0 ≤ p.sz + n ∧ p.sz + n ≤ 2 ^ 27 then some { sz := (p.sz + n).toNat, fits := by omega }
  else if n < 0 then some p
  else none

theorem growprocSmall_grows (p : Proc) (n : Int) (p' : Proc) (h : growprocSmall p n = some p') (hn : 0 < n) :
    (p'.sz : Int) = p.sz + n := by
  unfold growprocSmall at h
  split at h
  next hr =>
    obtain rfl := Option.some.inj h
    simp only
    omega
  next =>
    rw [if_neg (by omega)] at h
    cases h

/-- A process before its first malloc, its break inside its fifth page. -/
def freshProc : Heap (Proc × List Int) :=
  { hdr := fun _ => { ptr := 0, size := 0 }, freep := 0, os := ({ sz := 20000, fits := by decide }, []) }

theorem malloc_granted_first : (20496 : Nat) < 2 ^ 32 ∧
    (Granted growprocSmall 4096 20000 freshProc 20496 ↔ Listed 4096 freshProc 20496 ∨ 20496 ≤ 2 ^ 31 - 32) :=
  ⟨by decide, malloc_granted growprocSmall_grows (by decide) (by decide) rfl rfl .init (by decide)⟩

/-- The first request that is too large is answered with the bytes behind the break, where nothing was
    granted. The header goes to the rest of the last page; a break at the end of a page has no
    rest, and there morecore's store faults. -/
theorem malloc_shrinks : (∃ h', malloc (recorded (sys_sbrk growprocSmall)) 4096 8 (2 ^ 31 - 31) freshProc =
    some (20000 + sizeofHeader, h') ∧
    h'.os.2 = [-2 ^ 31] ∧ h'.os.1.sz = 20000) ∧ ¬ Granted growprocSmall 4096 20000 freshProc (2 ^ 31 - 31) := by
  have hrun : (malloc (recorded (sys_sbrk growprocSmall)) 4096 8 (2 ^ 31 - 31) freshProc).any
      (fun x => x.1 == 20000 + sizeofHeader && x.2.os.2 == [-2 ^ 31] && x.2.os.1.sz == 20000) = true := by
        decide +kernel
  rw [Option.any_eq_true] at hrun
  obtain ⟨⟨r, h'⟩, hm, hx⟩ := hrun
  simp only [Bool.and_eq_true, beq_iff_eq] at hx
  obtain ⟨⟨rfl, hargs⟩, hsz⟩ := hx
  refine ⟨⟨h', hm, hargs, hsz⟩, ?_⟩
  rintro ⟨fuel, r, h1, args, hm1, hargs1, hgood, -⟩
  obtain ⟨rfl, rfl⟩ := Prod.mk.inj (malloc_unique hm1 hm)
  have e : args = [-2 ^ 31] := by
    rw [hargs] at hargs1
    exact hargs1.symm
  have := (hgood (-2 ^ 31) (by rw [e]; exact List.mem_singleton.mpr rfl)).1
  omega

end Xv6Labs.Umalloc
