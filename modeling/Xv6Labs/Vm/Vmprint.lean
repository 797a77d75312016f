/-
  Xv6Labs.Vm.Vmprint — vmprint of the pagetables lab.

  exec prints the page table of the first process. `entries`: what a table and the tables below
  it hold, in the order of printing; an `Item` is a line. The recursion of the code has no
  bound, the one here follows `n` tables below each other at most.

  - `vmprint_prints`: three levels are enough for a page table, and a line is printed for each of
    its valid entries.
  - `vmprint_tells`: the text tells the map.
-/

import Xv6Labs.Lib.Calls
import Xv6Labs.Traps.Printf
import Xv6Labs.Vm.Growproc

namespace Xv6Labs.Vm

open Lib Printf

/-! ## The code -/

/-- What stands before a line. -/
def indent (level : Nat) : Except String (List UInt8) := do
  let pads ← (List.range level).mapM fun j => do
    let sp ← (if j ≠ 0 then printf (some (Printf.chars " ")) [] else .ok [])
    .ok (sp ++ (← printf (some (Printf.chars "..")) []))
  .ok pads.flatten

/-- `_vmprint` -/
def vmprintTable (m : Mem) : Nat → Nat → Nat → Except String (List UInt8)
  | 0, _, _ => .error "fuel"
  | n + 1, pagetable, level => do
    let lines ← (List.range 512).mapM fun i => do
      let pte := pte m pagetable i
      if pte &&& PTE_V ≠ 0 then do
        let pad ← indent level
        let child := PTE2PA pte
        let line ← printf (some (Printf.chars "%d: pte %p pa %p\n")) [.int i, .ptr pte, .ptr child]
        let below ← (if pte &&& (PTE_R ||| PTE_W ||| PTE_X) = 0 then vmprintTable m n child (level + 1) else .ok [])
        .ok (pad ++ (line ++ below))
      else .ok []
    .ok lines.flatten

def vmprint (m : Mem) (n pagetable : Nat) : Except String (List UInt8) := do
  let line ← printf (some (Printf.chars "page table %p\n")) [.ptr pagetable]
  .ok (line ++ (← vmprintTable m n pagetable 1))

/-! ## Lines -/

structure Item where
  level : Nat
  i : Nat
  pte : Nat

def dots (level : Nat) : List UInt8 := (List.range level).flatMap fun j => if j ≠ 0 then [32, 46, 46] else [46, 46]

def Item.text (x : Item) : List UInt8 :=
  dots x.level ++
    (numeral 10 x.i ++ (Printf.chars ": pte " ++
    (printptr x.pte ++ (Printf.chars " pa " ++ (printptr (PTE2PA x.pte) ++ [10])))))

structure Item.Ok (x : Item) : Prop where
  i : x.i < 2 ^ 31
  pte : x.pte < 2 ^ 64

theorem printf_text {text : List UInt8} (h : ∀ c ∈ text, c ≠ 0 ∧ c ≠ 37) : printf (some text) [] = .ok text := by
  have e := printfLoop_text [] [] text h
  rw [List.append_nil] at e
  exact e.trans (congrArg Except.ok (List.append_nil _))

theorem indent_ok (level : Nat) : indent level = .ok (dots level) := by
  unfold indent
  rw [mapM_ok (g := fun j => if j ≠ 0 then [32, 46, 46] else [46, 46]) fun j _ => ?_]
  · rw [ok_bind, List.flatten_eq_flatMap, List.flatMap_map]
    rfl
  · rw [printf_text (List.all_iff_forall_prop.mp (by decide) : ∀ c ∈ Printf.chars " ", c ≠ 0 ∧ c ≠ 37),
      printf_text (List.all_iff_forall_prop.mp (by decide) : ∀ c ∈ Printf.chars "..", c ≠ 0 ∧ c ≠ 37)]
    split <;> rfl

theorem printf_line {i w : Nat} (hi : i < 2 ^ 31) :
    printf (some (Printf.chars "%d: pte %p pa %p\n")) [.int i, .ptr w, .ptr (PTE2PA w)] =
      .ok (numeral 10 i ++ (Printf.chars ": pte " ++
        (printptr w ++ (Printf.chars " pa " ++ (printptr (PTE2PA w) ++ [10]))))) := by
  have hd : printint i 10 true = .ok (numeral 10 i) := by
    rw [printint_numeral (Or.inl rfl) (by omega) (by omega), if_neg (by omega), Int.natAbs_natCast]
  have h1 := printfLoop_text (Printf.chars "%p pa %p\n") [.ptr w, .ptr (PTE2PA w)] (Printf.chars ": pte ")
    (List.all_iff_forall_prop.mp (by decide))
  have h2 := printfLoop_text (Printf.chars "%p\n") [.ptr (PTE2PA w)] (Printf.chars " pa ")
    (List.all_iff_forall_prop.mp (by decide))
  refine (printfLoop_convert (by decide) (convert_d hd)).trans ?_
  show (printfLoop (Printf.chars ": pte " ++ Printf.chars "%p pa %p\n") [.ptr w, .ptr (PTE2PA w)]).map _ = _
  rw [h1]
  show ((printfLoop (37 :: 112 :: (Printf.chars " pa " ++ Printf.chars "%p\n"))
    [.ptr w, .ptr (PTE2PA w)]).map _).map _ = _
  rw [printfLoop_convert (by decide) (rfl : convert 112 [.ptr w, .ptr (PTE2PA w)] =
    .ok (printptr w, [.ptr (PTE2PA w)])), h2]
  show ((((printfLoop (37 :: 112 :: [10]) [.ptr (PTE2PA w)]).map _).map _).map _).map _ = _
  rw [printfLoop_convert (by decide) (rfl : convert 112 [.ptr (PTE2PA w)] = .ok (printptr (PTE2PA w), []))]
  rfl

theorem dots_succ (level : Nat) : dots (level + 1) = dots level ++ if level ≠ 0 then [32, 46, 46] else [46, 46] := by
  unfold dots
  rw [List.range_succ, List.flatMap_append, List.flatMap_singleton]

theorem dots_length : ∀ level, (dots level).length = 3 * level - 1 := by
  intro level
  induction level with
  | zero => rfl
  | succ level ih =>
    rw [dots_succ, List.length_append, ih]
    split
    · show 3 * level - 1 + 3 = _
      omega
    · show 3 * level - 1 + 2 = _
      omega

/-- A space or a dot. -/
def isDot (c : UInt8) : Bool := c == 32 || c == 46

theorem dots_isDot (level : Nat) : ∀ c ∈ dots level, isDot c = true := fun c hc => by
  obtain ⟨j, -, hc⟩ := List.mem_flatMap.mp hc
  split at hc
  · exact (List.all_iff_forall_prop.mp (by decide) : ∀ c ∈ [(32 : UInt8), 46, 46], isDot c = true) c hc
  · exact (List.all_iff_forall_prop.mp (by decide) : ∀ c ∈ [(46 : UInt8), 46], isDot c = true) c hc

theorem numeral_isDigit {i : Nat} (hi : i < 2 ^ 31) : ∀ c ∈ numeral 10 i, isDigit c = true ∧ isDot c = false :=
  fun c hc =>
  (List.all_iff_forall_prop.mp (by decide) : ∀ c ∈ digits.take 10, isDigit c = true ∧ isDot c = false) c
    ((numeral_numeral (Or.inl rfl) (by omega)).2.1 c hc)

theorem numeral_inj {i j : Nat} (hi : i < 2 ^ 31) (hj : j < 2 ^ 31) (e : numeral 10 i = numeral 10 j) : i = j := by
  rw [← (numeral_numeral (Or.inl rfl) (by omega : i < 2 ^ 32)).2.2, e,
    (numeral_numeral (Or.inl rfl) (by omega : j < 2 ^ 32)).2.2]

/-- The number follows the dots, a colon the number; a pointer has sixteen digits. -/
theorem Item.text_delimits : Delimits Item.Ok Item.text := by
  intro x y hx hy r r' e
  unfold Item.text at e
  simp only [List.append_assoc] at e
  have hdot : ∀ {i : Nat} {l : List UInt8}, i < 2 ^ 31 → ∀ c ∈ (numeral 10 i ++ l).head?, isDot c = false :=
    fun {i l} hi c hc => by
    have hnum := numeral_isDigit hi
    have hne := (numeral_numeral (Or.inl rfl) (by omega : i < 2 ^ 32)).1
    cases hn : numeral 10 i with
    | nil => exact absurd hn hne
    | cons d t =>
      rw [hn] at hc hnum
      obtain rfl : d = c := Option.some.inj hc
      exact (hnum d (List.mem_cons_self ..)).2
  obtain ⟨e1, e2⟩ := split_inj (dots_isDot x.level) (dots_isDot y.level) (hdot hx.i) (hdot hy.i) e
  have hcolon : ∀ {l : List UInt8}, ∀ c ∈ (Printf.chars ": pte " ++ l).head?, isDigit c = false := fun {l} c hc => by
    cases hc
    rfl
  obtain ⟨e3, e4⟩ := split_inj (fun c hc => (numeral_isDigit hx.i c hc).1)
    (fun c hc => (numeral_isDigit hy.i c hc).1) hcolon hcolon e2
  obtain ⟨e5, e6⟩ := printptr_delimits x.pte y.pte hx.pte hy.pte _ _ (List.append_cancel_left e4)
  have hpa : ∀ w, PTE2PA w < 2 ^ 64 := fun w => u64_lt _
  obtain ⟨-, e7⟩ := printptr_delimits _ _ (hpa x.pte) (hpa y.pte) _ _ (List.append_cancel_left e6)
  have hlevel : x.level = y.level := by
    have h := congrArg List.length e1
    rw [dots_length, dots_length] at h
    by_cases h0 : x.level = 0 <;> by_cases h1 : y.level = 0
    · omega
    · rw [h0] at h
      omega
    · rw [h1] at h
      omega
    · omega
  refine ⟨?_, List.append_cancel_left e7⟩
  cases x
  cases y
  cases hlevel
  cases e5
  cases numeral_inj hx.i hy.i e3
  rfl

/-! ## What is printed -/

/-- The valid entries of the level-`l` table at `q`, each with those of the table below it. -/
def entries (m : Mem) : Nat → Nat → Nat → List Item
  | 0, q, level => (List.range 512).flatMap fun i => if vbit (pte m q i) then [⟨level, i, pte m q i⟩] else []
  | l + 1, q, level =>
    (List.range 512).flatMap fun i =>
      if vbit (pte m q i) then ⟨level, i, pte m q i⟩ :: entries m l (PTE2PA (pte m q i)) (level + 1) else []

section

variable {B : Nat → Prop} {m m' : Mem} {live : List Nat} {k : Nat → Kind} {t : Nat}

theorem pte_lt (m : Mem) (q j : Nat) : pte m q j < 2 ^ 64 := Nat.lt_of_lt_of_eq (Mem.loadLE_lt m _ 8) (by decide)

theorem entries_ok : ∀ l q level, ∀ x ∈ entries m l q level, x.Ok ∧ level ≤ x.level := by
  have hitem : ∀ {q i level}, i ∈ List.range 512 → (⟨level, i, pte m q i⟩ : Item).Ok := fun hi =>
    ⟨Nat.lt_of_lt_of_le (List.mem_range.mp hi) (by decide), pte_lt m _ _⟩
  intro l
  induction l with
  | zero =>
    intro q level x hx
    obtain ⟨i, hi, hx⟩ := List.mem_flatMap.mp hx
    split at hx
    · rw [List.mem_singleton.mp hx]
      exact ⟨hitem hi, Nat.le_refl _⟩
    · exact absurd hx List.not_mem_nil
  | succ l ih =>
    intro q level x hx
    obtain ⟨i, hi, hx⟩ := List.mem_flatMap.mp hx
    split at hx
    · rcases List.mem_cons.mp hx with e | hx
      · rw [e]
        exact ⟨hitem hi, Nat.le_refl _⟩
      · obtain ⟨h1, h2⟩ := ih _ _ x hx
        exact ⟨h1, by omega⟩
    · exact absurd hx List.not_mem_nil

theorem node_index (h : Tab B m live k) {q i : Nat} (hq : k q = .node t 0 i) : t ∈ live ∧ i < 512 ^ 2 := by
  obtain ⟨ht, -, -, hup⟩ := h.up q t 0 i hq
  obtain ⟨q1, hq1, -⟩ := hup (by decide)
  obtain ⟨q2, hq2, -⟩ := (h.up q1 t 1 (i / 512) hq1).2.2.2 (by decide)
  have h0 := ((h.up q2 t 2 (i / 512 / 512) hq2).2.2.1 rfl).2
  exact ⟨ht, by omega⟩

/-- A line for each valid entry; below an entry that is a table's, the lines of that table. -/
theorem vmprintTable_prints (h : Tab B m live k) (hleaf : RwxLeaves m t) : ∀ l q i n level, k q = .node t l i →
    l < n →
    vmprintTable m n q level = .ok ((entries m l q level).flatMap Item.text) := by
  intro l
  induction l with
  | zero =>
    intro q i n level hq hn
    obtain ⟨n, rfl⟩ : ∃ d, n = d + 1 := ⟨n - 1, by omega⟩
    obtain ⟨ht, hi⟩ := node_index h hq
    unfold vmprintTable entries
    rw [mapM_ok (g := fun j => if vbit (pte m q j) then Item.text ⟨level, j, pte m q j⟩ else []) fun j hj => ?_]
    · rw [ok_bind, List.flatten_eq_flatMap, List.flatMap_map, List.flatMap_assoc]
      congr 2
      funext j
      dsimp only [id]
      split
      · rw [List.flatMap_singleton]
      · rfl
    · have hj := List.mem_range.mp hj
      by_cases hv : vbit (pte m q j) = true
      · have hvpn : 512 * i + j < VPN := by
          unfold VPN
          omega
        have hpage : (512 * i + j) / 512 = i ∧ (512 * i + j) % 512 = j := by omega
        have hlook : lookup m t (512 * i + j) = some (pte m q j) := by
          rw [lookup_some, h.leaf_node ht hvpn (by rw [hpage.1]; exact hq), hpage.2]
          exact ⟨rfl, hv⟩
        dsimp only
        rw [if_pos ((vbit_eq _).mpr hv), if_pos hv, indent_ok, ok_bind, printf_line (by omega), ok_bind,
          if_neg (hleaf _ hvpn _ hlook), ok_bind, List.append_nil]
        rfl
      · dsimp only
        rw [if_neg fun e => hv ((vbit_eq _).mp e), if_neg hv]
  | succ l ih =>
    intro q i n level hq hn
    obtain ⟨n, rfl⟩ : ∃ d, n = d + 1 := ⟨n - 1, by omega⟩
    unfold vmprintTable entries
    rw [mapM_ok (g := fun j => if vbit (pte m q j) then Item.text
      ⟨level, j, pte m q j⟩ ++ (entries m l (PTE2PA (pte m q j)) (level + 1)).flatMap Item.text else [])
      fun j hj => ?_]
    · rw [ok_bind, List.flatten_eq_flatMap, List.flatMap_map, List.flatMap_assoc]
      congr 2
      funext j
      dsimp only [id]
      split
      · rw [List.flatMap_cons]
      · rfl
    · have hj := List.mem_range.mp hj
      by_cases hv : vbit (pte m q j) = true
      · obtain ⟨p, hp, hw⟩ := h.down q t l i j hq hj hv
        have hpage := h.nodePage hp
        have hpa : PTE2PA (pte m q j) = p := by
          rw [hw]
          exact pte2pa_mkpte hpage (by decide)
        have hrwx : pte m q j &&& (PTE_R ||| PTE_W ||| PTE_X) = 0 := by
          rw [hw]
          exact mkpte_table p
        dsimp only
        rw [if_pos ((vbit_eq _).mpr hv), if_pos hv, indent_ok, ok_bind, printf_line (by omega), ok_bind, if_pos hrwx,
          hpa,
          ih p (512 * i + j) n (level + 1) hp (by omega), ok_bind]
        unfold Item.text
        simp only [List.append_assoc, hpa]
      · dsimp only
        rw [if_neg fun e => hv ((vbit_eq _).mp e), if_neg hv]

/-- Three levels are enough. -/
theorem vmprint_prints (h : Tab B m live k) (ht : t ∈ live) (hleaf : RwxLeaves m t) {n : Nat} (hn : 3 ≤ n) :
    vmprint m n t =
      .ok (Printf.chars "page table " ++ (printptr t ++ (10 :: (entries m 2 t 1).flatMap Item.text))) := by
  have h1 := printfLoop_text (Printf.chars "%p\n") [.ptr t] (Printf.chars "page table ")
    (List.all_iff_forall_prop.mp (by decide))
  have hline : printf (some (Printf.chars "page table %p\n")) [.ptr t] =
    .ok (Printf.chars "page table " ++ (printptr t ++ [10])) := by
    refine h1.trans ?_
    show (printfLoop (37 :: 112 :: [10]) [.ptr t]).map _ = _
    rw [printfLoop_convert (by decide) (rfl : convert 112 [.ptr t] = .ok (printptr t, []))]
    rfl
  unfold vmprint
  rw [hline, ok_bind, vmprintTable_prints h hleaf 2 t 0 n 1 (h.root t ht) hn, ok_bind, List.append_assoc,
    List.append_assoc, List.singleton_append]

/-! ## What it tells -/

/-- The entry at the end of the walk from the level-`l` table at `q`; 0 if there is none. -/
def leafFrom (m : Mem) (v l q : Nat) : Nat := ((slotFrom m v l q).map fun a => m.loadLE a 8).getD 0

theorem leafFrom_succ (m : Mem) (v l q : Nat) : leafFrom m v (l + 1) q =
    if vbit (pte m q (v / 512 ^ (l + 1) % 512)) then leafFrom m v l
      (PTE2PA (pte m q (v / 512 ^ (l + 1) % 512))) else 0 := by
  unfold leafFrom
  rw [slotFrom]
  split <;> rfl

/-- The lines of a table are the stretches of its entries. -/
theorem table_blocks {level : Nat} {w w' : Nat → Nat} {below below' : Nat → List Item}
    (hb : ∀ i, ∀ x ∈ below i, level < x.level) (hb' : ∀ i, ∀ x ∈ below' i, level < x.level)
    (e : ((List.range 512).flatMap fun i => if vbit (w i) then (⟨level, i, w i⟩ : Item) :: below i else []) =
      (List.range 512).flatMap fun i => if vbit (w' i) then (⟨level, i, w' i⟩ : Item) :: below' i else []) :
    ∀ i < 512, vbit (w i) = vbit (w' i) ∧ (vbit (w i) = true → w i = w' i ∧ below i = below' i) := by
  have hblock : ∀ {w : Nat → Nat} {below : Nat → List Item}, (∀ i, ∀ x ∈ below i, level < x.level) →
      ∀ i, Block (fun x : Item => decide (x.level = level)) Item.i i
        (if vbit (w i) then (⟨level, i, w i⟩ : Item) :: below i else []) := fun h i => by
    split
    · exact Or.inr ⟨_, _, rfl, decide_eq_true rfl, rfl, fun x hx => decide_eq_false
        fun e => by have := h i x hx; omega⟩
    · exact Or.inl rfl
  rw [List.range_eq_range'] at e
  intro i hi
  have h := blocks_inj (hblock hb) (hblock hb') 512 0 e i (Nat.zero_le i) (by omega)
  cases h1 : vbit (w i) <;> cases h2 : vbit (w' i) <;> rw [h1, h2] at h
  · exact ⟨rfl, fun e => absurd e Bool.false_ne_true⟩
  · cases h
  · cases h
  · obtain ⟨hitem, hbelow⟩ := List.cons.inj h
    exact ⟨rfl, fun _ => ⟨congrArg Item.pte hitem, hbelow⟩⟩

/-- Equal lines, equal walks. -/
theorem entries_tell : ∀ l q q' level, entries m l q level = entries m' l q' level → ∀ v,
    vbit (leafFrom m v l q) = vbit (leafFrom m' v l q') ∧
      (vbit (leafFrom m v l q) = true → leafFrom m v l q = leafFrom m' v l q') := by
  intro l
  induction l with
  | zero =>
    intro q q' level e v
    have hnone : ∀ i : Nat, ∀ x ∈ (fun _ => [] : Nat → List Item) i, level < x.level :=
      fun _ x hx => absurd hx List.not_mem_nil
    obtain ⟨h1, h2⟩ := table_blocks hnone hnone e
      (v % 512) (Nat.mod_lt _ (by decide))
    exact ⟨h1, fun hv => (h2 hv).1⟩
  | succ l ih =>
    intro q q' level e v
    obtain ⟨h1, h2⟩ := table_blocks (fun i x hx => (entries_ok l _ _ x hx).2)
      (fun i x hx => (entries_ok l _ _ x hx).2) e
      (v / 512 ^ (l + 1) % 512) (Nat.mod_lt _ (by decide))
    rw [leafFrom_succ, leafFrom_succ, ← h1]
    by_cases hv : vbit (pte m q (v / 512 ^ (l + 1) % 512)) = true
    · rw [if_pos hv, if_pos hv]
      exact ih _ _ (level + 1) (h2 hv).2 v
    · rw [if_neg hv, if_neg hv]
      exact ⟨rfl, fun _ => rfl⟩

theorem vmprint_inj (h : Tab B m live k) (ht : t ∈ live) (hleaf : RwxLeaves m t) {B' : Nat → Prop} {live' : List Nat}
    {k' : Nat → Kind} {t' : Nat}
    (h' : Tab B' m' live' k') (ht' : t' ∈ live') (hleaf' : RwxLeaves m' t') {n : Nat} (hn : 3 ≤ n)
    (e : vmprint m' n t' = vmprint m n t) :
    t' = t ∧ ∀ v < VPN, lookup m' t' v = lookup m t v := by
  rw [vmprint_prints h ht hleaf hn, vmprint_prints h' ht' hleaf' hn] at e
  have hpage : ∀ {m : Mem} {B live k} {t : Nat}, Tab B m live k → t ∈ live → t < 2 ^ 64 := fun h ht =>
    Nat.lt_trans (h.nodePage (h.root _ ht)).2.2 (by decide)
  obtain ⟨rfl, e1⟩ := printptr_delimits _ _ (hpage h' ht') (hpage h ht) _ _
    (List.append_cancel_left (Except.ok.inj e))
  have hne : ∀ x : Item, x.text ≠ [] := fun x e => by
    have h := congrArg List.length e
    simp [Item.text] at h
  have hitems := Item.text_delimits.flatMap_inj hne _ _ (fun x hx => (entries_ok 2 _ _ x hx).1)
    (fun x hx => (entries_ok 2 _ _ x hx).1) (List.cons.inj e1).2
  refine ⟨rfl, fun v _ => ?_⟩
  obtain ⟨h1, h2⟩ := entries_tell 2 _ _ 1 hitems v
  have h1 : vbit (leaf m' t' v) = vbit (leaf m t' v) := h1
  unfold lookup
  rw [← h1]
  by_cases hv : vbit (leaf m' t' v) = true
  · have h2 : leaf m' t' v = leaf m t' v := h2 hv
    rw [if_pos hv, if_pos hv, h2]
  · rw [if_neg hv, if_neg hv]

theorem Sized.leaves {sz : Nat} (h : Sized B m t sz) : RwxLeaves m t := fun v hv w hw => by
  by_cases hu : v < PGROUNDUP sz / 4096
  · obtain ⟨p, perm, e, -, -, hperm, hrwx⟩ := h.user v hu
    rw [e] at hw
    cases hw
    exact mkpte_rwx hperm hrwx
  · by_cases hl : LentPage v
    · obtain ⟨w', e, -, hrwx⟩ := h.lent v hl
      rw [e] at hw
      cases hw
      exact hrwx
    · rw [h.none v hv (Nat.not_lt.mp hu) hl] at hw
      cases hw

/-- For the address space of a process vmprint returns. Its text is a heading and a line for each
    valid entry, a table before what is in it, and it is that of no other map, in this or any
    other state. -/
theorem vmprint_tells {κ : Type} {A : Lab κ} {H : AllocSpec A} {s : Mach κ} {sz : Nat} (h : Alive H B s t sz k)
    {n : Nat} (hn : 3 ≤ n) :
    ∃ text, vmprint s.mem n t = .ok text ∧ text =
      Printf.chars "page table " ++ (printptr t ++ (10 :: (entries s.mem 2 t 1).flatMap Item.text)) ∧
      ∀ s' t' sz' k', Alive H B s' t' sz' k' → vmprint s'.mem n t' = .ok text → t' = t ∧ ∀ v < VPN,
        lookup s'.mem t' v = lookup s.mem t v := by
  have ht : ∀ {t : Nat}, t ∈ [t] := List.mem_singleton_self _
  refine ⟨_, vmprint_prints h.inv.tab ht h.sized.leaves hn, rfl, fun s' t' sz' k' h' e => ?_⟩
  exact vmprint_inj h.inv.tab ht h.sized.leaves h'.inv.tab ht h'.sized.leaves hn
    (e.trans (vmprint_prints h.inv.tab ht h.sized.leaves hn).symm)

end

open Plain in
/-- A process of one page. -/
theorem vmprint_tells_onePage : ∃ (t : Nat) (s : Mach Kmem) (text : List UInt8), vmprint s.mem 3 t = .ok text ∧
    text = Printf.chars "page table " ++ (printptr t ++ (10 :: (entries s.mem 2 t 1).flatMap Item.text)) ∧
    ∀ s' t' sz' k', Alive (partSpec sixPages false six six_page) (fun p => p ∉ six) s' t' sz' k' →
      vmprint s'.mem 3 t' = .ok text → t' = t ∧ ∀ v < VPN, lookup s'.mem t' v = lookup s.mem t v := by
  obtain ⟨t, s, k, h⟩ := onePage_alive
  obtain ⟨text, e, hprint, htext⟩ := vmprint_tells h (Nat.le_refl 3)
  exact ⟨t, s, text, e, hprint, htext⟩

end Xv6Labs.Vm
