/-
  Xv6Labs.Fs.Bitmap — runs of balloc and bfree, with the int of balloc and the uint of bfree.

  balloc counts in an `int` and compares with the `uint` sb.size, so its BBLOCK divides signed
  numbers; bfree divides unsigned ones. On a disk of at most 2^31 blocks the two agree
  (`balloc32_eq`, `bfree32_eq`); from block 2^31 on they do not (`bblock_sign`). The set the
  allocator stands for is `taken`.

  - `Run.freed_between`: an element that is handed out twice was freed in between.
  - `block_allocator_is_set`: while the blocks of the bitmap are marked in use themselves.
  - `balloc_wipes_bitmap`: balloc hands out a block of the bitmap otherwise.
-/

import Xv6Labs.Fs.Blocks

namespace Xv6Labs.Fs.Disk

open Lib

/-! ## balloc and bfree with their C types -/

section

variable (sb : Superblock)

/-- BBLOCK of an int. -/
def BBLOCKi (b : BitVec 32) : Nat := (b.sdiv (BitVec.ofNat 32 BPB) + BitVec.ofNat 32 sb.bmapstart).toNat

/-- BBLOCK of a uint. -/
def BBLOCKu (b : BitVec 32) : Nat := (b / BitVec.ofNat 32 BPB + BitVec.ofNat 32 sb.bmapstart).toNat

/-- The inner loop of balloc, with the rounds left: the `bi` it stops at. -/
def ballocBits32 (disk : Mem) (b : BitVec 32) : Nat → BitVec 32 → Option (BitVec 32)
  | 0, _ => none
  | n + 1, bi =>
    if (b + bi).toNat < sb.size then
      if bit disk (BBLOCKi sb b) bi.toNat = false then some bi else ballocBits32 disk b n (bi + 1)
    else none

/-- The outer loop: `b` and `bi`. -/
def ballocLoop32 (disk : Mem) : Nat → BitVec 32 → Option (BitVec 32 × BitVec 32)
  | 0, _ => none
  | n + 1, b =>
    if b.toNat < sb.size then
      match ballocBits32 sb disk b BPB 0 with
      | some bi => some (b, bi)
      | none => ballocLoop32 disk n (b + BitVec.ofNat 32 BPB)
    else none

def balloc32 (s : St) : Except String (Nat × St) :=
  match ballocLoop32 sb s.disk (sb.size / BPB + 1) 0 with
  | none => .error "balloc: out of blocks"
  | some (b, bi) =>
    .ok ((b + bi).toNat,
      bzero (b + bi).toNat (St.log_write (BBLOCKi sb b) { s with disk := setBit s.disk (BBLOCKi sb b) bi.toNat }))

def bfree32 (b : Nat) (s : St) : Except String St :=
  let bi := (BitVec.ofNat 32 b % BitVec.ofNat 32 BPB).toNat
  if bit s.disk (BBLOCKu sb (BitVec.ofNat 32 b)) bi = false then .error "freeing free block"
  else .ok (St.log_write (BBLOCKu sb (BitVec.ofNat 32 b))
    { s with disk := clearBit s.disk (BBLOCKu sb (BitVec.ofNat 32 b)) bi })

/-- The bitmap lies on the disk, and the block numbers are ints. -/
structure Bitmap : Prop where
  lies : ∀ c < sb.size, BBLOCK sb c < sb.size
  small : sb.size ≤ 2 ^ 31

end

variable {sb : Superblock} {disk : Mem} {b c : Nat}

theorem Bitmap.fits (h : Bitmap sb) (hb : b < sb.size) : b / 8192 + sb.bmapstart < 2 ^ 32 := by
  have h1 : b / 8192 + sb.bmapstart < sb.size := h.lies b hb
  have h2 := h.small
  omega

theorem toNat_ofNat_of_lt {x : Nat} (h : x < 2 ^ 32) : (BitVec.ofNat 32 x).toNat = x := by
  rw [BitVec.toNat_ofNat, Nat.mod_eq_of_lt h]

/-- No sign below 2^31. -/
theorem BBLOCKi_eq (hb : b < 2 ^ 31) (h : b / 8192 + sb.bmapstart < 2 ^ 32) :
    BBLOCKi sb (BitVec.ofNat 32 b) = BBLOCK sb b := by
  have hmsb : (BitVec.ofNat 32 b).msb = false := by
    rw [BitVec.msb_eq_false_iff_two_mul_lt, toNat_ofNat_of_lt (by omega)]
    omega
  have hbpb : (BitVec.ofNat 32 BPB).msb = false := by decide
  unfold BBLOCKi BBLOCK
  rw [BitVec.sdiv_eq, hmsb, hbpb]
  dsimp only
  rw [BitVec.udiv_eq, BitVec.toNat_add, BitVec.toNat_udiv, toNat_ofNat_of_lt (by omega),
    toNat_ofNat_of_lt (by decide), toNat_ofNat_of_lt (by omega)]
  exact Nat.mod_eq_of_lt h

theorem BBLOCKu_eq (hb : b < 2 ^ 31) (h : b / 8192 + sb.bmapstart < 2 ^ 32) :
    BBLOCKu sb (BitVec.ofNat 32 b) = BBLOCK sb b := by
  unfold BBLOCKu BBLOCK
  rw [BitVec.toNat_add, BitVec.toNat_udiv, toNat_ofNat_of_lt (by omega), toNat_ofNat_of_lt (by decide),
    toNat_ofNat_of_lt (by omega)]
  exact Nat.mod_eq_of_lt h

variable (sb) in
/-- The int and the uint 2^31 have different bitmap blocks. -/
theorem bblock_sign : BBLOCKi sb (BitVec.ofNat 32 (2 ^ 31)) ≠ BBLOCKu sb (BitVec.ofNat 32 (2 ^ 31)) := fun e =>
  absurd ((BitVec.add_left_inj _).mp (BitVec.eq_of_toNat_eq e)) (by decide)

theorem ballocBits32_eq (hb : b + BPB ≤ 2 ^ 31) (hB : BBLOCKi sb (BitVec.ofNat 32 b) = BBLOCK sb b) :
    ∀ {n bi}, bi + n = BPB →
    ballocBits32 sb disk (BitVec.ofNat 32 b) n (BitVec.ofNat 32 bi) = (ballocBits sb disk b n bi).map fun r =>
      BitVec.ofNat 32 (r - b) := by
  intro n
  induction n with
  | zero => exact fun _ => rfl
  | succ n ih =>
    intro bi hn
    unfold BPB at hb hn
    have hsum : (BitVec.ofNat 32 b + BitVec.ofNat 32 bi).toNat = b + bi := by
      rw [← BitVec.ofNat_add, toNat_ofNat_of_lt (by omega)]
    have hnext : BitVec.ofNat 32 bi + 1 = BitVec.ofNat 32 (bi + 1) := (BitVec.ofNat_add bi 1).symm
    unfold ballocBits32 ballocBits
    rw [hsum, hB, toNat_ofNat_of_lt (by omega), hnext, ih (by unfold BPB; omega)]
    split
    · split
      · rw [Option.map_some, Nat.add_sub_cancel_left]
      · rfl
    · rfl

theorem ballocLoop32_eq (h : Bitmap sb) : ∀ {n b}, b % BPB = 0 → b < 2 ^ 31 + BPB →
    ballocLoop32 sb disk n (BitVec.ofNat 32 b) =
      (ballocLoop sb disk n b).map fun r => (BitVec.ofNat 32 (r / BPB * BPB), BitVec.ofNat 32 (r % BPB)) := by
  intro n
  induction n with
  | zero => exact fun _ _ => rfl
  | succ n ih =>
    intro b hb hlt
    have hsmall := h.small
    unfold ballocLoop32 ballocLoop
    rw [toNat_ofNat_of_lt (by unfold BPB at hlt; omega)]
    by_cases hsize : b < sb.size
    · have hfit := h.fits hsize
      have hbound : b + BPB ≤ 2 ^ 31 := by
        unfold BPB at hb ⊢
        omega
      have h0 : (0 : BitVec 32) = BitVec.ofNat 32 0 := rfl
      rw [if_pos hsize, if_pos hsize, h0, ballocBits32_eq hbound (BBLOCKi_eq (by omega) hfit) (Nat.zero_add _)]
      cases e : ballocBits sb disk b BPB 0 with
      | none =>
        rw [Option.map_none]
        dsimp only
        rw [← BitVec.ofNat_add]
        exact ih (by rw [Nat.add_mod_right]; exact hb) (by omega)
      | some r =>
        obtain ⟨h1, h2, -⟩ := ballocBits_some (Nat.zero_add _) hb e
        have h3 : r / BPB * BPB = b := by
          unfold BPB at hb h2 ⊢
          omega
        have h4 : r % BPB = r - b := by
          unfold BPB at hb h2 ⊢
          omega
        rw [Option.map_some, Option.map_some, h3, h4]
    · rw [if_neg hsize, if_neg hsize]
      rfl

theorem balloc32_eq (h : Bitmap sb) (s : St) : balloc32 sb s = balloc sb s := by
  unfold balloc32 balloc
  have h0 : (0 : BitVec 32) = BitVec.ofNat 32 0 := rfl
  rw [h0, ballocLoop32_eq h (Nat.zero_mod _) (by decide)]
  cases e : ballocLoop sb s.disk (sb.size / BPB + 1) 0 with
  | none => rfl
  | some r =>
    obtain ⟨-, hr, -⟩ := ballocLoop_some (Nat.zero_mod _) e
    have hsmall := h.small
    have hfit := h.fits hr
    have hfirst : r / BPB * BPB / 8192 = r / 8192 := by
      unfold BPB
      omega
    have hblock : BBLOCK sb (r / BPB * BPB) = BBLOCK sb r := congrArg (· + sb.bmapstart) hfirst
    have hmod : r % BPB < 2 ^ 32 := Nat.lt_trans (Nat.mod_lt r (by decide)) (by decide)
    have hle : r / BPB * BPB ≤ r := Nat.div_mul_le_self r BPB
    rw [Option.map_some]
    dsimp only
    rw [BBLOCKi_eq (by omega) (by rw [hfirst]; exact hfit), hblock, toNat_ofNat_of_lt hmod, ← BitVec.ofNat_add,
      Nat.div_add_mod', toNat_ofNat_of_lt (by omega)]

theorem bfree32_eq (h : Bitmap sb) (hb : b < sb.size) (s : St) : bfree32 sb b s = bfree sb b s := by
  have hsmall := h.small
  have hmod : (BitVec.ofNat 32 b % BitVec.ofNat 32 BPB).toNat = b % BPB := by
    rw [BitVec.toNat_umod, toNat_ofNat_of_lt (by omega), toNat_ofNat_of_lt (by decide)]
  unfold bfree32 bfree
  rw [BBLOCKu_eq (by omega) (h.fits hb), hmod]

/-! ## A set that hands out its elements -/

inductive Event (α : Type) where
  | got (b : α)
  | freed (b : α)
  deriving DecidableEq

section

variable {α : Type}

/-- What one event does to the set of the elements that are out. -/
inductive Moves (all : Set α) : Set α → Event α → Set α → Prop
  | got {U : Set α} {b : α} : b ∈ all → b ∉ U → Moves all U (.got b) (insert b U)
  | freed {U : Set α} {b : α} : b ∈ all → b ∈ U → Moves all U (.freed b) (U \ {b})

inductive Run (all : Set α) : Set α → List (Event α) → Set α → Prop
  | nil (U : Set α) : Run all U [] U
  | cons {U V W : Set α} {e : Event α} {es : List (Event α)} : Moves all U e V → Run all V es W →
      Run all U (e :: es) W

variable {all U V W : Set α} {es fs : List (Event α)} {a : α}

theorem Run.head {e : Event α} (h : Run all U (e :: es) W) : ∃ V, Moves all U e V ∧ Run all V es W := by
  cases h with
  | cons hm h => exact ⟨_, hm, h⟩

theorem Run.split : ∀ {es U}, Run all U (es ++ fs) W → ∃ V, Run all U es V ∧ Run all V fs W := by
  intro es
  induction es with
  | nil => exact fun {U} h => ⟨U, .nil U, h⟩
  | cons e es ih =>
    intro U h
    obtain ⟨V', hm, h⟩ := h.head
    obtain ⟨V, h1, h2⟩ := ih h
    exact ⟨V, .cons hm h1, h2⟩

/-- An element that is out stays out until it is freed. -/
theorem Run.out (h : Run all U es W) (ha : a ∈ U) (hno : .freed a ∉ es) : a ∈ W := by
  induction h with
  | nil U => exact ha
  | cons hm _ ih =>
    refine ih ?_ fun hin => hno (List.mem_cons_of_mem _ hin)
    cases hm with
    | got _ _ => exact Set.mem_insert_of_mem _ ha
    | freed _ _ => exact ⟨ha, fun e => hno (by rw [Set.mem_singleton_iff.mp e]; exact List.mem_cons_self)⟩

/-- No element is handed out twice without being freed in between. -/
theorem Run.freed_between {pre mid post : List (Event α)}
    (h : Run all U (pre ++ .got a :: (mid ++ .got a :: post)) W) : .freed a ∈ mid := by
  obtain ⟨U1, -, h⟩ := h.split
  obtain ⟨U2, h1, h⟩ := h.head
  obtain ⟨U3, hmid, h⟩ := h.split
  obtain ⟨U4, h2, -⟩ := h.head
  have hin : a ∈ U2 := by
    cases h1 with
    | got _ _ => exact Set.mem_insert a U1
  have hout : a ∉ U3 := by
    cases h2 with
    | got _ hout => exact hout
  by_contra hno
  exact hout (hmid.out hin hno)

end

/-! ## Runs -/

inductive Request where
  | balloc
  | bfree (b : Nat)

variable (sb) in
def step : Request → St → Except String (Event Nat × St)
  | .balloc, s => do
    let (b, s) ← balloc32 sb s
    .ok (.got b, s)
  | .bfree b, s => do
    let s ← bfree32 sb b s
    .ok (.freed b, s)

variable (sb) in
def run : List Request → St → Except String (List (Event Nat) × St)
  | [], s => .ok ([], s)
  | op :: ops, s => do
    let (e, s) ← step sb op s
    let (es, s) ← run ops s
    .ok (e :: es, s)

variable (sb) in
/-- The blocks marked in use. -/
def taken (disk : Mem) : Set Nat := { c | c < sb.size ∧ used sb disk c = true }

variable (sb) in
/-- Block `b` is one of the bitmap. -/
def IsBitmap (b : Nat) : Prop := ∃ c < sb.size, BBLOCK sb c = b

variable (sb) in
/-- The bitmap marks its own blocks. -/
def Guarded (disk : Mem) : Prop := ∀ b, IsBitmap sb b → used sb disk b = true

variable {s s' : St}

/-- Block `b` was free; its bit is set and it is zeroed, and nothing else is written. -/
structure HandedOut (sb : Superblock) (b : Nat) (s s' : St) : Prop where
  lt : b < sb.size
  free : used sb s.disk b = false
  bits : ∀ c < sb.size, used sb s'.disk c = (used sb s.disk c || decide (b = c))
  mark : s'.disk (byteOf sb b) = UInt8.ofNat ((s.disk (byteOf sb b)).toNat ||| 2 ^ (b % 8))
  zero : ∀ o < BSIZE, s'.disk (b * BSIZE + o) = 0
  rest : ∀ x, x / BSIZE ≠ b → x ≠ byteOf sb b → s'.disk x = s.disk x

/-- The bit of `b` was set and is cleared. -/
structure HandedBack (sb : Superblock) (b : Nat) (s s' : St) : Prop where
  bits : ∀ c, used sb s'.disk c = (used sb s.disk c && !decide (b = c))
  mark : s'.disk (byteOf sb b) = UInt8.ofNat (clear (s.disk (byteOf sb b)).toNat (2 ^ (b % 8)))
  rest : ∀ x, x ≠ byteOf sb b → s'.disk x = s.disk x

/-- balloc hands out a free block if there is one. -/
structure BallocRight (sb : Superblock) (s : St) : Prop where
  full : (∀ c < sb.size, used sb s.disk c = true) → balloc32 sb s = .error "balloc: out of blocks"
  room : (∃ c < sb.size, used sb s.disk c = false) → ∃ b s', balloc32 sb s = .ok (b, s') ∧ HandedOut sb b s s'

structure BfreeRight (sb : Superblock) (b : Nat) (s : St) : Prop where
  free : used sb s.disk b = false → bfree32 sb b s = .error "freeing free block"
  used : used sb s.disk b = true → ∃ s', bfree32 sb b s = .ok s' ∧ HandedBack sb b s s'

theorem byteOf_block (b : Nat) : byteOf sb b / BSIZE = BBLOCK sb b := by
  unfold byteOf BBLOCK BSIZE BPB
  omega

/-- A free block is not one of the bitmap. -/
theorem Guarded.apart (hg : Guarded sb disk) (hfree : used sb disk b = false) (hc : c < sb.size) :
    byteOf sb c / BSIZE ≠ b := by
  intro e
  rw [byteOf_block] at e
  rw [hg b ⟨c, hc, e⟩] at hfree
  exact absurd hfree (by decide)

theorem handedOut (hg : Guarded sb s.disk) (h : Allocated sb b s s') : HandedOut sb b s s' := by
  have hrest : ∀ x, x / BSIZE ≠ b → s'.disk x = setBit s.disk (BBLOCK sb b) (b % BPB) x := fun x hx => by
    rw [h.disk]
    refine Mem.agree_set (b := x) (n := 1) _ _ ?_ x (Nat.le_refl _) (Nat.lt_succ_self _)
    unfold BSIZE at *
    omega
  refine ⟨h.lt, h.free, fun c hc => ?_, ?_, fun o ho => ?_, fun x hx hne => ?_⟩
  · rw [used_congr (hrest _ (hg.apart h.free hc)), used_setBit]
  · rw [hrest _ (hg.apart h.free h.lt), setBit_byte, Function.update_self]
  · rw [h.disk]
    exact Mem.set_in _ _ (Nat.le_add_right _ _) (Nat.add_lt_add_left ho _)
  · rw [hrest x hx, setBit_ne hne]

theorem ballocRight (hb : Bitmap sb) (hg : Guarded sb s.disk) : BallocRight sb s := by
  rcases balloc_spec sb s with ⟨b, s1, e, h⟩ | ⟨hall, e⟩
  · exact ⟨fun hall => absurd (hall b h.lt) (by rw [h.free]; decide),
      fun _ => ⟨b, s1, by rw [balloc32_eq hb, e], handedOut hg h⟩⟩
  · exact ⟨fun _ => by rw [balloc32_eq hb, e], fun ⟨c, hc, hfree⟩ => absurd (hall c hc) (by rw [hfree]; decide)⟩

theorem bfreeRight (h : Bitmap sb) (hb : b < sb.size) : BfreeRight sb b s := by
  refine ⟨fun hfree => ?_, fun hused => ⟨_, (bfree32_eq h hb s).trans (bfree_spec hused),
    fun c => used_clearBit s.disk b c, ?_, fun x hx => clearBit_ne hx⟩⟩
  · rw [bfree32_eq h hb]
    exact if_pos hfree
  · show clearBit s.disk (BBLOCK sb b) (b % BPB) (byteOf sb b) = _
    rw [clearBit_byte, Function.update_self]

/-- Bit `i` set and cleared again. -/
theorem clear_or {x i : Nat} (hx : x < 256) (hi : i < 8) (h : x.testBit i = false) :
    clear (x ||| 2 ^ i) (2 ^ i) = x := by
  refine Nat.eq_of_testBit_eq fun j => ?_
  rw [testBit_clear, testBit_or_pow, Nat.testBit_two_pow]
  by_cases hj : j < 64
  · by_cases hij : i = j
    · have hi64 : i < 64 := by omega
      simp [← hij, h, hi64]
    · simp [hij, hj]
  · have hpow : 2 ^ 8 ≤ 2 ^ j := Nat.pow_le_pow_right (by decide) (by omega)
    have hij : i ≠ j := by omega
    rw [Nat.testBit_lt_two_pow (Nat.lt_of_lt_of_le hx hpow)]
    simp [hj, hij]

/-- bfree after balloc. -/
theorem bfree_balloc (h : Bitmap sb) (hg : Guarded sb s.disk) {s1 : St} (e : balloc32 sb s = .ok (b, s1)) :
    ∃ s2, bfree32 sb b s1 = .ok s2 ∧ ∀ x, IsBitmap sb (x / BSIZE) → s2.disk x = s.disk x := by
  rw [balloc32_eq h] at e
  have ha := handedOut hg (balloc_ok e)
  have hfree := ha.free
  have hused : used sb s1.disk b = true := by
    rw [ha.bits b ha.lt, decide_eq_true rfl, Bool.or_true]
  obtain ⟨s2, e2, hback⟩ := (bfreeRight h ha.lt).used hused
  refine ⟨s2, e2, fun x hx => ?_⟩
  have hxb : x / BSIZE ≠ b := fun hxb => by
    rw [← hxb, hg _ hx] at hfree
    exact absurd hfree (by decide)
  by_cases hbyte : x = byteOf sb b
  · have hlt := (s.disk (byteOf sb b)).toNat_lt
    rw [used_eq] at hfree
    rw [hbyte, hback.mark, ha.mark, UInt8.toNat_ofNat_of_lt' (or_pow_lt _ (Nat.mod_lt _ (by decide))),
      clear_or hlt (Nat.mod_lt _ (by decide)) hfree, UInt8.ofNat_toNat]
  · rw [hback.rest x hbyte, ha.rest x hxb hbyte]

/-- The callers free blocks of the disk that are not of the bitmap. -/
def Careful (sb : Superblock) (ops : List Request) : Prop := ∀ b, .bfree b ∈ ops → b < sb.size ∧ ¬ IsBitmap sb b

theorem step_taken (h : Bitmap sb) (hg : Guarded sb s.disk) {op : Request}
    (hop : ∀ b, op = .bfree b → b < sb.size ∧ ¬ IsBitmap sb b) {ev : Event Nat}
    (e : step sb op s = .ok (ev, s')) : Guarded sb s'.disk ∧
      Moves { b | b < sb.size } (taken sb s.disk) ev (taken sb s'.disk) := by
  cases op with
  | balloc =>
    obtain ⟨⟨b, s1⟩, e1, e⟩ := bind_ok e
    cases e
    rw [balloc32_eq h] at e1
    have ha := handedOut hg (balloc_ok e1)
    have hset : taken sb s'.disk = insert b (taken sb s.disk) := by
      refine Set.ext fun c => ⟨fun ⟨hc, hu⟩ => ?_, fun hin => ?_⟩
      · rw [ha.bits c hc, Bool.or_eq_true, decide_eq_true_eq] at hu
        exact hu.elim (fun hu => Or.inr ⟨hc, hu⟩) fun hbc => Or.inl hbc.symm
      · rcases hin with rfl | ⟨hc, hu⟩
        · exact ⟨ha.lt, by rw [ha.bits c ha.lt, decide_eq_true rfl, Bool.or_true]⟩
        · exact ⟨hc, by rw [ha.bits c hc, hu, Bool.true_or]⟩
    refine ⟨fun d ⟨c, hc, hd⟩ => ?_, ?_⟩
    · rw [ha.bits d (hd ▸ h.lies c hc), hg d ⟨c, hc, hd⟩, Bool.true_or]
    · rw [hset]
      exact .got ha.lt fun hin => absurd hin.2 (by rw [ha.free]; decide)
  | bfree b =>
    obtain ⟨s1, e1, e⟩ := bind_ok e
    cases e
    obtain ⟨hb, hnot⟩ := hop b rfl
    have hr : BfreeRight sb b s := bfreeRight h hb
    cases hu : used sb s.disk b with
    | false =>
      rw [hr.free hu] at e1
      cases e1
    | true =>
      obtain ⟨s2, e2, hback⟩ := hr.used hu
      rw [e2] at e1
      cases e1
      have hset : taken sb s'.disk = taken sb s.disk \ {b} := by
        refine Set.ext fun c => ⟨fun ⟨hc, hu⟩ => ?_, fun ⟨⟨hc, hu⟩, hne⟩ => ⟨hc, ?_⟩⟩
        · rw [hback.bits c, Bool.and_eq_true, Bool.not_eq_true', decide_eq_false_iff_not] at hu
          exact ⟨⟨hc, hu.1⟩, fun hcb => hu.2 (Set.mem_singleton_iff.mp hcb).symm⟩
        · rw [hback.bits c, hu, decide_eq_false fun hbc => hne (Set.mem_singleton_iff.mpr hbc.symm)]
          rfl
      refine ⟨fun d hd => ?_, ?_⟩
      · rw [hback.bits d, hg d hd, decide_eq_false fun hbd : b = d => hnot (by rw [hbd]; exact hd)]
        rfl
      · rw [hset]
        exact .freed hb ⟨hb, hu⟩

theorem run_taken (h : Bitmap sb) : ∀ {ops es} {s s' : St}, Guarded sb s.disk → Careful sb ops →
    run sb ops s = .ok (es, s') →
    Guarded sb s'.disk ∧ Run { b | b < sb.size } (taken sb s.disk) es (taken sb s'.disk) := by
  intro ops
  induction ops with
  | nil =>
    intro es s s' hg _ e
    cases e
    exact ⟨hg, .nil _⟩
  | cons op ops ih =>
    intro es s s' hg hops e
    obtain ⟨⟨ev, s1⟩, e1, e⟩ := bind_ok e
    obtain ⟨⟨es', s2⟩, e2, e⟩ := bind_ok e
    cases e
    obtain ⟨hg1, hm⟩ := step_taken h hg (fun b hb => hops b (hb ▸ List.mem_cons_self)) e1
    obtain ⟨hg2, hr⟩ := ih hg1 (fun b hb => hops b (List.mem_cons_of_mem _ hb)) e2
    exact ⟨hg2, .cons hm hr⟩

/-- What a run did, and what the next call does. -/
structure RunRight (sb : Superblock) (es : List (Event Nat)) (s s' : St) : Prop where
  set : Run { b | b < sb.size } (taken sb s.disk) es (taken sb s'.disk)
  once : ∀ pre mid post b, es = pre ++ .got b :: (mid ++ .got b :: post) → .freed b ∈ mid
  balloc : BallocRight sb s'
  bfree : ∀ b < sb.size, BfreeRight sb b s'
  undo : ∀ b s1, balloc32 sb s' = .ok (b, s1) → ∃ s2, bfree32 sb b s1 = .ok s2 ∧ ∀ x, IsBitmap sb (x / BSIZE) →
    s2.disk x = s'.disk x

theorem block_allocator_is_set (h : Bitmap sb) (hg : Guarded sb s.disk) {ops : List Request} (hops : Careful sb ops)
    {es : List (Event Nat)} (e : run sb ops s = .ok (es, s')) : RunRight sb es s s' := by
  obtain ⟨hg', hr⟩ := run_taken h hg hops e
  refine ⟨hr, fun pre mid post b he => ?_, ballocRight h hg', fun b hb => bfreeRight h hb,
    fun b s1 e1 => bfree_balloc h hg' e1⟩
  rw [he] at hr
  exact hr.freed_between

/-! ## Two disks -/

theorem smallDisk_bitmap : Bitmap smallDisk := ⟨by decide, by decide⟩

theorem smallDisk_bblock : ∀ {c}, c < smallDisk.size → BBLOCK smallDisk c = 3 := by decide

/-- A disk of 64 blocks whose bitmap begins with the bits of `w`. -/
def bitmapIs (w : UInt8) : St := ⟨fun x => if x = 3 * BSIZE then w else 0, [],
    fun _ => ⟨0, 0, 0, false, false, ⟨0, 0, 0, 0, 0, fun _ => 0⟩⟩⟩

/-- Blocks 0 to 3 are in use: two blocks are handed out, one is freed and handed out again. -/
theorem block_allocator_is_set_four : ∃ s', run smallDisk [.balloc, .balloc, .bfree 4, .balloc] (bitmapIs 15) =
    .ok ([.got 4, .got 5, .freed 4, .got 4], s') ∧
    RunRight smallDisk [.got 4, .got 5, .freed 4, .got 4] (bitmapIs 15) s' := by
  have hg : Guarded smallDisk (bitmapIs 15).disk := fun b ⟨c, hc, hb⟩ => by
    have hb3 : b = 3 := hb.symm.trans (smallDisk_bblock hc)
    rw [hb3]
    decide +kernel
  have hc : Careful smallDisk [.balloc, .balloc, .bfree 4, .balloc] := fun b hb => by
    have hb4 : b = 4 := by simpa using hb
    rw [hb4]
    exact ⟨by decide, fun ⟨c, hc, e⟩ => absurd (e.symm.trans (smallDisk_bblock hc)) (by decide)⟩
  have hrun : (run smallDisk [.balloc, .balloc, .bfree 4, .balloc] (bitmapIs 15)).toOption.map (·.1) =
    some [.got 4, .got 5, .freed 4, .got 4] := by
    decide +kernel
  cases e : run smallDisk [.balloc, .balloc, .bfree 4, .balloc] (bitmapIs 15) with
  | error _ =>
    rw [e] at hrun
    cases hrun
  | ok x =>
    rw [e] at hrun
    have hx : x.1 = [.got 4, .got 5, .freed 4, .got 4] := Option.some.inj hrun
    refine ⟨x.2, by rw [← hx], ?_⟩
    rw [← hx]
    exact block_allocator_is_set smallDisk_bitmap hg hc e

/-- Block 3, the bitmap, is not marked: balloc hands it out and zeroes it, and then hands it out again. -/
theorem balloc_wipes_bitmap :
    (run smallDisk [.balloc, .balloc, .balloc, .balloc, .balloc] (bitmapIs 7)).toOption.map (·.1) = some
    [.got 3, .got 0, .got 1, .got 2, .got 3] ∧
      (run smallDisk [.balloc] (bitmapIs 7)).toOption.map
      (fun x => (used smallDisk x.2.disk 0, used smallDisk x.2.disk 3)) = some (false, false) ∧
        used smallDisk (bitmapIs 7).disk 0 = true := by
  decide +kernel

end Xv6Labs.Fs.Disk
