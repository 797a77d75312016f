/-
  Xv6Labs.Net.Transmit — e1000_transmit and the device on the transmit ring.

  e1000_transmit runs statement by statement under e1000_lock; between any two statements
  the device may finish the descriptor at TDH. The driver looks for room by the DD bit of
  the descriptor at TDT, but it never clears that bit and neither does the device, so the
  test never fails: with 15 descriptors outstanding one more call moves TDT onto TDH and the
  ring reads as empty.

  - `frames_sent_in_order`: as long as no call moves TDT onto TDH, every accepted frame is
    sent once, in order, with its bytes, and nothing of it is given up before.
  - `sixteen_frames_lost`: without that, sixteen calls in a row lose all their frames.
-/

import Xv6Labs.Lib.Bytes
import Mathlib.Logic.Function.Basic
import Mathlib.Logic.Relation

namespace Xv6Labs.Net.Transmit

open Lib

/-! ## The code and the device -/

abbrev TX_RING_SIZE : Nat := 16
abbrev E1000_TXD_STAT_DD : Nat := 1
abbrev E1000_TXD_CMD_EOP : Nat := 1
abbrev E1000_TXD_CMD_RS : Nat := 8

/-- What the driver uses of struct tx_desc. -/
structure TxDesc where
  addr : Nat
  length : Nat
  cmd : Nat
  status : Nat

/-- struct mbuf as the driver sees it, and the memory `[lo, hi)` that is the mbuf's own. -/
structure Mbuf where
  lo : Nat
  hi : Nat
  head : Nat
  len : Nat

/-- The next statement of e1000_transmit. -/
inductive At where
  | check | free | addr | length | cmd | stash | tail
  deriving DecidableEq

/-- A call of e1000_transmit; `frame` is what the mbuf held when it was made. -/
structure Call where
  m : Mbuf
  frame : List UInt8
  next_index : Nat

/-- The driver, the device's two registers and memory; then what has happened so far:
    the frames accepted (calls that returned 0) and sent, the frame each slot was last used
    for, and the frames whose mbuf was freed or whose descriptor was overwritten. -/
structure St where
  tx_ring : Nat → TxDesc
  tx_mbufs : Nat → Option Mbuf
  TDH : Nat
  TDT : Nat
  mem : Mem
  call : Option (At × Call)
  accepted : List (Mbuf × List UInt8)
  sent : List (List UInt8)
  own : Nat → Option Nat
  freed : List Nat
  overwritten : List Nat

/-- `len` bytes from `a`. -/
def bytes (m : Mem) (a len : Nat) : List UInt8 := (List.range len).map fun i => m (a + i)

/-- e1000_init. -/
def init (m : Mem) : St where
  tx_ring _ := ⟨0, 0, 0, E1000_TXD_STAT_DD⟩
  tx_mbufs _ := none
  TDH := 0
  TDT := 0
  mem := m
  call := none
  accepted := []
  sent := []
  own _ := none
  freed := []
  overwritten := []

/-- One store to the descriptor of the call. -/
def St.store (s : St) (c : Call) (f : TxDesc → TxDesc) (next : At) : St :=
  { s with tx_ring := Function.update s.tx_ring c.next_index (f (s.tx_ring c.next_index)), call := some (next, c) }

/-- The memory that is not the driver's: neither the mbuf of a call nor one it has not freed
    since. -/
def Keeps (s : St) (m : Mem) : Prop :=
  (∀ a c, s.call = some (a, c) → Mem.Agree s.mem m c.m.lo (c.m.hi - c.m.lo)) ∧
    ∀ (n : Nat) b f, s.accepted[n]? = some (b, f) → n ∉ s.freed → Mem.Agree s.mem m b.lo (b.hi - b.lo)

/-- Two mbufs share no memory. -/
def Apart (b b' : Mbuf) : Prop := b.hi ≤ b'.lo ∨ b'.hi ≤ b.lo

/-- The device sends the frame at TDH, sets DD and moves on. -/
def St.finish (s : St) : St :=
  { s with
    sent := s.sent ++ [bytes s.mem (s.tx_ring s.TDH).addr (s.tx_ring s.TDH).length],
    tx_ring := Function.update s.tx_ring s.TDH
      { s.tx_ring s.TDH with status := (s.tx_ring s.TDH).status ||| E1000_TXD_STAT_DD },
    TDH := (s.TDH + 1) % TX_RING_SIZE }

/-- A step. `MBUF_SIZE` bounds what an mbuf holds; mbuffree may change the memory of the
    mbuf it is given and no other. -/
inductive Step (MBUF_SIZE : Nat) : St → St → Prop where
  /-- The caller's own mbuf. -/
  | call (s : St) (m : Mbuf) : s.call = none → m.lo ≤ m.head → m.head + m.len ≤ m.hi → m.len ≤ MBUF_SIZE →
      (∀ (n : Nat) b f, s.accepted[n]? = some (b, f) → n ∉ s.freed → Apart m b) →
      Step MBUF_SIZE s { s with call := some (.check, ⟨m, bytes s.mem m.head m.len, s.TDT⟩) }
  | refuse (s : St) (c : Call) : s.call = some (.check, c) →
      (s.tx_ring c.next_index).status &&& E1000_TXD_STAT_DD = 0 →
      Step MBUF_SIZE s { s with call := none }
  | check (s : St) (c : Call) : s.call = some (.check, c) →
      (s.tx_ring c.next_index).status &&& E1000_TXD_STAT_DD ≠ 0 →
      Step MBUF_SIZE s { s with call := some (.free, c) }
  | nofree (s : St) (c : Call) : s.call = some (.free, c) → s.tx_mbufs c.next_index = none →
      Step MBUF_SIZE s { s with call := some (.addr, c) }
  | free (s : St) (c : Call) (b : Mbuf) (m : Mem) : s.call = some (.free, c) → s.tx_mbufs c.next_index = some b →
      (∀ x, x < b.lo ∨ b.hi ≤ x → m x = s.mem x) →
      Step MBUF_SIZE s { s with mem := m, call := some (.addr, c), freed := (s.own c.next_index).toList ++ s.freed }
  | addr (s : St) (c : Call) : s.call = some (.addr, c) →
      Step MBUF_SIZE s { s.store c (fun d => { d with addr := c.m.head }) .length with
        overwritten := (s.own c.next_index).toList ++ s.overwritten }
  | length (s : St) (c : Call) : s.call = some (.length, c) →
      Step MBUF_SIZE s (s.store c (fun d => { d with length := c.m.len % 2 ^ 16 }) .cmd)
  | cmd (s : St) (c : Call) : s.call = some (.cmd, c) →
      Step MBUF_SIZE s (s.store c (fun d => { d with cmd := E1000_TXD_CMD_EOP ||| E1000_TXD_CMD_RS }) .stash)
  | stash (s : St) (c : Call) : s.call = some (.stash, c) →
      Step MBUF_SIZE s
        { s with tx_mbufs := Function.update s.tx_mbufs c.next_index (some c.m), call := some (.tail, c) }
  /-- TDT moves on and the call returns 0. -/
  | tail (s : St) (c : Call) : s.call = some (.tail, c) →
      Step MBUF_SIZE s { s with
        TDT := (c.next_index + 1) % TX_RING_SIZE, call := none, accepted := s.accepted ++ [(c.m, c.frame)],
        own := Function.update s.own c.next_index (some s.accepted.length) }
  | device (s : St) : s.TDH ≠ s.TDT → Step MBUF_SIZE s s.finish
  /-- The rest of the kernel. -/
  | other (s : St) (m : Mem) : Keeps s m → Step MBUF_SIZE s { s with mem := m }

/-- The steps that do not move TDT onto TDH. -/
def Room (s s' : St) : Prop := s'.TDT ≠ s.TDT → s'.TDT ≠ s.TDH

/-- The runs from e1000_init whose steps are all `ok`. -/
inductive Reach (MBUF_SIZE : Nat) (ok : St → St → Prop) : St → Prop where
  | init (m : Mem) : Reach MBUF_SIZE ok (init m)
  | step {s s' : St} : Reach MBUF_SIZE ok s → ok s s' → Step MBUF_SIZE s s' → Reach MBUF_SIZE ok s'

/-- What is wanted of every state: the frames sent are the first accepted ones, nothing was
    given up before it was sent, and when the device stops nothing is left. -/
structure Good (s : St) : Prop where
  order : s.sent = (s.accepted.map Prod.snd).take s.sent.length
  free : ∀ n, n ∈ s.freed ∨ n ∈ s.overwritten → n < s.sent.length
  all : s.TDH = s.TDT → s.sent.length = s.accepted.length

variable {MBUF_SIZE : Nat} {s s' : St}

/-! ## The invariant -/

/-- How far a call is. -/
def At.stage : At → Nat
  | .check => 0 | .free => 1 | .addr => 2 | .length => 3 | .cmd => 4 | .stash => 5 | .tail => 6

/-- A frame on its way: its bytes are where its descriptor says. -/
structure Ready (d : TxDesc) (m : Mem) (b : Mbuf) (f : List UInt8) : Prop where
  addr : d.addr = b.head
  length : d.length = b.len
  bytes : bytes m b.head b.len = f

structure Inside (b : Mbuf) : Prop where
  lo : b.lo ≤ b.head
  hi : b.head + b.len ≤ b.hi
  len : b.len < 2 ^ 16

/-- The ring between calls. -/
structure Ring (ring : Nat → TxDesc) (m : Mem) (TDH TDT : Nat) (accepted : List (Mbuf × List UInt8))
    (sent : List (List UInt8)) (own : Nat → Option Nat) (freed overwritten : List Nat) : Prop where
  le : sent.length ≤ accepted.length
  lag : accepted.length ≤ sent.length + 15
  tdt : TDT = accepted.length % 16
  tdh : TDH = sent.length % 16
  order : sent = (accepted.map Prod.snd).take sent.length
  ready : ∀ (n : Nat) b f, sent.length ≤ n → accepted[n]? = some (b, f) → Ready (ring (n % 16)) m b f
  inside : ∀ (n : Nat) b f, accepted[n]? = some (b, f) → Inside b
  own : ∀ i n, own i = some n → n < accepted.length ∧ n % 16 = i
  apart : ∀ (n n' : Nat) b f b' f', n ≠ n' → accepted[n]? = some (b, f) → accepted[n']? = some (b', f') →
    n ∉ freed → n' ∉ freed →
    Apart b b'
  gone : ∀ n, n ∈ freed ∨ n ∈ overwritten → n < sent.length

abbrev St.Ring (s : St) : Prop :=
  Transmit.Ring s.tx_ring s.mem s.TDH s.TDT s.accepted s.sent s.own s.freed s.overwritten

/-- The mbuf of a call is the driver's, with its frame in it. -/
structure Mine (m : Mem) (accepted : List (Mbuf × List UInt8)) (freed : List Nat) (c : Call) : Prop where
  inside : Inside c.m
  frame : bytes m c.m.head c.m.len = c.frame
  apart : ∀ (n : Nat) b f, accepted[n]? = some (b, f) → n ∉ freed → Apart c.m b

structure Inv (s : St) : Prop where
  ring : s.Ring
  /-- The mbufs stashed away, except the one a call has dealt with. -/
  stashed : ∀ i b, s.tx_mbufs i = some b → (∀ a c, s.call = some (a, c) → 2 ≤ a.stage → c.next_index ≠ i) →
    ∃ n f, s.own i = some n ∧ s.accepted[n]? = some (b, f) ∧ n ∉ s.freed
  stash : ∀ c, s.call = some (.tail, c) → s.tx_mbufs c.next_index = some c.m
  index : ∀ a c, s.call = some (a, c) → c.next_index = s.TDT
  mine : ∀ a c, s.call = some (a, c) → Mine s.mem s.accepted s.freed c
  addr : ∀ a c, s.call = some (a, c) → 3 ≤ a.stage → (s.tx_ring c.next_index).addr = c.m.head
  length : ∀ a c, s.call = some (a, c) → 4 ≤ a.stage → (s.tx_ring c.next_index).length = c.m.len

theorem bytes_agree {m m' : Mem} {b : Mbuf} (hb : Inside b) (h : Mem.Agree m m' b.lo (b.hi - b.lo)) :
    bytes m' b.head b.len = bytes m b.head b.len := by
  unfold bytes
  refine List.map_congr_left fun i hi => h _ ?_ ?_
  · have := hb.lo; omega
  · have := List.mem_range.mp hi
    have := hb.lo
    have := hb.hi
    omega

theorem Apart.agree {b b' : Mbuf} {m m' : Mem} (h : Apart b b') (hm : ∀ x, x < b'.lo ∨ b'.hi ≤ x → m' x = m x) :
    Mem.Agree m m' b.lo (b.hi - b.lo) := fun x hx hy => by
  unfold Apart at h
  exact hm x (by omega)

theorem init_inv (m : Mem) : Inv (init m) := by
  refine ⟨⟨?_, ?_, rfl, rfl, rfl, ?_, ?_, ?_, ?_, ?_⟩, ?_, ?_, ?_, ?_, ?_, ?_⟩ <;> simp [init]

section

variable {ring : Nat → TxDesc} {m : Mem} {TDH TDT : Nat} {accepted : List (Mbuf × List UInt8)}
    {sent : List (List UInt8)}
  {own : Nat → Option Nat} {freed overwritten : List Nat}

/-- What the slot at TDT was last used for is sent. -/
theorem Ring.own_sent (h : Ring ring m TDH TDT accepted sent own freed overwritten) {n : Nat}
    (hn : own TDT = some n) :
    n < sent.length := by
  obtain ⟨h1, h2⟩ := h.own _ _ hn
  have := h.lag
  have := h.tdt
  omega

/-- The descriptor at TDT is nobody's. -/
theorem Ring.store (h : Ring ring m TDH TDT accepted sent own freed overwritten) (d : TxDesc) :
    Ring (Function.update ring TDT d) m TDH TDT accepted sent own freed overwritten := by
  refine ⟨h.le, h.lag, h.tdt, h.tdh, h.order, fun n b f hn ha => ?_, h.inside, h.own, h.apart, h.gone⟩
  rw [Function.update_of_ne]
  · exact h.ready n b f hn ha
  · have := (List.getElem?_eq_some_iff.mp ha).1
    have := h.lag
    have := h.tdt
    omega

/-- More memory given up, all of it of frames that are sent. -/
theorem Ring.release (h : Ring ring m TDH TDT accepted sent own freed overwritten) (m' : Mem) (l l' : List Nat)
    (hl : ∀ n, n ∈ l ∨ n ∈ l' → n < sent.length)
    (hm : ∀ (n : Nat) b f, sent.length ≤ n → accepted[n]? = some (b, f) → Mem.Agree m m' b.lo (b.hi - b.lo)) :
    Ring ring m' TDH TDT accepted sent own (l ++ freed) (l' ++ overwritten) := by
  refine ⟨h.le, h.lag, h.tdt, h.tdh, h.order, fun n b f hn ha => ?_, h.inside, h.own,
    fun n n' b f b' f' hne h1 h2 h3 h4 => ?_, fun n hn => ?_⟩
  · have r := h.ready n b f hn ha
    exact ⟨r.addr, r.length, (bytes_agree (h.inside n b f ha) (hm n b f hn ha)).trans r.bytes⟩
  · exact h.apart n n' b f b' f' hne h1 h2 (fun e => h3 (List.mem_append_right _ e))
      (fun e => h4 (List.mem_append_right _ e))
  · simp only [List.mem_append] at hn
    rcases hn with (hn | hn) | hn | hn
    · exact hl n (Or.inl hn)
    · exact h.gone n (Or.inl hn)
    · exact hl n (Or.inr hn)
    · exact h.gone n (Or.inr hn)

/-- A frame more. -/
theorem Ring.accept (h : Ring ring m TDH TDT accepted sent own freed overwritten) {c : Call}
    (hr : (TDT + 1) % 16 ≠ TDH)
    (hc : Mine m accepted freed c) (ha : (ring TDT).addr = c.m.head) (hl : (ring TDT).length = c.m.len) :
    Ring ring m TDH ((TDT + 1) % 16) (accepted ++ [(c.m, c.frame)]) sent
      (Function.update own TDT (some accepted.length)) freed
      overwritten := by
  have hle := h.le
  have hlag := h.lag
  have htdt := h.tdt
  have htdh := h.tdh
  have hlen : (accepted ++ [(c.m, c.frame)]).length = accepted.length + 1 := by simp
  have split : ∀ {n : Nat} {b f}, (accepted ++ [(c.m, c.frame)])[n]? = some (b, f) →
      accepted[n]? = some (b, f) ∨ n = accepted.length ∧ b = c.m ∧ f = c.frame := fun {n b f} e => by
    rw [List.getElem?_append] at e
    split at e
    · exact Or.inl e
    · rename_i hn
      have : n - accepted.length = 0 := by
        have := (List.getElem?_eq_some_iff.mp e).1
        simpa using this
      rw [this] at e
      simp only [List.getElem?_cons_zero, Option.some.injEq, Prod.mk.injEq] at e
      exact Or.inr ⟨by omega, e.1.symm, e.2.symm⟩
  refine ⟨by omega, by omega, by omega, h.tdh, ?_, fun n b f hn e => ?_, fun n b f e => ?_, fun i n e => ?_,
    fun n n' b f b' f' hne h1 h2 h3 h4 => ?_, h.gone⟩
  · rw [List.map_append, List.take_append_of_le_length (by rw [List.length_map]; exact hle)]
    exact h.order
  · rcases split e with e | ⟨rfl, rfl, rfl⟩
    · exact h.ready n b f hn e
    · rw [← htdt]
      exact ⟨ha, hl, hc.frame⟩
  · rcases split e with e | ⟨-, rfl, -⟩
    · exact h.inside n b f e
    · exact hc.inside
  · by_cases hi : i = TDT
    · subst hi
      rw [Function.update_self] at e
      have := Option.some.inj e
      omega
    · rw [Function.update_of_ne hi] at e
      have := h.own i n e
      omega
  · rcases split h1 with h1 | ⟨rfl, rfl, rfl⟩ <;> rcases split h2 with h2 | ⟨rfl, rfl, rfl⟩
    · exact h.apart n n' b f b' f' hne h1 h2 h3 h4
    · exact (hc.apart n b f h1 h3).symm
    · exact hc.apart n' b' f' h2 h4
    · exact absurd rfl hne

/-- The device sends the oldest frame. -/
theorem Ring.finish (h : Ring ring m TDH TDT accepted sent own freed overwritten) (hne : TDH ≠ TDT) (d : TxDesc) :
    Ring (Function.update ring TDH d) m ((TDH + 1) % 16) TDT accepted
      (sent ++ [bytes m (ring TDH).addr (ring TDH).length]) own freed
      overwritten := by
  have hle := h.le
  have hlag := h.lag
  have htdt := h.tdt
  have htdh := h.tdh
  have hlt : sent.length < accepted.length := by
    rcases Nat.lt_or_ge sent.length accepted.length with h | h
    · exact h
    · exact absurd (by omega : TDH = TDT) hne
  have hlen : (sent ++ [bytes m (ring TDH).addr (ring TDH).length]).length = sent.length + 1 := by simp
  obtain ⟨⟨b, f⟩, hbf⟩ : ∃ x, accepted[sent.length]? = some x := ⟨accepted[sent.length], List.getElem?_eq_getElem hlt⟩
  have r := h.ready _ b f (Nat.le_refl _) hbf
  rw [← htdh] at r
  refine ⟨by omega, by omega, h.tdt, by omega, ?_, fun n b f hn e => ?_, h.inside, h.own, h.apart, fun n hn => ?_⟩
  · have hget : (accepted.map Prod.snd)[sent.length]? = some f := by rw [List.getElem?_map, hbf]; rfl
    rw [hlen, List.take_add_one, ← h.order, hget, r.addr, r.length, r.bytes]
    rfl
  · rw [hlen] at hn
    have e' := h.ready n b f (by omega) e
    by_cases hi : n % 16 = TDH
    · have := (List.getElem?_eq_some_iff.mp e).1
      omega
    · rw [Function.update_of_ne hi]; exact e'
  · rw [hlen]
    have := h.gone n hn
    omega

end

/-- A call goes on, having written nothing. -/
theorem Inv.goto (h : Inv s) {a a' : At} {c : Call} (hc : s.call = some (a, c)) (ha : a'.stage < 3)
    (ht : a.stage < 2) :
    Inv { s with call := some (a', c) } := by
  refine ⟨h.ring, fun i b hi _ => ?_, fun c' hc' => ?_, ?_, ?_, ?_, ?_⟩
  · refine h.stashed i b hi fun a' c' hc' h2 => ?_
    rw [hc] at hc'
    cases hc'
    omega
  · cases hc'
    exact absurd ha (by decide)
  all_goals
    intro a'' c'' hc''
    cases hc''
  · exact h.index a c hc
  · exact h.mine a c hc
  · intro h3; omega
  · intro h3; omega

/-- A store to the descriptor of the call. -/
theorem Inv.store (h : Inv s) {a a' : At} {c : Call} (hc : s.call = some (a, c)) (h2 : 2 ≤ a'.stage)
    (ht : a'.stage < 6) (f : TxDesc → TxDesc) {o : List Nat} (ho : ∀ n ∈ o, n < s.sent.length)
    (ha : 3 ≤ a'.stage → (f (s.tx_ring c.next_index)).addr = c.m.head)
    (hl : 4 ≤ a'.stage → (f (s.tx_ring c.next_index)).length = c.m.len) :
    Inv { s.store c f a' with overwritten := o ++ s.overwritten } := by
  have hi := h.index a c hc
  refine ⟨?_, fun i b hb hne => ?_, fun c' hc' => ?_, ?_, ?_, ?_, ?_⟩
  · have := (h.ring.store (f (s.tx_ring c.next_index))).release s.mem [] o
      (fun n hn => ho n (hn.resolve_left (by simp))) (fun _ _ _ _ _ => Mem.Agree.refl _ _ _)
    show Transmit.Ring (Function.update s.tx_ring c.next_index _) _ _ _ _ _ _ _ _
    rw [hi]
    rw [hi] at this
    exact this
  · refine h.stashed i b hb fun a1 c1 hc1 _ => ?_
    rw [hc] at hc1
    cases hc1
    exact hne a' c rfl h2
  · cases hc'
    exact absurd ht (by decide)
  all_goals
    intro a'' c'' hc''
    cases hc''
  · exact hi
  · exact h.mine a c hc
  · intro h3
    show (Function.update s.tx_ring c.next_index _ c.next_index).addr = _
    rw [Function.update_self]
    exact ha h3
  · intro h3
    show (Function.update s.tx_ring c.next_index _ c.next_index).length = _
    rw [Function.update_self]
    exact hl h3

theorem Inv.free (h : Inv s) {c : Call} {b : Mbuf} {m : Mem} (hc : s.call = some (.free, c))
    (hb : s.tx_mbufs c.next_index = some b) (hm : ∀ x, x < b.lo ∨ b.hi ≤ x → m x = s.mem x) :
    Inv { s with mem := m, call := some (.addr, c), freed := (s.own c.next_index).toList ++ s.freed } := by
  have hi := h.index _ c hc
  have hstage : ∀ i a c', s.call = some (a, c') → 2 ≤ a.stage → c'.next_index ≠ i := fun i a c' hc' h2 => by
    rw [hc] at hc'
    cases hc'
    exact absurd h2 (by decide)
  obtain ⟨n, f, hn, hf, hnf⟩ := h.stashed _ b hb (hstage _)
  have hs : n < s.sent.length := h.ring.own_sent (hi ▸ hn)
  have hmem : ∀ n', n' ∈ (s.own c.next_index).toList ++ s.freed ↔ n' = n ∨ n' ∈ s.freed := fun n' => by
    rw [hn, Option.toList_some, List.mem_append, List.mem_singleton]
  -- an mbuf that is not freed now is another one, so it has other memory
  have away : ∀ (n' : Nat) b' f', s.accepted[n']? = some (b', f') → n' ≠ n → n' ∉ s.freed →
      Mem.Agree s.mem m b'.lo (b'.hi - b'.lo) := fun n' b' f' h' hne hnf' =>
    (h.ring.apart n' n b' f' b f hne h' hf hnf' hnf).agree hm
  have hmine := h.mine _ c hc
  refine ⟨?_, fun i b' hb' hne => ?_, fun c' hc' => ?_, ?_, ?_, ?_, ?_⟩
  · refine h.ring.release m _ [] (fun n' hn' => ?_) (fun n' b' f' hle h' => away n' b' f' h' (by omega) (fun e => ?_))
    · rcases hn' with hn' | hn'
      · rw [hn, Option.toList_some, List.mem_singleton] at hn'
        omega
      · simp at hn'
    · have := h.ring.gone n' (Or.inl e)
      omega
  · obtain ⟨n', f', h1, h2, h3⟩ := h.stashed i b' hb' (hstage i)
    refine ⟨n', f', h1, h2, fun e => ?_⟩
    rcases (hmem n').mp e with rfl | e
    · have e1 := (h.ring.own _ _ hn).2
      have e2 := (h.ring.own _ _ h1).2
      exact hne _ c rfl (by decide) (e1.symm.trans e2)
    · exact h3 e
  · cases hc'
  all_goals
    intro a'' c'' hc''
    cases hc''
  · exact hi
  · refine ⟨hmine.inside, (bytes_agree hmine.inside ((hmine.apart n b f hf hnf).agree hm)).trans hmine.frame,
      fun n' b' f' h' hnf' => ?_⟩
    exact hmine.apart n' b' f' h' (fun e => hnf' ((hmem n').mpr (Or.inr e)))
  · intro h3; exact absurd h3 (by decide)
  · intro h3; exact absurd h3 (by decide)

/-- The call that returns 0. -/
theorem Inv.tail (h : Inv s) {c : Call} (hc : s.call = some (.tail, c)) (hr : (c.next_index + 1) % 16 ≠ s.TDH) :
    Inv { s with
      TDT := (c.next_index + 1) % TX_RING_SIZE, call := none, accepted := s.accepted ++ [(c.m, c.frame)],
      own := Function.update s.own c.next_index (some s.accepted.length) } := by
  have hi := h.index _ c hc
  refine ⟨?_, fun i b hb _ => ?_, ?_, ?_, ?_, ?_, ?_⟩
  · have := h.ring.accept (hi ▸ hr) (h.mine _ c hc) (hi ▸ h.addr _ c hc (by decide))
      (hi ▸ h.length _ c hc (by decide))
    show Transmit.Ring _ _ _ ((c.next_index + 1) % 16) _ _ (Function.update s.own c.next_index _) _ _
    rw [hi]
    exact this
  · by_cases e : i = c.next_index
    · subst e
      have hm := h.stash c hc
      obtain rfl : c.m = b := Option.some.inj (hm.symm.trans hb)
      refine ⟨s.accepted.length, c.frame, Function.update_self .., ?_, fun e => ?_⟩
      · show (s.accepted ++ [(c.m, c.frame)])[s.accepted.length]? = _
        simp
      · have := h.ring.gone _ (Or.inl e)
        have := h.ring.le
        omega
    · obtain ⟨n, f, h1, h2, h3⟩ := h.stashed i b hb (fun a' c' hc' _ => by rw [hc] at hc'; cases hc'; exact Ne.symm e)
      refine ⟨n, f, (Function.update_of_ne e _ _).trans h1, ?_, h3⟩
      show (s.accepted ++ [(c.m, c.frame)])[n]? = _
      rw [List.getElem?_append_left (List.getElem?_eq_some_iff.mp h2).1]
      exact h2
  all_goals
    intros
    contradiction

theorem Inv.finish (h : Inv s) (hne : s.TDH ≠ s.TDT) : Inv s.finish := by
  have keep : ∀ a c, s.call = some (a, c) → s.finish.tx_ring c.next_index = s.tx_ring c.next_index := fun a c hc =>
    Function.update_of_ne (by rw [h.index a c hc]; exact hne.symm) _ _
  refine ⟨h.ring.finish hne _, h.stashed, h.stash, h.index, h.mine, fun a c hc h3 => ?_, fun a c hc h3 => ?_⟩
  · rw [keep a c hc]; exact h.addr a c hc h3
  · rw [keep a c hc]; exact h.length a c hc h3

theorem Inv.other (h : Inv s) {m : Mem} (hk : Keeps s m) : Inv { s with mem := m } := by
  refine ⟨?_, h.stashed, h.stash, h.index, fun a c hc => ?_, h.addr, h.length⟩
  · refine h.ring.release m [] [] (by simp) fun n b f hn ha => hk.2 n b f ha fun e => ?_
    have := h.ring.gone n (Or.inl e)
    omega
  · have hm := h.mine a c hc
    exact ⟨hm.inside, (bytes_agree hm.inside (hk.1 a c hc)).trans hm.frame, hm.apart⟩

theorem Inv.step (h : Inv s) (hM : MBUF_SIZE < 2 ^ 16) (hr : Room s s') (hs : Step MBUF_SIZE s s') : Inv s' := by
  cases hs with
  | call m hidle h1 h2 h3 h4 =>
    have hlen : m.len < 2 ^ 16 := Nat.lt_of_le_of_lt h3 hM
    refine ⟨h.ring, fun i b hi _ => h.stashed i b hi (fun a c hc => by rw [hidle] at hc; cases hc),
      fun c hc => (by cases hc), ?_, ?_, ?_, ?_⟩
    all_goals
      intro a c hc
      cases hc
    · rfl
    · exact ⟨⟨h1, h2, hlen⟩, rfl, h4⟩
    · intro h3; exact absurd h3 (by decide)
    · intro h3; exact absurd h3 (by decide)
  | refuse c hc _ =>
    refine ⟨h.ring, fun i b hi _ => h.stashed i b hi (fun a c' hc' h2 => ?_), ?_, ?_, ?_, ?_, ?_⟩
    · rw [hc] at hc'
      cases hc'
      exact absurd h2 (by decide)
    all_goals
      intros
      contradiction
  | check c hc _ => exact h.goto hc (by decide) (by decide)
  | nofree c hc _ => exact h.goto hc (by decide) (by decide)
  | free c b m hc hb hm => exact h.free hc hb hm
  | addr c hc =>
    refine h.store hc (by decide) (by decide) _ (fun n hn => ?_) (fun _ => rfl) (fun h => absurd h (by decide))
    rw [h.index _ c hc, Option.mem_toList] at hn
    exact h.ring.own_sent hn
  | length c hc =>
    refine h.store hc (by decide) (by decide) (fun d => { d with length := c.m.len % 2 ^ 16 }) (o := []) (by simp)
      (fun _ => h.addr _ c hc (by decide)) (fun _ => Nat.mod_eq_of_lt ?_)
    exact (h.mine _ c hc).inside.len
  | cmd c hc =>
    exact h.store hc (by decide) (by decide) (fun d => { d with cmd := E1000_TXD_CMD_EOP ||| E1000_TXD_CMD_RS })
      (o := []) (by simp)
      (fun _ => h.addr _ c hc (by decide)) (fun _ => h.length _ c hc (by decide))
  | stash c hc =>
    refine ⟨h.ring, fun i b hb hne => ?_, fun c' hc' => ?_, ?_, ?_, ?_, ?_⟩
    · have hi : i ≠ c.next_index := fun e => hne _ c rfl (by decide) e.symm
      refine h.stashed i b ?_ (fun a1 c1 hc1 _ => by rw [hc] at hc1; cases hc1; exact hi.symm)
      rw [← hb]
      exact (Function.update_of_ne hi _ _).symm
    · cases hc'
      exact Function.update_self ..
    all_goals
      intro a'' c'' hc''
      cases hc''
    · exact h.index _ c hc
    · exact h.mine _ c hc
    · intro _; exact h.addr _ c hc (by decide)
    · intro _; exact h.length _ c hc (by decide)
  | tail c hc =>
    have hi := h.index _ c hc
    have htdt := h.ring.tdt
    have hne : (c.next_index + 1) % TX_RING_SIZE ≠ s.TDT := by
      rw [hi]
      unfold TX_RING_SIZE
      omega
    exact h.tail hc (hr hne)
  | device hne => exact h.finish hne
  | other m hk => exact h.other hk

theorem Reach.inv (hM : MBUF_SIZE < 2 ^ 16) (h : Reach MBUF_SIZE Room s) : Inv s := by
  induction h with
  | init m => exact init_inv m
  | step _ hr hs ih => exact ih.step hM hr hs

theorem Inv.good (h : Inv s) : Good s := by
  refine ⟨h.ring.order, h.ring.gone, fun e => ?_⟩
  have := h.ring.le
  have := h.ring.lag
  have := h.ring.tdt
  have := h.ring.tdh
  omega

/-- A step of the device alone. -/
def Device (s s' : St) : Prop := s.TDH ≠ s.TDT ∧ s' = s.finish

/-- Left alone, the device sends the rest. -/
theorem Inv.drain (h : Inv s) :
    ∃ s', Relation.ReflTransGen Device s s' ∧ s'.accepted = s.accepted ∧ s'.sent = s.accepted.map Prod.snd := by
  -- on the number of frames left
  induction hn : s.accepted.length - s.sent.length generalizing s with
  | zero =>
    refine ⟨s, .refl, rfl, ?_⟩
    have := h.ring.le
    rw [h.ring.order, List.take_of_length_le (by rw [List.length_map]; omega)]
  | succ n ih =>
    have hne : s.TDH ≠ s.TDT := by
      intro e
      have := h.good.all e
      omega
    have hlen : s.finish.sent.length = s.sent.length + 1 := by simp [St.finish]
    obtain ⟨s', hs', ha, hsent⟩ := ih (h.finish hne) (by show s.accepted.length - _ = n; omega)
    exact ⟨s', .head ⟨hne, rfl⟩ hs', ha, hsent⟩

/-- When no call moves TDT onto TDH: what is sent are the accepted frames in order, the
    device will send the rest, and no frame is given up before it is sent. -/
theorem frames_sent_in_order (hM : MBUF_SIZE < 2 ^ 16) (h : Reach MBUF_SIZE Room s) : Good s ∧
    ∃ s', Relation.ReflTransGen Device s s' ∧ s'.accepted = s.accepted ∧ s'.sent = s.accepted.map Prod.snd :=
  ⟨(h.inv hM).good, (h.inv hM).drain⟩

/-! ## The ring filled to the brim -/

/-- Mbufs in pages of their own. -/
def mbuf (n : Nat) : Mbuf := ⟨0x87000000 + n * 4096, 0x87000000 + n * 4096 + 4096, 0x87000000 + n * 4096, 60⟩

theorem mbuf_apart {n n' : Nat} (h : n ≠ n') : Apart (mbuf n) (mbuf n') := by
  unfold Apart mbuf
  dsimp only
  omega

/-- After `k` calls and nothing else. -/
structure Filled (k : Nat) (s : St) : Prop where
  idle : s.call = none
  tdt : s.TDT = k % 16
  tdh : s.TDH = 0
  sent : s.sent = []
  freed : s.freed = []
  status : ∀ i, (s.tx_ring i).status = E1000_TXD_STAT_DD
  empty : ∀ i, k ≤ i → s.tx_mbufs i = none
  length : s.accepted.length = k
  mbufs : ∀ (n : Nat) b f, s.accepted[n]? = some (b, f) → b = mbuf n

theorem init_filled (m : Mem) : Filled 0 (init m) := by
  refine ⟨rfl, rfl, rfl, rfl, rfl, fun _ => rfl, fun _ _ => rfl, rfl, ?_⟩
  simp [init]

theorem update_status {ring : Nat → TxDesc} (h : ∀ i, (ring i).status = E1000_TXD_STAT_DD) (j : Nat) {d : TxDesc}
    (hd : d.status = (ring j).status) (i : Nat) : (Function.update ring j d i).status = E1000_TXD_STAT_DD := by
  by_cases e : i = j
  · rw [e, Function.update_self, hd, h]
  · rw [Function.update_of_ne e, h]

/-- One more call, with the device standing still. -/
theorem Filled.call {k : Nat} (h : Filled k s) (hk : k < 16) (ok : St → St → Prop) (hr : Reach 2048 ok s)
    (hok : ∀ s s' : St, s.TDH = 0 → s'.TDT = s.TDT ∨ s'.TDT = (k + 1) % 16 → ok s s') :
    ∃ s', Reach 2048 ok s' ∧ Filled (k + 1) s' := by
  let c : Call := ⟨mbuf k, bytes s.mem (mbuf k).head (mbuf k).len, s.TDT⟩
  have hi : c.next_index = k := h.tdt.trans (Nat.mod_eq_of_lt hk)
  have go : ∀ {s1 s2 : St}, Reach 2048 ok s1 → Step 2048 s1 s2 → s1.TDH = s.TDH → s2.TDT = s1.TDT →
    Reach 2048 ok s2 := fun hr hs h1 h2 =>
    hr.step (hok _ _ (h1.trans h.tdh) (Or.inl h2)) hs
  have hdd : ∀ d : TxDesc, d.status = E1000_TXD_STAT_DD → d.status &&& E1000_TXD_STAT_DD ≠ 0 :=
    fun d hd => by rw [hd]; decide
  have r1 := go hr (.call s (mbuf k) h.idle (Nat.le_refl _) (by
    unfold mbuf; dsimp only; omega) (show 60 ≤ 2048 by decide) fun n b f hb _ => by
      rw [h.mbufs n b f hb]
      have := (List.getElem?_eq_some_iff.mp hb).1
      have := h.length
      exact mbuf_apart (by omega)) rfl rfl
  have r2 := go r1 (.check _ c rfl (hdd _ (h.status _))) rfl rfl
  have r3 := go r2 (.nofree _ c rfl (h.empty _ (by omega))) rfl rfl
  have r4 := go r3 (.addr _ c rfl) rfl rfl
  have r5 := go r4 (.length _ c rfl) rfl rfl
  have r6 := go r5 (.cmd _ c rfl) rfl rfl
  have r7 := go r6 (.stash _ c rfl) rfl rfl
  have r8 := Reach.step r7 (hok _ _ h.tdh (Or.inr (by dsimp only; rw [hi]))) (.tail _ c rfl)
  refine ⟨_, r8, rfl, ?_, h.tdh, h.sent, h.freed, ?_, fun i hki => ?_, ?_, fun n b f hb => ?_⟩
  · show (c.next_index + 1) % 16 = _
    rw [hi]
  · show ∀ i,
      (Function.update
      (Function.update (Function.update s.tx_ring c.next_index _) c.next_index _) c.next_index _ i).status = _
    refine update_status (update_status (update_status h.status c.next_index ?_) c.next_index ?_) c.next_index ?_
    all_goals rfl
  · show Function.update s.tx_mbufs c.next_index _ i = none
    rw [Function.update_of_ne (by omega)]
    exact h.empty i (by omega)
  · show (s.accepted ++ [(c.m, c.frame)]).length = k + 1
    rw [List.length_append, h.length]
    rfl
  · have hb : (s.accepted ++ [(c.m, c.frame)])[n]? = some (b, f) := hb
    rw [List.getElem?_append] at hb
    split at hb
    · exact h.mbufs n b f hb
    · have hn := (List.getElem?_eq_some_iff.mp hb).1
      have e : n = k := by
        have := h.length
        simp at hn
        omega
      rw [h.length, e, Nat.sub_self] at hb
      simp only [List.getElem?_cons_zero, Option.some.injEq, Prod.mk.injEq] at hb
      rw [e, ← hb.1]

theorem filled (k : Nat) (hk : k ≤ 16) : ∃ s, Reach 2048 (fun _ _ => True) s ∧ Filled k s := by
  induction k with
  | zero => exact ⟨_, .init fun _ => 0, init_filled _⟩
  | succ k ih =>
    obtain ⟨s, hr, hf⟩ := ih (by omega)
    exact hf.call (by omega) _ hr fun _ _ _ _ => trivial

/-- Sixteen calls in a row return 0 and leave a ring that reads as empty. -/
theorem sixteen_frames_lost : ¬ ∀ (MBUF_SIZE : Nat) (s : St), MBUF_SIZE < 2 ^ 16 →
    Reach MBUF_SIZE (fun _ _ => True) s → Good s := by
  intro h
  obtain ⟨s, hr, hf⟩ := filled 16 (Nat.le_refl _)
  have := (h 2048 s (by decide) hr).all (hf.tdh.trans hf.tdt.symm)
  rw [hf.sent, hf.length] at this
  cases this

/-- One call, with room for it. -/
theorem frames_sent_in_order_one : ∃ s, s.accepted.length = 1 ∧ Good s ∧
    ∃ s', Relation.ReflTransGen Device s s' ∧ s'.accepted = s.accepted ∧ s'.sent = s.accepted.map Prod.snd := by
  obtain ⟨s, hr, hf⟩ := (init_filled fun _ => 0).call (by decide) Room (.init _) fun s s' h0 hc hne => by
    rw [hc.resolve_left hne, h0]
    decide
  exact ⟨s, hf.length, frames_sent_in_order (by decide) hr⟩

end Xv6Labs.Net.Transmit
