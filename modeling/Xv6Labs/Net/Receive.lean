/-
  Xv6Labs.Net.Receive — e1000_recv and the device on the receive ring.

  The device fills the descriptor at RDH while RDH ≠ RDT. e1000_recv runs statement by
  statement and the device may fill descriptors between any two of them. Packet `n` goes
  through slot `n % 16`; RDT is one slot behind the packets of the present call, so the
  device never laps the loop and the loop meets a slot without DD after 15 rounds at most.

  - `packets_delivered`: in every state, what net_rx got are the first packets in order; the
    buffer the device would write to is the driver's; the call ends.
-/

import Xv6Labs.Lib.Bytes
import Mathlib.Logic.Function.Basic
import Mathlib.Logic.Relation
import Mathlib.Algebra.Order.BigOperators.Group.List

namespace Xv6Labs.Net.Receive

open Lib

/-! ## The code and the device -/

abbrev RX_RING_SIZE : Nat := 16
abbrev E1000_RXD_STAT_DD : Nat := 1

/-- What the driver uses of struct rx_desc. -/
structure RxDesc where
  addr : Nat
  length : Nat
  status : Nat

structure Mbuf where
  head : Nat
  len : Nat
  deriving DecidableEq

/-- The next statement of e1000_recv: the loop test, the round's statements, and the store
    to RDT. -/
inductive At where
  | test | len | rx | alloc | addr | clear | advance | tail
  deriving DecidableEq

/-- Driver, device registers and memory; then the packets the device accepted and those
    passed to net_rx, the mbufs net_rx was given and has not freed, and for the present call
    the packets passed before it and the statements it has run. -/
structure St where
  rx_ring : Nat → RxDesc
  rx_mbufs : Nat → Mbuf
  RDH : Nat
  RDT : Nat
  mem : Mem
  recv : Option (At × Nat)
  panicked : Bool
  arrived : List (List UInt8)
  delivered : List (List UInt8)
  stack : List Mbuf
  base : Nat
  steps : Nat

def bytes (m : Mem) (a len : Nat) : List UInt8 := (List.range len).map fun i => m (a + i)

variable (MBUF_SIZE : Nat)

/-- Two mbufs share no memory. -/
def Apart (b b' : Mbuf) : Prop := b.head + MBUF_SIZE ≤ b'.head ∨ b'.head + MBUF_SIZE ≤ b.head

/-- e1000_init, with the mbufs it got. -/
def init (m : Mem) (mbufs : Nat → Mbuf) : St where
  rx_ring i := ⟨(mbufs i).head, 0, 0⟩
  rx_mbufs := mbufs
  RDH := 0
  RDT := RX_RING_SIZE - 1
  mem := m
  recv := none
  panicked := false
  arrived := []
  delivered := []
  stack := []
  base := 0
  steps := 0

def St.dd (s : St) (i : Nat) : Prop := (s.rx_ring i).status &&& E1000_RXD_STAT_DD ≠ 0

/-- The device writes a packet to the buffer at RDH. -/
def St.arrive (s : St) (p : List UInt8) : St :=
  { s with
    mem := s.mem.put (s.rx_ring s.RDH).addr p,
    rx_ring := Function.update s.rx_ring s.RDH
      { s.rx_ring s.RDH with length := p.length % 2 ^ 16, status := (s.rx_ring s.RDH).status ||| E1000_RXD_STAT_DD },
    RDH := (s.RDH + 1) % RX_RING_SIZE,
    arrived := s.arrived ++ [p] }

/-- The call goes on to its next statement. -/
def St.goto (s : St) (a : At) (next_index : Nat) : St := { s with recv := some (a, next_index), steps := s.steps + 1 }

/-- A statement of e1000_recv. mbufalloc gives an mbuf that is neither in the ring nor with
    the network stack. -/
inductive Driver : St → St → Prop where
  | start (s : St) : s.recv = none → s.panicked = false →
      Driver s (St.goto { s with base := s.delivered.length, steps := 0 } .test ((s.RDT + 1) % RX_RING_SIZE))
  | more (s : St) (i : Nat) : s.recv = some (.test, i) → s.dd i → Driver s (s.goto .len i)
  | done (s : St) (i : Nat) : s.recv = some (.test, i) → ¬ s.dd i → Driver s (s.goto .tail i)
  | panic (s : St) (i : Nat) : s.recv = some (.len, i) → MBUF_SIZE < (s.rx_ring i).length →
      Driver s { s with recv := none, panicked := true }
  | len (s : St) (i : Nat) : s.recv = some (.len, i) → (s.rx_ring i).length ≤ MBUF_SIZE →
      Driver s (St.goto
        { s with rx_mbufs := Function.update s.rx_mbufs i { s.rx_mbufs i with len := (s.rx_ring i).length } } .rx i)
  | rx (s : St) (i : Nat) : s.recv = some (.rx, i) →
      Driver s (St.goto { s with
        delivered := s.delivered ++ [bytes s.mem (s.rx_mbufs i).head (s.rx_mbufs i).len],
        stack := s.rx_mbufs i :: s.stack } .alloc i)
  | alloc (s : St) (i : Nat) (b : Mbuf) : s.recv = some (.alloc, i) →
      (∀ j < 16, j ≠ i → Apart MBUF_SIZE b (s.rx_mbufs j)) →
      (∀ b' ∈ s.stack, Apart MBUF_SIZE b b') →
      Driver s (St.goto { s with rx_mbufs := Function.update s.rx_mbufs i b } .addr i)
  | addr (s : St) (i : Nat) : s.recv = some (.addr, i) →
      Driver s (St.goto { s with
        rx_ring := Function.update s.rx_ring i { s.rx_ring i with addr := (s.rx_mbufs i).head } } .clear i)
  | clear (s : St) (i : Nat) : s.recv = some (.clear, i) →
      Driver s (St.goto { s with rx_ring := Function.update s.rx_ring i { s.rx_ring i with status := 0 } } .advance i)
  | advance (s : St) (i : Nat) : s.recv = some (.advance, i) → Driver s (s.goto .test ((i + 1) % RX_RING_SIZE))
  /-- `(next_index-1)%RX_RING_SIZE` in 32 bits; the call returns. -/
  | tail (s : St) (i : Nat) : s.recv = some (.tail, i) →
      Driver s { s with RDT := (i + (2 ^ 32 - 1)) % 2 ^ 32 % RX_RING_SIZE, recv := none, base := s.delivered.length }

inductive Step : St → St → Prop where
  | driver {s s' : St} : Driver MBUF_SIZE s s' → Step s s'
  | device (s : St) (p : List UInt8) : s.RDH ≠ s.RDT → p.length ≤ MBUF_SIZE → Step s (s.arrive p)
  /-- The network stack frees an mbuf. -/
  | mbuffree (s : St) (b : Mbuf) : Step s { s with stack := s.stack.erase b }
  /-- The rest of the kernel writes memory that is not in the ring. -/
  | other (s : St) (m : Mem) :
      (∀ i < 16, s.recv ≠ some (.alloc, i) → Mem.Agree s.mem m (s.rx_mbufs i).head MBUF_SIZE) →
        Step s { s with mem := m }

inductive Reach : St → Prop where
  | init (m : Mem) (mbufs : Nat → Mbuf) : (∀ i < 16, ∀ j < 16, i ≠ j → Apart MBUF_SIZE (mbufs i) (mbufs j)) →
      Reach (init m mbufs)
  | step {s s' : St} : Reach s → Step MBUF_SIZE s s' → Reach s'

/-! ## The invariant -/

/-- The packet of the round is with net_rx already. -/
def At.passed : At → Nat
  | .alloc | .addr | .clear | .advance => 1
  | _ => 0

/-- Its descriptor still has DD. -/
def At.kept : At → Nat
  | .alloc | .addr | .clear => 1
  | _ => 0

/-- The statements run in this round. -/
def At.rank : At → Nat
  | .test => 1 | .len => 2 | .rx => 3 | .alloc => 4 | .addr => 5 | .clear => 6 | .advance => 7 | .tail => 2

/-- The packets whose descriptor is cleared again. -/
def cleared (recv : Option (At × Nat)) (d : Nat) : Nat :=
  match recv with
  | none => d
  | some (a, _) => d - a.kept

/-- A packet waiting in its slot. -/
structure Waiting (d : RxDesc) (b : Mbuf) (m : Mem) (p : List UInt8) : Prop where
  length : d.length = p.length
  small : p.length ≤ MBUF_SIZE
  bytes : bytes m b.head p.length = p

/-- The DD bits: exactly the slots of the packets `[k, a)`. -/
structure Flags (ring : Nat → RxDesc) (k a : Nat) : Prop where
  set : ∀ n, k ≤ n → n < a → (ring (n % 16)).status &&& E1000_RXD_STAT_DD ≠ 0
  only : ∀ i < 16, (ring i).status &&& E1000_RXD_STAT_DD ≠ 0 → ∃ n, k ≤ n ∧ n < a ∧ n % 16 = i

/-- Whose memory is whose, but for the mbuf of the round while it is with net_rx. -/
structure Owned (mbufs : Nat → Mbuf) (stack : List Mbuf) (recv : Option (At × Nat)) : Prop where
  ring : ∀ i < 16, ∀ j < 16, i ≠ j → Apart MBUF_SIZE (mbufs i) (mbufs j)
  stack : ∀ i < 16, recv ≠ some (.alloc, i) → ∀ b ∈ stack, Apart MBUF_SIZE (mbufs i) b

/-- A call under way: where it is and how far it got. -/
structure Calling (recv : Option (At × Nat)) (d a base steps : Nat) : Prop where
  index : ∀ x i, recv = some (x, i) → i = (d - x.passed) % 16 ∧ base + x.passed ≤ d
  steps : ∀ x i, recv = some (x, i) → steps = 7 * (d - base - x.passed) + x.rank
  more : ∀ x i, recv = some (x, i) → x = .len ∨ x = .rx → d < a
  idle : recv = none → base = d

structure Inv (s : St) : Prop where
  ok : s.panicked = false
  le : s.delivered.length ≤ s.arrived.length
  base : s.base ≤ s.delivered.length
  lag : s.arrived.length ≤ s.base + 15
  rdh : s.RDH = s.arrived.length % 16
  rdt : s.RDT = (s.base + 15) % 16
  order : s.delivered = s.arrived.take s.delivered.length
  packet : ∀ (n : Nat) p, s.delivered.length ≤ n → s.arrived[n]? = some p →
    Waiting MBUF_SIZE (s.rx_ring (n % 16)) (s.rx_mbufs (n % 16)) s.mem p
  flags : Flags s.rx_ring (cleared s.recv s.delivered.length) s.arrived.length
  addr : ∀ i < 16, s.recv ≠ some (.addr, i) → (s.rx_ring i).addr = (s.rx_mbufs i).head
  owned : Owned MBUF_SIZE s.rx_mbufs s.stack s.recv
  len : ∀ i, s.recv = some (.rx, i) → (s.rx_mbufs i).len = (s.rx_ring i).length
  calling : Calling s.recv s.delivered.length s.arrived.length s.base s.steps

variable {MBUF_SIZE} {s s' : St}

theorem bytes_agree {m m' : Mem} {a n k : Nat} (h : Mem.Agree m m' a k) (hn : n ≤ k) :
    bytes m' a n = bytes m a n := by
  unfold bytes
  refine List.map_congr_left fun i hi => h _ (by omega) ?_
  have := List.mem_range.mp hi
  omega

theorem bytes_put (m : Mem) (a : Nat) (p : List UInt8) : bytes (m.put a p) a p.length = p := by
  apply List.ext_getElem
  · simp [bytes]
  · intro i h1 h2
    simp [bytes, Mem.put, h2]

theorem init_inv {m : Mem} {mbufs : Nat → Mbuf}
    (h : ∀ i < 16, ∀ j < 16, i ≠ j → Apart MBUF_SIZE (mbufs i) (mbufs j)) :
    Inv MBUF_SIZE (init m mbufs) := by
  refine ⟨rfl, ?_, ?_, ?_, rfl, rfl, rfl, ?_, ⟨?_, ?_⟩, ?_, ⟨h, ?_⟩, ?_, ⟨?_, ?_, ?_, ?_⟩⟩ <;> simp [init]

theorem Waiting.agree {d : RxDesc} {b : Mbuf} {m m' : Mem} {p : List UInt8} (h : Waiting MBUF_SIZE d b m p)
    (hm : Mem.Agree m m' b.head MBUF_SIZE) : Waiting MBUF_SIZE d b m' p :=
  ⟨h.length, h.small, (bytes_agree hm h.small).trans h.bytes⟩

/-- The slots of waiting packets are not the one the round works on. -/
theorem Inv.slot_ne (h : Inv MBUF_SIZE s) {x : At} {i : Nat} (hr : s.recv = some (x, i)) (hx : x.passed = 1) {n : Nat}
    (hn : s.delivered.length ≤ n) (ha : n < s.arrived.length) : n % 16 ≠ i := by
  obtain ⟨hi, hb⟩ := h.calling.index x i hr
  have := h.lag
  omega

/-- The slot at RDH is not the one the round works on either. -/
theorem Inv.head_ne (h : Inv MBUF_SIZE s) {x : At} {i : Nat} (hr : s.recv = some (x, i))
    (hx : x.passed = 1 ∨ x = .rx) : s.RDH ≠ i := by
  obtain ⟨hi, hb⟩ := h.calling.index x i hr
  have := h.le
  have := h.lag
  have := h.rdh
  rcases hx with hx | rfl
  · omega
  · have := h.calling.more .rx i hr (Or.inr rfl)
    simp only [At.passed] at hi
    omega

theorem cleared_ge (h : Inv MBUF_SIZE s) : s.base ≤ cleared s.recv s.delivered.length := by
  unfold cleared
  split
  · exact h.base
  · rename_i x i hr
    have := (h.calling.index x i hr).2
    have : x.kept ≤ x.passed := by cases x <;> decide
    omega

theorem cleared_le (recv : Option (At × Nat)) (d : Nat) : cleared recv d ≤ d := by
  unfold cleared
  split <;> omega

theorem or_dd (n : Nat) : (n ||| E1000_RXD_STAT_DD) &&& E1000_RXD_STAT_DD ≠ 0 := by
  intro e
  have := congrArg (fun x => Nat.testBit x 0) e
  simp at this

theorem Inv.device (h : Inv MBUF_SIZE s) (hM : MBUF_SIZE < 2 ^ 16) (hne : s.RDH ≠ s.RDT) {p : List UInt8}
    (hp : p.length ≤ MBUF_SIZE) :
    Inv MBUF_SIZE (s.arrive p) := by
  have hrdh := h.rdh
  have hrdt := h.rdt
  have hle := h.le
  have hlag := h.lag
  have hroom : s.arrived.length < s.base + 15 := by omega
  have hr16 : s.RDH < 16 := by omega
  have hlen : (s.arrived ++ [p]).length = s.arrived.length + 1 := by simp
  have haddr : (s.rx_ring s.RDH).addr = (s.rx_mbufs s.RDH).head :=
    h.addr _ hr16 fun e => h.head_ne e (Or.inl rfl) rfl
  have hget : ∀ {n : Nat} {q}, (s.arrived ++ [p])[n]? = some q → n < s.arrived.length ∧ s.arrived[n]? = some q ∨
      n = s.arrived.length ∧ q = p := fun {n q} e => by
    have hn := (List.getElem?_eq_some_iff.mp e).1
    rw [List.getElem?_append] at e
    split at e
    · exact Or.inl ⟨by assumption, e⟩
    · have : n = s.arrived.length := by omega
      rw [this, Nat.sub_self] at e
      exact Or.inr ⟨this, (Option.some.inj e).symm⟩
  -- the slots with packets are not the one at RDH
  have hslot : ∀ n, s.base ≤ n → n < s.arrived.length → n % 16 ≠ s.RDH := fun n h1 h2 => by omega
  have hbase := h.base
  have hcl := cleared_ge h
  unfold St.arrive
  refine ⟨h.ok, ?_, h.base, ?_, ?_, h.rdt, ?_, fun n q hn hq => ?_, ⟨fun n h1 h2 => ?_, fun i hi hdd => ?_⟩,
    fun i hi hx => ?_, h.owned,
    fun i hi => ?_, ⟨h.calling.index, h.calling.steps, fun x i hx h1 => ?_, h.calling.idle⟩⟩ <;> dsimp only at *
  · rw [hlen]; omega
  · rw [hlen]; omega
  · rw [hlen]
    show (s.RDH + 1) % 16 = _
    omega
  · rw [List.take_append_of_le_length hle]
    exact h.order
  · rcases hget hq with ⟨hlt, hq⟩ | ⟨rfl, rfl⟩
    · have hs := hslot n (by omega) hlt
      rw [Function.update_of_ne hs]
      refine (h.packet n q hn hq).agree ?_
      rw [haddr]
      refine Mem.agree_put s.mem p ?_
      have := h.owned.ring _ (Nat.mod_lt n (by decide)) _ hr16 hs
      unfold Apart at this
      omega
    · rw [← hrdh, Function.update_self]
      refine ⟨Nat.mod_eq_of_lt (Nat.lt_of_le_of_lt hp hM), hp, ?_⟩
      rw [haddr]
      exact bytes_put _ _ _
  · rw [hlen] at h2
    by_cases e : n % 16 = s.RDH
    · rw [e, Function.update_self]
      exact or_dd _
    · rw [Function.update_of_ne e]
      refine h.flags.set n h1 ?_
      have : n ≠ s.arrived.length := by rintro rfl; exact e hrdh.symm
      omega
  · rw [hlen]
    by_cases e : i = s.RDH
    · exact ⟨s.arrived.length, Nat.le_trans (cleared_le s.recv _) hle, by omega, by rw [e, hrdh]⟩
    · rw [Function.update_of_ne e] at hdd
      obtain ⟨n, h1, h2, h3⟩ := h.flags.only i hi hdd
      exact ⟨n, h1, by omega, h3⟩
  · by_cases e : i = s.RDH
    · rw [e, Function.update_self]; exact haddr
    · rw [Function.update_of_ne e]; exact h.addr i hi hx
  · rw [Function.update_of_ne (h.head_ne hi (Or.inr rfl)).symm]
    exact h.len i hi
  · have := h.calling.more x i hx h1
    rw [hlen]; omega

/-- A statement that writes nothing the device looks at. -/
theorem Inv.goto (h : Inv MBUF_SIZE s) {x x' : At} {i i' : Nat} (hr : s.recv = some (x, i))
    (hk : x'.kept = x.kept) (ha : x ≠ .addr ∧ x ≠ .alloc) (hx : x' ≠ .rx)
    (hi : i' = (s.delivered.length - x'.passed) % 16 ∧ s.base + x'.passed ≤ s.delivered.length)
    (hs : s.steps + 1 = 7 * (s.delivered.length - s.base - x'.passed) + x'.rank)
    (hm : x' = .len → s.delivered.length < s.arrived.length) : Inv MBUF_SIZE (s.goto x' i') := by
  have hc : cleared (s.goto x' i').recv s.delivered.length = cleared s.recv s.delivered.length := by
    unfold St.goto
    rw [hr]
    simp only [cleared, hk]
  refine ⟨h.ok, h.le, h.base, h.lag, h.rdh, h.rdt, h.order, h.packet, ?_, fun j hj _ => ?_,
    ⟨h.owned.ring, fun j hj _ => ?_⟩, fun j hj => ?_,
    ⟨?_, ?_, ?_, fun e => ?_⟩⟩
  · show Flags s.rx_ring (cleared (s.goto x' i').recv s.delivered.length) _
    rw [hc]; exact h.flags
  · exact h.addr j hj (fun e => by rw [hr] at e; cases e; exact ha.1 rfl)
  · exact h.owned.stack j hj (fun e => by rw [hr] at e; cases e; exact ha.2 rfl)
  · cases hj
    exact absurd rfl hx
  · intro y j e
    cases e
    exact hi
  · intro y j e
    cases e
    exact hs
  · intro y j e hy
    cases e
    exact hm (hy.resolve_right hx)
  · cases e

/-- The round's mbuf gets its length. -/
theorem Inv.setLen (h : Inv MBUF_SIZE s) {i : Nat} (hr : s.recv = some (.len, i)) :
    Inv MBUF_SIZE (St.goto { s with
      rx_mbufs := Function.update s.rx_mbufs i { s.rx_mbufs i with len := (s.rx_ring i).length } } .rx i) := by
  have hi := h.calling.index _ i hr
  have hs := h.calling.steps _ i hr
  have head : ∀ j, (Function.update s.rx_mbufs i { s.rx_mbufs i with len := (s.rx_ring i).length } j).head =
    (s.rx_mbufs j).head := fun j => by
    by_cases e : j = i
    · rw [e, Function.update_self]
    · rw [Function.update_of_ne e]
  have hfl := h.flags
  rw [hr] at hfl
  unfold St.goto
  refine ⟨h.ok, h.le, h.base, h.lag, h.rdh, h.rdt, h.order, fun n p hn hp => ?_, hfl, fun j hj _ => ?_,
    ⟨fun j hj l hl hne => ?_, fun j hj _ b hb => ?_⟩,
    fun j hj => ?_, ⟨?_, ?_, ?_, fun e => ?_⟩⟩ <;> dsimp only at *
  · have hw := h.packet n p hn hp
    exact ⟨hw.length, hw.small, by rw [head]; exact hw.bytes⟩
  · rw [head]
    exact h.addr j hj (fun e => by rw [hr] at e; cases e)
  · have := h.owned.ring j hj l hl hne
    unfold Apart at *
    rw [head, head]
    exact this
  · have := h.owned.stack j hj (fun e => by rw [hr] at e; cases e) b hb
    unfold Apart at *
    rw [head]
    exact this
  · cases hj
    rw [Function.update_self]
  · intro y j e
    cases e
    exact hi
  · intro y j e
    cases e
    simp only [At.passed, At.rank] at hs ⊢
    omega
  · intro y j e _
    cases e
    exact h.calling.more _ i hr (Or.inl rfl)
  · cases e

/-- The packet of the round goes to net_rx. -/
theorem Inv.pass (h : Inv MBUF_SIZE s) {i : Nat} (hr : s.recv = some (.rx, i)) :
    Inv MBUF_SIZE (St.goto { s with
      delivered := s.delivered ++ [bytes s.mem (s.rx_mbufs i).head (s.rx_mbufs i).len], stack :=
        s.rx_mbufs i :: s.stack } .alloc i) := by
  obtain ⟨hi, hb⟩ := h.calling.index _ i hr
  simp only [At.passed, Nat.sub_zero, Nat.add_zero] at hi hb
  have hs := h.calling.steps _ i hr
  have hlt := h.calling.more _ i hr (Or.inr rfl)
  have hlen : (s.delivered ++ [bytes s.mem (s.rx_mbufs i).head (s.rx_mbufs i).len]).length =
    s.delivered.length + 1 := by simp
  obtain ⟨p, hp⟩ : ∃ p, s.arrived[s.delivered.length]? = some p := ⟨_, List.getElem?_eq_getElem hlt⟩
  have hw := h.packet _ p (Nat.le_refl _) hp
  rw [← hi] at hw
  have hbytes : bytes s.mem (s.rx_mbufs i).head (s.rx_mbufs i).len = p := by
    rw [h.len i hr, hw.length]
    exact hw.bytes
  have hfl := h.flags
  rw [hr] at hfl
  have i16 : i < 16 := by omega
  unfold St.goto
  refine ⟨h.ok, ?_, ?_, h.lag, h.rdh, h.rdt, ?_, fun n q hn hq => ?_, ?_, fun j hj _ => ?_,
    ⟨h.owned.ring, fun j hj hx b hb => ?_⟩, fun j hj => ?_,
    ⟨?_, ?_, ?_, fun e => ?_⟩⟩ <;> dsimp only at *
  · omega
  · omega
  · rw [hlen, List.take_add_one, ← h.order, hp, hbytes]
    rfl
  · exact h.packet n q (by omega) hq
  · rw [hlen]
    exact hfl
  · exact h.addr j hj (fun e => by rw [hr] at e; cases e)
  · have hne : j ≠ i := by rintro rfl; exact hx rfl
    rcases List.mem_cons.mp hb with rfl | hb
    · exact h.owned.ring j hj i i16 hne
    · exact h.owned.stack j hj (fun e => by rw [hr] at e; cases e) b hb
  · cases hj
  · intro y j e
    cases e
    simp only [At.passed]
    omega
  · intro y j e
    cases e
    simp only [At.passed, At.rank] at hs ⊢
    omega
  · intro y j e hy
    cases e
    simp at hy
  · cases e

/-- A fresh mbuf for the slot. -/
theorem Inv.refill (h : Inv MBUF_SIZE s) {i : Nat} {b : Mbuf} (hr : s.recv = some (.alloc, i))
    (hring : ∀ j < 16, j ≠ i → Apart MBUF_SIZE b (s.rx_mbufs j)) (hstack : ∀ b' ∈ s.stack, Apart MBUF_SIZE b b') :
    Inv MBUF_SIZE (St.goto { s with rx_mbufs := Function.update s.rx_mbufs i b } .addr i) := by
  have hi := h.calling.index _ i hr
  have hs := h.calling.steps _ i hr
  have hfl := h.flags
  rw [hr] at hfl
  unfold St.goto
  refine ⟨h.ok, h.le, h.base, h.lag, h.rdh, h.rdt, h.order, fun n p hn hp => ?_, hfl, fun j hj hx => ?_,
    ⟨fun j hj l hl hne => ?_, fun j hj _ b' hb' => ?_⟩,
    fun j hj => ?_, ⟨?_, ?_, ?_, fun e => ?_⟩⟩ <;> dsimp only at *
  · rw [Function.update_of_ne (h.slot_ne hr rfl hn (List.getElem?_eq_some_iff.mp hp).1)]
    exact h.packet n p hn hp
  · have hne : j ≠ i := by rintro rfl; exact hx rfl
    rw [Function.update_of_ne hne]
    exact h.addr j hj (fun e => by rw [hr] at e; cases e)
  · by_cases e : j = i
    · subst e
      rw [Function.update_self, Function.update_of_ne hne.symm]
      exact hring l hl hne.symm
    · rw [Function.update_of_ne e]
      by_cases e' : l = i
      · subst e'
        rw [Function.update_self]
        exact (hring j hj e).symm
      · rw [Function.update_of_ne e']
        exact h.owned.ring j hj l hl hne
  · by_cases e : j = i
    · rw [e, Function.update_self]
      exact hstack b' hb'
    · rw [Function.update_of_ne e]
      exact h.owned.stack j hj (fun e' => by rw [hr] at e'; cases e'; exact e rfl) b' hb'
  · cases hj
  · intro y j e
    cases e
    exact hi
  · intro y j e
    cases e
    simp only [At.passed, At.rank] at hs ⊢
    omega
  · intro y j e hy
    cases e
    simp at hy
  · cases e

/-- A store to the descriptor of the round, after net_rx. -/
theorem Inv.setDesc (h : Inv MBUF_SIZE s) {x x' : At} {i : Nat} {d : RxDesc} (hr : s.recv = some (x, i))
    (hx : x.passed = 1) (hx' : x'.passed = 1)
    (hal : x ≠ .alloc) (ha : d.addr = (s.rx_mbufs i).head) (hrank : x'.rank = x.rank + 1)
    (hf : Flags (Function.update s.rx_ring i d) (s.delivered.length - x'.kept) s.arrived.length) :
    Inv MBUF_SIZE (St.goto { s with rx_ring := Function.update s.rx_ring i d } x' i) := by
  have hi := h.calling.index _ i hr
  have hs := h.calling.steps _ i hr
  unfold St.goto
  refine ⟨h.ok, h.le, h.base, h.lag, h.rdh, h.rdt, h.order, fun n p hn hp => ?_, hf, fun j hj _ => ?_,
    ⟨h.owned.ring, fun j hj _ => ?_⟩,
    fun j hj => ?_, ⟨?_, ?_, ?_, fun e => ?_⟩⟩ <;> dsimp only at *
  · rw [Function.update_of_ne (h.slot_ne hr hx hn (List.getElem?_eq_some_iff.mp hp).1)]
    exact h.packet n p hn hp
  · by_cases e : j = i
    · rw [e, Function.update_self]; exact ha
    · rw [Function.update_of_ne e]
      exact h.addr j hj (fun e' => by rw [hr] at e'; cases e'; exact e rfl)
  · exact h.owned.stack j hj (fun e => by rw [hr] at e; cases e; exact hal rfl)
  · cases hj
    cases hx'
  · intro y j e
    cases e
    rw [hx']
    rw [hx] at hi
    exact hi
  · intro y j e
    cases e
    rw [hx', hrank]
    rw [hx] at hs
    omega
  · intro y j e hy
    cases e
    rcases hy with rfl | rfl <;> cases hx'
  · cases e

theorem Inv.driver (h : Inv MBUF_SIZE s) (hd : Driver MBUF_SIZE s s') : Inv MBUF_SIZE s' := by
  cases hd with
  | start hr _ =>
    have hb := h.calling.idle hr
    have hrdt := h.rdt
    have hfl := h.flags
    rw [hr] at hfl
    unfold St.goto
    refine ⟨h.ok, h.le, Nat.le_refl _, hb ▸ h.lag, h.rdh, hb ▸ h.rdt, h.order, h.packet, hfl, fun j hj _ => ?_,
      ⟨h.owned.ring, fun j hj _ => ?_⟩,
      fun j hj => ?_, ⟨?_, ?_, ?_, fun e => ?_⟩⟩ <;> dsimp only at *
    · exact h.addr j hj (fun e => by rw [hr] at e; cases e)
    · exact h.owned.stack j hj (fun e => by rw [hr] at e; cases e)
    · cases hj
    · intro y j e
      cases e
      simp only [At.passed, Nat.sub_zero, Nat.add_zero, Nat.le_refl, and_true]
      show (s.RDT + 1) % 16 = _
      omega
    · intro y j e
      cases e
      simp only [At.passed, At.rank]
      omega
    · intro y j e hy
      cases e
      simp at hy
  | more i hr hdd =>
    have hi := h.calling.index _ i hr
    have hs := h.calling.steps _ i hr
    have i16 : i < 16 := by omega
    refine h.goto hr rfl (by decide) (by decide) hi ?_ fun _ => ?_
    · simp only [At.passed, At.rank] at hs ⊢
      omega
    · obtain ⟨n, h1, h2, -⟩ := h.flags.only i i16 hdd
      rw [hr] at h1
      have h1 : s.delivered.length ≤ n := h1
      omega
  | done i hr hdd =>
    have hi := h.calling.index _ i hr
    have hs := h.calling.steps _ i hr
    refine h.goto hr rfl (by decide) (by decide) hi ?_ (fun e => by cases e)
    simp only [At.passed, At.rank] at hs ⊢
    omega
  | panic i hr hlen =>
    -- the packet of the slot is not that long
    obtain ⟨hi, -⟩ := h.calling.index _ i hr
    simp only [At.passed, Nat.sub_zero] at hi
    have hlt := h.calling.more _ i hr (Or.inl rfl)
    have hw := h.packet _ _ (Nat.le_refl _) (List.getElem?_eq_getElem hlt)
    rw [← hi] at hw
    have := hw.length
    have := hw.small
    omega
  | len i hr _ => exact h.setLen hr
  | rx i hr => exact h.pass hr
  | alloc i b hr h1 h2 => exact h.refill hr h1 h2
  | addr i hr =>
    refine h.setDesc hr rfl rfl (by decide) rfl rfl ?_
    have hfl := h.flags
    rw [hr] at hfl
    have st : ∀ j, (Function.update s.rx_ring i { s.rx_ring i with addr := (s.rx_mbufs i).head } j).status =
      (s.rx_ring j).status := fun j => by
      by_cases e : j = i
      · rw [e, Function.update_self]
      · rw [Function.update_of_ne e]
    refine ⟨fun n h1 h2 => ?_, fun j hj hdd => hfl.only j hj ?_⟩
    · rw [st]; exact hfl.set n h1 h2
    · rw [st] at hdd; exact hdd
  | clear i hr =>
    obtain ⟨hi, hb⟩ := h.calling.index _ i hr
    simp only [At.passed] at hi hb
    have hlag := h.lag
    have i16 : i < 16 := by omega
    refine h.setDesc hr rfl rfl (by decide) (h.addr i i16 fun e => by rw [hr] at e; cases e) rfl ?_
    have hfl := h.flags
    rw [hr] at hfl
    refine ⟨fun n h1 h2 => ?_, fun j hj hdd => ?_⟩
    · simp only [At.kept, Nat.sub_zero] at h1
      rw [Function.update_of_ne (h.slot_ne hr rfl h1 h2)]
      exact hfl.set n (by show s.delivered.length - 1 ≤ n; omega) h2
    · by_cases e : j = i
      · rw [e, Function.update_self] at hdd
        exact absurd (Nat.zero_and _) hdd
      · rw [Function.update_of_ne e] at hdd
        obtain ⟨n, h1, h2, h3⟩ := hfl.only j hj hdd
        have h1 : s.delivered.length - 1 ≤ n := h1
        have hne : n ≠ s.delivered.length - 1 := by rintro rfl; exact e (h3.symm.trans hi.symm)
        exact ⟨n, by show s.delivered.length - 0 ≤ n; omega, h2, h3⟩
  | advance i hr =>
    obtain ⟨hi, hb⟩ := h.calling.index _ i hr
    have hs := h.calling.steps _ i hr
    simp only [At.passed, At.rank] at hi hb hs
    refine h.goto hr rfl (by decide) (by decide) ?_ ?_ (fun e => by cases e)
    · show (i + 1) % 16 = _ ∧ _
      simp only [At.passed]
      omega
    · simp only [At.passed, At.rank]
      omega
  | tail i hr =>
    obtain ⟨hi, hb⟩ := h.calling.index _ i hr
    simp only [At.passed, Nat.sub_zero] at hi hb
    have hfl := h.flags
    rw [hr] at hfl
    have hlag := h.lag
    refine ⟨h.ok, h.le, Nat.le_refl _, ?_, h.rdh, ?_, h.order, h.packet, hfl, fun j hj _ => ?_,
      ⟨h.owned.ring, fun j hj _ => ?_⟩,
      fun j hj => ?_, ⟨?_, ?_, ?_, fun _ => rfl⟩⟩ <;> dsimp only at *
    · omega
    · show (i + (2 ^ 32 - 1)) % 2 ^ 32 % 16 = _
      omega
    · exact h.addr j hj (fun e => by rw [hr] at e; cases e)
    · exact h.owned.stack j hj (fun e => by rw [hr] at e; cases e)
    · cases hj
    all_goals
      intros
      contradiction

theorem Inv.step (h : Inv MBUF_SIZE s) (hM : MBUF_SIZE < 2 ^ 16) (hs : Step MBUF_SIZE s s') : Inv MBUF_SIZE s' := by
  cases hs with
  | driver hd => exact h.driver hd
  | device p hne hp => exact h.device hM hne hp
  | mbuffree b =>
    exact ⟨h.ok, h.le, h.base, h.lag, h.rdh, h.rdt, h.order, h.packet, h.flags, h.addr,
      ⟨h.owned.ring, fun i hi hx b' hb' => h.owned.stack i hi hx b' (List.mem_of_mem_erase hb')⟩, h.len, h.calling⟩
  | other m hm =>
    refine ⟨h.ok, h.le, h.base, h.lag, h.rdh, h.rdt, h.order, fun n p hn hp => ?_, h.flags, h.addr, h.owned, h.len,
      h.calling⟩
    refine (h.packet n p hn hp).agree (hm _ (Nat.mod_lt _ (by decide)) fun e => ?_)
    exact h.slot_ne e rfl hn (List.getElem?_eq_some_iff.mp hp).1 rfl

theorem Reach.inv (hM : MBUF_SIZE < 2 ^ 16) (h : Reach MBUF_SIZE s) : Inv MBUF_SIZE s := by
  induction h with
  | init m mbufs hb => exact init_inv hb
  | step _ hs ih => exact ih.step hM hs

/-! ## A call alone -/

/-- What is left to do for a call when the device stands still. -/
def At.left : At → Nat
  | .tail => 0 | .rx => 1 | .len => 2 | .test => 3 | .advance => 4 | .clear => 5 | .addr => 6 | .alloc => 7

/-- There is memory for one more mbuf. -/
theorem exists_apart (MBUF_SIZE : Nat) (l : List Mbuf) : ∃ b : Mbuf, ∀ b' ∈ l, Apart MBUF_SIZE b b' := by
  induction l with
  | nil => exact ⟨⟨0, 0⟩, by simp⟩
  | cons a l ih =>
    refine ⟨⟨((a :: l).map Mbuf.head).sum + MBUF_SIZE, 0⟩, fun b' hb' => Or.inr ?_⟩
    have := List.single_le_sum (by simp) b'.head (List.mem_map_of_mem hb')
    show b'.head + MBUF_SIZE ≤ _ + MBUF_SIZE
    omega

/-- A call that has not reached the store to RDT passes on everything that has arrived. -/
theorem Inv.alone (h : Inv MBUF_SIZE s) {x : At} {i : Nat} (hr : s.recv = some (x, i))
    (ht : x = .tail → s.delivered.length = s.arrived.length) :
    ∃ s', Relation.ReflTransGen (Driver MBUF_SIZE) s s' ∧ s'.recv = none ∧ s'.arrived = s.arrived ∧
      s'.delivered = s.arrived := by
  -- on the statements left
  induction hn : 8 * (s.arrived.length - s.delivered.length) + x.left using Nat.strong_induction_on generalizing s x i with
  | _ n ih =>
    have go : ∀ {s' : St} {x' : At} {i' : Nat}, Driver MBUF_SIZE s s' → s'.recv = some (x', i') → s'.arrived = s.arrived →
        (x' = .tail → s'.delivered.length = s'.arrived.length) →
        8 * (s'.arrived.length - s'.delivered.length) + x'.left < n →
        ∃ s', Relation.ReflTransGen (Driver MBUF_SIZE) s s' ∧ s'.recv = none ∧ s'.arrived = s.arrived ∧
          s'.delivered = s.arrived := by
      intro s1 x' i' hd hr' ha ht' hlt
      obtain ⟨s', r, h1, h2, h3⟩ := ih _ hlt (h.driver hd) hr' ht' rfl
      exact ⟨s', .head hd r, h1, h2.trans ha, h3.trans ha⟩
    cases x with
    | test =>
      by_cases hdd : s.dd i
      · exact go (.more s i hr hdd) rfl rfl (fun e => by cases e)
          (by subst hn; exact Nat.add_lt_add_left (by decide) _)
      · -- no packet is waiting
        refine go (.done s i hr hdd) rfl rfl (fun _ => ?_) (by subst hn; exact Nat.add_lt_add_left (by decide) _)
        have hle := h.le
        rcases Nat.lt_or_ge s.delivered.length s.arrived.length with hlt | hge
        · obtain ⟨hi, -⟩ := h.calling.index _ i hr
          have hset := h.flags.set s.delivered.length (by rw [hr]; exact Nat.le_refl _) hlt
          simp only [At.passed, Nat.sub_zero] at hi
          rw [← hi] at hset
          exact absurd hset hdd
        · exact Nat.le_antisymm hle hge
    | len =>
      have hle : (s.rx_ring i).length ≤ MBUF_SIZE := by
        rcases Nat.lt_or_ge MBUF_SIZE (s.rx_ring i).length with hlt | hge
        · have := (h.driver (.panic s i hr hlt)).ok
          cases this
        · exact hge
      exact go (.len s i hr hle) rfl rfl (fun e => by cases e) (by subst hn; exact Nat.add_lt_add_left (by decide) _)
    | rx =>
      have hlt := h.calling.more _ i hr (Or.inr rfl)
      refine go (.rx s i hr) rfl rfl (fun e => by cases e) ?_
      show 8 * (s.arrived.length - (s.delivered ++ [_]).length) + 7 < n
      rw [List.length_append, List.length_singleton]
      have : At.rx.left = 1 := rfl
      omega
    | alloc =>
      obtain ⟨b, hb⟩ := exists_apart MBUF_SIZE ((List.range 16).map s.rx_mbufs ++ s.stack)
      refine go (.alloc s i b hr (fun j hj _ => hb _ ?_) fun b' hb' => hb _ ?_) rfl rfl (fun e => by cases e) (by
        subst hn; exact Nat.add_lt_add_left (by decide) _)
      · exact List.mem_append_left _ (List.mem_map_of_mem (List.mem_range.mpr hj))
      · exact List.mem_append_right _ hb'
    | addr => exact go (.addr s i hr) rfl rfl (fun e => by cases e) (by subst hn; exact Nat.add_lt_add_left (by decide) _)
    | clear => exact go (.clear s i hr) rfl rfl (fun e => by cases e) (by subst hn; exact Nat.add_lt_add_left (by decide) _)
    | advance => exact go (.advance s i hr) rfl rfl (fun e => by cases e) (by subst hn; exact Nat.add_lt_add_left (by decide) _)
    | tail =>
      refine ⟨_, .single (.tail s i hr), rfl, rfl, ?_⟩
      show s.delivered = s.arrived
      rw [h.order, ht rfl, List.take_length]

/-- The call under way, and one more if need be, pass on everything that has arrived. -/
theorem Inv.catchUp (h : Inv MBUF_SIZE s) :
    ∃ s', Relation.ReflTransGen (Driver MBUF_SIZE) s s' ∧ s'.recv = none ∧ s'.arrived = s.arrived ∧
      s'.delivered = s.arrived := by
  have idle : ∀ s : St, Inv MBUF_SIZE s → s.recv = none →
      ∃ s', Relation.ReflTransGen (Driver MBUF_SIZE) s s' ∧ s'.recv = none ∧ s'.arrived = s.arrived ∧
        s'.delivered = s.arrived := by
    intro s h hr
    have hd : Driver MBUF_SIZE s _ := .start s hr h.ok
    obtain ⟨s', r, h1⟩ := (h.driver hd).alone rfl (fun e => by cases e)
    exact ⟨s', .head hd r, h1⟩
  cases hr : s.recv with
  | none => exact idle s h hr
  | some c =>
    obtain ⟨x, i⟩ := c
    by_cases ht : x = .tail
    · subst ht
      have hd : Driver MBUF_SIZE s _ := .tail s i hr
      obtain ⟨s', r, h1⟩ := idle _ (h.driver hd) rfl
      exact ⟨s', .head hd r, h1⟩
    · exact h.alone hr (fun e => absurd e ht)

/-! ## The result -/

/-- What is wanted of every state. -/
structure Good (MBUF_SIZE : Nat) (s : St) : Prop where
  /-- net_rx got the first packets, each once, in order, with its length and bytes. -/
  order : s.delivered = s.arrived.take s.delivered.length
  rdt : s.RDT < RX_RING_SIZE
  ok : s.panicked = false
  /-- A call is over after 15 rounds. -/
  ends : s.recv ≠ none → s.steps ≤ 7 * 15 + 7
  /-- The buffer the device writes to next is with nobody else. -/
  safe : s.RDH ≠ s.RDT → ∀ b ∈ s.stack, Apart MBUF_SIZE ⟨(s.rx_ring s.RDH).addr, 0⟩ b

theorem Inv.good (h : Inv MBUF_SIZE s) : Good MBUF_SIZE s := by
  refine ⟨h.order, ?_, h.ok, fun hr => ?_, fun _ b hb => ?_⟩
  · rw [h.rdt]
    exact Nat.mod_lt _ (by decide)
  · cases hc : s.recv with
    | none => exact absurd hc hr
    | some c =>
      obtain ⟨x, i⟩ := c
      have hs := h.calling.steps x i hc
      have hrank : x.rank ≤ 7 := by cases x <;> decide
      have := h.le
      have := h.lag
      omega
  · have h16 : s.RDH < 16 := by rw [h.rdh]; exact Nat.mod_lt _ (by decide)
    have ha := h.addr _ h16 fun e => h.head_ne e (Or.inl rfl) rfl
    have := h.owned.stack _ h16 (fun e => h.head_ne e (Or.inl rfl) rfl) b hb
    unfold Apart at *
    rw [ha]
    exact this

/-- In every run every packet is passed to net_rx at most once, in order and as it came; a
    call runs 112 statements at most, and calls get everything that has arrived; RDT is a
    slot; the device writes no buffer that net_rx has. -/
theorem packets_delivered (hM : MBUF_SIZE < 2 ^ 16) (h : Reach MBUF_SIZE s) : Good MBUF_SIZE s ∧
    ∃ s', Relation.ReflTransGen (Driver MBUF_SIZE) s s' ∧ s'.recv = none ∧ s'.arrived = s.arrived ∧
      s'.delivered = s.arrived :=
  ⟨(h.inv hM).good, (h.inv hM).catchUp⟩

/-- After one packet. -/
theorem packets_delivered_one : ∃ s, s.arrived = [[1, 2, 3]] ∧ Good 2048 s ∧
    ∃ s', Relation.ReflTransGen (Driver 2048) s s' ∧ s'.recv = none ∧ s'.arrived = s.arrived ∧
      s'.delivered = s.arrived := by
  have h0 : Reach 2048 (init (fun _ => 0) fun i => ⟨i * 4096, 0⟩) := .init _ _ fun i _ j _ hne => by
    unfold Apart
    dsimp only
    omega
  have h1 := Reach.step h0 (.device _ [1, 2, 3] (by decide) (by decide))
  exact ⟨_, rfl, packets_delivered (by decide) h1⟩

end Xv6Labs.Net.Receive
