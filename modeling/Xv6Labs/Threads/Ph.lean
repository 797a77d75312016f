/-
  Xv6Labs.Threads.Ph — `ph.c`: the hash table that put_thread's fill side by side.

  Entries live at addresses, 0 is the null pointer, and malloc gives 1, 2, and so on. The
  loop of put and get follows `next` for as many rounds as there are entries and one more;
  `none` is the loop going on past that, or an index outside the table (C's remainder is
  negative for a negative key). `log` is the puts done so far, the last one first: nothing
  reads it.

  - `put_spec`: put keeps the buckets in order and puts the key.
  - `no_key_lost`: after any interleaving of the threads every key is there with the number
    of the thread that put it last, and no other.
-/

import Mathlib.Data.List.Nodup
import Mathlib.Data.List.Perm.Subperm
import Mathlib.Logic.Function.Basic

namespace Xv6Labs.Ph

abbrev NBUCKET : Nat := 5

structure Entry where
  key : Int
  value : Int
  next : Nat

structure Table where
  table : Nat → Nat
  entry : Nat → Entry
  brk : Nat

/-- `key % NBUCKET`, where it is an index of the table. -/
def bucket (key : Int) : Option Nat := if key.tmod NBUCKET < 0 then none else some (key.tmod NBUCKET).toNat

/-- `for (e = table[i]; e != 0; e = e->next) if (e->key == key) break;` -/
def find (entry : Nat → Entry) (key : Int) : Nat → Nat → Option Nat
  | 0, _ => none
  | n + 1, e => if e = 0 then some 0 else if (entry e).key = key then some e else find entry key n (entry e).next

def insert (key value : Int) (i n : Nat) (t : Table) : Table :=
  { table := Function.update t.table i (t.brk + 1)
    entry := Function.update t.entry (t.brk + 1) ⟨key, value, n⟩
    brk := t.brk + 1 }

def get (key : Int) (t : Table) : Option Nat :=
  match bucket key with
  | none => none
  | some i => find t.entry key (t.brk + 1) (t.table i)

def put (key value : Int) (t : Table) : Option Table :=
  match bucket key with
  | none => none
  | some i =>
    match find t.entry key (t.brk + 1) (t.table i) with
    | none => none
    | some e =>
      if e ≠ 0 then some { t with entry := Function.update t.entry e { t.entry e with value := value } }
      else some (insert key value i (t.table i) t)

/-! ## put_thread -/

structure St where
  t : Table
  /-- the loop variable of each thread -/
  i : Nat → Nat
  log : List (Int × Int)

def St.init : St := ⟨⟨fun _ => 0, fun _ => ⟨0, 0, 0⟩, 0⟩, fun _ => 0, []⟩

/-- `put(keys[b*n + i], n)` -/
inductive Step (keys : List Int) (nthread n : Nat) : St → St → Prop where
  | put (s : St) (key : Int) (t : Table) : s.i n < keys.length / nthread →
      keys[keys.length / nthread * n + s.i n]? = some key →
      put key n s.t = some t → Step keys nthread n s ⟨t, Function.update s.i n (s.i n + 1), (key, (n : Int)) :: s.log⟩

inductive Reach (keys : List Int) (nthread : Nat) : St → Prop where
  | init : Reach keys nthread .init
  | step {s s' : St} (n : Nat) : Reach keys nthread s → n < nthread → Step keys nthread n s s' → Reach keys nthread s'

/-- The value of the last put of a key. -/
def lastPut (log : List (Int × Int)) (k : Int) : Option Int := (log.find? fun p => p.1 == k).map Prod.snd

/-! ## Buckets -/

/-- From the pointer `e` the entries are `l`, and the list ends there. -/
def Links (entry : Nat → Entry) : Nat → List Nat → Prop
  | e, [] => e = 0
  | e, a :: l => e = a ∧ e ≠ 0 ∧ Links entry (entry a).next l

/-- Bucket `i` is the list `l`: it is finite, has each key once, only keys that belong there,
    all of those that have been put, and what was put last under them. -/
structure Holds (t : Table) (log : List (Int × Int)) (i : Nat) (l : List Nat) : Prop where
  links : Links t.entry (t.table i) l
  alloc : ∀ e ∈ l, e ≤ t.brk
  once : (l.map fun e => (t.entry e).key).Nodup
  home : ∀ e ∈ l, bucket (t.entry e).key = some i
  value : ∀ e ∈ l, lastPut log (t.entry e).key = some (t.entry e).value
  all : ∀ k, lastPut log k ≠ none → bucket k = some i → ∃ e ∈ l, (t.entry e).key = k

def Inv (t : Table) (log : List (Int × Int)) : Prop := ∀ i < NBUCKET, ∃ l, Holds t log i l

section

variable {t : Table} {log : List (Int × Int)} {i e : Nat} {l : List Nat} {key value : Int}
    {entry entry' : Nat → Entry}

theorem bucket_lt (h : bucket key = some i) : i < NBUCKET := by
  have hlt : key.tmod NBUCKET < NBUCKET := Int.tmod_lt_of_pos key (by decide)
  simp only [bucket] at h
  split at h
  · cases h
  · simp only [Option.some.injEq] at h
    omega

theorem bucket_of_nonneg (h : 0 ≤ key) : ∃ i, bucket key = some i := by
  have h0 : ¬ key.tmod NBUCKET < 0 := Int.not_lt.mpr (Int.tmod_nonneg _ h)
  exact ⟨(key.tmod NBUCKET).toNat, by simp only [bucket, h0, if_false]⟩

theorem Links.ne_zero (h : Links entry e l) : ∀ a ∈ l, a ≠ 0 := by
  induction l generalizing e with
  | nil => simp
  | cons b l ih =>
    obtain ⟨rfl, hz, hl⟩ := h
    intro a ha
    rcases List.mem_cons.mp ha with rfl | ha
    · exact hz
    · exact ih hl a ha

/-- A list depends on where its entries point. -/
theorem Links.congr (h : Links entry e l) (he : ∀ a ∈ l, (entry' a).next = (entry a).next) : Links entry' e l := by
  induction l generalizing e with
  | nil => exact h
  | cons b l ih =>
    refine ⟨h.1, h.2.1, ?_⟩
    rw [he b (by simp)]
    exact ih h.2.2 fun a ha => he a (by simp [ha])

/-- The loop of put and get, with rounds enough for the list. -/
theorem find_links (h : Links entry e l) {n : Nat} (hn : l.length < n) :
    find entry key n e = some ((l.find? fun a => (entry a).key == key).getD 0) := by
  induction l generalizing e n with
  | nil =>
    obtain ⟨n, rfl⟩ := Nat.exists_eq_succ_of_ne_zero (Nat.pos_iff_ne_zero.mp hn)
    have he : e = 0 := h
    simp [find, he]
  | cons a l ih =>
    obtain ⟨rfl, hz, hl⟩ := h
    obtain ⟨n, rfl⟩ := Nat.exists_eq_succ_of_ne_zero (Nat.pos_iff_ne_zero.mp (Nat.lt_of_le_of_lt (Nat.zero_le _) hn))
    have hn : l.length < n := by simpa using hn
    simp only [find, hz, if_false]
    by_cases hk : (entry e).key = key
    · simp [hk]
    · simp [List.find?_cons_of_neg, hk, ih hl hn]

theorem Holds.length_le (h : Holds t log i l) : l.length ≤ t.brk := by
  have h1 : l ⊆ List.range' 1 t.brk := fun e he => by
    have h2 := h.alloc e he
    have h3 := h.links.ne_zero e he
    simp only [List.mem_range'_1]
    omega
  have h2 := (List.subperm_of_subset h.once.of_map h1).length_le
  simpa using h2

/-- What the loop finds in a bucket. -/
theorem Holds.find (h : Holds t log i l) (hb : bucket key = some i) :
    (∃ e ∈ l, (t.entry e).key = key ∧ find t.entry key (t.brk + 1) (t.table i) = some e) ∨
      lastPut log key = none ∧ (∀ e ∈ l, (t.entry e).key ≠ key) ∧
        find t.entry key (t.brk + 1) (t.table i) = some 0 := by
  have hlen := h.length_le
  rw [find_links h.links (Nat.lt_succ_of_le hlen)]
  cases hf : l.find? fun a => (t.entry a).key == key with
  | some e =>
    refine Or.inl ⟨e, List.mem_of_find?_eq_some hf, ?_, rfl⟩
    simpa using List.find?_some hf
  | none =>
    have hno : ∀ e ∈ l, (t.entry e).key ≠ key := by simpa using hf
    refine Or.inr ⟨?_, hno, rfl⟩
    by_contra hp
    obtain ⟨e, he, hk⟩ := h.all key hp hb
    exact hno e he hk

/-! ## put -/

theorem lastPut_self (k v : Int) (log : List (Int × Int)) : lastPut ((k, v) :: log) k = some v := by simp [lastPut]

theorem lastPut_ne {k k' : Int} (v : Int) (log : List (Int × Int)) (h : k' ≠ k) :
    lastPut ((k, v) :: log) k' = lastPut log k' := by
  simp [lastPut, Ne.symm h]

/-- A put of a key that belongs elsewhere. -/
theorem Holds.elsewhere (h : Holds t log i l) {t' : Table} (hb : bucket key ≠ some i) (ht : t'.table i = t.table i)
    (he : ∀ e ∈ l, t'.entry e = t.entry e) (hk : t.brk ≤ t'.brk) : Holds t' ((key, value) :: log) i l := by
  have hne : ∀ k, bucket k = some i → k ≠ key := by
    rintro k hk rfl
    exact hb hk
  have hmap : (l.map fun e => (t'.entry e).key) = l.map fun e => (t.entry e).key := List.map_congr_left fun e hm => by
    rw [he e hm]
  refine ⟨?_, fun e hm => Nat.le_trans (h.alloc e hm) hk, by rw [hmap]; exact h.once, fun e hm => ?_, fun e hm => ?_,
    fun k hp hi => ?_⟩
  · rw [ht]
    exact h.links.congr fun e hm => by rw [he e hm]
  · rw [he e hm]
    exact h.home e hm
  · rw [he e hm, lastPut_ne value log (hne _ (h.home e hm))]
    exact h.value e hm
  · rw [lastPut_ne value log (hne k hi)] at hp
    obtain ⟨e, hm, hk⟩ := h.all k hp hi
    exact ⟨e, hm, by rw [he e hm, hk]⟩

/-- `update the existing key.` -/
theorem Holds.update (h : Holds t log i l) (hm : e ∈ l) (hk : (t.entry e).key = key) :
    Holds { t with entry := Function.update t.entry e { t.entry e with value := value } }
      ((key, value) :: log) i l := by
  have hkey : ∀ a, (Function.update t.entry e { t.entry e with value := value } a).key = (t.entry a).key :=
    fun a => by
    by_cases ha : a = e
    · subst ha
      simp
    · simp [ha]
  refine ⟨h.links.congr fun a _ => ?_, h.alloc, by simpa only [hkey] using h.once,
    fun a ha => by rw [hkey]; exact h.home a ha, fun a ha => ?_,
    fun k hp hi => ?_⟩
  · by_cases ha : a = e
    · subst ha
      simp
    · simp [ha]
  · by_cases hae : a = e
    · subst hae
      simp [hk, lastPut_self]
    · have hne : (t.entry a).key ≠ key := fun hka =>
        hae (List.inj_on_of_nodup_map h.once ha hm (by rw [hka, hk]))
      simp [hae, lastPut_ne value log hne, h.value a ha]
  · simp only [hkey]
    by_cases hkk : k = key
    · exact ⟨e, hm, by rw [hk, hkk]⟩
    · rw [lastPut_ne value log hkk] at hp
      exact h.all k hp hi

/-- `the new is new.` -/
theorem Holds.insert (h : Holds t log i l) (hb : bucket key = some i) (hno : ∀ e ∈ l, (t.entry e).key ≠ key) :
    Holds (insert key value i (t.table i) t) ((key, value) :: log) i ((t.brk + 1) :: l) := by
  have hold : ∀ e ∈ l, Function.update t.entry (t.brk + 1) ⟨key, value, t.table i⟩ e = t.entry e := fun e hm => by
    have := h.alloc e hm
    exact Function.update_of_ne (by omega) _ _
  have hmap : (l.map fun e => (Function.update t.entry (t.brk + 1) ⟨key, value, t.table i⟩ e).key) = l.map fun e =>
    (t.entry e).key :=
    List.map_congr_left fun e hm => by rw [hold e hm]
  refine ⟨⟨?_, ?_, ?_⟩, fun e hm => ?_, ?_, fun e hm => ?_, fun e hm => ?_, fun k hp hi => ?_⟩
  · simp [Ph.insert]
  · simp [Ph.insert]
  · simp only [Ph.insert, Function.update_self]
    exact h.links.congr fun e hm => by rw [hold e hm]
  · rcases List.mem_cons.mp hm with rfl | hm
    · exact Nat.le_refl _
    · exact Nat.le_succ_of_le (h.alloc e hm)
  · simp only [Ph.insert, List.map_cons, Function.update_self, hmap, List.nodup_cons]
    exact ⟨by simpa using hno, h.once⟩
  · rcases List.mem_cons.mp hm with rfl | hm
    · simpa [Ph.insert] using hb
    · simp only [Ph.insert, hold e hm]
      exact h.home e hm
  · rcases List.mem_cons.mp hm with rfl | hm
    · simp [Ph.insert, lastPut_self]
    · simp only [Ph.insert, hold e hm, lastPut_ne value log (hno e hm)]
      exact h.value e hm
  · by_cases hkk : k = key
    · exact ⟨t.brk + 1, by simp, by simp [Ph.insert, hkk]⟩
    · rw [lastPut_ne value log hkk] at hp
      obtain ⟨e, hm, hk⟩ := h.all k hp hi
      exact ⟨e, by simp [hm], by simp only [Ph.insert, hold e hm, hk]⟩

/-- put of a key that has a bucket. -/
theorem put_spec (h : Inv t log) (hb : bucket key = some i) (value : Int) : ∃ t', put key value t = some t' ∧
    Inv t' ((key, value) :: log) := by
  obtain ⟨l, hl⟩ := h i (bucket_lt hb)
  rcases hl.find hb with ⟨e, hm, hk, hf⟩ | ⟨-, hno, hf⟩
  · have hz : e ≠ 0 := hl.links.ne_zero e hm
    have hput : put key value t =
      some { t with entry := Function.update t.entry e { t.entry e with value := value } } := by
      simp only [put, hb, hf, hz, ne_eq, not_false_eq_true, if_true]
    refine ⟨_, hput, fun j hj => ?_⟩
    by_cases hij : j = i
    · subst hij
      exact ⟨l, hl.update hm hk⟩
    · obtain ⟨l', hl'⟩ := h j hj
      refine ⟨l', hl'.elsewhere (by simp [hb, Ne.symm hij]) rfl (fun a ha => ?_) (Nat.le_refl _)⟩
      -- an entry is in one bucket only
      refine Function.update_of_ne ?_ _ _
      rintro rfl
      have h1 := hl'.home a ha
      rw [hl.home a hm] at h1
      exact hij (Option.some.inj h1).symm
  · have hput : put key value t = some (insert key value i (t.table i) t) := by
      simp only [put, hb, hf, ne_eq, not_true_eq_false, if_false]
    refine ⟨_, hput, fun j hj => ?_⟩
    by_cases hij : j = i
    · subst hij
      exact ⟨_, hl.insert hb hno⟩
    · obtain ⟨l', hl'⟩ := h j hj
      refine ⟨l', hl'.elsewhere (by simp [hb, Ne.symm hij]) (Function.update_of_ne hij _ _) (fun a ha => ?_)
        (Nat.le_succ _)⟩
      have := hl'.alloc a ha
      exact Function.update_of_ne (by omega) _ _

end

/-! ## Any interleaving -/

/-- The loop of put_thread is at its end, in every thread. -/
def Done (keys : List Int) (nthread : Nat) (s : St) : Prop := ∀ n < nthread, ¬ s.i n < keys.length / nthread

/-- The buckets are finite lists with each key once and where it belongs; the keys are there
    with the thread that put them last, and nothing else is. -/
structure Stored (keys : List Int) (s : St) : Prop where
  buckets : ∀ i < NBUCKET, ∃ l, Links s.t.entry (s.t.table i) l ∧ (l.map fun e => (s.t.entry e).key).Nodup ∧
    ∀ e ∈ l, (s.t.entry e).key.tmod NBUCKET = i
  present : ∀ k ∈ keys, ∃ e, get k s.t = some e ∧ e ≠ 0 ∧ (s.t.entry e).key = k ∧
    lastPut s.log k = some (s.t.entry e).value
  absent : ∀ k ∉ keys, 0 ≤ k.tmod NBUCKET → get k s.t = some 0

/-- Thread `n` has put the key in one of its rounds so far. -/
def HasPut (keys : List Int) (nthread : Nat) (i : Nat → Nat) (k : Int) : Prop :=
  ∃ n < nthread, ∃ j < i n, keys[keys.length / nthread * n + j]? = some k

structure RunInv (keys : List Int) (nthread : Nat) (s : St) : Prop where
  table : Inv s.t s.log
  log : ∀ k, lastPut s.log k ≠ none ↔ HasPut keys nthread s.i k

section

variable {keys : List Int} {nthread n : Nat} {s s' : St}

theorem RunInv.init : RunInv keys nthread .init := by
  refine ⟨fun i _ => ⟨[], rfl, ?_, ?_, ?_, ?_, ?_⟩, fun k => ?_⟩
  all_goals simp [St.init, lastPut, HasPut]

theorem HasPut.update (hn : n < nthread) {i : Nat → Nat} {key k : Int}
    (hk : keys[keys.length / nthread * n + i n]? = some key) :
    HasPut keys nthread (Function.update i n (i n + 1)) k ↔ k = key ∨ HasPut keys nthread i k := by
  constructor
  · rintro ⟨m, hm, j, hj, h⟩
    by_cases e : m = n
    · subst e
      rw [Function.update_self] at hj
      rcases Nat.lt_succ_iff_lt_or_eq.mp hj with hj | rfl
      · exact Or.inr ⟨m, hm, j, hj, h⟩
      · rw [hk] at h
        exact Or.inl (Option.some.inj h).symm
    · rw [Function.update_of_ne e] at hj
      exact Or.inr ⟨m, hm, j, hj, h⟩
  · rintro (rfl | ⟨m, hm, j, hj, h⟩)
    · exact ⟨n, hn, i n, by simp, hk⟩
    · refine ⟨m, hm, j, ?_, h⟩
      by_cases e : m = n
      · subst e
        simp
        omega
      · simpa [Function.update_of_ne e] using hj

/-- A thread's next put is that of a key of the array. -/
theorem next_key (hd : nthread ∣ keys.length) (hn : n < nthread) {j : Nat} (hj : j < keys.length / nthread) :
    ∃ key ∈ keys, keys[keys.length / nthread * n + j]? = some key := by
  have hlen := Nat.div_mul_cancel hd
  have hlt : keys.length / nthread * n + j < keys.length := by
    have h1 : keys.length / nthread * (n + 1) ≤ keys.length / nthread * nthread := Nat.mul_le_mul_left _ hn
    rw [Nat.mul_succ] at h1
    omega
  exact ⟨_, List.getElem_mem hlt, List.getElem?_eq_getElem hlt⟩

theorem RunInv.step (h : RunInv keys nthread s) (hk : ∀ k ∈ keys, 0 ≤ k) (hn : n < nthread)
    (hs : Step keys nthread n s s') :
    RunInv keys nthread s' := by
  cases hs with
  | put key t hi hkey hput =>
    obtain ⟨i, hb⟩ := bucket_of_nonneg (hk key (List.mem_of_getElem? hkey))
    obtain ⟨t', e, ht'⟩ := put_spec h.table hb n
    rw [hput] at e
    obtain rfl := Option.some.inj e
    refine ⟨ht', fun k => ?_⟩
    rw [HasPut.update hn hkey]
    by_cases hkk : k = key
    · subst hkk
      simp [lastPut_self]
    · rw [lastPut_ne _ _ hkk, h.log k]
      simp [hkk]

theorem Reach.inv (h : Reach keys nthread s) (hk : ∀ k ∈ keys, 0 ≤ k) : RunInv keys nthread s := by
  induction h with
  | init => exact .init
  | step n _ hn hs ih => exact ih.step hk hn hs

/-- The threads together go through the whole array. -/
theorem hasPut_of_done (hd : nthread ∣ keys.length) (h : Done keys nthread s) {k : Int} (hm : k ∈ keys) :
    HasPut keys nthread s.i k := by
  obtain ⟨x, hx, rfl⟩ := List.getElem_of_mem hm
  have hlen := Nat.div_mul_cancel hd
  have hb : 0 < keys.length / nthread := by
    apply Nat.pos_of_ne_zero
    intro h0
    rw [h0] at hlen
    omega
  have hdm := Nat.div_add_mod x (keys.length / nthread)
  have hmod := Nat.mod_lt x hb
  have hn : x / (keys.length / nthread) < nthread := by
    rw [Nat.div_lt_iff_lt_mul hb, Nat.mul_comm, hlen]
    exact hx
  refine ⟨x / (keys.length / nthread), hn, x % (keys.length / nthread), ?_, ?_⟩
  · have := h _ hn
    omega
  · rw [hdm]
    exact List.getElem?_eq_getElem hx

theorem RunInv.stored (h : RunInv keys nthread s) (hk : ∀ k ∈ keys, 0 ≤ k) (hd : nthread ∣ keys.length)
    (hdone : Done keys nthread s) :
    Stored keys s := by
  refine ⟨fun i hi => ?_, fun k hm => ?_, fun k hm h0 => ?_⟩
  · obtain ⟨l, hl⟩ := h.table i hi
    refine ⟨l, hl.links, hl.once, fun e he => ?_⟩
    have hb := hl.home e he
    simp only [bucket] at hb
    split at hb
    · cases hb
    · simp only [Option.some.injEq] at hb
      omega
  · obtain ⟨i, hb⟩ := bucket_of_nonneg (hk k hm)
    obtain ⟨l, hl⟩ := h.table i (bucket_lt hb)
    rcases hl.find hb with ⟨e, he, hkey, hf⟩ | ⟨hno, -, -⟩
    · refine ⟨e, by simp only [get, hb, hf], hl.links.ne_zero e he, hkey, ?_⟩
      rw [← hkey]
      exact hl.value e he
    · exact absurd hno ((h.log k).mpr (hasPut_of_done hd hdone hm))
  · have h0 : ¬ k.tmod NBUCKET < 0 := Int.not_lt.mpr h0
    have hb : bucket k = some (k.tmod NBUCKET).toNat := by simp only [bucket, h0, if_false]
    obtain ⟨l, hl⟩ := h.table _ (bucket_lt hb)
    rcases hl.find hb with ⟨e, he, hkey, -⟩ | ⟨-, -, hf⟩
    · -- what is in the table has been put, so it is in the array
      have hput : lastPut s.log k ≠ none := by
        rw [← hkey, hl.value e he]
        simp
      obtain ⟨n, -, j, -, hj⟩ := (h.log k).mp hput
      exact absurd (List.mem_of_getElem? hj) hm
    · simp only [get, hb, hf]

/-- Threads that share an array of keys out evenly and put them in any order of steps: no put
    gets stuck, and when all are done every key is found with the number of the thread that
    put it last, and no other key is. -/
theorem no_key_lost (hk : ∀ k ∈ keys, 0 ≤ k) (hd : nthread ∣ keys.length) (h : Reach keys nthread s) :
    (∀ n < nthread, s.i n < keys.length / nthread → ∃ s', Step keys nthread n s s') ∧
    (Done keys nthread s → Stored keys s) := by
  have hi := h.inv hk
  refine ⟨fun n hn hlt => ?_, hi.stored hk hd⟩
  obtain ⟨key, hm, hkey⟩ := next_key hd hn hlt
  obtain ⟨i, hb⟩ := bucket_of_nonneg (hk key hm)
  obtain ⟨t', e, -⟩ := put_spec hi.table hb n
  exact ⟨_, .put s key t' hlt hkey e⟩

end

/-- Two threads put the same key, thread 1 first. -/
theorem no_key_lost_two : ∃ s, Reach [7, 7] 2 s ∧ Stored [7, 7] s ∧ lastPut s.log 7 = some 0 := by
  have h1 : Reach [7, 7] 2 _ := .step 1 .init (by decide) (.put _ 7 _ (by decide) rfl rfl)
  have h2 : Reach [7, 7] 2 _ := .step 0 h1 (by decide) (.put _ 7 _ (by decide) rfl rfl)
  exact ⟨_, h2, (no_key_lost (by decide) (by decide) h2).2 (by unfold Done; decide), rfl⟩

end Xv6Labs.Ph
