/-
  Xv6Labs.Lib.Ring — circular linked lists through a successor function.

  `Links f l`: `f` leads from each element of `l` to the next one. A ring through `x :: xs` is
  `Links f (x :: xs ++ [x])`. Walks are followed along such lists, never by counting steps.
-/

import Mathlib.Data.List.Chain
import Mathlib.Data.List.Nodup
import Mathlib.Logic.Function.Iterate

namespace Xv6Labs.Lib

variable {α : Type} {f g : α → α} {stop : α → Bool} {x p q n : α} {xs ys as bs : List α}

def Links (f : α → α) (l : List α) : Prop := l.IsChain fun a b => f a = b

theorem links_cons_cons : Links f (x :: p :: xs) ↔ f x = p ∧ Links f (p :: xs) := List.isChain_cons_cons

theorem links_append : Links f (as ++ bs) ↔ Links f as ∧ Links f bs ∧ ∀ p ∈ as.getLast?, ∀ q ∈ bs.head?, f p = q :=
  List.isChain_append

/-- Where a list is put together at an element. -/
theorem links_split : Links f (as ++ p :: bs) ↔ Links f (as ++ [p]) ∧ Links f (p :: bs) := List.isChain_split

/-- Nothing is asked of the last element. -/
theorem Links.congr (h : Links f xs) (hg : ∀ a ∈ xs.dropLast, g a = f a) : Links g xs := by
  induction xs with
  | nil => exact .nil
  | cons x xs ih =>
    cases xs with
    | nil => exact .singleton x
    | cons y ys =>
      rw [List.dropLast_cons_of_ne_nil (List.cons_ne_nil y ys)] at hg
      obtain ⟨hx, h⟩ := links_cons_cons.mp h
      exact links_cons_cons.mpr ⟨(hg x (List.mem_cons_self ..)).trans hx,
        ih h fun a ha => hg a (List.mem_cons_of_mem _ ha)⟩

theorem Links.congr_ring (h : Links f (as ++ (bs ++ [x]))) (has : ∀ a ∈ as, g a = f a) (hbs : ∀ b ∈ bs, g b = f b) :
    Links g (as ++ (bs ++ [x])) := by
  refine h.congr fun a ha => ?_
  rw [← List.append_assoc, List.dropLast_concat] at ha
  exact (List.mem_append.mp ha).elim (has a) (hbs a)

/-! ## Surgery -/

/-- A new element behind `p`. -/
theorem Links.insert (h : Links f (as ++ bs)) (hp : p ∈ as.getLast?) (has : ∀ a ∈ as.dropLast, g a = f a)
    (hbs : ∀ b ∈ bs.dropLast, g b = f b) (hpn : g p = n) (hn : g n = f p) : Links g (as ++ n :: bs) := by
  obtain ⟨h1, h2, h12⟩ := links_append.mp h
  refine links_append.mpr ⟨h1.congr has, ?_, fun a ha b hb => ?_⟩
  · show Links g ([n] ++ bs)
    refine links_append.mpr ⟨.singleton n, h2.congr hbs, fun a ha b hb => ?_⟩
    obtain rfl : n = a := by simpa using ha
    rw [hn]
    exact h12 p hp b hb
  · obtain rfl : p = a := Option.mem_unique hp ha
    rw [hpn]
    simpa using hb

/-- An element behind `p` taken out. -/
theorem Links.unlink (h : Links f (as ++ n :: bs)) (hp : p ∈ as.getLast?) (has : ∀ a ∈ as.dropLast, g a = f a)
    (hbs : ∀ b ∈ bs.dropLast, g b = f b) (hpn : g p = f n) : Links g (as ++ bs) := by
  obtain ⟨h1, h2, -⟩ := links_append.mp h
  have h2 : Links f ([n] ++ bs) := h2
  obtain ⟨-, h3, h23⟩ := links_append.mp h2
  refine links_append.mpr ⟨h1.congr has, h3.congr hbs, fun a ha b hb => ?_⟩
  obtain rfl : p = a := Option.mem_unique hp ha
  rw [hpn]
  exact h23 n rfl b hb

/-- A ring can be entered anywhere. -/
theorem Links.rotate (h : Links f (as ++ p :: bs ++ as.head?.toList)) (has : as ≠ []) :
    Links f (p :: bs ++ as ++ [p]) := by
  cases as with
  | nil => exact absurd rfl has
  | cons a as =>
    have h' : Links f ((a :: as) ++ p :: (bs ++ [a])) := by simpa using h
    obtain ⟨h1, h2⟩ := links_split.mp h'
    have h3 : Links f ((p :: bs) ++ a :: (as ++ [p])) := links_split.mpr ⟨by simpa using h2, by simpa using h1⟩
    simpa using h3

theorem Links.next (h : Links f (as ++ p :: q :: bs)) : f p = q := (links_cons_cons.mp (links_split.mp h).2).1

/-- The elements are those met on the way. -/
theorem Links.iterate (h : Links f (p :: xs)) (hq : q ∈ p :: xs) : ∃ k, f^[k] p = q := by
  induction xs generalizing p with
  | nil => exact ⟨0, (List.mem_singleton.mp hq).symm⟩
  | cons y ys ih =>
    obtain ⟨rfl, h⟩ := links_cons_cons.mp h
    rcases List.mem_cons.mp hq with rfl | hq
    · exact ⟨0, rfl⟩
    · obtain ⟨k, hk⟩ := ih h hq
      exact ⟨k + 1, hk⟩

/-- What is met on the way is an element, as long as the last one leads back. -/
theorem Links.closed (h : Links f (xs ++ [x])) (hx : x ∈ xs) (hp : p ∈ xs) : f p ∈ xs := by
  obtain ⟨l, r, rfl⟩ := List.append_of_mem hp
  have h' : Links f (l ++ p :: (r ++ [x])) := by simpa using h
  obtain ⟨-, h2⟩ := links_split.mp h'
  cases r with
  | nil =>
    obtain ⟨e, -⟩ := links_cons_cons.mp h2
    rwa [e]
  | cons y r =>
    obtain ⟨e, -⟩ := links_cons_cons.mp h2
    rw [e]
    simp

theorem Links.iterate_mem (h : Links f (xs ++ [x])) (hx : x ∈ xs) (hp : p ∈ xs) (k : Nat) : f^[k] p ∈ xs := by
  induction k generalizing p with
  | zero => exact hp
  | succ k ih => exact ih (h.closed hx hp)

/-- No two elements lead to the same one. -/
theorem Links.inj (h : Links f (xs ++ [x])) (hx : xs.head? = some x) (hn : xs.Nodup) (hp : p ∈ xs) (hq : q ∈ xs)
    (e : f p = f q) : p = q := by
  obtain ⟨ys, rfl⟩ : ∃ ys, xs = x :: ys := ⟨xs.tail, by cases xs <;> simp_all⟩
  -- what the elements lead to: the same elements, turned by one
  have hlen : (ys ++ [x]).length = (x :: ys).length := by simp
  have hnext : ∀ i (hi : i < (x :: ys).length) (hj : i < (ys ++ [x]).length), f (x :: ys)[i] = (ys ++ [x])[i] := by
    intro i hi hj
    have := List.isChain_iff_getElem.mp h i (by simpa using hi)
    rwa [List.getElem_append_left hi] at this
  have hturn : (ys ++ [x]).Nodup := (List.perm_append_singleton x ys).nodup_iff.mpr hn
  obtain ⟨i, hi, rfl⟩ := List.getElem_of_mem hp
  obtain ⟨j, hj, rfl⟩ := List.getElem_of_mem hq
  rw [hnext i hi (hlen ▸ hi), hnext j hj (hlen ▸ hj)] at e
  have : i = j := hturn.getElem_inj_iff.mp e
  subst this
  rfl

/-! ## Walks -/

/-- Follow `f` to the first element that stops the walk. -/
def followTo (stop : α → Bool) (f : α → α) : Nat → α → Option α
  | 0, _ => none
  | fuel + 1, p => if stop p then some p else followTo stop f fuel (f p)

theorem followTo_links (h : Links f (xs ++ [q])) (hp : (xs ++ [q]).head? = some p) (hxs : ∀ a ∈ xs, stop a = false)
    (hq : stop q = true) {fuel : Nat} (hf : xs.length < fuel) : followTo stop f fuel p = some q := by
  obtain ⟨fuel, rfl⟩ : ∃ k, fuel = k + 1 := ⟨fuel - 1, by omega⟩
  induction xs generalizing p fuel with
  | nil =>
    obtain rfl : q = p := by simpa using hp
    rw [followTo, if_pos hq]
  | cons x xs ih =>
    obtain rfl : x = p := by simpa using hp
    have hx : ¬ stop x = true := by rw [hxs x (List.mem_cons_self ..)]; exact Bool.false_ne_true
    obtain ⟨fuel, rfl⟩ : ∃ k, fuel = k + 1 := ⟨fuel - 1, by simp only [List.length_cons] at hf; omega⟩
    rw [followTo, if_neg hx]
    have hh : (xs ++ [q]).head? = some (f x) := by
      cases xs with
      | nil =>
        obtain ⟨e, -⟩ := links_cons_cons.mp h
        exact congrArg some e.symm
      | cons y ys =>
        obtain ⟨e, -⟩ := links_cons_cons.mp h
        exact congrArg some e.symm
    exact ih (List.IsChain.tail h) hh (fun a ha => hxs a (List.mem_cons_of_mem _ ha)) fuel (by simpa using hf)

/-- A walk round a ring finds what there is to find. -/
theorem followTo_ring (h : Links f (xs ++ [x])) (hx : xs.head? = some x) (hp : p ∈ xs)
    (hs : ∃ q ∈ xs, stop q = true) :
    ∃ q ∈ xs, stop q = true ∧ ∀ fuel, xs.length ≤ fuel → followTo stop f fuel p = some q := by
  obtain ⟨l, r, rfl⟩ := List.append_of_mem hp
  have hring : Links f (p :: r ++ l ++ [p]) := by
    cases l with
    | nil =>
      obtain rfl : p = x := by simpa using hx
      simpa using h
    | cons y l =>
      obtain rfl : y = x := by simpa using hx
      have h : Links f ((y :: l) ++ p :: r ++ (y :: l).head?.toList) := by simpa using h
      exact h.rotate (List.cons_ne_nil _ _)
  have hall : ∀ a, a ∈ p :: r ++ l ↔ a ∈ l ++ p :: r := fun a => by
    rw [List.mem_append, List.mem_append, or_comm]
  obtain ⟨q, hq⟩ := Option.isSome_iff_exists.mp
    (List.find?_isSome.mpr (by simpa only [hall] using hs : ∃ q ∈ p :: r ++ l, stop q = true))
  obtain ⟨hstop, ys, zs, e, hys⟩ := List.find?_eq_some_iff_append.mp hq
  refine ⟨q, (hall q).mp (by rw [e]; simp), hstop, fun fuel hf => ?_⟩
  have hlen : ys.length + (q :: zs).length = (l ++ p :: r).length := by
    rw [← List.length_append, ← e, List.length_append, List.length_append, Nat.add_comm]
  have hl : Links f ((ys ++ [q]) ++ (zs ++ [p])) := by
    rw [e] at hring
    simpa using hring
  refine followTo_links (links_append.mp hl).1 ?_ (fun a ha => by simpa using hys a ha) hstop ?_
  · cases ys with
    | nil => simpa using (congrArg List.head? e).symm
    | cons y ys => simpa using (congrArg List.head? e).symm
  · rw [List.length_cons] at hlen
    omega

theorem followTo_mono {fuel fuel' : Nat} (h : followTo stop f fuel p = some q) (hle : fuel ≤ fuel') :
    followTo stop f fuel' p = some q := by
  induction fuel generalizing p fuel' with
  | zero => cases h
  | succ fuel ih =>
    obtain ⟨k, rfl⟩ : ∃ k, fuel' = k + 1 := ⟨fuel' - 1, by omega⟩
    unfold followTo at h ⊢
    split
    next hs => rwa [if_pos hs] at h
    next hs =>
      rw [if_neg hs] at h
      exact ih h (by omega)

end Xv6Labs.Lib
