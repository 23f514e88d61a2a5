import Mathlib.Data.List.AList
import Mathlib.Order.Basic

namespace Mainnet.Lib

open List Option Nat Function

structure Store (α : Type) where
  next : ℕ
  get : ℕ → α

open Store

namespace Store

variable {α : Type}

def alloc (s : Store α) (a : α) : Store α := ⟨s.next + 1, update s.get s.next a⟩

def set (s : Store α) (r : ℕ) (a : α) : Store α := { s with get := update s.get r a }

variable {s t u : Store α} {r r' : ℕ} {a : α}

@[simp] theorem alloc_next (s : Store α) (a : α) : (s.alloc a).next = s.next + 1 := rfl

@[simp] theorem set_next (s : Store α) (r : ℕ) (a : α) : (s.set r a).next = s.next := rfl

@[simp] theorem alloc_get_next (s : Store α) (a : α) : (s.alloc a).get s.next = a :=
  update_self ..

@[simp] theorem set_get_self (s : Store α) (r : ℕ) (a : α) : (s.set r a).get r = a :=
  update_self ..

theorem set_get_of_ne (h : r' ≠ r) : (s.set r a).get r' = s.get r' := update_of_ne h _ _

structure Retains (s t : Store α) : Prop where
  le : s.next ≤ t.next
  get : ∀ r < s.next, t.get r = s.get r

namespace Retains

theorem refl (s : Store α) : Retains s s := ⟨le_rfl, fun _ _ ↦ rfl⟩

theorem trans (h : Retains s t) (h' : Retains t u) : Retains s u := by
  refine ⟨h.le.trans h'.le, ?_⟩
  intro r hr
  rw [h'.get r (hr.trans_le h.le), h.get r hr]

theorem alloc (h : Retains s t) (a : α) : Retains s (t.alloc a) := by
  refine ⟨h.le.trans (le_succ _), ?_⟩
  intro r hr
  exact (update_of_ne (hr.trans_le h.le).ne _ _).trans (h.get r hr)

theorem set (h : Retains s t) (hr : s.next ≤ r) (a : α) : Retains s (t.set r a) := by
  refine ⟨h.le, ?_⟩
  intro r' hr'
  exact (set_get_of_ne (hr'.trans_le hr).ne).trans (h.get r' hr')

end Retains

end Store

def resolve {κ α β : Type} (f : α → β) (l : AList fun _ : κ ↦ α) : AList fun _ : κ ↦ β :=
  ⟨l.entries.map (Sigma.map id fun _ ↦ f), l.nodupKeys.map₂ fun _ ↦ f⟩

section

variable {κ α β : Type}

variable [DecidableEq κ] {f g : α → β} {l : AList fun _ : κ ↦ α}

@[simp] theorem lookup_resolve (f : α → β) (l : AList fun _ : κ ↦ α) (k : κ) :
    (resolve f l).lookup k = (l.lookup k).map f :=
  dlookup_map₂ k

theorem resolve_congr (h : ∀ k a, l.lookup k = some a → f a = g a) : resolve f l = resolve g l := by
  refine AList.ext (map_congr_left ?_)
  rintro ⟨k, a⟩ he
  exact congrArg (Sigma.mk k) (h k a (AList.mem_lookup_iff.mpr he))

end

/-- A slice of an array in a store: it shows the first `len` items, and an append writes behind them
while they are less than `cap`. -/
structure Window where
  array : ℕ
  len : ℕ
  cap : ℕ
deriving DecidableEq

namespace Window

variable {α : Type} (grow : ℕ → ℕ)

def items (arrays : Store (ℕ → α)) (w : Window) : List α :=
  (range w.len).map (arrays.get w.array)

def append (arrays : Store (ℕ → α)) (w : Window) (a : α) : Window × Store (ℕ → α) :=
  let array := update (arrays.get w.array) w.len a
  if w.len < w.cap then ({ w with len := w.len + 1 }, arrays.set w.array array)
  else (⟨arrays.next, w.len + 1, grow w.len⟩, arrays.alloc array)

def overwrite (array : ℕ → α) (n : ℕ) (l : List α) (i : ℕ) : α :=
  if i < n then array i else (l[i - n]?).getD (array i)

/-- `append(w, l...)`: the whole list is written behind the items, or all of it to a new array. -/
def appendAll (arrays : Store (ℕ → α)) (w : Window) (l : List α) : Window × Store (ℕ → α) :=
  let array := overwrite (arrays.get w.array) w.len l
  if w.len + l.length ≤ w.cap then ({ w with len := w.len + l.length }, arrays.set w.array array)
  else (⟨arrays.next, w.len + l.length, grow (w.len + l.length)⟩, arrays.alloc array)

def ofList [Inhabited α] (arrays : Store (ℕ → α)) (l : List α) : Window × Store (ℕ → α) :=
  (⟨arrays.next, l.length, l.length⟩, arrays.alloc fun i ↦ l.getD i default)

/-- `append(w[:i], w[i+1:]...)`: the items behind `i` move one down, in place. -/
def erase (arrays : Store (ℕ → α)) (w : Window) (i : ℕ) : Window × Store (ℕ → α) :=
  let array := arrays.get w.array
  ({ w with len := w.len - 1 },
    arrays.set w.array fun j ↦ if i ≤ j ∧ j + 1 < w.len then array (j + 1) else array j)

/-- The window `v` was made from `w` by appends, if it is of the same array. -/
def Follows (w v : Window) : Prop := v.array = w.array → w.len ≤ v.len

variable {grow} {arrays : Store (ℕ → α)} {w v : Window}

@[simp] theorem items_append (a : α) :
    (v.append grow arrays a).1.items (v.append grow arrays a).2 = v.items arrays ++ [a] := by
  have hitems : (range (v.len + 1)).map (update (arrays.get v.array) v.len a) =
      v.items arrays ++ [a] := by
    rw [range_succ, map_append, map_singleton, update_self]
    refine congrArg (· ++ [a]) (map_congr_left ?_)
    intro i hi
    exact update_of_ne (mem_range.mp hi).ne _ _
  unfold append
  dsimp only
  split_ifs
  · rw [items, set_get_self]
    exact hitems
  · rw [items, alloc_get_next]
    exact hitems

theorem map_overwrite_eq_iff {array : ℕ → α} {n len : ℕ} (hn : n ≤ len) (l : List α) :
    (range len).map (overwrite array n l) = (range len).map array ↔
      (((range len).map array).drop n).take l.length = l.take (len - n) := by
  rw [map_inj_left]
  have hdrop : ∀ i, (((range len).map array).drop n)[i]? =
      if i < len - n then some (array (n + i)) else none := by
    intro i
    rw [getElem?_drop, getElem?_map]
    split_ifs with hi
    · rw [getElem?_range (by omega), map_some]
    · rw [getElem?_eq_none (by simp; omega), map_none]
  constructor
  · intro h
    refine ext_getElem? fun i ↦ ?_
    rw [getElem?_take, getElem?_take, hdrop]
    split_ifs with hl hi hi
    · have hw := h (n + i) (mem_range.mpr (by omega))
      rw [overwrite, if_neg (by omega), Nat.add_sub_cancel_left, getElem?_eq_getElem hl,
        getD_some] at hw
      rw [getElem?_eq_getElem hl, hw]
    · rfl
    · rw [getElem?_eq_none (not_lt.mp hl)]
    · rfl
  · intro h i hi
    rw [mem_range] at hi
    unfold overwrite
    split_ifs with hlt
    · rfl
    · by_cases hl : i - n < l.length
      · have hat : _ = (l.take (len - n))[i - n]? := congrArg (·[i - n]?) h
        rw [getElem?_take, getElem?_take, hdrop, if_pos hl, if_pos (by omega),
          if_pos (by omega), Nat.add_sub_cancel' (not_lt.mp hlt)] at hat
        rw [← hat, getD_some]
      · rw [getElem?_eq_none (not_lt.mp hl), getD_none]

theorem items_appendAll_eq_iff (grow : ℕ → ℕ) {n : ℕ} (hw : w.array < arrays.next) (hn : n ≤ w.len)
    (l : List α) :
    w.items ({ w with len := n }.appendAll grow arrays l).2 = w.items arrays ↔
      w.cap < n + l.length ∨ ((w.items arrays).drop n).take l.length = l.take (w.len - n) := by
  unfold appendAll
  dsimp only
  split_ifs with hcap
  · rw [items, set_get_self, items, map_overwrite_eq_iff hn, or_iff_right (not_lt.mpr hcap)]
  · refine iff_of_true ?_ (.inl (not_le.mp hcap))
    exact congrArg (map · (range w.len)) (update_of_ne hw.ne _ _)

@[simp] theorem items_ofList [Inhabited α] (arrays : Store (ℕ → α)) (l : List α) :
    (ofList arrays l).1.items (ofList arrays l).2 = l := by
  rw [items, ofList, alloc_get_next]
  apply ext_getElem (by simp)
  intro i _ hi
  rw [getElem_map, getElem_range, getD_eq_getElem?_getD, getElem?_eq_getElem hi, getD_some]

theorem items_erase {i : ℕ} (hi : i < w.len) :
    (w.erase arrays i).1.items (w.erase arrays i).2 = (w.items arrays).eraseIdx i := by
  rw [items, erase, set_get_self]
  apply ext_getElem
  · rw [length_eraseIdx]
    simp [items, hi]
  · intro j hj _
    replace hj : j < w.len - 1 := by simpa using hj
    rw [getElem_map, getElem_range, getElem_eraseIdx]
    simp only [items, getElem_map, getElem_range]
    split_ifs <;> first | rfl | omega

theorem retains_append {base : Store (ℕ → α)} (h : base.Retains arrays) (hv : base.next ≤ v.array)
    (a : α) : base.Retains (v.append grow arrays a).2 := by
  unfold append
  dsimp only
  split_ifs
  · exact h.set hv _
  · exact h.alloc _

theorem append_array (grow : ℕ → ℕ) (arrays : Store (ℕ → α)) (v : Window) (a : α) :
    v.len < v.cap ∧ (v.append grow arrays a).1.array = v.array ∨
      (v.append grow arrays a).1.array = arrays.next := by
  unfold append
  dsimp only
  split_ifs with hlt
  · exact .inl ⟨hlt, rfl⟩
  · exact .inr rfl

theorem append_next_le (a : α) : arrays.next ≤ (v.append grow arrays a).2.next := by
  unfold append
  dsimp only
  split_ifs
  · exact le_rfl
  · exact le_succ _

theorem append_array_lt (hv : v.array < arrays.next) (a : α) :
    (v.append grow arrays a).1.array < (v.append grow arrays a).2.next := by
  unfold append
  dsimp only
  split_ifs
  · exact hv
  · exact lt_succ_self _

theorem follows_append (hw : w.array < arrays.next) (h : w.Follows v) (a : α) :
    w.Follows (v.append grow arrays a).1 := by
  unfold append
  dsimp only
  split_ifs
  · intro harray
    exact (h harray).trans (le_succ _)
  · intro harray
    exact absurd harray hw.ne'

theorem items_append_of_follows (hw : w.array < arrays.next) (h : w.Follows v) (a : α) :
    w.items (v.append grow arrays a).2 = w.items arrays := by
  refine map_congr_left ?_
  intro i hi
  have hi := mem_range.mp hi
  unfold append
  dsimp only
  split_ifs
  · by_cases harray : w.array = v.array
    · rw [harray, set_get_self]
      exact update_of_ne (hi.trans_le (h harray.symm)).ne _ _
    · exact congrFun (set_get_of_ne harray) i
  · exact congrFun (update_of_ne hw.ne _ _) i

end Window

end Mainnet.Lib
