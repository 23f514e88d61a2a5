import Mathlib.Data.List.Basic
import Mathlib.Logic.Equiv.Basic
import Mainnet.Lib.Heap

namespace Mainnet.Lib.Heap

open List Bool Nat Equiv

variable {σ : Type}

/-- The contract of `container/heap`: `less` compares elements, which `swap` moves. -/
structure Ops.Lawful (ops : Ops σ) (len : σ → ℕ) : Prop where
  len_swap : ∀ s i j, len (ops.swap s i j) = len s
  less_swap : ∀ s a b i j, a < len s → b < len s →
    ops.less (ops.swap s a b) i j = ops.less s (Equiv.swap a b i) (Equiv.swap a b j)
  asymm : ∀ s i j, ops.less s i j → ops.less s j i = false
  trans : ∀ s i j k, j < len s → ops.less s j i = false → ops.less s k j = false →
    ops.less s k i = false

def Ordered (ops : Ops σ) (s : σ) (n : ℕ) : Prop :=
  ∀ k, 0 < k → k < n → ops.less s k ((k - 1) / 2) = false

structure OrderedAbove (ops : Ops σ) (s : σ) (j n : ℕ) : Prop where
  other : ∀ k, 0 < k → k < n → k ≠ j → ops.less s k ((k - 1) / 2) = false
  grand : ∀ k, 0 < k → k < n → 0 < j → (k - 1) / 2 = j → ops.less s k ((j - 1) / 2) = false

structure OrderedBelow (ops : Ops σ) (s : σ) (i n : ℕ) : Prop where
  other : ∀ k, 0 < k → k < n → (k - 1) / 2 ≠ i → ops.less s k ((k - 1) / 2) = false
  grand : ∀ k, 0 < k → k < n → 0 < i → (k - 1) / 2 = i → ops.less s k ((i - 1) / 2) = false

variable {ops : Ops σ} {len : σ → ℕ} {s : σ} {i j n : ℕ}

section

variable (hops : ops.Lawful len)
include hops

theorem OrderedAbove.swap (hn : n ≤ len s) (hj : j < n)
    (hij : (j - 1) / 2 ≠ j) (hless : ops.less s j ((j - 1) / 2)) (h : OrderedAbove ops s j n) :
    OrderedAbove ops (ops.swap s ((j - 1) / 2) j) ((j - 1) / 2) n := by
  generalize hi : (j - 1) / 2 = i at *
  have hi' : i < len s := by omega
  have hflip := hops.asymm s j i hless
  constructor
  · intro k hk hkn hki
    rw [hops.less_swap s i j _ _ hi' (by omega)]
    have hold := h.other k hk hkn
    have hgrand := h.grand k hk hkn (by omega)
    have := hops.trans s j i k hi' hflip
    grind
  · intro k hk hkn hi0 hki
    rw [hops.less_swap s i j _ _ hi' (by omega)]
    have hparent := h.other i hi0 (by omega) (by omega)
    have hold := h.other k hk hkn
    have := hops.trans s ((i - 1) / 2) i k hi' hparent
    grind

theorem ordered_up (hn : n ≤ len s) (hj : j < n)
    (h : OrderedAbove ops s j n) : Ordered ops (up ops s j) n := by
  fun_induction up ops s j with
  | case1 s j i hstop =>
    intro k hk hkn
    by_cases hkj : k = j
    · subst hkj
      rcases hstop with hroot | hless
      · omega
      · exact eq_false_iff.mpr hless
    · exact h.other k hk hkn hkj
  | case2 s j i hgo ih =>
    push Not at hgo
    refine ih ?_ (by omega) (h.swap hops hn hj hgo.1 hgo.2)
    rw [hops.len_swap]
    exact hn

theorem lesserChild_le {k : ℕ} (hk : 0 < k) (hkn : k < n)
    (hki : (k - 1) / 2 = i) : ops.less s k (lesserChild ops s (2 * i + 1) n) = false := by
  have hself : ∀ j, ops.less s j j = false := by
    intro j
    by_contra hne
    have htrue := not_eq_false _ ▸ hne
    exact hne (hops.asymm s j j htrue)
  have hchild : k = 2 * i + 1 ∨ k = 2 * i + 1 + 1 := by omega
  unfold lesserChild
  split_ifs with hright
  · rcases hchild with rfl | rfl
    · exact hops.asymm s _ _ hright.2
    · exact hself _
  · rcases hchild with rfl | rfl
    · exact hself _
    · exact eq_false_iff.mpr fun hless ↦ hright ⟨hkn, hless⟩

theorem OrderedBelow.swap (hn : n ≤ len s) (hj : j < n) (hj0 : 0 < j)
    (hij : (j - 1) / 2 = i) (hless : ops.less s j i)
    (hleast : ∀ k, 0 < k → k < n → (k - 1) / 2 = i → ops.less s k j = false)
    (h : OrderedBelow ops s i n) : OrderedBelow ops (ops.swap s i j) j n := by
  have hi : i < j := by omega
  have hflip := hops.asymm s j i hless
  constructor
  · intro k hk hkn hkj
    rw [hops.less_swap s i j _ _ (by omega) (by omega)]
    have hold := h.other k hk hkn
    have hgrand := h.grand j hj0 hj
    have hsib := hleast k hk hkn
    grind
  · intro k hk hkn _ hkj
    rw [hops.less_swap s i j _ _ (by omega) (by omega)]
    have hold := h.other k hk hkn
    grind

theorem ordered_down (hn : n ≤ len s) (h : OrderedBelow ops s i n) :
    Ordered ops (down ops s i n).1 n := by
  fun_induction down ops s i n with
  | case1 s i hlt j hstop =>
    intro k hk hkn
    by_cases hki : (k - 1) / 2 = i
    · have hj : j < len s := Nat.lt_of_lt_of_le (lesserChild_lt hlt) hn
      rw [hki]
      exact hops.trans s i j k hj (Bool.eq_false_iff.mpr hstop) (lesserChild_le hops hk hkn hki)
    · exact h.other k hk hkn hki
  | case2 s i hlt j hgo ih =>
    have hj : j = 2 * i + 1 ∨ j = 2 * i + 2 := by
      simp only [j, lesserChild]
      split_ifs <;> simp
    refine ih ?_ (h.swap hops hn (lesserChild_lt hlt) (by omega) (by omega) (not_not.mp hgo) ?_)
    · rw [hops.len_swap]
      exact hn
    · intro k hk hkn hki
      exact lesserChild_le hops hk hkn hki
  | case3 s i hleaf =>
    intro k hk hkn
    exact h.other k hk hkn (by omega)

theorem Ordered.root (hn : n ≤ len s) (h : Ordered ops s n) {k : ℕ}
    (hk : k < n) (hk0 : 0 < k) : ops.less s k 0 = false := by
  induction k using Nat.strongRecOn with
  | ind k ih =>
    by_cases hp : (k - 1) / 2 = 0
    · exact hp ▸ h k hk0 hk
    · exact hops.trans s 0 _ k (by omega) (ih _ (by omega) (by omega) (by omega)) (h k hk0 hk)

end

section Lists

variable {α : Type} (before : α → α → Bool)

/-- A slice of elements that are compared by `before`. Indices out of range make Go panic; the sifts
use none. -/
def listOps : Ops (List α) where
  less l i j :=
    match l[i]?, l[j]? with
    | some x, some y => before x y
    | _, _ => false
  swap l i j :=
    match l[i]?, l[j]? with
    | some x, some y => (l.set i y).set j x
    | _, _ => l

def push (l : List α) (x : α) : List α := up (listOps before) (l ++ [x]) l.length

def pop (l : List α) : Option (α × List α) :=
  let n := l.length - 1
  let s := (down (listOps before) ((listOps before).swap l 0 n) 0 n).1
  s.getLast?.map fun x ↦ (x, s.dropLast)

def drain (pop : List α → Option (α × List α)) : ℕ → List α → List α
  | 0, _ => []
  | n + 1, l =>
    match pop l with
    | none => []
    | some (x, l') => x :: drain pop n l'

structure WeakOrder (before : α → α → Bool) : Prop where
  asymm : ∀ x y, before x y → before y x = false
  trans : ∀ x y z, before y x = false → before z y = false → before z x = false

variable {before} {l l' : List α} {x : α}

theorem less_congr {i j i' j' : ℕ} (hi : l'[i']? = l[i]?) (hj : l'[j']? = l[j]?) :
    (listOps before).less l' i' j' = (listOps before).less l i j := by
  simp only [listOps, hi, hj]

theorem getElem?_swap {a b : ℕ} (ha : a < l.length) (hb : b < l.length) (k : ℕ) :
    ((listOps before).swap l a b)[k]? = l[swap a b k]? := by
  simp only [listOps, getElem?_eq_getElem ha, getElem?_eq_getElem hb, getElem?_set,
    length_set, swap_apply_def]
  grind

theorem swap_perm (l : List α) (a b : ℕ) : ((listOps before).swap l a b).Perm l := by
  simp only [listOps]
  split
  · rename_i x y ha hb
    obtain ⟨hia, rfl⟩ := List.getElem?_eq_some_iff.mp ha
    obtain ⟨hib, rfl⟩ := List.getElem?_eq_some_iff.mp hb
    exact set_set_perm hia hib
  · exact Perm.refl l

theorem lawful_listOps (h : WeakOrder before) : (listOps before).Lawful length where
  len_swap l i j := (swap_perm l i j).length_eq
  less_swap l a b i j ha hb := less_congr (getElem?_swap ha hb i) (getElem?_swap ha hb j)
  asymm l i j hless := by
    have := h.asymm
    simp only [listOps] at hless ⊢
    grind
  trans l i j k hj hji hkj := by
    have := h.trans
    simp only [listOps] at hji hkj ⊢
    grind

theorem push_perm (l : List α) (x : α) : (push before l x).Perm (x :: l) := by
  have hlen : l.length < (l ++ [x]).length := by simp
  have hperm : (push before l x).Perm (l ++ [x]) :=
    up_invariant (I := fun l' ↦ l'.Perm (l ++ [x]))
      (fun l' i j _ _ hl' ↦ (swap_perm l' i j).trans hl') hlen (Perm.refl _)
  exact hperm.trans (perm_append_singleton x l)

theorem ordered_push (h : WeakOrder before) (hl : Ordered (listOps before) l l.length) (x : α) :
    Ordered (listOps before) (push before l x) (push before l x).length := by
  rw [(push_perm l x).length_eq, length_cons]
  refine ordered_up (lawful_listOps h) (by simp) (lt_succ_self _) ⟨?_, ?_⟩
  · intro k hk hkn hne
    rw [← hl k hk (by omega)]
    exact less_congr (getElem?_append_left (by omega)) (getElem?_append_left (by omega))
  · intro k hk hkn _ hki
    omega

theorem before_head (h : WeakOrder before) (hl : Ordered (listOps before) l l.length)
    (hx : l.head? = some x) {y : α} (hy : y ∈ l) : before y x = false := by
  obtain ⟨k, hk, rfl⟩ := mem_iff_getElem.mp hy
  rw [head?_eq_getElem?] at hx
  obtain ⟨h0, rfl⟩ := List.getElem?_eq_some_iff.mp hx
  by_cases hk0 : k = 0
  · subst hk0
    by_contra htrue
    exact htrue (h.asymm _ _ (by simpa using htrue))
  · have hroot := hl.root (lawful_listOps h) (Nat.le_refl _) hk (Nat.pos_of_ne_zero hk0)
    simp only [listOps, getElem?_eq_getElem hk, getElem?_eq_getElem h0] at hroot
    exact hroot

theorem pop_nil : pop before [] = none := by
  simp [pop, down, listOps]

theorem pop_spec (h : WeakOrder before) (hl : Ordered (listOps before) l l.length)
    (hx : l.head? = some x) :
    ∃ l', pop before l = some (x, l') ∧ l.Perm (x :: l') ∧
      Ordered (listOps before) l' l'.length := by
  have hlen : 0 < l.length := length_pos_of_mem (mem_of_head? hx)
  obtain ⟨n, hn⟩ : ∃ n, l.length = n + 1 := ⟨l.length - 1, by omega⟩
  rw [head?_eq_getElem?] at hx
  simp only [pop, hn, Nat.add_sub_cancel]
  have hat : ∀ k, ((listOps before).swap l 0 n)[k]? = l[swap 0 n k]? :=
    getElem?_swap hlen (by omega)
  have hbelow : OrderedBelow (listOps before) ((listOps before).swap l 0 n) 0 n := by
    constructor
    · intro k hk hkn hroot
      rw [← hl k hk (by omega)]
      refine less_congr ?_ ?_ <;> rw [hat, swap_apply_of_ne_of_ne] <;> omega
    · intro k _ _ h0
      exact absurd h0 (Nat.lt_irrefl 0)
  have hheap := ordered_down (lawful_listOps h) (by rw [(swap_perm l 0 n).length_eq]; omega) hbelow
  -- the sift moves the elements before the last, which is the old root
  have hkeep : ∀ l' : List α, ∀ i j, i < n → j < n → l'.Perm l ∧ l'[n]? = some x →
      ((listOps before).swap l' i j).Perm l ∧ ((listOps before).swap l' i j)[n]? = some x := by
    rintro l' i j hi hj ⟨hperm, hlast⟩
    have hlen' := hperm.length_eq
    refine ⟨(swap_perm l' i j).trans hperm, ?_⟩
    rwa [getElem?_swap (by omega) (by omega), swap_apply_of_ne_of_ne (by omega) (by omega)]
  have hfirst : ((listOps before).swap l 0 n)[n]? = some x := by
    rw [hat, swap_apply_right, hx]
  obtain ⟨hperm, hlast⟩ := down_invariant (i := 0) hkeep ⟨swap_perm l 0 n, hfirst⟩
  generalize (down (listOps before) ((listOps before).swap l 0 n) 0 n).1 = s at *
  have hslen : s.length = n + 1 := hperm.length_eq.trans hn
  have hgetLast : s.getLast? = some x := by
    rwa [getLast?_eq_getElem?, hslen, Nat.add_sub_cancel]
  refine ⟨s.dropLast, by rw [hgetLast]; rfl, ?_, ?_⟩
  · have hsplit : s.dropLast ++ [x] = s := dropLast_append_getLast? x hgetLast
    exact (hperm.symm.trans (Perm.of_eq hsplit.symm)).trans (perm_append_singleton x _)
  · intro k hk hkn
    rw [length_dropLast] at hkn
    rw [← hheap k hk (by omega)]
    refine less_congr ?_ ?_ <;> rw [getElem?_dropLast, if_pos (by omega)]

theorem drain_spec (h : WeakOrder before) {n : ℕ} (hn : l.length ≤ n)
    (hl : Ordered (listOps before) l l.length) :
    (drain (pop before) n l).Perm l ∧
      (drain (pop before) n l).Pairwise fun x y ↦ before y x = false := by
  induction n generalizing l with
  | zero =>
    cases eq_nil_of_length_eq_zero (le_zero.mp hn)
    exact ⟨Perm.refl _, Pairwise.nil⟩
  | succ n ih =>
    cases hx : l.head? with
    | none =>
      cases head?_eq_none_iff.mp hx
      rw [drain, pop_nil]
      exact ⟨Perm.refl _, Pairwise.nil⟩
    | some x =>
      obtain ⟨l', hpop, hperm, hl'⟩ := pop_spec h hl hx
      have hlen := hperm.length_eq
      rw [length_cons] at hlen
      obtain ⟨hperm', hpairwise⟩ := ih (by omega) hl'
      rw [drain, hpop]
      refine ⟨(hperm'.cons x).trans hperm.symm, pairwise_cons.mpr ⟨fun y hy ↦ ?_, hpairwise⟩⟩
      have hmem : y ∈ l := hperm.mem_iff.mpr (mem_cons_of_mem x (hperm'.mem_iff.mp hy))
      exact before_head h hl hx hmem

theorem foldl_push_spec (h : WeakOrder before) (xs : List α)
    (hl : Ordered (listOps before) l l.length) :
    (xs.foldl (push before) l).Perm (xs ++ l) ∧
      Ordered (listOps before) (xs.foldl (push before) l) (xs.foldl (push before) l).length := by
  induction xs generalizing l with
  | nil => exact ⟨Perm.refl _, hl⟩
  | cons x xs ih =>
    obtain ⟨hperm, hordered⟩ := ih (ordered_push h hl x)
    refine ⟨hperm.trans ?_, hordered⟩
    exact ((push_perm l x).append_left xs).trans perm_middle

end Lists

end Mainnet.Lib.Heap
