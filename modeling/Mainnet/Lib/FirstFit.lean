import Mathlib.Data.List.GetD
import Mathlib.Data.List.Induction
import Mathlib.Tactic.Linarith

namespace Mainnet.Lib.FirstFit

open List Nat

variable {α β : Type} (conf : α → α → Bool)

def place (a : α) : List (List α) → List (List α)
  | [] => [[a]]
  | g :: gs => if g.any (conf a) then g :: place a gs else (g ++ [a]) :: gs

def firstFit (l : List α) : List (List α) := l.foldl (fun gs a ↦ place conf a gs) []

def slot (a : α) : List (List α) → ℕ
  | [] => 0
  | g :: gs => if g.any (conf a) then slot a gs + 1 else 0

def groupOf (l : List α) (j : ℕ) : ℕ :=
  (l[j]?).elim 0 fun a ↦ slot conf a (firstFit conf (l.take j))

theorem firstFit_append_singleton (l : List α) (a : α) :
    firstFit conf (l ++ [a]) = place conf a (firstFit conf l) := by
  rw [firstFit, foldl_append]
  rfl

theorem place_map (f : β → α) (b : β) (gs : List (List β)) :
    place conf (f b) (gs.map (map f)) =
      (place (fun x y ↦ conf (f x) (f y)) b gs).map (map f) := by
  induction gs with
  | nil => rfl
  | cons g gs ih =>
    have hany : (g.map f).any (conf (f b)) = g.any fun y ↦ conf (f b) (f y) := by
      rw [any_map]
      rfl
    rw [map_cons, place, place, hany]
    split
    · rw [ih, map_cons]
    · rw [map_cons, map_append, map_singleton]

theorem firstFit_map (f : β → α) (l : List β) :
    firstFit conf (l.map f) = (firstFit (fun x y ↦ conf (f x) (f y)) l).map (map f) := by
  induction l using reverseRecOn with
  | nil => rfl
  | append_singleton l b ih =>
    rw [map_append, map_singleton, firstFit_append_singleton, ih, place_map,
      firstFit_append_singleton]

theorem slot_map (f : β → α) (b : β) (gs : List (List β)) :
    slot conf (f b) (gs.map (map f)) = slot (fun x y ↦ conf (f x) (f y)) b gs := by
  induction gs with
  | nil => rfl
  | cons g gs ih =>
    rw [map_cons, slot, slot, any_map, ih]
    rfl

theorem groupOf_map (f : β → α) (l : List β) (j : ℕ) :
    groupOf conf (l.map f) j = groupOf (fun x y ↦ conf (f x) (f y)) l j := by
  rw [groupOf, groupOf, getElem?_map, ← map_take, firstFit_map]
  cases l[j]? with
  | none => rfl
  | some b => exact slot_map conf f b _

variable {a x b : α} {gs : List (List α)} {k i j : ℕ} {l : List α} {p : List α → Prop}

theorem mem_place :
    x ∈ (place conf a gs).getD k [] ↔ x ∈ gs.getD k [] ∨ (x = a ∧ k = slot conf a gs) := by
  induction gs generalizing k with
  | nil => cases k <;> simp [place, slot]
  | cons g gs ih =>
    rw [place, slot]
    split
    · cases k with
      | zero => simp
      | succ k => simpa using ih
    · cases k with
      | zero | succ k => simp

theorem place_sublist (h : ∀ g ∈ gs, g.Sublist l) :
    ∀ g ∈ place conf a gs, g.Sublist (l ++ [a]) := by
  induction gs with
  | nil => simp [place]
  | cons g gs ih =>
    rw [forall_mem_cons] at h
    rw [place]
    split
    · refine forall_mem_cons.mpr ⟨h.1.trans (sublist_append_left l [a]), ih h.2⟩
    · refine forall_mem_cons.mpr ⟨h.1.append (Sublist.refl [a]), fun g' hg' ↦ ?_⟩
      exact (h.2 g' hg').trans (sublist_append_left l [a])

theorem firstFit_sublist (l : List α) : ∀ g ∈ firstFit conf l, g.Sublist l := by
  induction l using reverseRecOn with
  | nil => simp [firstFit]
  | append_singleton l a ih =>
    rw [firstFit_append_singleton]
    exact place_sublist conf ih

theorem place_flatten (a : α) (gs : List (List α)) :
    (place conf a gs).flatten.Perm (gs.flatten ++ [a]) := by
  induction gs with
  | nil => exact Perm.refl _
  | cons g gs ih =>
    rw [place]
    split
    · rw [flatten_cons, flatten_cons, append_assoc]
      exact ih.append_left g
    · rw [flatten_cons, flatten_cons, append_assoc, append_assoc]
      exact perm_append_comm.append_left g

theorem firstFit_flatten (l : List α) : (firstFit conf l).flatten.Perm l := by
  induction l using reverseRecOn with
  | nil => exact Perm.refl _
  | append_singleton l a ih =>
    rw [firstFit_append_singleton]
    exact (place_flatten conf a _).trans (ih.append_right [a])

theorem place_forall (hone : p [a])
    (hadd : ∀ g, p g → g.any (conf a) = false → p (g ++ [a])) (h : ∀ g ∈ gs, p g) :
    ∀ g ∈ place conf a gs, p g := by
  induction gs with
  | nil => simpa [place] using hone
  | cons g gs ih =>
    rw [forall_mem_cons] at h
    rw [place]
    split
    · exact forall_mem_cons.mpr ⟨h.1, ih h.2⟩
    · rename_i hany
      exact forall_mem_cons.mpr ⟨hadd g h.1 (Bool.not_eq_true _ ▸ hany), h.2⟩

theorem firstFit_forall (hone : ∀ a, p [a])
    (hadd : ∀ a g, p g → g.any (conf a) = false → p (g ++ [a])) (l : List α) :
    ∀ g ∈ firstFit conf l, p g := by
  induction l using reverseRecOn with
  | nil => simp [firstFit]
  | append_singleton l a ih =>
    rw [firstFit_append_singleton]
    exact place_forall conf (hone a) (hadd a) ih

theorem firstFit_ne_nil (l : List α) : ∀ g ∈ firstFit conf l, g ≠ [] :=
  firstFit_forall conf (fun _ ↦ cons_ne_nil _ _) (fun _ _ _ _ ↦ by simp) l

theorem firstFit_pairwise (l : List α) :
    ∀ g ∈ firstFit conf l, g.Pairwise fun b a ↦ conf a b = false := by
  refine firstFit_forall conf (fun a ↦ pairwise_singleton _ a) ?_ l
  intro a g hg hany
  refine pairwise_append.mpr ⟨hg, pairwise_singleton _ a, ?_⟩
  intro b hb c hc
  obtain rfl := mem_singleton.mp hc
  have hnot := any_eq_false.mp hany b hb
  exact Bool.not_eq_true _ ▸ hnot

theorem slot_below (h : k < slot conf a gs) : ∃ b ∈ gs.getD k [], conf a b = true := by
  induction gs generalizing k with
  | nil => exact absurd h (not_lt_zero k)
  | cons g gs ih =>
    rw [slot] at h
    split at h
    · rename_i hany
      cases k with
      | zero => simpa using hany
      | succ k => simpa using ih (lt_of_succ_lt_succ h)
    · exact absurd h (not_lt_zero k)

theorem slot_free (h : b ∈ gs.getD (slot conf a gs) []) : conf a b = false := by
  induction gs with
  | nil => simp at h
  | cons g gs ih =>
    rw [slot] at h
    split at h
    · exact ih (by simpa using h)
    · rename_i hany
      have hb : b ∈ g := by simpa using h
      by_contra hc
      exact hany (any_eq_true.mpr ⟨b, hb, by simpa using hc⟩)

theorem groupOf_take (h : i < j) : groupOf conf (l.take j) i = groupOf conf l i := by
  rw [groupOf, groupOf, getElem?_take_of_lt h, take_take, min_eq_left h.le]

theorem mem_firstFit :
    x ∈ (firstFit conf l).getD k [] ↔ ∃ j, l[j]? = some x ∧ groupOf conf l j = k := by
  induction l using reverseRecOn with
  | nil => simp [firstFit]
  | append_singleton l a ih =>
    have hold : ∀ j < l.length, groupOf conf (l ++ [a]) j = groupOf conf l j := by
      intro j hj
      rw [← groupOf_take conf hj, take_left]
    have hnew : groupOf conf (l ++ [a]) l.length = slot conf a (firstFit conf l) := by
      rw [groupOf, getElem?_concat_length, take_left]
      rfl
    rw [firstFit_append_singleton, mem_place, ih]
    constructor
    · rintro (⟨j, hj, hk⟩ | ⟨rfl, rfl⟩)
      · have hlt := (List.getElem?_eq_some_iff.mp hj).1
        exact ⟨j, by rwa [List.getElem?_append_left hlt], by rw [hold j hlt, hk]⟩
      · exact ⟨l.length, getElem?_concat_length, hnew⟩
    · rintro ⟨j, hj, hk⟩
      rcases lt_or_ge j l.length with hlt | hge
      · rw [getElem?_append_left hlt] at hj
        exact .inl ⟨j, hj, by rw [← hold j hlt, hk]⟩
      · have hlen := (List.getElem?_eq_some_iff.mp hj).1
        rw [length_append, length_singleton] at hlen
        obtain rfl : j = l.length := by omega
        rw [getElem?_concat_length] at hj
        exact .inr ⟨(Option.some.inj hj).symm, by rw [← hnew, hk]⟩

theorem groupOf_below (ha : l[j]? = some a) (hk : k < groupOf conf l j) :
    ∃ i < j, ∃ b, l[i]? = some b ∧ groupOf conf l i = k ∧ conf a b = true := by
  rw [groupOf, ha, Option.elim_some] at hk
  obtain ⟨b, hb, hconf⟩ := slot_below conf hk
  obtain ⟨i, hi, hgroup⟩ := (mem_firstFit conf).mp hb
  have hij : i < j := by
    have hlen := (List.getElem?_eq_some_iff.mp hi).1
    rw [length_take] at hlen
    omega
  rw [groupOf_take conf hij] at hgroup
  rw [getElem?_take_of_lt hij] at hi
  exact ⟨i, hij, b, hi, hgroup, hconf⟩

theorem groupOf_free (ha : l[j]? = some a) (hb : l[i]? = some b)
    (hij : i < j) (heq : groupOf conf l i = groupOf conf l j) : conf a b = false := by
  have hslot : groupOf conf l j = slot conf a (firstFit conf (l.take j)) := by
    rw [groupOf, ha, Option.elim_some]
  have hmem : b ∈ (firstFit conf (l.take j)).getD (groupOf conf l j) [] := by
    refine (mem_firstFit conf).mpr ⟨i, ?_, ?_⟩
    · rwa [getElem?_take_of_lt hij]
    · rw [groupOf_take conf hij, heq]
  rw [hslot] at hmem
  exact slot_free conf hmem

def linked (l : List α) (i j : ℕ) : Bool :=
  match l[i]?, l[j]? with
  | some b, some a => conf a b
  | _, _ => false

section Layers

/-- The lengths of the longest chains that end at `0, …, n - 1`, where `S i j` links an earlier `i`
to `j`. -/
def depths (S : ℕ → ℕ → Bool) : ℕ → List ℕ
  | 0 => []
  | n + 1 => depths S n ++
      [((range n).map fun i ↦ if S i n then (depths S n).getD i 0 + 1 else 0).foldr max 0]

def depth (S : ℕ → ℕ → Bool) (j : ℕ) : ℕ := (depths S (j + 1)).getD j 0

variable {S : ℕ → ℕ → Bool} {R : ℕ → ℕ → Prop} {c : ℕ → ℕ} {i j n m : ℕ}

theorem length_depths (S : ℕ → ℕ → Bool) (n : ℕ) : (depths S n).length = n := by
  induction n with
  | zero => rfl
  | succ n ih => simp [depths, ih]

theorem depths_getD (h : j < n) : (depths S n).getD j 0 = depth S j := by
  induction n with
  | zero => omega
  | succ n ih =>
    rcases Nat.lt_succ_iff_lt_or_eq.mp h with hlt | rfl
    · rw [← ih hlt, depths, getD_append _ _ _ _ (by rwa [length_depths])]
    · rfl

theorem depth_eq (S : ℕ → ℕ → Bool) (j : ℕ) : depth S j =
    ((range j).map fun i ↦ if S i j then depth S i + 1 else 0).foldr max 0 := by
  have hmap : ((range j).map fun i ↦ if S i j then (depths S j).getD i 0 + 1 else 0) =
      (range j).map fun i ↦ if S i j then depth S i + 1 else 0 := by
    apply map_congr_left
    intro i hi
    rw [depths_getD (mem_range.mp hi)]
  rw [← hmap, depth, depths, getD_append_right _ _ _ _ (by rw [length_depths]), length_depths,
    Nat.sub_self]
  rfl

theorem foldr_max_le {l : List ℕ} : l.foldr max 0 ≤ m ↔ ∀ x ∈ l, x ≤ m := by
  induction l with
  | nil => simp
  | cons x l ih => simp [ih]

theorem depth_le_iff : depth S j ≤ m ↔ ∀ i < j, S i j = true → depth S i < m := by
  rw [depth_eq, foldr_max_le]
  constructor
  · intro h i hi hS
    have hle := h _ (mem_map.mpr ⟨i, mem_range.mpr hi, rfl⟩)
    rwa [if_pos hS] at hle
  · intro h x hx
    obtain ⟨i, hi, rfl⟩ := mem_map.mp hx
    split
    · exact h i (mem_range.mp hi) ‹_›
    · exact zero_le m

theorem depth_lt (hij : i < j) (hS : S i j = true) : depth S i < depth S j :=
  depth_le_iff.mp le_rfl i hij hS

/-- Every number below `c j` is taken by an earlier neighbour of `j`, and `c j` is not. -/
structure Fits (R : ℕ → ℕ → Prop) (n : ℕ) (c : ℕ → ℕ) : Prop where
  below : ∀ j < n, ∀ k < c j, ∃ i < j, c i = k ∧ R i j
  free : ∀ j < n, ∀ i < j, c i = c j → ¬ R i j

section

variable (h : Fits R n c) (hRS : ∀ {i j}, R i j → S i j = true)
include h hRS

theorem Fits.eq_depth_of_ordered
    (hord : ∀ j < n, ∀ i < j, S i j = true → c i < c j) (hj : j < n) : c j = depth S j := by
  induction j using Nat.strong_induction_on with
  | h j ih =>
    apply le_antisymm
    · by_contra hlt
      obtain ⟨i, hij, hc, hR⟩ := h.below j hj (depth S j) (by omega)
      have hd := depth_lt hij (hRS hR)
      rw [← ih i hij (by omega), hc] at hd
      exact lt_irrefl _ hd
    · refine depth_le_iff.mpr fun i hij hS ↦ ?_
      rw [← ih i hij (by omega)]
      exact hord j hj i hij hS

theorem Fits.eq_depth_of_layered
    (hlay : ∀ j < n, ∀ k < depth S j, ∃ i < j, depth S i = k ∧ R i j) (hj : j < n) :
    c j = depth S j := by
  induction j using Nat.strong_induction_on with
  | h j ih =>
    rcases lt_trichotomy (c j) (depth S j) with hlt | heq | hgt
    · obtain ⟨i, hij, hd, hR⟩ := hlay j hj (c j) hlt
      rw [← ih i hij (by omega)] at hd
      exact absurd hR (h.free j hj i hij hd)
    · exact heq
    · obtain ⟨i, hij, hc, hR⟩ := h.below j hj (depth S j) hgt
      have hd := depth_lt hij (hRS hR)
      rw [← ih i hij (by omega), hc] at hd
      exact absurd hd (lt_irrefl _)

/-- A first-fit numbering by `R` respects the links of `S` exactly when every level below an item
has a neighbour of that item. -/
theorem Fits.ordered_iff :
    (∀ j < n, ∀ i < j, S i j = true → c i < c j) ↔
      ∀ j < n, ∀ k < depth S j, ∃ i < j, depth S i = k ∧ R i j := by
  constructor
  · intro hord j hj k hk
    rw [← h.eq_depth_of_ordered hRS hord hj] at hk
    obtain ⟨i, hij, hc, hR⟩ := h.below j hj k hk
    exact ⟨i, hij, by rw [← h.eq_depth_of_ordered hRS hord (hij.trans hj), hc], hR⟩
  · intro hlay j hj i hij hS
    rw [h.eq_depth_of_layered hRS hlay hj, h.eq_depth_of_layered hRS hlay (hij.trans hj)]
    exact depth_lt hij hS

end

theorem fits_groupOf {α : Type} (conf : α → α → Bool) (l : List α) :
    Fits (fun i j ↦ linked conf l i j = true) l.length (groupOf conf l) where
  below j hj k hk := by
    have ha : l[j]? = some l[j] := getElem?_eq_getElem hj
    obtain ⟨i, hij, b, hb, hgroup, hconf⟩ := groupOf_below conf ha hk
    exact ⟨i, hij, hgroup, by simp only [linked, ha, hb, hconf]⟩
  free j hj i hij heq := by
    have ha : l[j]? = some l[j] := getElem?_eq_getElem hj
    have hb : l[i]? = some l[i] := getElem?_eq_getElem (hij.trans hj)
    simp only [linked, ha, hb, groupOf_free conf ha hb hij heq, Bool.false_eq_true, not_false_eq_true]

end Layers

end Mainnet.Lib.FirstFit
