import Mathlib.Data.List.Pairwise
import Mathlib.Order.Nat

namespace Mainnet.Lib.Tiling

open List Bool

variable {α : Type} (lo : α → ℕ) (hi : α → Option ℕ)

def covers (a : α) (n : ℕ) : Bool := decide (lo a ≤ n) && (hi a).all (decide <| n ≤ ·)

/-- The ranges follow each other from `n` on without gaps, and the last is open. -/
inductive Tiles : ℕ → List α → Prop
  | last {n : ℕ} {a : α} : lo a = n → hi a = none → Tiles n [a]
  | cons {n b : ℕ} {a : α} {l : List α} : lo a = n → hi a = some b → n ≤ b → Tiles (b + 1) l →
      Tiles n (a :: l)

variable {lo hi} {a b a' : α} {l : List α} {n m : ℕ}

theorem covers_iff : covers lo hi a n = true ↔ lo a ≤ n ∧ ∀ m, hi a = some m → n ≤ m := by
  rw [covers, and_eq_true, decide_eq_true_eq]
  cases hi a <;> simp

theorem covers_open (h : hi a = none) : covers lo hi a n = true ↔ lo a ≤ n := by
  rw [covers_iff, h]
  simp

theorem Tiles.le_lo (h : Tiles lo hi n l) (ha : a ∈ l) : n ≤ lo a := by
  induction h with
  | last hlo _ => exact (mem_singleton.mp ha ▸ hlo).ge
  | cons hlo _ hle _ ih =>
    rcases mem_cons.mp ha with rfl | ha
    · exact hlo.ge
    · have := ih ha
      omega

theorem Tiles.exists_covers (h : Tiles lo hi n l) (hm : n ≤ m) :
    ∃ a ∈ l, covers lo hi a m = true := by
  induction h with
  | @last n a hlo hopen =>
    exact ⟨a, mem_singleton_self a, (covers_open hopen).mpr (hlo.trans_le hm)⟩
  | @cons n b a l hlo hhi _ _ ih =>
    rcases Nat.lt_or_ge b m with hlt | hge
    · obtain ⟨c, hc, hcover⟩ := ih hlt
      exact ⟨c, mem_cons_of_mem a hc, hcover⟩
    · refine ⟨a, mem_cons_self, covers_iff.mpr ⟨hlo.trans_le hm, fun k hk ↦ ?_⟩⟩
      rwa [← Option.some.inj (hhi.symm.trans hk)]

theorem Tiles.pairwise (h : Tiles lo hi n l) :
    l.Pairwise fun a b ↦ ∀ m, covers lo hi a m = true → covers lo hi b m = false := by
  induction h with
  | last _ _ => exact pairwise_singleton _ _
  | @cons n b a l _ hhi _ htail ih =>
    refine Pairwise.cons (fun c hc m hm ↦ ?_) ih
    have hle := (covers_iff.mp hm).2 b hhi
    have hlo := htail.le_lo hc
    rw [← not_eq_true, covers_iff]
    intro hcover
    omega

theorem Tiles.eq_of_covers (h : Tiles lo hi n l) (ha : a ∈ l) (hb : b ∈ l)
    (hca : covers lo hi a m = true) (hcb : covers lo hi b m = true) : a = b := by
  obtain ⟨i, hi', hia⟩ := mem_iff_getElem.mp ha
  obtain ⟨j, hj, hjb⟩ := mem_iff_getElem.mp hb
  subst hia hjb
  have hdisjoint := pairwise_iff_getElem.mp h.pairwise
  rcases Nat.lt_trichotomy i j with hlt | rfl | hgt
  · exact absurd hcb (not_eq_true _ ▸ hdisjoint i j hi' hj hlt m hca)
  · rfl
  · exact absurd hca (not_eq_true _ ▸ hdisjoint j i hj hi' hgt m hcb)

theorem Tiles.last_open (h : Tiles lo hi n (l ++ [a])) : hi a = none := by
  induction l generalizing n with
  | nil =>
    cases h with
    | last _ hopen => exact hopen
    | cons _ _ _ htail => cases htail
  | cons c l ih =>
    rw [cons_append] at h
    generalize hl : l ++ [a] = rest at h
    cases h with
    | last _ _ => simp at hl
    | cons _ _ _ htail => exact ih (hl ▸ htail)

theorem Tiles.split_last (h : Tiles lo hi n (l ++ [a])) (hlo : lo a' = lo a) (hlt : lo a < m)
    (hhi : hi a' = some (m - 1)) (hb : lo b = m) (hopen : hi b = none) :
    Tiles lo hi n (l ++ [a', b]) := by
  induction l generalizing n with
  | nil =>
    have hfirst : lo a = n := by
      cases h with
      | last hlo _ | cons hlo _ _ _ => exact hlo
    refine .cons (hlo.trans hfirst) hhi (by omega) (.last ?_ hopen)
    omega
  | cons c l ih =>
    rw [cons_append] at h ⊢
    cases hl : l ++ [a] with
    | nil => simp at hl
    | cons d rest =>
      rw [hl] at h
      cases h with
      | cons hlo' hhi' hle htail => exact .cons hlo' hhi' hle (ih (hl ▸ htail))

def lastCovering (lo : α → ℕ) (hi : α → Option ℕ) (l : List α) (n : ℕ) : Option α :=
  l.reverse.find? fun a ↦ covers lo hi a n

theorem lastCovering_eq_some (h : lastCovering lo hi l n = some a) :
    a ∈ l ∧ covers lo hi a n = true :=
  ⟨mem_reverse.mp (mem_of_find?_eq_some h), find?_some (p := fun a ↦ covers lo hi a n) h⟩

theorem lastCovering_isSome :
    (lastCovering lo hi l n).isSome = true ↔ ∃ a ∈ l, covers lo hi a n = true := by
  rw [lastCovering, find?_isSome]
  simp

theorem Tiles.lastCovering_isSome (h : Tiles lo hi n l) (hm : n ≤ m) :
    (lastCovering lo hi l m).isSome = true :=
  Tiling.lastCovering_isSome.mpr (h.exists_covers hm)

theorem lastCovering_split {β : Type} (f : α → β) (hf : f a' = f a) (hopen : hi a = none)
    (hlo : lo a' = lo a) (hhi : hi a' = some (m - 1)) (hb : lo b = m) (hn : n < m) :
    (lastCovering lo hi (l ++ [a', b]) n).map f = (lastCovering lo hi (l ++ [a]) n).map f := by
  have hcb : covers lo hi b n = false := by
    rw [← not_eq_true, covers_iff]
    omega
  have hca : covers lo hi a' n = covers lo hi a n := by
    rw [Bool.eq_iff_iff, covers_open hopen, covers_iff, hhi, hlo]
    refine ⟨And.left, fun h ↦ ⟨h, fun k hk ↦ ?_⟩⟩
    rw [← Option.some.inj hk]
    omega
  simp only [lastCovering, reverse_append, reverse_cons, reverse_nil, nil_append,
    cons_append, find?_cons, hcb, hca]
  cases covers lo hi a n with
  | false => rfl
  | true => simp only [Option.map_some, hf]

theorem lastCovering_map {β : Type} (lo : β → ℕ) (hi : β → Option ℕ) (g : α → β) (l : List α)
    (n : ℕ) :
    lastCovering lo hi (l.map g) n = (lastCovering (lo ∘ g) (hi ∘ g) l n).map g := by
  rw [lastCovering, ← map_reverse, find?_map]
  rfl

theorem tiles_map {β : Type} (lo : β → ℕ) (hi : β → Option ℕ) (g : α → β) {l : List α} {n : ℕ} :
    Tiles lo hi n (l.map g) ↔ Tiles (lo ∘ g) (hi ∘ g) n l := by
  constructor
  · intro h
    induction l generalizing n with
    | nil => cases h
    | cons a l ih =>
      rw [map_cons] at h
      generalize hl : l.map g = l' at h
      cases h with
      | last hlo hopen =>
        rw [map_eq_nil_iff.mp hl]
        exact .last hlo hopen
      | cons hlo hhi hle htail => exact .cons hlo hhi hle (ih (hl ▸ htail))
  · intro h
    induction h with
    | last hlo hopen => exact .last hlo hopen
    | cons hlo hhi hle _ ih => exact .cons hlo hhi hle ih

end Mainnet.Lib.Tiling
