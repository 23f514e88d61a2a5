import Mathlib.Data.List.Basic
import Mathlib.Tactic.Linarith

namespace Mainnet.Lib.Patricia

open List

/-- A radix tree with edges in `E`; `nil` is the empty tree. -/
inductive Tree (E V : Type)
  | nil
  | leaf (v : V)
  | short (key : List E) (child : Tree E V)
  | full (edges : E → Tree E V)

namespace Tree

variable {E V : Type}

section Get

variable [DecidableEq E]

def get : Tree E V → List E → Option V
  | .nil, _ => none
  | .leaf v, k => if k = [] then some v else none
  | .short key child, k => if key <+: k then child.get (k.drop key.length) else none
  | .full _, [] => none
  | .full edges, e :: k => (edges e).get k

@[simp] theorem get_nil (k : List E) : (nil : Tree E V).get k = none := rfl

@[simp] theorem get_leaf_nil (v : V) : (leaf v : Tree E V).get [] = some v := rfl

@[simp] theorem get_full_cons (edges : E → Tree E V) (e : E) (k : List E) :
    (full edges).get (e :: k) = (edges e).get k := rfl

@[simp] theorem get_short_append (key k : List E) (t : Tree E V) :
    (short key t).get (key ++ k) = t.get k := by
  simp [get]

theorem get_short_of_mismatch {key k : List E} (t : Tree E V) (h : ¬ key <+: k) :
    (short key t).get k = none := by
  simp [get, h]

theorem get_short_eq_some {key k : List E} {t : Tree E V} {v : V}
    (h : (short key t).get k = some v) : ∃ rest, k = key ++ rest ∧ t.get rest = some v := by
  by_cases hp : key <+: k
  · obtain ⟨rest, rfl⟩ := hp
    exact ⟨rest, rfl, by simpa using h⟩
  · rw [get_short_of_mismatch t hp] at h
    cases h

end Get

/-- The nonempty trees in normal form whose keys all have length `n`. -/
inductive Canonical : ℕ → Tree E V → Prop
  | leaf (v : V) : Canonical 0 (.leaf v)
  | short {m n : ℕ} {key : List E} {child : Tree E V} (hm : m = key.length + n) (hk : key ≠ [])
      (hs : ∀ k c, child ≠ .short k c) (hc : Canonical n child) : Canonical m (.short key child)
  | full {m n : ℕ} {edges : E → Tree E V} (hm : m = n + 1)
      (he : ∀ i, edges i ≠ .nil → Canonical n (edges i))
      (h2 : ∃ i j, i ≠ j ∧ edges i ≠ .nil ∧ edges j ≠ .nil) : Canonical m (.full edges)

open Canonical

variable {n : ℕ} {t t' : Tree E V} {k key : List E} {v : V} {edges : E → Tree E V}

theorem Canonical.ne_nil (h : Canonical n t) : t ≠ .nil := by
  cases h <;> simp

theorem Canonical.eq_leaf (h : Canonical 0 t) : ∃ v, t = .leaf v := by
  cases h with
  | leaf v => exact ⟨v, rfl⟩
  | short hm hk => exact absurd (length_eq_zero_iff.mp (by omega)) hk
  | full hm => omega

variable [DecidableEq E]

theorem Canonical.length_of_get (h : Canonical n t) (hg : t.get k = some v) : k.length = n := by
  induction h generalizing k with
  | leaf w =>
    by_cases hk : k = []
    · simp [hk]
    · simp [get, hk] at hg
  | short hm _ _ _ ih =>
    obtain ⟨rest, rfl, hr⟩ := get_short_eq_some hg
    rw [length_append, ih hr, hm]
  | @full _ _ edges hm he _ ih =>
    cases k with
    | nil => cases hg
    | cons e k =>
      have hne : edges e ≠ .nil := fun hn ↦ by simp [hn] at hg
      rw [length_cons, ih e hne hg, hm]

theorem Canonical.exists_key (h : Canonical n t) : ∃ k v, t.get k = some v := by
  induction h with
  | leaf v => exact ⟨[], v, rfl⟩
  | @short _ _ key _ _ _ _ _ ih =>
    obtain ⟨k, v, hk⟩ := ih
    exact ⟨key ++ k, v, by simpa using hk⟩
  | full _ _ h2 ih =>
    obtain ⟨i, _, _, hi, _⟩ := h2
    obtain ⟨k, v, hk⟩ := ih i hi
    exact ⟨i :: k, v, hk⟩

theorem Canonical.exists_ne_heads (h : Canonical n (.full edges)) :
    ∃ i j k l, i ≠ j ∧ ((Tree.full edges).get (i :: k)).isSome ∧ ((Tree.full edges).get (j :: l)).isSome := by
  cases h with
  | full _ he h2 =>
    obtain ⟨i, j, hij, hi, hj⟩ := h2
    obtain ⟨k, v, hk⟩ := (he i hi).exists_key
    obtain ⟨l, w, hl⟩ := (he j hj).exists_key
    exact ⟨i, j, k, l, hij, by simp [hk], by simp [hl]⟩

theorem Canonical.not_full_of_cons (h : Canonical n (.full edges))
    (e : E) (k : List E) (ht : ∀ l v, (Tree.full edges).get l = some v → (e :: k) <+: l) : False := by
  obtain ⟨i, j, p, q, hij, hi, hj⟩ := h.exists_ne_heads
  obtain ⟨v, hv⟩ := Option.isSome_iff_exists.mp hi
  obtain ⟨w, hw⟩ := Option.isSome_iff_exists.mp hj
  obtain ⟨x, hx⟩ := ht _ _ hv
  obtain ⟨y, hy⟩ := ht _ _ hw
  simp only [cons_append, cons.injEq] at hx hy
  exact hij (hx.1.symm.trans hy.1)

theorem prefix_of_get_short (h : (short key t).get k = some v) : key <+: k := by
  obtain ⟨rest, rfl, _⟩ := get_short_eq_some h
  exact prefix_append _ _

/-- A compressed path is as long as it can be: no other path covers the same keys. -/
theorem Canonical.key_le {m : ℕ} {key' : List E}
    (h : Canonical m (.short key t)) (h' : Canonical n (.short key' t'))
    (hg : ∀ k, (Tree.short key t).get k = (Tree.short key' t').get k) : key' <+: key := by
  obtain ⟨k, v, hk⟩ := h.exists_key
  have h1 := prefix_of_get_short hk
  have h2 := prefix_of_get_short ((hg k).symm.trans hk)
  rcases prefix_or_prefix_of_prefix h1 h2 with hp | hp
  · obtain ⟨rest, rfl⟩ := hp
    cases rest with
    | nil => simp
    | cons e rest =>
      -- The child below `key` would have all its keys start with `e`.
      have hcov : ∀ l w, t.get l = some w → (e :: rest) <+: l := by
        intro l w hl
        have hl' : (Tree.short (key ++ e :: rest) t').get (key ++ l) = some w := by
          rw [← hg]; simpa using hl
        exact (prefix_append_right_inj key).mp (prefix_of_get_short hl')
      cases h with
      | short hm _ hs hc =>
        cases hc with
        | leaf w =>
          have := hcov [] w rfl
          simp at this
        | short _ _ _ _ => exact absurd rfl (hs _ _)
        | full hm' he h2 => exact (not_full_of_cons (.full hm' he h2) e rest hcov).elim
  · exact hp

/-- The normal form is determined by the map that it stands for. -/
theorem Canonical.unique (h : Canonical n t) (h' : Canonical n t')
    (hg : ∀ k, t.get k = t'.get k) : t = t' := by
  induction h generalizing t' with
  | leaf v =>
    cases h' with
    | leaf w => simpa using hg []
    | short hm hk _ _ => exact absurd (length_eq_zero_iff.mp (by omega)) hk
    | full hm _ _ => omega
  | @short m n key child hm hk hs hc ih =>
    cases h' with
    | leaf w => exact absurd (length_eq_zero_iff.mp (by omega)) hk
    | @short _ n' key' child' hm' hk' hs' hc' =>
      have hle := (short hm hk hs hc).key_le (short hm' hk' hs' hc') hg
      have hge := (short hm' hk' hs' hc').key_le (short hm hk hs hc)
        fun k ↦ (hg k).symm
      obtain rfl := IsPrefix.eq_of_length hle (hle.length_le.antisymm hge.length_le)
      obtain rfl : n = n' := by omega
      rw [ih hc' fun k ↦ by simpa using hg (key' ++ k)]
    | full hm' he' h2' =>
      obtain ⟨e, rest, rfl⟩ := exists_cons_of_ne_nil hk
      exact (not_full_of_cons (.full hm' he' h2') e rest
        fun l v hl ↦ prefix_of_get_short ((hg l).trans hl)).elim
  | @full m n edges hm he h2 ih =>
    cases h' with
    | leaf w => omega
    | @short _ n' key' child' hm' hk' hs' hc' =>
      obtain ⟨e, rest, rfl⟩ := exists_cons_of_ne_nil hk'
      exact (not_full_of_cons (.full hm he h2) e rest
        fun l v hl ↦ prefix_of_get_short ((hg l).symm.trans hl)).elim
    | @full _ n' edges' hm' he' h2' =>
      obtain rfl : n = n' := by omega
      congr 1
      funext i
      have hi : ∀ k, (edges i).get k = (edges' i).get k := fun k ↦ hg (i :: k)
      by_cases hn : edges i = .nil
      · by_cases hn' : edges' i = .nil
        · rw [hn, hn']
        · obtain ⟨k, v, hk⟩ := (he' i hn').exists_key
          rw [← hi, hn] at hk
          cases hk
      · by_cases hn' : edges' i = .nil
        · obtain ⟨k, v, hk⟩ := (he i hn).exists_key
          rw [hi, hn'] at hk
          cases hk
        · exact ih i hn (he' i hn') hi

end Tree

end Mainnet.Lib.Patricia
