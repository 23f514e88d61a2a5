import Mathlib.Data.Nat.Notation
import Mathlib.Logic.Basic

namespace Mainnet.Lib.Heap

structure Ops (σ : Type) where
  less : σ → ℕ → ℕ → Bool
  swap : σ → ℕ → ℕ → σ

variable {σ : Type} (ops : Ops σ)

def up (s : σ) (j : ℕ) : σ :=
  let i := (j - 1) / 2
  if i = j ∨ ¬ ops.less s j i then s else up (ops.swap s i j) i
termination_by j
decreasing_by omega

def lesserChild (s : σ) (j1 n : ℕ) : ℕ :=
  if j1 + 1 < n ∧ ops.less s (j1 + 1) j1 then j1 + 1 else j1

def down (s : σ) (i n : ℕ) : σ × ℕ :=
  if 2 * i + 1 < n then
    let j := lesserChild ops s (2 * i + 1) n
    if ¬ ops.less s j i then (s, i) else down (ops.swap s i j) j n
  else (s, i)
termination_by n - i
decreasing_by
  simp only [lesserChild]
  split <;> omega

def bringLast (s : σ) (i n : ℕ) : σ :=
  if n ≠ i then
    let (s', i') := down ops (ops.swap s i n) i n
    if i < i' then s' else up ops s' i
  else s

variable {ops} {I : σ → Prop} {s : σ} {i j n : ℕ}

theorem lesserChild_lt (h : 2 * i + 1 < n) : lesserChild ops s (2 * i + 1) n < n := by
  rw [lesserChild]
  split <;> omega

section

variable (hswap : ∀ s i j, i < n → j < n → I s → I (ops.swap s i j))
include hswap

theorem up_invariant (hj : j < n) (hs : I s) : I (up ops s j) := by
  fun_induction up ops s j with
  | case1 s j => exact hs
  | case2 s j i _ ih =>
    have hi : i < n := by omega
    exact ih hi (hswap s i j hi hj hs)

theorem down_invariant (hs : I s) :
    I (down ops s i n).1 := by
  fun_induction down ops s i n with
  | case1 s i => exact hs
  | case2 s i hlt j _ ih =>
    have hi : i < n := by omega
    exact ih (hswap s i j hi (lesserChild_lt hlt) hs)
  | case3 s i => exact hs

theorem bringLast_invariant (hi : i < n) (hs : I (ops.swap s i n)) : I (bringLast ops s i n) := by
  rw [bringLast, if_pos (Nat.ne_of_gt hi)]
  have hdown := down_invariant (i := i) hswap hs
  dsimp only
  split
  · exact hdown
  · exact up_invariant hswap hi hdown

end

end Mainnet.Lib.Heap
