import Mathlib.Data.List.Basic
import Mathlib.Tactic.Linarith

namespace Mainnet.Lib.Search

open List Nat

def loop (f : ℕ → Bool) : ℕ → ℕ → ℕ → ℕ
  | 0, i, _ => i
  | fuel + 1, i, j =>
    if i < j then
      let h := (i + j) / 2
      if f h then loop f fuel i h else loop f fuel (h + 1) j
    else i

/-- Go's `sort.Search`: binary search on `[0, n)` for the smallest index at which `f` is true. -/
def search (n : ℕ) (f : ℕ → Bool) : ℕ := loop f n 0 n

variable {f : ℕ → Bool} {n fuel i j p : ℕ}

theorem loop_spec (hf : ∀ a b, a ≤ b → f a = true → f b = true) (hij : i ≤ j) (hj : j ≤ n)
    (hfuel : j - i ≤ fuel) (hlow : ∀ k < i, f k = false) (hhigh : j < n → f j = true) :
    loop f fuel i j ≤ n ∧ (∀ k < loop f fuel i j, f k = false) ∧
      (loop f fuel i j < n → f (loop f fuel i j) = true) := by
  induction fuel generalizing i j with
  | zero =>
    have h : i = j := by omega
    subst h
    exact ⟨hj, hlow, hhigh⟩
  | succ fuel ih =>
    unfold loop
    by_cases hlt : i < j
    · rw [if_pos hlt]
      by_cases hm : f ((i + j) / 2) = true
      · simp only [hm, if_true]
        exact ih (by omega) (by omega) (by omega) hlow (fun _ ↦ hm)
      · simp only [hm]
        refine ih (by omega) hj (by omega) (fun k hk ↦ ?_) hhigh
        by_contra hk'
        exact hm (hf k _ (by omega) (by simpa using hk'))
    · rw [if_neg hlt]
      have h : i = j := by omega
      subst h
      exact ⟨hj, hlow, hhigh⟩

theorem search_spec (n : ℕ) (hf : ∀ a b, a ≤ b → f a = true → f b = true) :
    search n f ≤ n ∧ (∀ k < search n f, f k = false) ∧ (search n f < n → f (search n f) = true) :=
  loop_spec hf (zero_le n) le_rfl (by omega) (by omega) (by omega)

/-- The indices that a search of `[i, j)` looks at as long as `f` is false there. -/
def probes : ℕ → ℕ → ℕ → List ℕ
  | 0, _, _ => []
  | fuel + 1, i, j => if i < j then (i + j) / 2 :: probes fuel ((i + j) / 2 + 1) j else []

theorem loop_false (hij : i ≤ j) (hfuel : j - i ≤ fuel)
    (hf : ∀ k, i ≤ k → k < j → f k = false) : loop f fuel i j = j := by
  induction fuel generalizing i with
  | zero =>
    rw [loop]
    omega
  | succ fuel ih =>
    rw [loop]
    by_cases hlt : i < j
    · simp only [if_pos hlt, hf ((i + j) / 2) (by omega) (by omega)]
      exact ih (by omega) (by omega) fun k hk hkj ↦ hf k (by omega) hkj
    · rw [if_neg hlt]
      omega

theorem loop_single (hf : ∀ k < j, f k = true ↔ k = p) (hij : i ≤ j) (hfuel : j - i ≤ fuel) :
    loop f fuel i j = if p ∈ probes fuel i j then p else j := by
  induction fuel generalizing i with
  | zero =>
    simp only [loop, probes, not_mem_nil, if_false]
    omega
  | succ fuel ih =>
    rw [loop, probes]
    by_cases hlt : i < j
    · rw [if_pos hlt, if_pos hlt]
      by_cases hmid : (i + j) / 2 = p
      · have htrue : f p = true := (hf p (by omega)).mpr rfl
        simp only [hmid, htrue, if_true, mem_cons_self]
        refine loop_false (by omega) (by omega) fun k _ hk ↦ ?_
        rw [← Bool.not_eq_true, hf k (by omega)]
        omega
      · have hfalse : f ((i + j) / 2) = false := by
          rw [← Bool.not_eq_true, hf _ (by omega)]
          exact hmid
        simp only [hfalse, mem_cons, Ne.symm hmid, false_or]
        exact ih (by omega) (by omega)
    · rw [if_neg hlt, if_neg hlt, if_neg not_mem_nil]
      omega

theorem search_false (hf : ∀ k < n, f k = false) : search n f = n :=
  loop_false (zero_le n) le_rfl fun k _ ↦ hf k

theorem search_single (hf : ∀ k < n, f k = true ↔ k = p) :
    search n f = if p ∈ probes n 0 n then p else n :=
  loop_single hf (zero_le n) le_rfl

end Mainnet.Lib.Search
