import Mathlib.Data.Finset.Card

namespace Mainnet.Lib

variable {α : Type*} {c n m : ℕ} {p q : α → Prop} {x : α}

/-- A balance of `n` holds `c` for each element that satisfies `p`. -/
def Covers (c : ℕ) (p : α → Prop) (n : ℕ) : Prop :=
  ∀ s : Finset α, (∀ y ∈ s, p y) → c * s.card ≤ n

namespace Covers

theorem mono (h : Covers c p n) (hqp : ∀ y, q y → p y) (hnm : n ≤ m) : Covers c q m := by
  intro s hs
  exact (h s fun y hy ↦ hqp y (hs y hy)).trans hnm

theorem le_of_holds (h : Covers c p n) (hx : p x) : c ≤ n := by
  simpa using h {x} (by simpa using hx)

theorem join (h : Covers c p n) (hqp : ∀ y, y ≠ x → q y → p y) (hnm : n + c ≤ m) :
    Covers c q m := by
  classical
  intro s hs
  have hrest : c * (s.erase x).card ≤ n := by
    apply h
    intro y hy
    obtain ⟨hne, hmem⟩ := Finset.mem_erase.mp hy
    exact hqp y hne (hs y hmem)
  have hcard : s.card ≤ (s.erase x).card + 1 :=
    Nat.sub_le_iff_le_add.mp Finset.pred_card_le_card_erase
  calc c * s.card ≤ c * ((s.erase x).card + 1) := Nat.mul_le_mul_left c hcard
    _ = c * (s.erase x).card + c := Nat.mul_succ c _
    _ ≤ m := (Nat.add_le_add_right hrest c).trans hnm

theorem leave (h : Covers c p n) (hx : p x) (hqx : ¬q x) (hqp : ∀ y, y ≠ x → q y → p y)
    (hnm : n ≤ m + c) : Covers c q m := by
  classical
  intro s hs
  have hxs : x ∉ s := fun hmem ↦ hqx (hs x hmem)
  have hall : c * (insert x s).card ≤ n := by
    apply h
    intro y hy
    obtain rfl | hmem := Finset.mem_insert.mp hy
    · exact hx
    · exact hqp y (fun heq ↦ hxs (heq ▸ hmem)) (hs y hmem)
  rw [Finset.card_insert_of_notMem hxs, Nat.mul_succ] at hall
  omega

theorem update [Decidable (p x)] [Decidable (q x)] (h : Covers c p n)
    (hqp : ∀ y, y ≠ x → q y → p y)
    (hnm : n + (if q x then c else 0) ≤ m + (if p x then c else 0)) : Covers c q m := by
  by_cases hp : p x
  · by_cases hq : q x
    · rw [if_pos hp, if_pos hq] at hnm
      refine h.mono (fun y hy ↦ ?_) (Nat.le_of_add_le_add_right hnm)
      by_cases hyx : y = x
      · exact hyx ▸ hp
      · exact hqp y hyx hy
    · rw [if_pos hp, if_neg hq] at hnm
      exact h.leave hp hq hqp hnm
  · have hle : n + (if q x then c else 0) ≤ m := by simpa [hp] using hnm
    by_cases hq : q x
    · exact h.join hqp (by simpa [hq] using hle)
    · refine h.mono (fun y hy ↦ ?_) (by simpa [hq] using hle)
      exact hqp y (fun hyx ↦ hq (hyx ▸ hy)) hy

end Covers

end Mainnet.Lib
