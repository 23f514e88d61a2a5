import Mathlib.Data.List.Basic

namespace Mainnet.Lib

/-- How a reader answers one call: how many bytes it delivers at most, and whether it reports the
end of the file together with the last of them. -/
structure Answer where
  most : ℕ
  atOnce : Bool

/-- A source of bytes with the answers that it gives to the calls to come. -/
structure Reader where
  rest : List UInt8
  answers : ℕ → Answer

namespace Reader

variable (r : Reader) (m : ℕ)

def count : ℕ := min (r.answers 0).most (min m r.rest.length)

def eof : Bool := (r.answers 0).atOnce && decide (r.count m = r.rest.length)

def data : List UInt8 := r.rest.take (r.count m)

def after : Reader := ⟨r.rest.drop (r.count m), fun i ↦ r.answers (i + 1)⟩

def Fills : Prop := r.count m = m ∧ r.eof m = false

instance : Decidable (r.Fills m) := inferInstanceAs (Decidable (_ ∧ _))

variable {r m}

theorem count_le_length : r.count m ≤ r.rest.length :=
  Nat.le_trans (Nat.min_le_right _ _) (Nat.min_le_right _ _)

theorem count_le : r.count m ≤ m :=
  Nat.le_trans (Nat.min_le_right _ _) (Nat.min_le_left _ _)

@[simp] theorem length_data : (r.data m).length = r.count m := by
  rw [data, List.length_take]
  exact Nat.min_eq_left count_le_length

theorem Fills.le_length (h : r.Fills m) : m ≤ r.rest.length := by
  rw [← h.1]
  exact count_le_length

theorem Fills.data_eq (h : r.Fills m) : r.data m = r.rest.take m := by rw [data, h.1]

theorem Fills.rest_after (h : r.Fills m) : (r.after m).rest = r.rest.drop m := by
  rw [after, h.1]

theorem count_eq_length_of_eof (h : r.eof m = true) : r.count m = r.rest.length := by
  rw [eof, Bool.and_eq_true] at h
  exact of_decide_eq_true h.2

end Reader

end Mainnet.Lib
