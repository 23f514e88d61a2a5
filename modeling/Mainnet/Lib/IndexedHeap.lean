import Mathlib.Data.List.Nodup
import Mainnet.Lib.HeapOrder

namespace Mainnet.Lib.Heap

open List Function

variable {κ : Type}

/-- Each item carries its place in the heap, and `-1` once it is out of it. -/
structure Indexed (items : List κ) (index : κ → ℤ) : Prop where
  nodup : items.Nodup
  place : ∀ (k : ℕ) x, items[k]? = some x → index x = k
  outside : ∀ x ∉ items, index x = -1

namespace Indexed

variable {items : List κ} {index : κ → ℤ} {x : κ} {i j : ℕ}

theorem inj (h : Indexed items index) (hi : items[i]? = some x) (hj : items[j]? = some x) : i = j :=
  Int.ofNat.inj ((h.place i x hi).symm.trans (h.place j x hj))

variable [DecidableEq κ]

theorem swap (h : Indexed items index) {a b : κ} (ha : items[i]? = some a) (hb : items[j]? = some b) :
    Indexed ((items.set i b).set j a) (update (update index b i) a j) := by
  obtain ⟨hi, rfl⟩ := List.getElem?_eq_some_iff.mp ha
  obtain ⟨hj, rfl⟩ := List.getElem?_eq_some_iff.mp hb
  have hperm := set_set_perm hi hj
  refine ⟨hperm.nodup_iff.mpr h.nodup, fun k x hk ↦ ?_, fun x hx ↦ ?_⟩
  · have hplace := h.place k x
    have hinj := fun i ↦ h.inj (i := i) (j := k) (x := x)
    grind
  · rw [hperm.mem_iff] at hx
    have := h.outside x hx
    grind

theorem push (h : Indexed items index) (hx : x ∉ items) :
    Indexed (items ++ [x]) (update index x items.length) := by
  refine ⟨?_, fun k y hk ↦ ?_, fun y hy ↦ ?_⟩
  · have := h.nodup
    grind
  · have hplace := h.place k y
    grind
  · have := h.outside y
    grind

theorem pop (h : Indexed (items ++ [x]) index) : Indexed items (update index x (-1)) := by
  have hnodup := h.nodup
  refine ⟨by grind, fun k y hk ↦ ?_, fun y hy ↦ ?_⟩
  · have hplace := h.place k y
    grind
  · have := h.outside y
    grind

end Indexed

end Mainnet.Lib.Heap
