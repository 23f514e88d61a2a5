import Mathlib.Data.Finset.Card

namespace Mainnet.Lib.Quorum

variable {α : Type} [DecidableEq α]

/-- Two quorums of `q` members each overlap in more than `f` members when `2q` exceeds the
number of members by more than `f`. -/
theorem lt_card_inter {U A B : Finset α} {q f : ℕ} (hA : A ⊆ U) (hB : B ⊆ U)
    (hqA : q ≤ A.card) (hqB : q ≤ B.card) (hq : U.card + f < 2 * q) : f < (A ∩ B).card := by
  have hunion : (A ∪ B).card ≤ U.card := Finset.card_le_card (Finset.union_subset hA hB)
  have hinter := Finset.card_union_add_card_inter A B
  omega

end Mainnet.Lib.Quorum
