import Mainnet.Validators.Set

namespace Mainnet.Consensus

open Types Validators List Option Nat

/-- `none` is the panic of an empty set. -/
def calcProposer (validators : ValidatorSet) (round : ℕ) (lastProposer : Address) :
    Option Validator :=
  let seed :=
    if lastProposer = zeroAddress then round
    else ((validators.index lastProposer).getD 0 + round + 1) % 2 ^ 64
  validators.validators[seed % validators.len]?

/-- The proposers of the heights that follow `lastProposer`, all decided in the first round. -/
def proposerAt (validators : ValidatorSet) (lastProposer : Address) : ℕ → Option Validator
  | 0 => calcProposer validators 0 lastProposer
  | height + 1 => (proposerAt validators lastProposer height).bind fun proposer ↦
      calcProposer validators 0 proposer.addr

theorem window_perm {α : Type} (l : List α) (start : ℕ) :
    ((List.range l.length).map fun j ↦ l[(start + j) % l.length]?).Perm (l.map some) := by
  have hmod : ((List.range' start l.length).map (· % l.length)).Perm (List.range l.length) := by
    have hIco := Nat.multiset_Ico_map_mod start l.length
    rw [Multiset.Ico, Nat.Ico_eq_range', Nat.add_sub_cancel_left] at hIco
    exact Multiset.coe_eq_coe.mp hIco
  have hitems : (range l.length).map (fun i ↦ l[i]?) = l.map some := by
    apply ext_getElem (by simp)
    intro i _ hi
    simp
  have hmap := hmod.map fun i ↦ l[i]?
  rw [List.range'_eq_map_range, List.map_map, List.map_map, hitems] at hmap
  exact hmap

section Rotation

variable {validators : ValidatorSet} {lastProposer : Address} {round : ℕ}

def rotation (validators : ValidatorSet) (lastProposer : Address) : ℕ :=
  if lastProposer = zeroAddress then 0 else (validators.index lastProposer).getD 0 + 1

theorem index_getD_lt (hlen : 0 < validators.len) (addr : Address) :
    (validators.index addr).getD 0 < validators.len := by
  cases hindex : validators.index addr with
  | none => exact hlen
  | some i =>
    obtain ⟨hi, -⟩ := findIdx?_eq_some_iff_getElem.mp hindex
    exact hi

theorem calcProposer_eq (hlen : 0 < validators.len) (hround : validators.len + round < 2 ^ 64) :
    calcProposer validators round lastProposer =
      validators.validators[(rotation validators lastProposer + round) % validators.len]? := by
  have hindex := index_getD_lt hlen lastProposer
  have hseed : (validators.index lastProposer).getD 0 + round + 1 < 2 ^ 64 := by omega
  unfold calcProposer rotation
  dsimp only
  split_ifs
  · rw [zero_add]
  · rw [mod_eq_of_lt hseed, add_right_comm]

theorem rotation_of_getElem? (hnodup : validators.addrs.Nodup)
    (hzero : zeroAddress ∉ validators.addrs) {i : ℕ} {proposer : Validator}
    (h : validators.validators[i]? = some proposer) :
    rotation validators proposer.addr = i + 1 := by
  obtain ⟨hi, hget⟩ := List.getElem?_eq_some_iff.mp h
  have hmem : proposer.addr ∈ validators.addrs :=
    mem_map_of_mem (mem_of_getElem? h)
  have hindex : validators.index proposer.addr = some i := by
    refine findIdx?_eq_some_iff_getElem.mpr ⟨hi, decide_eq_true (congrArg _ hget), ?_⟩
    intro j hj hsame
    have hji : validators.addrs[j]? = validators.addrs[i]? := by
      simpa [ValidatorSet.addrs, hi, hj.trans hi, hget] using hsame
    have hlt : j < validators.addrs.length := by
      rw [ValidatorSet.addrs, length_map]
      exact hj.trans hi
    exact hj.ne ((getElem?_inj hlt hnodup).mp hji)
  rw [rotation, if_neg (ne_of_mem_of_not_mem hmem hzero), hindex, getD_some]

theorem proposerAt_eq (hnodup : validators.addrs.Nodup) (hzero : zeroAddress ∉ validators.addrs)
    (hlen : 0 < validators.len) (hsmall : validators.len < 2 ^ 64) (height : ℕ) :
    proposerAt validators lastProposer height =
      validators.validators[(rotation validators lastProposer + height) % validators.len]? := by
  induction height with
  | zero => exact calcProposer_eq hlen hsmall
  | succ height ih =>
    have hlt := mod_lt (rotation validators lastProposer + height) hlen
    rw [proposerAt, ih, getElem?_eq_getElem hlt, bind_some, calcProposer_eq hlen hsmall,
      rotation_of_getElem? hnodup hzero (getElem?_eq_getElem hlt), add_zero, mod_add_mod,
      add_assoc]

/-- As many rounds as there are members select each of them once, and so do as many heights. The
members are interface values of two words, which fit the address space. -/
theorem proposer_rotation_fair (hnodup : validators.addrs.Nodup)
    (hzero : zeroAddress ∉ validators.addrs) (hlen : 1 ≤ validators.len)
    (hfit : 16 * validators.len < 2 ^ 63) (lastProposer : Address) :
    (∀ round < 2 ^ 63, ((range validators.len).map fun j ↦
        calcProposer validators (round + j) lastProposer).Perm (validators.validators.map some)) ∧
      ∀ start, ((range validators.len).map fun j ↦
        proposerAt validators lastProposer (start + j)).Perm (validators.validators.map some) := by
  constructor
  · intro round hround
    refine (Perm.of_eq (map_congr_left ?_)).trans (window_perm _
      (rotation validators lastProposer + round))
    intro j hj
    have hj := mem_range.mp hj
    rw [calcProposer_eq hlen (by omega), add_assoc]
    rfl
  · intro start
    refine (Perm.of_eq (map_congr_left ?_)).trans (window_perm _
      (rotation validators lastProposer + start))
    intro j _
    rw [proposerAt_eq hnodup hzero hlen (by omega), add_assoc]
    rfl

end Rotation

def twoValidators : ValidatorSet :=
  ⟨.ecdsa, [.ecdsa (bytesToAddress [1]), .ecdsa (bytesToAddress [2])], by simp [Validator.type]⟩

theorem proposer_rotation_fair_two : (∀ round < 2 ^ 63, ((range 2).map fun j ↦
      calcProposer twoValidators (round + j) (bytesToAddress [3])).Perm
        (twoValidators.validators.map some)) ∧
    ∀ start, ((range 2).map fun j ↦
      proposerAt twoValidators (bytesToAddress [3]) (start + j)).Perm
        (twoValidators.validators.map some) :=
  proposer_rotation_fair (by decide) (by decide) (by decide) (by decide) (bytesToAddress [3])

end Mainnet.Consensus
