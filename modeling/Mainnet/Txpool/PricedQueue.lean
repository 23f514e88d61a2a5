import Mainnet.Lib.HeapOrder
import Mainnet.Types.Basic

namespace Mainnet.Txpool

open Types Lib List Nat Heap

/-- `maxPriceQueue.Less`: of a price only the low 64 bits are compared. -/
def pricier (a b : Transaction) : Bool := a.gasPrice % 2 ^ 64 > b.gasPrice % 2 ^ 64

abbrev PricedQueue := List Transaction

namespace PricedQueue

def push (q : PricedQueue) (tx : Transaction) : PricedQueue := Heap.push pricier q tx

def pop (q : PricedQueue) : Option (Transaction × PricedQueue) :=
  if q.length = 0 then none else Heap.pop pricier q

def popAll (q : PricedQueue) : List Transaction := drain pop q.length q

theorem pop_eq : pop = Heap.pop pricier := by
  funext q
  rw [pop]
  split
  · next h => rw [eq_nil_of_length_eq_zero h, pop_nil]
  · rfl

theorem weakOrder_pricier : WeakOrder pricier where
  asymm a b h := by
    simp only [pricier, decide_eq_true_eq, decide_eq_false_iff_not] at h ⊢
    omega
  trans a b c hab hbc := by
    simp only [pricier, decide_eq_false_iff_not] at hab hbc ⊢
    omega

theorem popAll_spec (txs : List Transaction) :
    (popAll (txs.foldl push [])).Perm txs ∧ (popAll (txs.foldl push [])).Pairwise
      fun a b ↦ b.gasPrice % 2 ^ 64 ≤ a.gasPrice % 2 ^ 64 := by
  have hempty : Ordered (listOps pricier) [] ([] : List Transaction).length :=
    fun k _ hk ↦ absurd hk (not_lt_zero k)
  obtain ⟨hperm, hordered⟩ := foldl_push_spec weakOrder_pricier txs hempty
  obtain ⟨hpopped, hpairwise⟩ := drain_spec weakOrder_pricier (le_refl _) hordered
  rw [popAll, pop_eq]
  refine ⟨hpopped.trans (hperm.trans (List.Perm.of_eq (append_nil txs))), hpairwise.imp ?_⟩
  intro a b hab
  simpa [pricier] using hab

theorem popAll_pair {a b : Transaction} (h : b.gasPrice % 2 ^ 64 ≤ a.gasPrice % 2 ^ 64) :
    popAll ([a, b].foldl push []) = [a, b] := by
  have hless : pricier b a = false := decide_eq_false (not_lt.mpr h)
  have hpush : [a, b].foldl push [] = [a, b] := by
    simp [push, Heap.push, Heap.up, Heap.listOps, hless]
  rw [hpush, popAll, pop_eq]
  simp [Heap.drain, Heap.pop, Heap.down, Heap.listOps]

/-- Pushed in whatever order, transactions with the given prices come out by price exactly if the low
64 bits of the prices are ordered as the prices are. -/
theorem popAll_sorted_iff (S : Transaction → Prop) :
    (∀ txs : List Transaction, (∀ tx ∈ txs, S tx) →
      (popAll (txs.foldl push [])).Perm txs ∧
        (popAll (txs.foldl push [])).Pairwise fun a b ↦ b.gasPrice ≤ a.gasPrice) ↔
      ∀ a b, S a → S b → a.gasPrice < b.gasPrice →
        a.gasPrice % 2 ^ 64 < b.gasPrice % 2 ^ 64 := by
  constructor
  · intro h a b ha hb hlt
    by_contra hle
    have hpair := (h [a, b] (by simp [ha, hb])).2
    rw [popAll_pair (by omega)] at hpair
    have := rel_of_pairwise_cons hpair (mem_singleton_self b)
    omega
  · intro h txs hS
    obtain ⟨hperm, hpairwise⟩ := popAll_spec txs
    refine ⟨hperm, hpairwise.imp_of_mem ?_⟩
    intro a b ha hb hle
    by_contra hlt
    have := h a b (hS a (hperm.mem_iff.mp ha)) (hS b (hperm.mem_iff.mp hb)) (by omega)
    omega

def pricedTx (gasPrice : ℕ) : Transaction := { (default : Transaction) with gasPrice := gasPrice }

/-- A price of `2 ^ 64` counts as zero. -/
theorem popAll_unsorted :
    popAll ([pricedTx (2 ^ 64), pricedTx 1].foldl push []) = [pricedTx 1, pricedTx (2 ^ 64)] := by
  decide +kernel

end PricedQueue

end Mainnet.Txpool
