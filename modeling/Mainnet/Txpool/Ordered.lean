import Mainnet.Txpool.Pool

namespace Mainnet.Txpool

open Types List Nat Pending

def NoncesIncrease (M : TxMethods) (txs : List PoolTransaction) : Prop :=
  txs.Pairwise fun t u ↦ M.sender t = M.sender u → t.nonce < u.nonce

theorem NoncesIncrease.filter {M : TxMethods} {txs : List PoolTransaction}
    (h : NoncesIncrease M txs) (p : PoolTransaction → Bool) : NoncesIncrease M (txs.filter p) :=
  Pairwise.sublist filter_sublist h

theorem sortAccountTransactions_increasing {txs : List PoolTransaction}
    (h : (txs.map PoolTransaction.nonce).Nodup) :
    (sortAccountTransactions txs).Pairwise fun t u ↦ t.nonce < u.nonce := by
  have hne : (sortAccountTransactions txs).Pairwise fun t u ↦ t.nonce ≠ u.nonce := by
    have hperm := (sortAccountTransactions_perm txs).map PoolTransaction.nonce
    exact pairwise_map.mp (hperm.nodup_iff.mpr h)
  have hle : (sortAccountTransactions txs).Pairwise fun t u ↦ t.nonce ≤ u.nonce := by
    rw [sortAccountTransactions]
    split
    · rename_i hlen
      cases txs with
      | nil => exact Pairwise.nil
      | cons t rest =>
        obtain rfl : rest = [] := by simpa using hlen
        exact pairwise_singleton _ t
    · have : Std.Total fun t u : PoolTransaction ↦ t.nonce ≤ u.nonce := ⟨fun t u ↦ le_total _ _⟩
      have : IsTrans PoolTransaction fun t u ↦ t.nonce ≤ u.nonce := ⟨fun _ _ _ ↦ le_trans⟩
      exact pairwise_insertionSort _ txs
  exact (hle.and hne).imp fun h ↦ lt_of_le_of_ne h.1 h.2

namespace TxPool

structure Ordered (M : TxMethods) (tp : TxPool) : Prop where
  owned : ∀ a, ∀ t ∈ tp.pending.list a, M.sender t = some a
  increasing : ∀ a, (tp.pending.list a).Pairwise fun t u ↦ t.nonce < u.nonce

inductive Call
  | removeTransactions (txs : List PoolTransaction)
  | removeStale (now sinceCleanup : ℤ)
  | updateNonce (addr : Address) (nonce : ℕ)
  | clear

def call (M : TxMethods) (tp : TxPool) : Call → TxPool
  | .removeTransactions txs => tp.removeTransactions M txs
  | .removeStale now sinceCleanup => tp.removeStale M now sinceCleanup
  | .updateNonce addr nonce => tp.updateNonce M addr nonce
  | .clear => tp.clear

def Fewer (tp' tp : TxPool) : Prop := ∀ a, (tp'.pending.list a).Sublist (tp.pending.list a)

theorem Fewer.refl (tp : TxPool) : Fewer tp tp := fun _ ↦ Sublist.refl _

theorem Fewer.trans {tp tp' tp'' : TxPool} (h : Fewer tp'' tp') (h' : Fewer tp' tp) :
    Fewer tp'' tp := fun a ↦ (h a).trans (h' a)

theorem Fewer.foldl {β : Type} {f : TxPool → β → TxPool} (hf : ∀ tp b, Fewer (f tp b) tp)
    (bs : List β) (tp : TxPool) : Fewer (bs.foldl f tp) tp :=
  foldlRecOn (motive := (Fewer · tp)) bs f (Fewer.refl tp) fun tp' h b _ ↦ (hf tp' b).trans h

variable {M : TxMethods} {tp : TxPool}

theorem Ordered.of_fewer {tp' : TxPool} (h : tp.Ordered M) (hsub : Fewer tp' tp) : tp'.Ordered M :=
  ⟨fun a t ht ↦ h.owned a t ((hsub a).mem ht), fun a ↦ (h.increasing a).sublist (hsub a)⟩

theorem ordered_newTxPool (blockGasLimit : ℕ) : (newTxPool blockGasLimit).Ordered M := by
  constructor <;> simp [newTxPool, Pending.list]

theorem fewer_shorten {src : Address} {rest : List PoolTransaction} {pending : Pending}
    (hsub : rest.Sublist (tp.pending.list src))
    (hp : pending = if rest = [] then tp.pending.erase src else tp.pending.insert src rest)
    (a : Address) : (pending.list a).Sublist (tp.pending.list a) := by
  rw [hp, list_shorten]
  split_ifs with ha
  · exact ha ▸ hsub
  · exact Sublist.refl _

theorem removeTransaction_fewer (tp : TxPool) (tx : PoolTransaction) :
    Fewer (tp.removeTransaction M tx) tp := by
  rw [removeTransaction]
  split
  · cases M.sender tx with
    | none => exact Fewer.refl tp
    | some src => exact fewer_shorten eraseP_sublist rfl
  · exact Fewer.refl tp

theorem retain_fewer (tp : TxPool) (keep : PoolTransaction → Bool) (addr : Address) :
    Fewer (tp.retain M keep addr) tp :=
  fewer_shorten filter_sublist rfl

theorem removeStale_fewer (tp : TxPool) (now sinceCleanup : ℤ) :
    Fewer (tp.removeStale M now sinceCleanup) tp := by
  have hloop := Fewer.foldl (fun tp addr ↦ retain_fewer (M := M) tp (notExpired now) addr)
    tp.pending.keys tp
  rw [removeStale]
  split
  · rw [pruneRejectedTxs]
    split <;> exact hloop
  · exact hloop

theorem call_fewer (tp : TxPool) (c : Call) : Fewer (tp.call M c) tp := by
  cases c with
  | removeTransactions txs => exact Fewer.foldl (removeTransaction_fewer (M := M)) txs tp
  | removeStale now sinceCleanup => exact removeStale_fewer tp now sinceCleanup
  | updateNonce addr nonce => exact retain_fewer tp _ addr
  | clear => exact fun a ↦ nil_sublist _

theorem Ordered.place (h : tp.Ordered M) {src : Address} {tx : PoolTransaction}
    (hs : M.sender tx = some src) : (tp.place M src tx).1.Ordered M := by
  -- whichever case of `place` it is, only the list of the sender is replaced
  have hreplace : ∀ {tp' : TxPool} {l : List PoolTransaction},
      tp'.pending = tp.pending.insert src l → (∀ t ∈ l, t = tx ∨ t ∈ tp.pending.list src) →
      (l.Pairwise fun t u ↦ t.nonce < u.nonce) → tp'.Ordered M := by
    intro tp' l hp hmem hl
    refine ⟨fun a t ht ↦ ?_, fun a ↦ ?_⟩
    · rw [hp, list_insert] at ht
      split at ht
      · rename_i ha
        rw [ha]
        rcases hmem t ht with rfl | ht
        · exact hs
        · exact h.owned src t ht
      · exact h.owned a t ht
    · rw [hp, list_insert]
      split
      · exact hl
      · exact h.increasing a
  rcases place_cases M tp src tx with ⟨heq, -⟩ | ⟨i, old, hold, hnonce, hp, -⟩ | ⟨hfresh, hp, -⟩
  · rwa [heq]
  · refine hreplace hp (fun t ht ↦ (mem_or_eq_of_mem_set ht).symm) ?_
    have hold' := pairwise_map.mpr (h.increasing src)
    rw [← map_nonce_set hold hnonce] at hold'
    exact pairwise_map.mp hold'
  · refine hreplace hp (fun t ht ↦ ?_) (sortAccountTransactions_increasing ?_)
    · rw [(sortAccountTransactions_perm _).mem_iff, mem_append, mem_singleton] at ht
      exact ht.symm
    · rw [map_append, map_singleton, nodup_append]
      refine ⟨pairwise_map.mpr ((h.increasing src).imp ne_of_lt), nodup_singleton _, ?_⟩
      intro n hn m hm
      obtain ⟨t, ht, rfl⟩ := mem_map.mp hn
      rw [mem_singleton.mp hm]
      exact hfresh t ht

theorem Ordered.addTransaction (h : tp.Ordered M) (now : ℤ) (tx : PoolTransaction) :
    (tp.addTransaction M now tx).1.Ordered M := by
  rcases addTransaction_cases M tp now tx with ⟨hp, -⟩ | ⟨-, src, hs, heq⟩
  · exact ⟨hp ▸ h.owned, hp ▸ h.increasing⟩
  · rw [heq]
    exact h.place hs

theorem Ordered.getPending (h : tp.Ordered M) {order : List Address} (horder : order.Nodup) :
    NoncesIncrease M (tp.getPending order) := by
  rw [NoncesIncrease, TxPool.getPending, pairwise_flatMap]
  refine ⟨fun a _ ↦ ?_, horder.imp fun {a b} hab ↦ ?_⟩
  · apply (h.increasing a).imp
    intro t u hlt _
    exact hlt
  intro t ht u hu hs
  rw [h.owned a t ht, h.owned b u hu] at hs
  exact absurd (Option.some.inj hs) hab

end TxPool

end Mainnet.Txpool
