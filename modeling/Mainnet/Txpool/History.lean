import Mainnet.Lib.BigEndian
import Mainnet.Txpool.Intact

namespace Mainnet.Txpool

open Types Lib List Nat BigEndian TxPool Run

structure NoncePool where
  pool : TxPool
  nonceCache : AList fun _ : Address ↦ ℕ

open NoncePool

inductive PoolOp
  | add (now : ℤ) (tx : PoolTransaction)
  | call (c : Call)

namespace NoncePool

def new (blockGasLimit : ℕ) : NoncePool := ⟨newTxPool blockGasLimit, ∅⟩

def getNonce (s : NoncePool) (addr : Address) : ℕ := (s.nonceCache.lookup addr).getD 0

def step (M : TxMethods) (s : NoncePool) : PoolOp → NoncePool
  | .add now tx => { s with pool := (s.pool.addTransaction M now tx).1 }
  | .call c =>
    { pool := s.pool.call M c
      nonceCache :=
        match c with
        | .updateNonce addr nonce => s.nonceCache.insert addr nonce
        | _ => s.nonceCache }

end NoncePool

section Nonces

variable {M : TxMethods} {s : NoncePool}

def NoncePool.Unspent (s : NoncePool) : Prop :=
  ∀ a, ∀ t ∈ s.pool.pending.list a, s.getNonce a ≤ t.nonce

/-- A transaction that passes the checks has no nonce below the one set for its sender. -/
def NoncePool.KeepsNonces (M : TxMethods) (s : NoncePool) : PoolOp → Prop
  | .add now tx => s.pool.Passes M tx → tooFarInFuture tx.timestamp now = false →
      ∀ src, M.sender tx = some src → s.getNonce src ≤ tx.nonce
  | .call _ => True

theorem NoncePool.unspent_call (h : s.Unspent) (c : Call) : (s.step M (.call c)).Unspent := by
  intro a t ht
  have hold := h a t ((call_fewer s.pool c a).mem ht)
  cases c with
  | updateNonce addr nonce =>
    simp only [getNonce, step]
    by_cases ha : a = addr
    · subst ha
      rw [AList.lookup_insert, Option.getD_some]
      have hmem : t ∈ Pending.list (if _ = [] then _ else _) a := ht
      rw [Pending.list_shorten, if_pos rfl, mem_filter] at hmem
      exact of_decide_eq_true hmem.2
    · rw [AList.lookup_insert_ne ha]
      exact hold
  | _ => exact hold

theorem NoncePool.unspent_step_iff (h : s.Unspent) (op : PoolOp) :
    (s.step M op).Unspent ↔ s.KeepsNonces M op := by
  cases op with
  | call c => exact iff_of_true (unspent_call h c) trivial
  | add now tx =>
    rcases addTransaction_spec M s.pool now tx with
      ⟨hnot, heq⟩ | ⟨-, hfuture, heq⟩ | ⟨hpasses, hfuture, src, hsender, heq⟩
    · have hpending : (s.pool.addTransaction M now tx).1.pending = s.pool.pending := by
        rcases heq with heq | ⟨e, heq⟩
        · rw [heq]
        · rw [heq, reject, pruneRejectedTxs]
          split <;> rfl
      refine iff_of_true ?_ fun hpasses ↦ absurd hpasses hnot
      intro a t ht
      exact h a t (hpending ▸ ht)
    · refine iff_of_true ?_ fun _ hnear ↦ absurd (hfuture.symm.trans hnear) (by decide)
      intro a t ht
      simp only [step, heq] at ht
      exact h a t ht
    · obtain ⟨hmem, hnew⟩ := mem_placed M s.pool src tx
      rw [← heq] at hmem hnew
      constructor
      · intro hunspent _ _ src' hsender'
        obtain rfl := Option.some.inj (hsender.symm.trans hsender')
        rcases hnew with hnew | ⟨t, ht, hnonce⟩
        · exact hunspent src tx hnew
        · exact hnonce ▸ h src t ht
      · intro hkeeps a t ht
        rcases hmem a t ht with hold | ⟨rfl, rfl⟩
        · exact h a t hold
        · exact hkeeps hpasses hfuture _ hsender

/-- No spent nonce is ever pending exactly in the histories in which every transaction that passes
the checks has a nonce that is not spent. -/
theorem NoncePool.unspent_iff (M : TxMethods) (blockGasLimit : ℕ) (ops : List PoolOp) :
    (∀ n, (exec (step M) (new blockGasLimit) (ops.take n)).Unspent) ↔
      Admits (step M) (KeepsNonces M) (new blockGasLimit) ops := by
  refine admits_iff (I := Unspent) ?_ (fun _ h ↦ h)
    (fun _ op h ↦ (unspent_step_iff h op).mpr) (fun _ op h ↦ (unspent_step_iff h op).mp) ops
  intro a t ht
  exact absurd ht not_mem_nil

def plainMethods : TxMethods where
  hash tx := ⟨(range 32).map fun i ↦ UInt8.ofNat (tx.nonce / 256 ^ (32 - 1 - i)), by simp⟩
  sender _ := some zeroAddress

def plainNow : ℤ := (1700000000 + 62135596800) * 1000000000

def plainTx (nonce timestamp : ℕ) : PoolTransaction :=
  { (default : PoolTransaction) with
    nonce := nonce
    gasPrice := some 1
    gas := 21000
    toAddr := some zeroAddress
    timestamp := timestamp }

/-- The nonce 3 is accepted after the nonce 5 has been set. -/
theorem spent_nonce_pending :
    let s := exec (step plainMethods) (new 30000)
      [.call (.updateNonce zeroAddress 5), .add plainNow (plainTx 3 1700000000)]
    s.getNonce zeroAddress = 5 ∧
      (s.pool.pending.list zeroAddress).map PoolTransaction.nonce = [3] := by
  decide +kernel

end Nonces

section Rejected

variable {M : TxMethods} {s : NoncePool}

def NoncePool.Bounded (s : NoncePool) : Prop := s.pool.rejectedTxs.card ≤ maxRejectedTxsSize

/-- While the cache is full, no transaction that passes the checks has a timestamp too far in the
future. -/
def NoncePool.KeepsBound (M : TxMethods) (s : NoncePool) : PoolOp → Prop
  | .add now tx => s.pool.Passes M tx → tooFarInFuture tx.timestamp now = true →
      s.pool.rejectedTxs.card < maxRejectedTxsSize
  | .call _ => True

theorem card_pruneRejectedTxs (tp : TxPool) :
    tp.pruneRejectedTxs.rejectedTxs.card < maxRejectedTxsSize := by
  unfold pruneRejectedTxs
  split
  · exact (by decide : 0 < maxRejectedTxsSize)
  · rename_i hlt
    exact not_le.mp hlt

theorem rejectedTxs_foldl {β : Type} {f : TxPool → β → TxPool}
    (hf : ∀ tp b, (f tp b).rejectedTxs = tp.rejectedTxs) (bs : List β) (tp : TxPool) :
    (bs.foldl f tp).rejectedTxs = tp.rejectedTxs :=
  foldlRecOn (motive := (·.rejectedTxs = tp.rejectedTxs)) bs f rfl fun t h b _ ↦ (hf t b).trans h

theorem rejectedTxs_place (tp : TxPool) (src : Address) (tx : PoolTransaction) :
    (tp.place M src tx).1.rejectedTxs = tp.rejectedTxs := by
  simp only [place]
  split
  · split
    · split <;> rfl
    · rfl
  · rfl

theorem NoncePool.bounded_call (h : s.Bounded) (c : Call) : (s.step M (.call c)).Bounded := by
  cases c with
  | removeTransactions txs =>
    refine (congrArg Finset.card (rejectedTxs_foldl (fun tp tx ↦ ?_) txs s.pool)).trans_le h
    unfold removeTransaction
    split <;> rfl
  | removeStale now sinceCleanup =>
    unfold Bounded
    simp only [step, call, removeStale]
    split
    · exact (card_pruneRejectedTxs _).le
    · rw [rejectedTxs_foldl (f := fun tp addr ↦ tp.retain M (notExpired now) addr) fun _ _ ↦ rfl]
      exact h
  | updateNonce addr nonce | clear => exact h

theorem NoncePool.bounded_step_iff (h : s.Bounded) (op : PoolOp) :
    (s.step M op).Bounded ↔ s.KeepsBound M op := by
  cases op with
  | call c => exact iff_of_true (bounded_call h c) trivial
  | add now tx =>
    rcases addTransaction_spec M s.pool now tx with
      ⟨hnot, heq | ⟨e, heq⟩⟩ | ⟨hpasses, hfuture, heq⟩ | ⟨hpasses, hfuture, src, hsender, heq⟩
    · refine iff_of_true ?_ fun hpasses ↦ absurd hpasses hnot
      unfold Bounded
      rw [step, heq]
      exact h
    · refine iff_of_true ?_ fun hpasses ↦ absurd hpasses hnot
      unfold Bounded
      rw [step, heq]
      exact (Finset.card_insert_le _ _).trans (card_pruneRejectedTxs s.pool)
    · have hcard : (s.step M (.add now tx)).pool.rejectedTxs.card =
          s.pool.rejectedTxs.card + 1 := by
        rw [step, heq]
        exact Finset.card_insert_of_notMem hpasses.unrejected
      unfold Bounded
      rw [hcard]
      constructor
      · intro hle _ _
        exact hle
      · intro hkeeps
        exact hkeeps hpasses hfuture
    · refine iff_of_true ?_ fun _ hfar ↦ absurd (hfuture.symm.trans hfar) (by decide)
      unfold Bounded
      rw [step, heq, rejectedTxs_place]
      exact h

/-- The cache of rejected transactions is bounded exactly in the histories in which no transaction
from the future comes to a full cache. -/
theorem NoncePool.bounded_iff (M : TxMethods) (blockGasLimit : ℕ) (ops : List PoolOp) :
    (∀ n, (exec (step M) (new blockGasLimit) (ops.take n)).Bounded) ↔
      Admits (step M) (KeepsBound M) (new blockGasLimit) ops :=
  admits_iff (I := Bounded) (zero_le _) (fun _ h ↦ h)
    (fun _ op h ↦ (bounded_step_iff h op).mpr) (fun _ op h ↦ (bounded_step_iff h op).mp) ops

theorem plainMethods_hash_inj {n m t u : ℕ} (hn : n < 256 ^ 32) (hm : m < 256 ^ 32)
    (h : plainMethods.hash (plainTx n t) = plainMethods.hash (plainTx m u)) : n = m := by
  have hbytes := congrArg (fun h : Hash ↦ ofBytes h.bytes) h
  simp only [plainMethods, plainTx] at hbytes
  rw [ofBytes_map_range, ofBytes_map_range, mod_eq_of_lt hn, mod_eq_of_lt hm] at hbytes
  exact hbytes

def farTx (nonce : ℕ) : PoolTransaction := plainTx nonce (2 ^ 40)

theorem flood_rejectedTxs {n : ℕ} (hn : n < 256 ^ 32) :
    (exec (step plainMethods) (new 30000)
      ((range n).map fun i ↦ .add plainNow (farTx i))).pool =
      { newTxPool 30000 with
        rejectedTxs := (Finset.range n).image (plainMethods.hash ∘ farTx) } := by
  induction n with
  | zero => rfl
  | succ n ih =>
    have hlt : n < 256 ^ 32 := (lt_succ_self n).trans hn
    have hnew : plainMethods.hash (farTx n) ∉
        (Finset.range n).image (plainMethods.hash ∘ farTx) := by
      intro hmem
      obtain ⟨i, hi, heq⟩ := Finset.mem_image.mp hmem
      have hi := Finset.mem_range.mp hi
      exact hi.ne (plainMethods_hash_inj (hi.trans hlt) hlt heq)
    have hfar : tooFarInFuture (farTx n).timestamp plainNow = true := by
      exact (by decide : tooFarInFuture (2 ^ 40) plainNow = true)
    rw [range_succ, map_append, exec_append, map_singleton]
    generalize exec (step plainMethods) (new 30000)
      ((range n).map fun i ↦ .add plainNow (farTx i)) = s at ih ⊢
    have hpasses : s.pool.Passes plainMethods (farTx n) := by
      rw [ih hlt]
      exact ⟨by simp [newTxPool], hnew, rfl, (by decide : 0 < maxTxPoolSize)⟩
    have hreject : (s.pool.addTransaction plainMethods plainNow (farTx n)).1 =
        (s.pool.reject plainMethods (farTx n) .timestampTooFar).1 := by
      rcases addTransaction_spec plainMethods s.pool plainNow (farTx n) with
        ⟨hnot, -⟩ | ⟨-, -, heq⟩ | ⟨-, hnear, -⟩
      · exact absurd hpasses hnot
      · exact heq
      · exact absurd (hfar.symm.trans hnear) (by decide)
    refine hreject.trans ?_
    rw [reject, ih hlt, Finset.range_add_one, Finset.image_insert]
    rfl

theorem flood_exceeds :
    (exec (step plainMethods) (new 30000)
      ((range 10001).map fun i ↦ .add plainNow (farTx i))).pool.rejectedTxs.card = 10001 := by
  rw [flood_rejectedTxs (by decide)]
  refine (Finset.card_image_of_injOn ?_).trans (Finset.card_range 10001)
  intro n hn m hm heq
  have hsmall : ∀ i ∈ (Finset.range 10001 : Set ℕ), i < 256 ^ 32 := by
    intro i hi
    exact (Finset.mem_range.mp (Finset.mem_coe.mp hi)).trans (by decide)
  exact plainMethods_hash_inj (hsmall n hn) (hsmall m hm) heq

end Rejected

section Intact

def PoolOp.uses : PoolOp → List PoolTransaction
  | .add _ tx => [tx]
  | .call (.removeTransactions txs) => txs
  | .call _ => []

theorem NoncePool.pool_intact (M : TxMethods) (blockGasLimit : ℕ) (ops : List PoolOp)
    (hinj : Set.InjOn M.hash {tx | ∃ op ∈ ops, tx ∈ op.uses}) :
    (exec (step M) (new blockGasLimit) ops).pool.Intact M := by
  have hrun : (exec (step M) (new blockGasLimit) ops).pool.IntactOn M
      {tx | ∃ op ∈ ops, tx ∈ op.uses} := by
    refine exec_invariant_mem (I := fun s : NoncePool ↦ s.pool.IntactOn M _)
      ⟨intact_newTxPool blockGasLimit, ?_⟩ ?_
    · rintro t ⟨a, ht⟩
      exact absurd ht not_mem_nil
    · intro op hop s hs
      cases op with
      | add now tx => exact hs.addTransaction hinj now ⟨_, hop, mem_singleton_self tx⟩
      | call c =>
        refine hs.call hinj c ?_
        rintro txs rfl t ht
        exact ⟨_, hop, ht⟩
  exact hrun.1

def pricedMethods : TxMethods where
  hash tx :=
    ⟨UInt8.ofNat tx.nonce :: UInt8.ofNat (tx.gasPrice.getD 0).toNat :: replicate 30 0, rfl⟩
  sender _ := some zeroAddress

def pricedTx (nonce : ℕ) (gasPrice : ℤ) : PoolTransaction :=
  { plainTx nonce 1700000000 with gasPrice := some gasPrice }

def pricedOps : List PoolOp :=
  [.add plainNow (pricedTx 1 5), .add plainNow (pricedTx 0 5), .add plainNow (pricedTx 2 5),
    .add plainNow (pricedTx 1 6), .call (.removeTransactions [pricedTx 2 5]),
    .call (.updateNonce zeroAddress 1)]

theorem NoncePool.pool_intact_priced :
    let pool := (exec (step pricedMethods) (new 30000) pricedOps).pool
    pool.pending.list zeroAddress = [pricedTx 1 6] ∧ pool.Intact pricedMethods := by
  have hinj : ∀ t ∈ pricedOps.flatMap PoolOp.uses, ∀ u ∈ pricedOps.flatMap PoolOp.uses,
      pricedMethods.hash t = pricedMethods.hash u → t = u := by
    decide +kernel
  refine ⟨by decide +kernel, pool_intact pricedMethods 30000 pricedOps ?_⟩
  intro t ht u hu heq
  exact hinj t (mem_flatMap.mpr ht) u (mem_flatMap.mpr hu) heq

end Intact

end Mainnet.Txpool
