import Mainnet.Executor.AccessSets

namespace Mainnet.Parallel

open Lib FirstFit List

variable {txs : List ParallelTx}

/-- Conflicting pairs keep block order: the earlier one is in a group that is executed, with all its
results, before the group of the later one starts. -/
def KeepsBlockOrder (txs : List ParallelTx) : Prop :=
  ∀ (i j : Fin txs.length) (g g' : ℕ), i ∈ (schedule txs).getD g [] → j ∈ (schedule txs).getD g' [] →
    i < j → setsConflict (txs.get j) (txs.get i) = true → g < g'

/-- The length of the longest chain of conflicting transactions that ends at a position. -/
def chainDepth (txs : List ParallelTx) : ℕ → ℕ := depth (linked setsConflict txs)

def Layered (txs : List ParallelTx) : Prop :=
  ∀ j < txs.length, ∀ k < chainDepth txs j,
    ∃ i < j, chainDepth txs i = k ∧ linked conflicts txs i j = true

instance (txs : List ParallelTx) : Decidable (Layered txs) :=
  inferInstanceAs (Decidable (∀ j < txs.length, ∀ k < chainDepth txs j,
    ∃ i < j, chainDepth txs i = k ∧ linked conflicts txs i j = true))

theorem linked_setsConflict {i j : ℕ} (h : linked conflicts txs i j = true) :
    linked setsConflict txs i j = true := by
  unfold linked at h ⊢
  split at h
  · rw [conflicts] at h
    split_ifs at h
    exact h
  · cases h

theorem keepsBlockOrder_iff_groupOf : KeepsBlockOrder txs ↔ ∀ j < txs.length, ∀ i < j,
    linked setsConflict txs i j = true →
      groupOf conflicts txs i < groupOf conflicts txs j := by
  constructor
  · intro h j hj i hij hlink
    rw [linked, getElem?_eq_getElem hj, getElem?_eq_getElem (hij.trans hj)] at hlink
    exact h ⟨i, hij.trans hj⟩ ⟨j, hj⟩ _ _ (mem_schedule.mpr rfl) (mem_schedule.mpr rfl) hij hlink
  · intro h i j g g' hi hj hij hconf
    rw [mem_schedule] at hi hj
    rw [← hi, ← hj]
    refine h j j.isLt i hij ?_
    rw [linked, getElem?_eq_getElem j.isLt, getElem?_eq_getElem i.isLt]
    exact hconf

theorem keepsBlockOrder_iff (txs : List ParallelTx) : KeepsBlockOrder txs ↔ Layered txs :=
  keepsBlockOrder_iff_groupOf.trans ((fits_groupOf conflicts txs).ordered_iff linked_setsConflict)

theorem KeepsBlockOrder.pairwise (h : KeepsBlockOrder txs) : (schedule txs).flatten.Pairwise
    fun i j ↦ setsConflict (txs.get i) (txs.get j) = true → i < j := by
  refine pairwise_flatten.mpr ⟨fun group hgroup ↦ ?_, ?_⟩
  · have hlt := (pairwise_lt_finRange _).sublist (firstFit_sublist _ _ group hgroup)
    exact hlt.imp (by intro i j hij _; exact hij)
  · refine pairwise_iff_getElem.mpr fun g g' hg hg' hgg i hi j hj hconf ↦ ?_
    have hgi : i ∈ (schedule txs).getD g [] := by rwa [getD_eq_getElem _ _ hg]
    have hgj : j ∈ (schedule txs).getD g' [] := by rwa [getD_eq_getElem _ _ hg']
    rcases lt_trichotomy i j with hlt | heq | hgt
    · exact hlt
    · rw [heq, mem_schedule] at hgi
      rw [mem_schedule] at hgj
      omega
    · have hback := h j i g' g hgj hgi hgt hconf
      omega

end Mainnet.Parallel

namespace Mainnet.Executor

open Types Parallel Lib

variable (K : Keys)

structure TransitionOps (σ : Type) where
  beginTxn : Hash → Header → Address → Except Unit σ
  write : σ → Transaction → Except Unit σ
  writeFailedReceipt : σ → Transaction → Except Unit σ

def parallelTxs (transactions : List (Option Transaction)) : List ParallelTx :=
  (transactions.filterMap id).mapIdx (parallelTx K)

variable {σ : Type} (T : TransitionOps σ)

def writeResult (txn : σ) (res : ExecutionResult) : Except Unit σ :=
  match res.tx.tx, res.result with
  | none, _ => .ok txn
  | some t, .error _ => T.writeFailedReceipt txn t
  | some t, .ok _ => T.write txn t

def processBlock (parentRoot : Hash) (header : Header) (transactions : List (Option Transaction))
    (blockCreator : Address) : Except Unit σ := do
  let txn ← T.beginTxn parentRoot header blockCreator
  match executeTransactions (some ((parallelTxs K transactions).map some)) with
  | .error _ => .error ()
  | .ok results => results.foldlM (writeResult T) txn

def writeOrder (transactions : List (Option Transaction)) :
    List (Fin (parallelTxs K transactions).length) :=
  (schedule (parallelTxs K transactions)).flatten

def SameSenderInOrder (transactions : List (Option Transaction)) : Prop :=
  (writeOrder K transactions).Pairwise fun i j ↦
    ∀ t u, ((parallelTxs K transactions).get i).tx = some t →
      ((parallelTxs K transactions).get j).tx = some u → (K.getSender t).1 = (K.getSender u).1 → i < j

variable {K T} {transactions : List (Option Transaction)}

theorem parallelTxs_get (i : Fin (parallelTxs K transactions).length) :
    ∃ t, (parallelTxs K transactions).get i = parallelTx K i t := by
  obtain ⟨i, hi⟩ := i
  have hlen : i < (transactions.filterMap id).length := by simpa [parallelTxs] using hi
  exact ⟨(transactions.filterMap id)[i], List.getElem_mapIdx ..⟩

theorem executeTransactions_parallelTxs :
    executeTransactions (some ((parallelTxs K transactions).map some)) =
      .ok ((writeOrder K transactions).map fun i ↦
        ⟨(parallelTxs K transactions).get i, executeTx ((parallelTxs K transactions).get i)⟩) := by
  have hvalid : (((parallelTxs K transactions).map some).filterMap id).filter (fun tx ↦ tx.tx.isSome) =
      parallelTxs K transactions := by
    rw [List.filterMap_map, Function.id_comp, List.filterMap_some, List.filter_eq_self]
    intro tx htx
    obtain ⟨i, rfl⟩ := List.mem_iff_get.mp htx
    obtain ⟨t, ht⟩ := parallelTxs_get i
    rw [ht]
    rfl
  rw [executeTransactions, hvalid, groupTransactions_eq, writeOrder, List.map_flatten, List.flatMap_map,
    List.flatMap_def]
  simp only [executeBatch, List.map_map, Function.comp_def]

theorem setsConflict_of_sender_eq {i j : Fin (parallelTxs K transactions).length}
    {t u : Transaction} (ht : ((parallelTxs K transactions).get i).tx = some t)
    (hu : ((parallelTxs K transactions).get j).tx = some u)
    (hs : (K.getSender t).1 = (K.getSender u).1) :
    setsConflict ((parallelTxs K transactions).get i) ((parallelTxs K transactions).get j) =
      true := by
  obtain ⟨t', hi⟩ := parallelTxs_get i
  obtain ⟨u', hj⟩ := parallelTxs_get j
  rw [hi] at ht ⊢
  rw [hj] at hu ⊢
  cases ht
  cases hu
  have hw : intersects (extractWriteSet K t) (extractWriteSet K u) = true :=
    intersects_iff.mpr ⟨K.text (K.getSender t).1, by simp [extractWriteSet],
      by simp [extractWriteSet, hs]⟩
  rw [setsConflict, Bool.or_eq_true]
  exact .inl hw

theorem sameSenderInOrder_of_keepsBlockOrder (h : KeepsBlockOrder (parallelTxs K transactions)) :
    SameSenderInOrder K transactions :=
  h.pairwise.imp fun hij _ _ ht hu hs ↦ hij (setsConflict_of_sender_eq ht hu hs)

/-- For every list of declared transactions, the schedule keeps block order for conflicting pairs
exactly when the list is layered; for a block this also orders the transactions of each sender. -/
theorem parallel_order_iff (K : Keys) :
    (∀ txs : List ParallelTx, groupTransactions txs = (schedule txs).map (List.map txs.get) ∧
      (KeepsBlockOrder txs ↔ Layered txs)) ∧
    ∀ transactions : List (Option Transaction),
      (∀ (σ : Type) (T : TransitionOps σ) (parentRoot : Hash) (header : Header) (creator : Address),
        processBlock K T parentRoot header transactions creator = (do
          let txn ← T.beginTxn parentRoot header creator
          ((writeOrder K transactions).map fun i ↦ (⟨(parallelTxs K transactions).get i,
            executeTx ((parallelTxs K transactions).get i)⟩ : ExecutionResult)).foldlM
              (writeResult T) txn)) ∧
      ((KeepsBlockOrder (parallelTxs K transactions) ∧ SameSenderInOrder K transactions) ↔
        Layered (parallelTxs K transactions)) := by
  refine ⟨fun txs ↦ ⟨groupTransactions_eq txs, keepsBlockOrder_iff txs⟩, fun transactions ↦
    ⟨fun _ T root header creator ↦ ?_, ?_⟩⟩
  · rw [processBlock, executeTransactions_parallelTxs]
  · rw [← keepsBlockOrder_iff]
    exact ⟨And.left, fun h ↦ ⟨h, sameSenderInOrder_of_keepsBlockOrder h⟩⟩

def fieldKeys : Keys := ⟨fun _ ↦ zeroHash, fun t ↦ (t.fromAddr, true)⟩

def transferTx (nonce : ℕ) (sender recipient : UInt8) : Option Transaction :=
  some { (default : Transaction) with
    nonce := nonce
    fromAddr := repdigit sender
    toAddr := some (repdigit recipient)
    value := 1 }

/-- Account 2 pays account 1 and then account 3, after account 1 has paid account 4. The second
payment of account 2 joins the payment of account 1 in the first group. -/
def crossedBlock : List (Option Transaction) :=
  [transferTx 0 1 4, transferTx 0 2 1, transferTx 1 2 3]

theorem parallel_order_crossed :
    (¬ ∀ txs : List ParallelTx, KeepsBlockOrder txs) ∧
      ¬ ∀ (K : Keys) (transactions : List (Option Transaction)), SameSenderInOrder K transactions := by
  constructor
  · intro hall
    have hlay := (keepsBlockOrder_iff _).mp (hall (parallelTxs fieldKeys crossedBlock))
    exact absurd hlay (by decide +kernel)
  · intro hall
    have horder : writeOrder fieldKeys crossedBlock =
        [⟨0, by decide⟩, ⟨2, by decide⟩, ⟨1, by decide⟩] := by decide +kernel
    have hpair := hall fieldKeys crossedBlock
    rw [SameSenderInOrder, horder] at hpair
    have hlt := (List.pairwise_cons.mp (List.pairwise_cons.mp hpair).2).1 _
      (List.mem_singleton_self _) _ _ rfl rfl rfl
    exact absurd hlt (by decide)

end Mainnet.Executor
