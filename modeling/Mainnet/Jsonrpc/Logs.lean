import Mainnet.Lib.Outcome
import Mainnet.Types.Marshal

namespace Mainnet.Jsonrpc

open Lib Types List Option Outcome

structure LogQuery where
  addresses : List Address
  topics : List (List Hash)
deriving DecidableEq

/-- `Match`, where an empty set of topics stands for any topic. -/
def LogQuery.matchLog (q : LogQuery) (log : Types.Log) : Bool :=
  if 0 < q.addresses.length && !q.addresses.any (· == log.address) then false
  else if q.topics.length > log.topics.length then false
  else (q.topics.zip log.topics).all fun (sub, topic) ↦ sub.isEmpty || sub.any (· == topic)

structure Log where
  address : Address
  topics : List Hash
  data : Bytes
  blockNumber : ℕ
  txHash : Hash
  txIndex : ℕ
  blockHash : Hash
  logIndex : ℕ
  removed : Bool
deriving DecidableEq

structure TransactionReceipt where
  root : Hash
  cumulativeGasUsed : ℕ
  logsBloom : Bloom
  logs : List Log
  status : ℕ
  txHash : Hash
  txIndex : ℕ
  blockHash : Hash
  blockNumber : ℕ
  gasUsed : ℕ
  contractAddress : Option Address
  fromAddr : Address
  toAddr : Option Address
deriving DecidableEq

structure Store where
  getReceiptsByHash : Hash → Option (List Receipt)
  getBlockByHash : Hash → Option Block
  readTxLookup : Hash → Option Hash

inductive Filter
  | block
  | log (query : LogQuery) (logs : List Log)
deriving DecidableEq

inductive FilterError
  | receiptsNotFound
deriving DecidableEq

variable (store : Store)

/-- The logs of one receipt in `getLogsFromBlock`; a missing transaction is an index out of
range. -/
def appendReceiptLogs (query : LogQuery) (block : Block) (idx : ℕ) (logs : List Log)
    (receipt : Receipt) : Outcome FilterError (List Log) :=
  receipt.logs.zipIdx.foldlM (fun logs (log, logIdx) ↦
    if query.matchLog log then
      match block.transactions[idx]? with
      | some tx =>
        .ok (logs ++
          [{ address := log.address
             topics := log.topics
             data := log.data
             blockNumber := block.header.number
             blockHash := block.header.hash
             txHash := tx.hash
             txIndex := idx
             logIndex := logIdx
             removed := false }])
      | none => .panic
    else .ok logs) logs

def getLogsFromBlock (query : LogQuery) (block : Block) : Outcome FilterError (List Log) :=
  match store.getReceiptsByHash block.header.hash with
  | none => .error .receiptsNotFound
  | some receipts =>
    receipts.zipIdx.foldlM (fun logs (receipt, idx) ↦
      appendReceiptLogs query block idx logs receipt) []

def Filter.isLogFilter : Filter → Bool
  | .block => false
  | .log _ _ => true

def Filter.append (new : LogQuery → List Log) : Filter → Filter
  | .block => .block
  | .log query logs => .log query (logs ++ new query)

def receiptTxHash (block : Block) (indx : ℕ) (receipt : Receipt) : Outcome FilterError Hash :=
  if receipt.txHash = zeroHash then
    match block.transactions[indx]? with
    | some tx => .ok tx.hash
    | none => .panic
  else .ok receipt.txHash

/-- What a log filter is given of one log. The log index is left at zero. -/
def filterLog (header : Header) (txHash : Hash) (indx : ℕ) (log : Types.Log)
    (query : LogQuery) : List Log :=
  if query.matchLog log then
    [{ address := log.address
       topics := log.topics
       data := log.data
       blockNumber := header.number
       blockHash := header.hash
       txHash := txHash
       txIndex := indx
       logIndex := 0
       removed := false }]
  else []

def appendLogsToFilters (filters : List Filter) (header : Header) :
    Outcome FilterError (List Filter) :=
  match store.getReceiptsByHash header.hash with
  | none => .error .receiptsNotFound
  | some receipts =>
    if ¬ filters.any Filter.isLogFilter then .ok filters
    else
      match store.getBlockByHash header.hash with
      | none => .ok filters
      | some block =>
        receipts.zipIdx.foldlM (fun filters (receipt, indx) ↦ do
          let txHash ← receiptTxHash block indx receipt
          .ok (receipt.logs.foldl (fun filters log ↦
            filters.map (Filter.append (filterLog header txHash indx log))) filters)) filters

/-- The logs in `eth_getTransactionReceipt`, where the loop's own index stands for that of the
transaction as well. -/
def transactionReceiptLogs (block : Block) (txn : Transaction) (raw : Receipt) : List Log :=
  raw.logs.zipIdx.map fun (elem, indx) ↦
    { address := elem.address
      topics := elem.topics
      data := elem.data
      blockHash := block.header.hash
      blockNumber := block.header.number
      txHash := txn.hash
      txIndex := indx
      logIndex := indx
      removed := false }

/-- `GetTransactionReceipt`; it panics for a receipt without a status. -/
def getTransactionReceipt (hash : Hash) : Outcome FilterError (Option TransactionReceipt) :=
  match store.readTxLookup hash with
  | none => .ok none
  | some blockHash =>
    match store.getBlockByHash blockHash, store.getReceiptsByHash blockHash with
    | some block, some receipts =>
      if receipts = [] then .ok none
      else
        match block.transactions.findIdx? (·.hash = hash) with
        | none => .ok none
        | some indx =>
          match block.transactions[indx]?, receipts[indx]? with
          | some txn, some raw =>
            match raw.status with
            | none => .panic
            | some status =>
              .ok (some
                { root := raw.root
                  cumulativeGasUsed := raw.cumulativeGasUsed
                  logsBloom := raw.logsBloom
                  status := status
                  txHash := txn.hash
                  txIndex := indx
                  blockHash := block.header.hash
                  blockNumber := block.header.number
                  gasUsed := raw.gasUsed
                  contractAddress := raw.contractAddress
                  fromAddr := txn.fromAddr
                  toAddr := txn.toAddr
                  logs := transactionReceiptLogs block txn raw })
          | _, _ => .panic
    | _, _ => .ok none

/-- The block and its receipts are in the store: a receipt for each transaction, which names it or
names none, and every transaction is found in the block. -/
structure Stored (block : Block) (receipts : List Receipt) : Prop where
  getBlockByHash : store.getBlockByHash block.header.hash = some block
  getReceiptsByHash : store.getReceiptsByHash block.header.hash = some receipts
  length_receipts : receipts.length = block.transactions.length
  txHash : ∀ (i : ℕ) receipt tx, receipts[i]? = some receipt → block.transactions[i]? = some tx →
    receipt.txHash = zeroHash ∨ receipt.txHash = tx.hash
  readTxLookup : ∀ tx ∈ block.transactions, store.readTxLookup tx.hash = some block.header.hash
  nodup : (block.transactions.map (·.hash)).Nodup

/-- The logs that match a query, with the positions of their transaction and of the log in its
receipt, in the order of the block. -/
def matching (query : LogQuery) (receipts : List Receipt) : List (ℕ × ℕ × Types.Log) :=
  receipts.zipIdx.flatMap fun (receipt, i) ↦
    receipt.logs.zipIdx.flatMap fun (log, j) ↦
      if query.matchLog log then [(i, j, log)] else []

def viewOf (block : Block) (log : Types.Log) (txIndex logIndex : ℕ) (txHash : Hash) : Log where
  address := log.address
  topics := log.topics
  data := log.data
  blockNumber := block.header.number
  blockHash := block.header.hash
  txHash := txHash
  txIndex := txIndex
  logIndex := logIndex
  removed := false

section Views

variable {store} {block : Block} {receipts : List Receipt} {query : LogQuery} {log : Types.Log}
  {i j k : ℕ}

theorem mem_matching (h : (i, j, log) ∈ matching query receipts) :
    ∃ receipt, receipts[i]? = some receipt ∧ receipt.logs[j]? = some log := by
  simp only [matching, mem_flatMap, Prod.exists] at h
  obtain ⟨receipt, i', hreceipt, log', j', hlog, hmem⟩ := h
  split at hmem
  · cases mem_singleton.mp hmem
    exact ⟨receipt, mem_zipIdx_iff_getElem?.mp hreceipt, mem_zipIdx_iff_getElem?.mp hlog⟩
  · cases hmem

theorem map_matching (view : ℕ × ℕ × Types.Log → Log) (query : LogQuery)
    (receipts : List Receipt) :
    (matching query receipts).map view =
      receipts.zipIdx.flatMap fun (receipt, i) ↦ receipt.logs.zipIdx.flatMap fun (log, j) ↦
        if query.matchLog log then [view (i, j, log)] else [] := by
  rw [matching, map_flatMap]
  congr 1
  funext ⟨receipt, i⟩
  dsimp only
  rw [map_flatMap]
  congr 1
  funext ⟨log, j⟩
  split <;> rfl

variable {tx : Transaction} {α : Type} {receipt : Receipt}

theorem appendReceiptLogs_eq (htx : block.transactions[i]? = some tx)
    (logs : List Log) (receipt : Receipt) :
    appendReceiptLogs query block i logs receipt =
      .ok (logs ++ receipt.logs.zipIdx.flatMap fun (log, j) ↦
        if query.matchLog log then [viewOf block log i j tx.hash] else []) := by
  rw [appendReceiptLogs, foldlM_append]
  intro logs ⟨log, j⟩ _
  dsimp only
  split
  · rw [htx]
    rfl
  · rw [append_nil]

def logsView (block : Block) (p : ℕ × ℕ × Types.Log) : Log :=
  viewOf block p.2.2 p.1 p.2.1 ((block.transactions[p.1]?).elim zeroHash (·.hash))

theorem getLogsFromBlock_eq (h : store.getReceiptsByHash block.header.hash = some receipts)
    (hlength : receipts.length = block.transactions.length) :
    getLogsFromBlock store query block = .ok ((matching query receipts).map (logsView block)) := by
  rw [getLogsFromBlock, h]
  dsimp only
  rw [map_matching, foldlM_append, nil_append]
  intro logs ⟨receipt, i⟩ hmem
  have hlt := (List.getElem?_eq_some_iff.mp (mem_zipIdx_iff_getElem?.mp hmem)).1
  have htx := List.getElem?_eq_getElem (hlength ▸ hlt)
  rw [appendReceiptLogs_eq htx]
  simp only [logsView, htx, elim_some]

theorem Filter.append_append (f g : LogQuery → List Log) (filter : Filter) :
    (filter.append f).append g = filter.append fun q ↦ f q ++ g q := by
  cases filter with
  | block => rfl
  | log query logs => exact congrArg (Filter.log query) (append_assoc _ _ _)

theorem Filter.append_nil (filter : Filter) : filter.append (fun _ ↦ []) = filter := by
  cases filter with
  | block => rfl
  | log query logs => exact congrArg (Filter.log query) (List.append_nil logs)

theorem Filter.foldl_append (new : α → LogQuery → List Log) (l : List α) (filters : List Filter) :
    l.foldl (fun filters a ↦ filters.map (Filter.append (new a))) filters =
      filters.map (Filter.append fun q ↦ l.flatMap (new · q)) := by
  induction l generalizing filters with
  | nil =>
    have hid : Filter.append (fun _ ↦ []) = id := funext Filter.append_nil
    simp only [List.foldl_nil, List.flatMap_nil, hid, List.map_id]
  | cons a l ih =>
    rw [List.foldl_cons, ih, List.map_map]
    congr 1
    funext filter
    rw [Function.comp_apply, Filter.append_append]
    rfl

theorem Filter.foldlM_append {f : List Filter → α → Outcome FilterError (List Filter)}
    {new : α → LogQuery → List Log} {l : List α}
    (h : ∀ filters, ∀ a ∈ l, f filters a = .ok (filters.map (Filter.append (new a))))
    (filters : List Filter) :
    l.foldlM f filters = .ok (filters.map (Filter.append fun q ↦ l.flatMap (new · q))) := by
  rw [← Filter.foldl_append]
  induction l generalizing filters with
  | nil => rfl
  | cons a l ih =>
    rw [foldlM_cons, h filters a mem_cons_self, ok_bind,
      ih fun filters b hb ↦ h filters b (mem_cons_of_mem a hb)]
    rfl

theorem receiptTxHash_eq (h : Stored store block receipts)
    (hreceipt : receipts[i]? = some receipt) (htx : block.transactions[i]? = some tx) :
    receiptTxHash block i receipt = .ok tx.hash := by
  rw [receiptTxHash, htx]
  split
  · rfl
  · rename_i hne
    rcases h.txHash i receipt tx hreceipt htx with hzero | hhash
    · exact absurd hzero hne
    · rw [hhash]

def filterView (block : Block) (p : ℕ × ℕ × Types.Log) : Log :=
  viewOf block p.2.2 p.1 0 ((block.transactions[p.1]?).elim zeroHash (·.hash))

theorem appendLogsToFilters_eq (h : Stored store block receipts) (filters : List Filter) :
    appendLogsToFilters store filters block.header =
      .ok (filters.map (Filter.append fun q ↦ (matching q receipts).map (filterView block))) := by
  rw [appendLogsToFilters, h.getReceiptsByHash]
  dsimp only
  split
  · rename_i hnone
    have hself : ∀ filter ∈ filters, filter.append (fun q ↦
        (matching q receipts).map (filterView block)) = filter := by
      intro filter hfilter
      cases filter with
      | block => rfl
      | log query logs => exact absurd (any_eq_true.mpr ⟨_, hfilter, rfl⟩) hnone
    rw [List.map_congr_left hself, List.map_id']
  · rw [h.getBlockByHash]
    simp only [map_matching]
    refine Filter.foldlM_append (fun filters ⟨receipt, i⟩ hmem ↦ ?_) filters
    have hreceipt := mem_zipIdx_iff_getElem?.mp hmem
    have hlt := (List.getElem?_eq_some_iff.mp hreceipt).1
    have htx := List.getElem?_eq_getElem (h.length_receipts ▸ hlt)
    rw [receiptTxHash_eq h hreceipt htx, ok_bind, Filter.foldl_append]
    congr 3
    funext q
    nth_rewrite 1 [← zipIdx_map_fst 0 receipt.logs]
    rw [flatMap_map]
    simp only [filterView, htx, elim_some]
    rfl

theorem findIdx_hash {txs : List Transaction}
    (hnodup : (txs.map (·.hash)).Nodup) (htx : txs[i]? = some tx) :
    txs.findIdx? (·.hash = tx.hash) = some i := by
  obtain ⟨hlt, hget⟩ := List.getElem?_eq_some_iff.mp htx
  rw [List.findIdx?_eq_some_iff_getElem]
  refine ⟨hlt, by rw [hget, decide_eq_true rfl], fun j hj hsame ↦ ?_⟩
  have hhash := of_decide_eq_true hsame
  rw [← hget] at hhash
  exact pairwise_iff_getElem.mp (pairwise_map.mp hnodup) j i (hj.trans hlt) hlt hj hhash

theorem getTransactionReceipt_eq (h : Stored store block receipts)
    (hreceipt : receipts[i]? = some receipt) (htx : block.transactions[i]? = some tx) :
    (receipt.status = none → getTransactionReceipt store tx.hash = .panic) ∧
    (receipt.status.isSome → ∃ r, getTransactionReceipt store tx.hash = .ok (some r) ∧
      r.logs = transactionReceiptLogs block tx receipt) := by
  have hne : receipts ≠ [] := fun hnil ↦ by
    rw [hnil] at hreceipt
    cases hreceipt
  rw [getTransactionReceipt, h.readTxLookup tx (mem_of_getElem? htx)]
  simp only [h.getBlockByHash, h.getReceiptsByHash, if_neg hne, findIdx_hash h.nodup htx, htx,
    hreceipt]
  cases receipt.status with
  | none => exact ⟨fun _ ↦ rfl, nofun⟩
  | some status => exact ⟨nofun, fun _ ↦ ⟨_, rfl, rfl⟩⟩

theorem transactionReceiptLogs_getElem (tx : Transaction) (hlog : receipt.logs[j]? = some log) :
    (transactionReceiptLogs block tx receipt)[j]? = some (viewOf block log j j tx.hash) := by
  rw [transactionReceiptLogs, getElem?_map, getElem?_zipIdx, hlog, map_some, map_some, Nat.zero_add]
  rfl

end Views

/-- The three views of the log at position `j` of the receipt of `tx` are the same, and its
transaction index is the position `i` of the transaction; `k` is its place among the logs that
match. -/
def ViewsAgree (tx : Transaction) (logs new : List Log) (i j k : ℕ) : Prop :=
  ∃ view receipt, logs[k]? = some view ∧ new[k]? = some view ∧
    getTransactionReceipt store tx.hash = .ok (some receipt) ∧ receipt.logs[j]? = some view ∧
      view.txIndex = i

theorem viewsAgree_iff {store : Store} {block : Block} {receipts : List Receipt}
    (h : Stored store block receipts) {query : LogQuery} {log : Types.Log} {i j k : ℕ}
    {receipt : Receipt} {tx : Transaction}
    (hk : (matching query receipts)[k]? = some (i, j, log))
    (hreceipt : receipts[i]? = some receipt) (hlog : receipt.logs[j]? = some log)
    (htx : block.transactions[i]? = some tx) :
    ViewsAgree store tx ((matching query receipts).map (logsView block))
      ((matching query receipts).map (filterView block)) i j k ↔
      i = 0 ∧ j = 0 ∧ receipt.status.isSome := by
  obtain ⟨hpanic, hfound⟩ := getTransactionReceipt_eq h hreceipt htx
  have hviews (view : ℕ × ℕ × Types.Log → Log) :
      ((matching query receipts).map view)[k]? = some (view (i, j, log)) := by
    rw [getElem?_map, hk]
    rfl
  constructor
  · rintro ⟨view, r, hlogs, hnew, hr, hj, -⟩
    obtain rfl : logsView block (i, j, log) = view :=
      some.inj ((hviews _).symm.trans hlogs)
    have hstatus : receipt.status.isSome := by
      cases hs : receipt.status with
      | none =>
        rw [hpanic hs] at hr
        cases hr
      | some status => rfl
    obtain ⟨r', hr', hrlogs⟩ := hfound hstatus
    cases hr.symm.trans hr'
    have hzero : 0 = j := congrArg Log.logIndex (some.inj ((hviews _).symm.trans hnew))
    rw [hrlogs, transactionReceiptLogs_getElem _ hlog] at hj
    have hindex : j = i := congrArg Log.txIndex (some.inj hj)
    exact ⟨hindex ▸ hzero.symm, hzero.symm, hstatus⟩
  · rintro ⟨rfl, rfl, hstatus⟩
    obtain ⟨r, hr, hrlogs⟩ := hfound hstatus
    refine ⟨_, r, hviews _, hviews _, hr, ?_, rfl⟩
    rw [hrlogs, transactionReceiptLogs_getElem _ hlog, logsView, htx]
    rfl

/-- The views of `eth_getLogs`, of a log filter and of `eth_getTransactionReceipt` agree only on
the first log of the first transaction. -/
theorem log_views_agree_iff {store : Store} {block : Block} {receipts : List Receipt}
    (h : Stored store block receipts) {filters : List Filter} {n : ℕ} {query : LogQuery}
    {saved : List Log} (hfilter : filters[n]? = some (.log query saved)) :
    ∃ logs new filters', getLogsFromBlock store query block = .ok logs ∧
      appendLogsToFilters store filters block.header = .ok filters' ∧
      filters'[n]? = some (.log query (saved ++ new)) ∧
      logs.length = (matching query receipts).length ∧
      new.length = (matching query receipts).length ∧
      ∀ k i j log, (matching query receipts)[k]? = some (i, j, log) →
        ∃ tx receipt, block.transactions[i]? = some tx ∧ receipts[i]? = some receipt ∧
          receipt.logs[j]? = some log ∧
          (ViewsAgree store tx logs new i j k ↔
            i = 0 ∧ j = 0 ∧ receipt.status.isSome) := by
  refine ⟨_, (matching query receipts).map (filterView block), _, getLogsFromBlock_eq h.getReceiptsByHash h.length_receipts,
    appendLogsToFilters_eq h filters, ?_, length_map _, length_map _, ?_⟩
  · rw [getElem?_map, hfilter]
    rfl
  · intro k i j log hk
    obtain ⟨receipt, hreceipt, hlog⟩ := mem_matching (mem_of_getElem? hk)
    have hlt := (List.getElem?_eq_some_iff.mp hreceipt).1
    have htx := List.getElem?_eq_getElem (h.length_receipts ▸ hlt)
    exact ⟨_, receipt, htx, hreceipt, hlog, viewsAgree_iff h hk hreceipt hlog htx⟩

def dataLog (d : UInt8) : Types.Log := ⟨zeroAddress, [], [d]⟩

def loggingTx : Transaction := { (default : Transaction) with hash := bytesToHash [1] }

def twoLogs : Receipt :=
  { (default : Receipt) with
    logs := [dataLog 1, dataLog 2]
    status := some 1
    txHash := loggingTx.hash }

def loggingBlock : Block where
  header := { (default : Header) with number := 5, hash := bytesToHash [2] }
  transactions := [loggingTx]
  uncles := []

def loggingStore : Store where
  getReceiptsByHash hash := if hash = loggingBlock.header.hash then some [twoLogs] else none
  getBlockByHash hash := if hash = loggingBlock.header.hash then some loggingBlock else none
  readTxLookup hash := if hash = loggingTx.hash then some loggingBlock.header.hash else none

def anyLog : LogQuery := ⟨[], []⟩

theorem stored_loggingBlock : Stored loggingStore loggingBlock [twoLogs] where
  getBlockByHash := by simp only [loggingStore, if_true]
  getReceiptsByHash := by simp only [loggingStore, if_true]
  length_receipts := rfl
  txHash := by
    intro i receipt tx hreceipt htx
    cases i with
    | zero =>
      cases hreceipt
      cases htx
      exact .inr rfl
    | succ i => cases hreceipt
  readTxLookup := by
    intro tx htx
    cases mem_singleton.mp htx
    simp only [loggingStore, if_true]
  nodup := nodup_singleton _

theorem log_views_agree_iff_first :
    ∃ logs new filters', getLogsFromBlock loggingStore anyLog loggingBlock = .ok logs ∧
      appendLogsToFilters loggingStore [.log anyLog []] loggingBlock.header = .ok filters' ∧
      filters'[0]? = some (.log anyLog new) ∧ ViewsAgree loggingStore loggingTx logs new 0 0 0 := by
  have hfilter : [Filter.log anyLog []][0]? = some (.log anyLog []) := rfl
  obtain ⟨logs, new, filters', hlogs, hfilters, hnew, _, _, hviews⟩ :=
    log_views_agree_iff stored_loggingBlock hfilter
  obtain ⟨tx, receipt, htx, hreceipt, _, hiff⟩ := hviews 0 0 0 (dataLog 1) rfl
  cases htx
  cases hreceipt
  exact ⟨logs, new, filters', hlogs, hfilters, hnew, hiff.mpr ⟨rfl, rfl, rfl⟩⟩

/-- The second log has three views: its log index is lost in the filter, and is taken for the
transaction index in the receipt. -/
theorem second_log_views :
    getLogsFromBlock loggingStore anyLog loggingBlock =
      .ok [viewOf loggingBlock (dataLog 1) 0 0 loggingTx.hash,
        viewOf loggingBlock (dataLog 2) 0 1 loggingTx.hash] ∧
    appendLogsToFilters loggingStore [.log anyLog []] loggingBlock.header =
      .ok [.log anyLog [viewOf loggingBlock (dataLog 1) 0 0 loggingTx.hash,
        viewOf loggingBlock (dataLog 2) 0 0 loggingTx.hash]] ∧
    ∃ receipt, getTransactionReceipt loggingStore loggingTx.hash = .ok (some receipt) ∧
      receipt.logs = [viewOf loggingBlock (dataLog 1) 0 0 loggingTx.hash,
        viewOf loggingBlock (dataLog 2) 1 1 loggingTx.hash] := by
  refine ⟨by decide +kernel, by decide +kernel, _, rfl, rfl⟩

end Mainnet.Jsonrpc
