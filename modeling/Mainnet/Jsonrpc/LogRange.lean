import Mainnet.Jsonrpc.Logs

namespace Mainnet.Jsonrpc

open Types Lib List Nat UInt64

structure ChainStore extends Store where
  header : Option UInt64
  getBlockByNumber : UInt64 → Option Block

inductive QueryError
  | latestNotFound
  | negativeBlockNumber
  | incorrectBlockRange
  | blockRangeTooHigh
  | blockNotFound
  | logs (e : FilterError)
deriving DecidableEq

structure RangeQuery where
  query : LogQuery
  blockHash : Option Hash
  fromBlock : ℤ
  toBlock : ℤ

section Model

variable (store : ChainStore)

def getNumericBlockNumber (number : ℤ) : Outcome QueryError UInt64 :=
  if number = -2 ∨ number = -3 then Outcome.ofOption .latestNotFound store.header
  else if number = -1 then .ok 0
  else if number < 0 then .error .negativeBlockNumber
  else .ok (ofNat number.toNat)

/-- The loop over the blocks from `i` on; `none` if it has not ended after the given turns. -/
def scanBlocks (query : LogQuery) (stop : UInt64) :
    ℕ → UInt64 → List Log → Option (Outcome QueryError (List Log))
  | 0, _, _ => none
  | turns + 1, i, logs =>
    if ¬ i ≤ stop then some (.ok logs)
    else
      match store.getBlockByNumber i with
      | none => some (.ok logs)
      | some block =>
        if block.transactions.length = 0 then scanBlocks query stop turns (i + 1) logs
        else
          match (getLogsFromBlock store.toStore query block).mapError .logs with
          | .ok blockLogs => scanBlocks query stop turns (i + 1) (logs ++ blockLogs)
          | failed => some failed

def getLogsFromBlocks (blockRangeLimit : UInt64) (query : RangeQuery) (turns : ℕ) :
    Option (Outcome QueryError (List Log)) :=
  match getNumericBlockNumber store query.fromBlock with
  | .ok start =>
    match getNumericBlockNumber store query.toBlock with
    | .ok stop =>
      if stop < start then some (.error .incorrectBlockRange)
      else
        let start := if start = 0 then 1 else start
        if blockRangeLimit ≠ 0 ∧ stop - start > blockRangeLimit then
          some (.error .blockRangeTooHigh)
        else scanBlocks store query.query stop turns start []
    | .error e => some (.error e)
    | .panic => some .panic
  | .error e => some (.error e)
  | .panic => some .panic

def getLogsForQuery (blockRangeLimit : UInt64) (query : RangeQuery) (turns : ℕ) :
    Option (Outcome QueryError (List Log)) :=
  match query.blockHash with
  | some hash =>
    match store.getBlockByHash hash with
    | none => some (.error .blockNotFound)
    | some block =>
      if block.transactions.length = 0 then some (.ok [])
      else some ((getLogsFromBlock store.toStore query.query block).mapError .logs)
  | none => getLogsFromBlocks store blockRangeLimit query turns

end Model

/-- The blocks of a chain with their receipts are in the store, and genesis has no transactions. -/
structure Complete (store : ChainStore) (chain : List (Block × List Receipt)) : Prop where
  getBlockByNumber : ∀ i, store.getBlockByNumber i = (chain[i.toNat]?).map (·.1)
  getReceiptsByHash : ∀ b ∈ chain, store.getReceiptsByHash b.1.header.hash = some b.2
  length_receipts : ∀ b ∈ chain, b.2.length = b.1.transactions.length
  genesis : ∀ b, chain[0]? = some b → b.1.transactions = []

def blockLogs (query : LogQuery) (b : Block × List Receipt) : List Log :=
  (matching query b.2).map (logsView b.1)

def rangeLogs (query : LogQuery) (chain : List (Block × List Receipt)) (start stop : ℕ) : List Log :=
  ((chain.take (stop + 1)).drop start).flatMap (blockLogs query)

variable {store : ChainStore} {chain : List (Block × List Receipt)} {query : LogQuery}
  {b : Block × List Receipt}

theorem Complete.blockLogs_eq_nil (h : Complete store chain) (hb : b ∈ chain)
    (hempty : b.1.transactions = []) : blockLogs query b = [] := by
  have hlength := h.length_receipts b hb
  rw [hempty, length_nil, length_eq_zero_iff] at hlength
  rw [blockLogs, hlength]
  rfl

variable {stop i : UInt64}

theorem Complete.scanBlocks_succ (h : Complete store chain) (hi : i ≤ stop)
    (hb : chain[i.toNat]? = some b) (turns : ℕ) (logs : List Log) :
    scanBlocks store query stop (turns + 1) i logs =
      scanBlocks store query stop turns (i + 1) (logs ++ blockLogs query b) := by
  have hmem := mem_of_getElem? hb
  rw [scanBlocks, if_neg (not_not.mpr hi), h.getBlockByNumber, hb, Option.map_some]
  dsimp only
  split
  · next hempty =>
    rw [h.blockLogs_eq_nil hmem (length_eq_zero_iff.mp hempty), append_nil]
  · rw [getLogsFromBlock_eq (h.getReceiptsByHash b hmem) (h.length_receipts b hmem)]
    rfl

theorem rangeLogs_succ {start stop : ℕ} (hle : start ≤ stop) (hb : chain[start]? = some b) :
    rangeLogs query chain start stop =
      blockLogs query b ++ rangeLogs query chain (start + 1) stop := by
  have hb' : (chain.take (stop + 1))[start]? = some b := by
    rw [getElem?_take_of_lt (by omega), hb]
  obtain ⟨hlt, hget⟩ := List.getElem?_eq_some_iff.mp hb'
  rw [rangeLogs, drop_eq_getElem_cons hlt, hget]
  rfl

theorem rangeLogs_eq_nil {start stop : ℕ} (h : stop < start ∨ chain.length ≤ start) :
    rangeLogs query chain start stop = [] := by
  rw [rangeLogs, drop_eq_nil_of_le]
  · rfl
  · rw [length_take]
    omega

theorem scanBlocks_of_lt (hlt : stop.toNat < i.toNat) (turns : ℕ)
    (logs : List Log) : scanBlocks store query stop (turns + 1) i logs =
      some (.ok (logs ++ rangeLogs query chain i.toNat stop.toNat)) := by
  have hi : ¬ i ≤ stop := by
    rw [le_iff_toNat_le]
    omega
  rw [scanBlocks, if_pos hi, rangeLogs_eq_nil (.inl hlt), append_nil]

theorem Complete.scanBlocks_eq (h : Complete store chain)
    (hend : ¬ (stop.toNat = 2 ^ 64 - 1 ∧ 2 ^ 64 ≤ chain.length)) {n : ℕ}
    (hn : stop.toNat + 1 ≤ i.toNat + n) (logs : List Log) :
    scanBlocks store query stop (n + 1) i logs =
      some (.ok (logs ++ rangeLogs query chain i.toNat stop.toNat)) := by
  induction n generalizing i logs with
  | zero => exact scanBlocks_of_lt (by omega) 0 logs
  | succ n ih =>
    rcases lt_or_ge stop.toNat i.toNat with hlt | hle
    · exact scanBlocks_of_lt hlt (n + 1) logs
    have hi : i ≤ stop := le_iff_toNat_le.mpr hle
    cases hb : chain[i.toNat]? with
    | none =>
      rw [scanBlocks, if_neg (not_not.mpr hi), h.getBlockByNumber, hb,
        rangeLogs_eq_nil (.inr (getElem?_eq_none_iff.mp hb)), append_nil]
      rfl
    | some b =>
      have hlength := (List.getElem?_eq_some_iff.mp hb).1
      have hstop := stop.toNat_lt
      have hsucc : (i + 1).toNat = i.toNat + 1 := by
        rw [UInt64.toNat_add]
        exact mod_eq_of_lt (by change i.toNat + 1 < 2 ^ 64; omega)
      rw [h.scanBlocks_succ hi hb, ih (by omega), hsucc, rangeLogs_succ hle hb, append_assoc]

/-- At the largest number `i++` wraps around, so the loop never ends. -/
theorem Complete.scanBlocks_eq_none (h : Complete store chain)
    (hstop : stop.toNat = 2 ^ 64 - 1) (hchain : 2 ^ 64 ≤ chain.length) (turns : ℕ) (i : UInt64)
    (logs : List Log) : scanBlocks store query stop turns i logs = none := by
  induction turns generalizing i logs with
  | zero => rfl
  | succ turns ih =>
    have hlt := i.toNat_lt
    have hb := getElem?_eq_getElem (l := chain) (i := i.toNat) (by omega)
    rw [h.scanBlocks_succ (le_iff_toNat_le.mpr (by omega)) hb]
    exact ih _ _

theorem Complete.rangeLogs_skip (h : Complete store chain) (start : UInt64) (stop : ℕ) :
    rangeLogs query chain (if start = 0 then 1 else start).toNat stop =
      rangeLogs query chain start.toNat stop := by
  split
  · next hzero =>
    rw [hzero]
    change rangeLogs query chain 1 stop = rangeLogs query chain 0 stop
    cases hb : chain[0]? with
    | none =>
      have hlength := getElem?_eq_none_iff.mp hb
      rw [rangeLogs_eq_nil (.inr (by omega)), rangeLogs_eq_nil (.inr hlength)]
    | some b =>
      rw [rangeLogs_succ (zero_le _) hb,
        h.blockLogs_eq_nil (mem_of_getElem? hb) (h.genesis b hb), nil_append]
  · rfl

/-- `to - from` wraps around only for the range of the genesis block alone. -/
theorem tooHigh_iff {start limit : UInt64} (hle : start ≤ stop)
    (hspan : limit = 0 ∨ stop - start ≤ limit) :
    limit ≠ 0 ∧ stop - (if start = 0 then 1 else start) > limit ↔
      stop = 0 ∧ limit ≠ 0 ∧ limit.toNat ≠ 2 ^ 64 - 1 := by
  simp only [gt_iff_lt, UInt64.le_iff_toNat_le, UInt64.lt_iff_toNat_lt, ← UInt64.toNat_inj,
    ne_eq, UInt64.toNat_sub] at *
  have hstop := stop.toNat_lt
  have hlimit := limit.toNat_lt
  have hzero : (0 : UInt64).toNat = 0 := rfl
  have hone : (1 : UInt64).toNat = 1 := rfl
  split <;> omega

/-- A query within the limit has all its logs, except when the range is the genesis block alone
under a limit, and when the numbers of the blocks are all in use. -/
theorem getLogsForQuery_complete_iff (limit start stop : UInt64) (query : RangeQuery)
    (h : Complete store chain) (hhash : query.blockHash = none)
    (hfrom : getNumericBlockNumber store query.fromBlock = .ok start)
    (hto : getNumericBlockNumber store query.toBlock = .ok stop) (hle : start ≤ stop)
    (hspan : limit = 0 ∨ stop - start ≤ limit) :
    (∃ turns, getLogsForQuery store limit query turns =
        some (.ok (rangeLogs query.query chain start.toNat stop.toNat))) ↔
      (stop = 0 → limit = 0 ∨ limit.toNat = 2 ^ 64 - 1) ∧
        ¬ (stop.toNat = 2 ^ 64 - 1 ∧ 2 ^ 64 ≤ chain.length) := by
  have hrun (turns : ℕ) : getLogsForQuery store limit query turns =
      if stop = 0 ∧ limit ≠ 0 ∧ limit.toNat ≠ 2 ^ 64 - 1 then some (.error .blockRangeTooHigh)
      else scanBlocks store query.query stop turns (if start = 0 then 1 else start) [] := by
    rw [getLogsForQuery, hhash]
    dsimp only
    rw [getLogsFromBlocks, hfrom]
    dsimp only
    rw [hto]
    dsimp only
    rw [if_neg (UInt64.not_lt.mpr hle)]
    simp only [tooHigh_iff hle hspan]
  simp only [hrun]
  by_cases hhigh : stop = 0 ∧ limit ≠ 0 ∧ limit.toNat ≠ 2 ^ 64 - 1
  · simp only [if_pos hhigh]
    constructor
    · rintro ⟨_, hok⟩
      cases hok
    · exact fun hcond ↦ ((hcond.1 hhigh.1).elim hhigh.2.1 hhigh.2.2).elim
  · simp only [if_neg hhigh]
    constructor
    · rintro ⟨turns, hok⟩
      refine ⟨fun hstop ↦ by tauto, fun hall ↦ ?_⟩
      rw [h.scanBlocks_eq_none hall.1 hall.2] at hok
      cases hok
    · rintro ⟨_, hend⟩
      exact ⟨_, (h.scanBlocks_eq hend (le_add_left _ _) []).trans (by
        rw [h.rangeLogs_skip, nil_append])⟩

def twoBlocks : List (Block × List Receipt) :=
  [(⟨default, [], []⟩, []), (loggingBlock, [twoLogs])]

def twoBlockStore : ChainStore where
  getReceiptsByHash hash := if hash = loggingBlock.header.hash then some [twoLogs] else some []
  getBlockByHash hash := if hash = loggingBlock.header.hash then some loggingBlock else none
  readTxLookup _ := none
  header := some 1
  getBlockByNumber i := (twoBlocks[i.toNat]?).map (·.1)

theorem complete_twoBlockStore : Complete twoBlockStore twoBlocks where
  getBlockByNumber _ := rfl
  getReceiptsByHash := by decide +kernel
  length_receipts := by decide +kernel
  genesis b hb := by
    cases hb
    rfl

theorem getLogsForQuery_complete_latest :
    ∃ turns, getLogsForQuery twoBlockStore 1000 ⟨anyLog, none, -1, -2⟩ turns =
      some (.ok (rangeLogs anyLog twoBlocks 0 1)) :=
  (getLogsForQuery_complete_iff 1000 0 1 ⟨anyLog, none, -1, -2⟩ complete_twoBlockStore rfl rfl rfl
    (by decide) (by decide)).mpr ⟨by decide, by decide⟩

/-- The genesis block alone is a range that is too high: `0 - 1` is the largest number. -/
theorem getLogsForQuery_genesis_refused :
    rangeLogs anyLog twoBlocks 0 0 = [] ∧ (0 : UInt64) - 0 ≤ 1000 ∧ ∀ turns,
      getLogsForQuery twoBlockStore 1000 ⟨anyLog, none, 0, 0⟩ turns =
        some (.error .blockRangeTooHigh) :=
  ⟨rfl, by decide, fun _ ↦ rfl⟩

end Mainnet.Jsonrpc
