import Mathlib.Data.Finset.Card
import Mathlib.Data.List.AList
import Mathlib.Data.List.Sort
import Mainnet.Lib.Outcome
import Mainnet.Types.Basic

namespace Mainnet.Txpool

open Types Lib List Option AList

structure PoolTransaction where
  nonce : ℕ
  gasPrice : Option ℤ
  gas : ℕ
  toAddr : Option Address
  value : ℤ
  input : Bytes
  timestamp : ℕ
  v : ℕ
  r : ℕ
  s : ℕ
deriving DecidableEq, Inhabited

/-- The methods `Hash` and `Sender` of transactions; `none` is a signature error. -/
structure TxMethods where
  hash : PoolTransaction → Hash
  sender : PoolTransaction → Option Address

inductive PoolError
  | previouslyRejected
  | invalidTx
  | gasLimitExceeded
  | gasPriceTooLow
  | sender
  | txPoolOverflow
  | timestampTooFar
  | underpriced
deriving DecidableEq

def maxTxPoolSize : ℕ := 100000

def maxRejectedTxsSize : ℕ := 10000

def minGasPrice : ℕ := 1

def maxFutureTimeDrift : ℤ := 900 * 10 ^ 9

def txExpiration : ℤ := 1800 * 10 ^ 9

abbrev Pending := AList fun _ : Address ↦ List PoolTransaction

def Pending.list (pending : Pending) (a : Address) : List PoolTransaction := (pending.lookup a).getD []

structure TxPool where
  pending : Pending
  allTxs : AList fun _ : Hash ↦ PoolTransaction
  rejectedTxs : Finset Hash
  blockGasLimit : ℕ

def newTxPool (blockGasLimit : ℕ) : TxPool := ⟨∅, ∅, ∅, blockGasLimit⟩

/-- The seconds of `time.Unix(int64(timestamp), 0)` on the clock of Go's `time` package, which
counts from the year 1. -/
def unixSeconds (timestamp : ℕ) : ℤ :=
  (Int.bmod timestamp (2 ^ 64) + 62135596800).bmod (2 ^ 64)

def tooFarInFuture (timestamp : ℕ) (now : ℤ) : Bool :=
  decide (now + maxFutureTimeDrift < unixSeconds timestamp * 10 ^ 9)

variable (M : TxMethods)

/-- `Uint64` of a price is the low word of its absolute value. -/
def validateTransaction (tx : PoolTransaction) (blockGasLimit : ℕ) : Except PoolError Unit :=
  match tx.gasPrice with
  | none => .error .invalidTx
  | some gasPrice =>
    if tx.gas = 0 ∨ tx.toAddr = none then .error .invalidTx
    else if tx.gas > blockGasLimit then .error .gasLimitExceeded
    else if gasPrice.natAbs % 2 ^ 64 < minGasPrice then .error .gasPriceTooLow
    else if (M.sender tx).isNone then .error .sender
    else .ok ()

def sortAccountTransactions (txs : List PoolTransaction) : List PoolTransaction :=
  if txs.length ≤ 1 then txs else txs.insertionSort fun t u ↦ t.nonce ≤ u.nonce

namespace TxPool

variable (tp : TxPool)

def pruneRejectedTxs : TxPool :=
  if tp.rejectedTxs.card ≥ maxRejectedTxsSize then { tp with rejectedTxs := ∅ } else tp

def reject (tx : PoolTransaction) (e : PoolError) : TxPool × Outcome PoolError Unit :=
  ({ tp with rejectedTxs := insert (M.hash tx) tp.rejectedTxs }, .error e)

/-- The end of `AddTransaction`: the transaction takes the place of a cheaper one with its nonce, or
joins the others of its sender. -/
def place (src : Address) (tx : PoolTransaction) : TxPool × Outcome PoolError Unit :=
  let existingTxs := tp.pending.list src
  let i := existingTxs.findIdx fun t ↦ t.nonce = tx.nonce
  match existingTxs[i]? with
  | some existingTx =>
    match tx.gasPrice, existingTx.gasPrice with
    | some price, some existingPrice =>
      if existingPrice < price then
        ({ tp with
            pending := tp.pending.insert src (existingTxs.set i tx)
            allTxs := (tp.allTxs.erase (M.hash existingTx)).insert (M.hash tx) tx }, .ok ())
      else (tp, .error .underpriced)
    | _, _ => (tp, .panic)
  | none =>
    ({ tp with
        pending := tp.pending.insert src (sortAccountTransactions (existingTxs ++ [tx]))
        allTxs := tp.allTxs.insert (M.hash tx) tx }, .ok ())

def addTransaction (now : ℤ) (tx : PoolTransaction) : TxPool × Outcome PoolError Unit :=
  if M.hash tx ∈ tp.allTxs then (tp, .ok ())
  else if M.hash tx ∈ tp.rejectedTxs then (tp, .error .previouslyRejected)
  else
    match validateTransaction M tx tp.blockGasLimit with
    | .error e => tp.pruneRejectedTxs.reject M tx e
    | .ok () =>
      match M.sender tx with
      | none => tp.reject M tx .sender
      | some src =>
        if tp.allTxs.entries.length ≥ maxTxPoolSize then (tp, .error .txPoolOverflow)
        else if tooFarInFuture tx.timestamp now then tp.reject M tx .timestampTooFar
        else tp.place M src tx

/-- `GetPending` and the loop over its map, which Go runs in any order of the addresses. -/
def getPending (order : List Address) : List PoolTransaction := order.flatMap tp.pending.list

def removeTransaction (tx : PoolTransaction) : TxPool :=
  if M.hash tx ∈ tp.allTxs then
    { tp with
      pending :=
        match M.sender tx with
        | none => tp.pending
        | some src =>
          let rest := (tp.pending.list src).eraseP fun t ↦ M.hash t = M.hash tx
          if rest = [] then tp.pending.erase src else tp.pending.insert src rest
      allTxs := tp.allTxs.erase (M.hash tx) }
  else tp

def removeTransactions (txs : List PoolTransaction) : TxPool := txs.foldl (removeTransaction M) tp

def retain (keep : PoolTransaction → Bool) (addr : Address) : TxPool :=
  let txs := tp.pending.list addr
  let filtered := txs.filter keep
  { tp with
    pending := if filtered = [] then tp.pending.erase addr else tp.pending.insert addr filtered
    allTxs := (txs.filter fun tx ↦ !keep tx).foldl (fun all tx ↦ all.erase (M.hash tx)) tp.allTxs }

/-- `now.Sub` of the transaction's time is below the expiration; `Sub` saturates, which no
comparison with thirty minutes can tell. -/
def notExpired (now : ℤ) (tx : PoolTransaction) : Bool :=
  decide (now - unixSeconds tx.timestamp * 10 ^ 9 < txExpiration)

/-- `sinceCleanup` is the time that has passed since `lastCleanup`. -/
def removeStale (now sinceCleanup : ℤ) : TxPool :=
  let tp' := tp.pending.keys.foldl (fun tp addr ↦ tp.retain M (notExpired now) addr) tp
  if txExpiration < sinceCleanup then tp'.pruneRejectedTxs else tp'

def updateNonce (addr : Address) (nonce : ℕ) : TxPool :=
  tp.retain M (fun tx ↦ decide (nonce ≤ tx.nonce)) addr

def clear : TxPool := { tp with pending := ∅, allTxs := ∅ }

end TxPool

section

variable (pending : Pending) (a b : Address)

@[simp] theorem Pending.list_insert (l : List PoolTransaction) :
    Pending.list (pending.insert a l) b = if b = a then l else pending.list b := by
  by_cases h : b = a
  · subst h
    simp [Pending.list, lookup_insert]
  · simp [Pending.list, lookup_insert_ne h, h]

@[simp] theorem Pending.list_erase :
    Pending.list (pending.erase a) b = if b = a then [] else pending.list b := by
  by_cases h : b = a
  · subst h
    simp [Pending.list, lookup_erase]
  · simp [Pending.list, lookup_erase_ne h, h]

theorem Pending.list_shorten (l : List PoolTransaction) :
    Pending.list (if l = [] then pending.erase a else pending.insert a l) b =
      if b = a then l else pending.list b := by
  by_cases hl : l = []
  · rw [if_pos hl, Pending.list_erase, hl]
  · rw [if_neg hl, Pending.list_insert]

end

theorem sortAccountTransactions_perm (txs : List PoolTransaction) :
    (sortAccountTransactions txs).Perm txs := by
  rw [sortAccountTransactions]
  split
  · exact Perm.refl _
  · exact perm_insertionSort _ _

namespace TxPool

variable {M} {tp : TxPool} {tx : PoolTransaction} {src : Address}

structure Passes (M : TxMethods) (tp : TxPool) (tx : PoolTransaction) : Prop where
  fresh : M.hash tx ∉ tp.allTxs
  unrejected : M.hash tx ∉ tp.rejectedTxs
  valid : validateTransaction M tx tp.blockGasLimit = .ok ()
  room : tp.allTxs.entries.length < maxTxPoolSize

theorem sender_of_valid {blockGasLimit : ℕ}
    (h : validateTransaction M tx blockGasLimit = .ok ()) : ∃ src, M.sender tx = some src := by
  unfold validateTransaction at h
  split at h
  · cases h
  · split_ifs at h with _ _ _ hsender
    rw [isNone_iff_eq_none] at hsender
    exact ne_none_iff_exists'.mp hsender

theorem addTransaction_spec (M : TxMethods) (tp : TxPool) (now : ℤ) (tx : PoolTransaction) :
    (¬tp.Passes M tx ∧ ((tp.addTransaction M now tx).1 = tp ∨
      ∃ e, (tp.addTransaction M now tx).1 = (tp.pruneRejectedTxs.reject M tx e).1)) ∨
    (tp.Passes M tx ∧ tooFarInFuture tx.timestamp now = true ∧
      (tp.addTransaction M now tx).1 = (tp.reject M tx .timestampTooFar).1) ∨
    (tp.Passes M tx ∧ tooFarInFuture tx.timestamp now = false ∧
      ∃ src, M.sender tx = some src ∧ (tp.addTransaction M now tx).1 = (tp.place M src tx).1) := by
  unfold addTransaction
  by_cases hfresh : M.hash tx ∈ tp.allTxs
  · rw [if_pos hfresh]
    exact .inl ⟨fun h ↦ h.fresh hfresh, .inl rfl⟩
  rw [if_neg hfresh]
  by_cases hrejected : M.hash tx ∈ tp.rejectedTxs
  · rw [if_pos hrejected]
    exact .inl ⟨fun h ↦ h.unrejected hrejected, .inl rfl⟩
  rw [if_neg hrejected]
  cases hvalid : validateTransaction M tx tp.blockGasLimit with
  | error e =>
    refine .inl ⟨fun h ↦ ?_, .inr ⟨e, rfl⟩⟩
    rw [h.valid] at hvalid
    cases hvalid
  | ok u =>
    obtain ⟨src, hsender⟩ := sender_of_valid hvalid
    simp only [hsender]
    by_cases hroom : tp.allTxs.entries.length ≥ maxTxPoolSize
    · rw [if_pos hroom]
      exact .inl ⟨fun h ↦ absurd h.room (not_lt.mpr hroom), .inl rfl⟩
    rw [if_neg hroom]
    have hpasses : tp.Passes M tx := ⟨hfresh, hrejected, hvalid, not_le.mp hroom⟩
    cases hfuture : tooFarInFuture tx.timestamp now with
    | true => exact .inr (.inl ⟨hpasses, rfl, rfl⟩)
    | false => exact .inr (.inr ⟨hpasses, rfl, src, rfl, rfl⟩)

theorem addTransaction_cases (M : TxMethods) (tp : TxPool) (now : ℤ) (tx : PoolTransaction) :
    ((tp.addTransaction M now tx).1.pending = tp.pending ∧
      (tp.addTransaction M now tx).1.allTxs = tp.allTxs) ∨
    (M.hash tx ∉ tp.allTxs ∧ ∃ src, M.sender tx = some src ∧
      (tp.addTransaction M now tx).1 = (tp.place M src tx).1) := by
  rcases addTransaction_spec M tp now tx with
    ⟨-, heq | ⟨e, heq⟩⟩ | ⟨-, -, heq⟩ | ⟨hpasses, -, hplace⟩
  · rw [heq]
    exact .inl ⟨rfl, rfl⟩
  · rw [heq, reject, pruneRejectedTxs]
    split <;> exact .inl ⟨rfl, rfl⟩
  · rw [heq]
    exact .inl ⟨rfl, rfl⟩
  · exact .inr ⟨hpasses.fresh, hplace⟩

theorem place_cases (M : TxMethods) (tp : TxPool) (src : Address) (tx : PoolTransaction) :
    ((tp.place M src tx).1 = tp ∧ ∃ t ∈ tp.pending.list src, t.nonce = tx.nonce) ∨
    (∃ i existingTx, (tp.pending.list src)[i]? = some existingTx ∧ existingTx.nonce = tx.nonce ∧
      (tp.place M src tx).1.pending = tp.pending.insert src ((tp.pending.list src).set i tx) ∧
      (tp.place M src tx).1.allTxs = (tp.allTxs.erase (M.hash existingTx)).insert (M.hash tx) tx) ∨
    ((∀ t ∈ tp.pending.list src, t.nonce ≠ tx.nonce) ∧
      (tp.place M src tx).1.pending =
        tp.pending.insert src (sortAccountTransactions (tp.pending.list src ++ [tx])) ∧
      (tp.place M src tx).1.allTxs = tp.allTxs.insert (M.hash tx) tx) := by
  simp only [place]
  generalize hi : (tp.pending.list src).findIdx (fun t ↦ t.nonce = tx.nonce) = i
  cases hex : (tp.pending.list src)[i]? with
  | none =>
    right; right
    refine ⟨fun t ht hnonce ↦ ?_, rfl, rfl⟩
    have hlt := findIdx_lt_length_of_exists
      (p := fun t : PoolTransaction ↦ decide (t.nonce = tx.nonce)) ⟨t, ht, by simpa using hnonce⟩
    rw [hi] at hlt
    rw [getElem?_eq_getElem hlt] at hex
    cases hex
  | some existingTx =>
    obtain ⟨hlt, hat⟩ := List.getElem?_eq_some_iff.mp hex
    have hnonce := findIdx_getElem
      (w := (by rw [hi]; exact hlt : (tp.pending.list src).findIdx
        (fun t ↦ decide (t.nonce = tx.nonce)) < (tp.pending.list src).length))
    simp only [hi, hat, decide_eq_true_eq] at hnonce
    have hsame : ∃ t ∈ tp.pending.list src, t.nonce = tx.nonce :=
      ⟨existingTx, mem_of_getElem? hex, hnonce⟩
    dsimp only
    split
    · split
      · exact .inr (.inl ⟨i, existingTx, hex, hnonce, rfl, rfl⟩)
      · exact .inl ⟨rfl, hsame⟩
    · exact .inl ⟨rfl, hsame⟩

theorem map_nonce_set {l : List PoolTransaction} {i : ℕ} {t : PoolTransaction}
    (h : l[i]? = some t) (hn : t.nonce = tx.nonce) :
    (l.set i tx).map PoolTransaction.nonce = l.map PoolTransaction.nonce := by
  rw [map_set, ← hn]
  apply ext_getElem?
  intro j
  by_cases hj : i = j
  · subst hj
    obtain ⟨hi, rfl⟩ := List.getElem?_eq_some_iff.mp h
    rw [List.getElem?_set_self (by simpa using hi), List.getElem?_map, h, map_some]
  · rw [getElem?_set_ne hj]

theorem not_mem_eraseP {S : Set PoolTransaction} (hinj : S.InjOn M.hash) {l : List PoolTransaction}
    (hl : ∀ t ∈ l, t ∈ S) (hnodup : l.Nodup)
    (hS : tx ∈ S) : tx ∉ l.eraseP fun t ↦ M.hash t = M.hash tx := by
  by_cases hmem : tx ∈ l
  · obtain ⟨x, l₁, l₂, -, hx, rfl, heq⟩ := exists_of_eraseP hmem
      (p := fun t ↦ decide (M.hash t = M.hash tx)) (by simp)
    obtain rfl : x = tx := hinj (hl x (by simp)) hS (by simpa using hx)
    rw [heq]
    exact (nodup_cons.mp (nodup_middle.mp hnodup)).1
  · exact fun h ↦ hmem (mem_of_mem_eraseP h)

end TxPool

end Mainnet.Txpool
