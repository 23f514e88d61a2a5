import Mainnet.Lib.Outcome
import Mainnet.Types.Basic

namespace Mainnet.State

open Types List

structure Transition (σ ρ : Type) where
  state : σ
  receipts : List ρ
  totalGas : ℕ
deriving DecidableEq

inductive WriteError
  | gasLimitReached
  | application (isRecoverable : Bool)
  | other
deriving DecidableEq

inductive SecurityError
  | zeroDestination
  | tokenStandard
deriving DecidableEq

inductive ProcessError
  | beginTxn
  | writeFailedReceipt
  | write (e : WriteError)
deriving DecidableEq

/-- What a transition knows of its header; block hashes are looked up from the parent on. -/
structure TxContext where
  parentHash : Hash
  number : ℕ
  timestamp : ℕ
  difficulty : ℕ
  gasLimit : ℕ
  coinbase : Address
deriving DecidableEq

structure StateLibrary (σ ρ : Type) where
  newTransitionAt : Hash → TxContext → Option σ
  write : Transition σ ρ → Transaction → Except WriteError (Transition σ ρ)
  writeFailedReceipt : Transition σ ρ → Transaction → Option (Transition σ ρ)
  /-- The token standard of the security information, where the transaction has one. -/
  getSecurityInfo : Transaction → Option String

variable {σ ρ : Type} (L : StateLibrary σ ρ)

def beginTxn (parentRoot : Hash) (header : Header) (coinbaseReceiver : Address) :
    Option (Transition σ ρ) :=
  (L.newTransitionAt parentRoot ⟨header.parentHash, header.number, header.timestamp,
    header.difficulty, header.gasLimit, coinbaseReceiver⟩).map fun state ↦ ⟨state, [], 0⟩

def validateTransactionSecurity (tx : Transaction) : Except SecurityError Unit :=
  if tx.toAddr = some zeroAddress then .error .zeroDestination
  else match L.getSecurityInfo tx with
    | none => .ok ()
    | some tokenStandard => if tokenStandard ≠ "ACC-20" then .error .tokenStandard else .ok ()

def recordFailure (txn : Transition σ ρ) (t : Transaction) : Except ProcessError (Transition σ ρ) :=
  match L.writeFailedReceipt txn t with
  | none => .error .writeFailedReceipt
  | some txn' => .ok txn'

def processTransaction (gasLimit : ℕ) (txn : Transition σ ρ) (t : Transaction) :
    Except ProcessError (Transition σ ρ) :=
  if t.exceedsBlockGasLimit gasLimit then recordFailure L txn t
  else match validateTransactionSecurity L t with
    | .error _ => recordFailure L txn t
    | .ok _ => (L.write txn t).mapError .write

def processBlock (parentRoot : Hash) (block : Block) (blockCreator : Address) :
    Except ProcessError (Transition σ ρ) :=
  match beginTxn L parentRoot block.header blockCreator with
  | none => .error .beginTxn
  | some txn => block.transactions.foldlM (processTransaction L block.header.gasLimit) txn

/-- Both writes append one receipt, and never the same one. -/
structure StateLibrary.Appends : Prop where
  write : ∀ {txn txn' t}, L.write txn t = .ok txn' → ∃ r, txn'.receipts = txn.receipts ++ [r]
  failed : ∀ txn t, ∃ txn' r,
    L.writeFailedReceipt txn t = some txn' ∧ txn'.receipts = txn.receipts ++ [r]
  distinct : ∀ {txn txn' txn'' t}, L.write txn t = .ok txn' → L.writeFailedReceipt txn t = some txn'' →
    txn'.receipts ≠ txn''.receipts

variable {L} {txn txn' : Transition σ ρ} {t : Transaction} {gasLimit : ℕ}

theorem processTransaction_receipts (hL : L.Appends)
    (h : processTransaction L gasLimit txn t = .ok txn') :
    ∃ r, txn'.receipts = txn.receipts ++ [r] := by
  have hfailure : recordFailure L txn t = .ok txn' → ∃ r, txn'.receipts = txn.receipts ++ [r] := by
    intro h
    obtain ⟨_, r, hfailed, hr⟩ := hL.failed txn t
    rw [recordFailure, hfailed] at h
    cases h
    exact ⟨r, hr⟩
  rw [processTransaction] at h
  split at h
  · exact hfailure h
  · split at h
    · exact hfailure h
    · cases hw : L.write txn t with
      | error e =>
        rw [hw] at h
        cases h
      | ok txn₁ =>
        rw [hw] at h
        cases h
        exact hL.write hw

theorem foldlM_receipts (hL : L.Appends) {ts : List Transaction}
    (h : ts.foldlM (processTransaction L gasLimit) txn = .ok txn') :
    ∃ rs, txn'.receipts = txn.receipts ++ rs ∧ rs.length = ts.length := by
  induction ts generalizing txn with
  | nil =>
    cases h
    exact ⟨[], (append_nil _).symm, rfl⟩
  | cons t ts ih =>
    rw [foldlM_cons] at h
    obtain ⟨txn₁, ht, hts⟩ := Lib.Outcome.except_bind_eq_ok.mp h
    obtain ⟨r, hr⟩ := processTransaction_receipts hL ht
    obtain ⟨rs, hrs, hlen⟩ := ih hts
    exact ⟨r :: rs, by rw [hrs, hr, append_assoc, singleton_append], by simp [hlen]⟩

end Mainnet.State
