import Mainnet.State.Executor

namespace Mainnet.Consensus

open Types State List Option

inductive TxStatus
  | success
  | fail
  | skip
deriving DecidableEq

inductive PoolCall
  | pop (t : Transaction)
  | drop (t : Transaction)
  | demote (t : Transaction)
deriving DecidableEq

variable {σ ρ : Type} (L : StateLibrary σ ρ)

/-- The status, or `none` to stop, with the pool call that is left behind. -/
structure TxOutcome (σ ρ : Type) where
  status : Option TxStatus
  transition : Transition σ ρ
  call : Option PoolCall

def writeTransaction (transition : Transition σ ρ) (gasLimit : ℕ) (tx : Transaction) :
    TxOutcome σ ρ :=
  if tx.exceedsBlockGasLimit gasLimit then
    -- an error of the receipt is only logged
    ⟨some .fail, (L.writeFailedReceipt transition tx).getD transition, some (.drop tx)⟩
  else match L.write transition tx with
    | .ok transition' => ⟨some .success, transition', some (.pop tx)⟩
    | .error .gasLimitReached => ⟨none, transition, none⟩
    | .error (.application true) => ⟨some .skip, transition, some (.demote tx)⟩
    | .error _ => ⟨some .fail, transition, some (.drop tx)⟩

structure Written (σ ρ : Type) where
  executed : List Transaction
  transition : Transition σ ρ
  calls : List PoolCall

/-- The loop over the transactions that the pool hands out until it is empty or the deadline fires;
reaching the gas limit ends it earlier. -/
def writeLoop (gasLimit : ℕ) : Transition σ ρ → List Transaction → Written σ ρ
  | transition, [] => ⟨[], transition, []⟩
  | transition, tx :: txs =>
    let out := writeTransaction L transition gasLimit tx
    match out.status with
    | none => ⟨[], out.transition, out.call.toList⟩
    | some status =>
      let rest := writeLoop gasLimit out.transition txs
      ⟨(if status = .success then [tx] else []) ++ rest.executed, rest.transition,
        out.call.toList ++ rest.calls⟩

structure Backend (σ ρ : Type) where
  address : Address
  calculateGasLimit : ℕ → Option ℕ
  /-- The hook sets the miner and the nonce. -/
  modifyHeader : Header → Address → Option (Bytes × Nonce)
  calcHeaderTimestamp : ℕ → ℕ
  initIBFTExtra : Header → Header → Option Bytes
  shouldWriteTransactions : ℕ → Bool
  preCommitState : Header → Transition σ ρ → Option (Transition σ ρ)
  commit : Transition σ ρ → Hash
  calculateTransactionsRoot : List Transaction → Hash
  calculateReceiptsRoot : List ρ → Hash
  writeProposerSeal : Header → Option Bytes
  computeHash : Header → Hash
  istanbulDigest : Hash
  emptyRootHash : Hash
  emptyUncleHash : Hash

variable (B : Backend σ ρ)

def writeTransactions (gasLimit blockNumber : ℕ) (transition : Transition σ ρ)
    (handed : List Transaction) : Written σ ρ :=
  if B.shouldWriteTransactions blockNumber then writeLoop L gasLimit transition handed
  else ⟨[], transition, []⟩

def prepareHeader (parent : Header) : Option Header := do
  let header : Header :=
    { (default : Header) with
      parentHash := parent.hash
      number := parent.number + 1
      miner := zeroAddress.bytes
      mixHash := B.istanbulDigest
      difficulty := parent.number + 1
      stateRoot := B.emptyRootHash
      sha3Uncles := B.emptyUncleHash
      gasLimit := parent.gasLimit }
  let gasLimit ← B.calculateGasLimit header.number
  let header := { header with gasLimit := gasLimit }
  let (miner, nonce) ← B.modifyHeader header B.address
  let header := { header with
    miner := miner
    nonce := nonce
    timestamp := B.calcHeaderTimestamp parent.timestamp }
  let extraData ← B.initIBFTExtra header parent
  return { header with extraData := extraData }

def consensusBuildBlock (header : Header) (txns : List Transaction) (receipts : List ρ) : Block :=
  let header := { header with
    txRoot := if txns.length = 0 then B.emptyRootHash else B.calculateTransactionsRoot txns
    receiptsRoot := if receipts.length = 0 then B.emptyRootHash else B.calculateReceiptsRoot receipts
    sha3Uncles := B.emptyUncleHash }
  ⟨{ header with hash := B.computeHash header }, txns, []⟩

structure Built (σ ρ : Type) where
  block : Block
  transition : Transition σ ρ

def buildBlock (parent : Header) (handed : List Transaction) : Option (Built σ ρ) := do
  let header ← prepareHeader B parent
  let transition ← beginTxn L parent.stateRoot header B.address
  let written := writeTransactions L B header.gasLimit header.number transition handed
  let committed ← B.preCommitState header written.transition
  let header := { header with stateRoot := B.commit committed, gasUsed := committed.totalGas }
  let block := consensusBuildBlock B header written.executed committed.receipts
  let extraData ← B.writeProposerSeal block.header
  let header := { block.header with extraData := extraData }
  return ⟨{ block with header := { header with hash := B.computeHash header } }, written.transition⟩

section Loop

variable {L} {gasLimit : ℕ} {txn : Transition σ ρ} {t : Transaction} (ts : List Transaction)

theorem writeLoop_exceeds (txn : Transition σ ρ) (hL : L.Appends)
    (h : t.exceedsBlockGasLimit gasLimit = true) :
    ∃ txn' r, txn'.receipts = txn.receipts ++ [r] ∧
      (writeLoop L gasLimit txn (t :: ts)).executed = (writeLoop L gasLimit txn' ts).executed ∧
      (writeLoop L gasLimit txn (t :: ts)).transition = (writeLoop L gasLimit txn' ts).transition := by
  obtain ⟨txn', r, hfailed, hr⟩ := hL.failed txn t
  exact ⟨txn', r, hr, by simp [writeLoop, writeTransaction, h, hfailed]⟩

theorem writeLoop_ok {txn' : Transition σ ρ} (h : t.exceedsBlockGasLimit gasLimit = false)
    (hw : L.write txn t = .ok txn') :
    (writeLoop L gasLimit txn (t :: ts)).executed = t :: (writeLoop L gasLimit txn' ts).executed ∧
      (writeLoop L gasLimit txn (t :: ts)).transition = (writeLoop L gasLimit txn' ts).transition := by
  simp [writeLoop, writeTransaction, h, hw]

theorem writeLoop_gasLimitReached (h : t.exceedsBlockGasLimit gasLimit = false)
    (hw : L.write txn t = .error .gasLimitReached) :
    (writeLoop L gasLimit txn (t :: ts)).executed = [] ∧
      (writeLoop L gasLimit txn (t :: ts)).transition = txn := by
  simp [writeLoop, writeTransaction, h, hw]

theorem writeLoop_error {e : WriteError} (h : t.exceedsBlockGasLimit gasLimit = false)
    (hw : L.write txn t = .error e) (he : e ≠ .gasLimitReached) :
    (writeLoop L gasLimit txn (t :: ts)).executed = (writeLoop L gasLimit txn ts).executed ∧
      (writeLoop L gasLimit txn (t :: ts)).transition = (writeLoop L gasLimit txn ts).transition := by
  cases e with
  | gasLimitReached => exact absurd rfl he
  | application b => cases b <;> simp [writeLoop, writeTransaction, h, hw]
  | other => simp [writeLoop, writeTransaction, h, hw]

theorem writeLoop_receipts (gasLimit : ℕ) (hL : L.Appends) (txn : Transition σ ρ)
    (ts : List Transaction) :
    ∃ rs, (writeLoop L gasLimit txn ts).transition.receipts = txn.receipts ++ rs ∧
      (writeLoop L gasLimit txn ts).executed.length ≤ rs.length := by
  induction ts generalizing txn with
  | nil => exact ⟨[], (append_nil _).symm, le_rfl⟩
  | cons t ts ih =>
    cases hgas : t.exceedsBlockGasLimit gasLimit with
    | true =>
      obtain ⟨txn', r, hr, hexec, htrans⟩ := writeLoop_exceeds ts txn hL hgas
      obtain ⟨rs, hrs, hlen⟩ := ih txn'
      refine ⟨r :: rs, ?_, ?_⟩
      · rw [htrans, hrs, hr, append_assoc, singleton_append]
      · rw [hexec, length_cons]
        omega
    | false =>
      cases hw : L.write txn t with
      | ok txn' =>
        obtain ⟨hexec, htrans⟩ := writeLoop_ok ts hgas hw
        obtain ⟨r, hr⟩ := hL.write hw
        obtain ⟨rs, hrs, hlen⟩ := ih txn'
        refine ⟨r :: rs, ?_, ?_⟩
        · rw [htrans, hrs, hr, append_assoc, singleton_append]
        · rw [hexec, length_cons, length_cons]
          omega
      | error e =>
        by_cases he : e = .gasLimitReached
        · subst he
          obtain ⟨hexec, htrans⟩ := writeLoop_gasLimitReached ts hgas hw
          exact ⟨[], by rw [htrans, append_nil], hexec ▸ le_rfl⟩
        · obtain ⟨hexec, htrans⟩ := writeLoop_error ts hgas hw he
          rw [hexec, htrans]
          exact ih txn

end Loop

/-- Each transaction, in the state in which the pool hands it out, fits the gas limit, and passes
the security check if it is written. -/
def Clean (gasLimit : ℕ) : Transition σ ρ → List Transaction → Prop
  | _, [] => True
  | txn, t :: ts => t.exceedsBlockGasLimit gasLimit = false ∧
    match L.write txn t with
    | .ok txn' => validateTransactionSecurity L t = .ok () ∧ Clean gasLimit txn' ts
    | .error .gasLimitReached => True
    | .error _ => Clean gasLimit txn ts

section Replay

variable {L} {gasLimit : ℕ} {txn : Transition σ ρ} {t : Transaction}

theorem clean_cons_error {ts : List Transaction}
    {e : WriteError} (hgas : t.exceedsBlockGasLimit gasLimit = false)
    (hw : L.write txn t = .error e) (he : e ≠ .gasLimitReached) :
    Clean L gasLimit txn (t :: ts) ↔ Clean L gasLimit txn ts := by
  cases e with
  | gasLimitReached => exact absurd rfl he
  | application b | other => simp [Clean, hgas, hw]

theorem replay_ne_of_exceeds (hL : L.Appends) (txn : Transition σ ρ)
    (ts : List Transaction) (hgas : t.exceedsBlockGasLimit gasLimit = true) :
    (writeLoop L gasLimit txn (t :: ts)).executed.foldlM (processTransaction L gasLimit) txn ≠
      .ok (writeLoop L gasLimit txn (t :: ts)).transition := by
  intro h
  obtain ⟨txn', r, hr, hexec, htrans⟩ := writeLoop_exceeds ts txn hL hgas
  rw [hexec, htrans] at h
  obtain ⟨rs, hrs, hlen⟩ := foldlM_receipts hL h
  obtain ⟨rs', hrs', hlen'⟩ := writeLoop_receipts gasLimit hL txn' ts
  rw [hrs', hr, append_assoc, append_cancel_left_eq] at hrs
  have hcount := congrArg length hrs
  simp only [length_append, length_singleton] at hcount
  omega

theorem replay_ne_of_insecure (hL : L.Appends) {txn' : Transition σ ρ}
    {e : SecurityError} (ts : List Transaction) (hgas : t.exceedsBlockGasLimit gasLimit = false)
    (hw : L.write txn t = .ok txn') (hsec : validateTransactionSecurity L t = .error e) :
    (writeLoop L gasLimit txn (t :: ts)).executed.foldlM (processTransaction L gasLimit) txn ≠
      .ok (writeLoop L gasLimit txn (t :: ts)).transition := by
  intro h
  obtain ⟨hexec, htrans⟩ := writeLoop_ok ts hgas hw
  obtain ⟨r, hr⟩ := hL.write hw
  obtain ⟨failed, r', hfailed, hr'⟩ := hL.failed txn t
  have hstep : processTransaction L gasLimit txn t = .ok failed := by
    simp [processTransaction, hgas, hsec, recordFailure, hfailed]
  rw [hexec, htrans, foldlM_cons, hstep] at h
  obtain ⟨rs, hrs, -⟩ := foldlM_receipts hL h
  obtain ⟨rs', hrs', -⟩ := writeLoop_receipts gasLimit hL txn' ts
  rw [hrs', hr, hr', append_assoc, append_assoc, append_cancel_left_eq,
    singleton_append, singleton_append] at hrs
  refine hL.distinct hw hfailed ?_
  rw [hr, hr', (cons.inj hrs).1]

theorem replay_iff_clean (hL : L.Appends) (txn : Transition σ ρ) (ts : List Transaction) :
    (writeLoop L gasLimit txn ts).executed.foldlM (processTransaction L gasLimit) txn =
        .ok (writeLoop L gasLimit txn ts).transition ↔ Clean L gasLimit txn ts := by
  induction ts generalizing txn with
  | nil => exact iff_of_true rfl trivial
  | cons t ts ih =>
    cases hgas : t.exceedsBlockGasLimit gasLimit with
    | true =>
      refine iff_of_false (replay_ne_of_exceeds hL txn ts hgas) fun h ↦ ?_
      simp [Clean, hgas] at h
    | false =>
      cases hw : L.write txn t with
      | ok txn' =>
        cases hsec : validateTransactionSecurity L t with
        | ok u =>
          obtain ⟨hexec, htrans⟩ := writeLoop_ok ts hgas hw
          have hstep : processTransaction L gasLimit txn t = .ok txn' := by
            simp [processTransaction, hgas, hsec, hw, Except.mapError]
          rw [hexec, htrans, foldlM_cons, hstep]
          refine (ih txn').trans ?_
          simp [Clean, hgas, hw, hsec]
        | error e =>
          refine iff_of_false (replay_ne_of_insecure hL ts hgas hw hsec) fun h ↦ ?_
          simp [Clean, hgas, hw, hsec] at h
      | error e =>
        by_cases he : e = .gasLimitReached
        · subst he
          obtain ⟨hexec, htrans⟩ := writeLoop_gasLimitReached ts hgas hw
          rw [hexec, htrans]
          exact iff_of_true rfl (by simp [Clean, hgas, hw])
        · obtain ⟨hexec, htrans⟩ := writeLoop_error ts hgas hw he
          rw [hexec, htrans, clean_cons_error hgas hw he]
          exact ih txn

theorem buildBlock_spec {B : Backend σ ρ} {parent : Header} {handed : List Transaction}
    {built : Built σ ρ} (h : buildBlock L B parent handed = some built) :
    ∃ header txn, prepareHeader B parent = some header ∧
      beginTxn L parent.stateRoot header B.address = some txn ∧
      beginTxn L parent.stateRoot built.block.header B.address = some txn ∧
      built.block.header.gasLimit = header.gasLimit ∧
      built.block.transactions =
        (writeTransactions L B header.gasLimit header.number txn handed).executed ∧
      built.transition =
        (writeTransactions L B header.gasLimit header.number txn handed).transition := by
  simp only [buildBlock, bind_eq_bind, bind_eq_some_iff, Option.pure_def, Option.some.injEq] at h
  obtain ⟨header, hheader, txn, htxn, committed, -, extraData, -, rfl⟩ := h
  exact ⟨header, txn, hheader, htxn, htxn, rfl, rfl, rfl⟩

/-- The block that the builder assembles is re-executed to the builder's transition (state,
receipts and gas) exactly when every transaction it was handed is clean. -/
theorem buildBlock_accepted_iff (L : StateLibrary σ ρ) (hL : L.Appends) (B : Backend σ ρ)
    (parent : Header) (handed : List Transaction) (built : Built σ ρ)
    (h : buildBlock L B parent handed = some built) :
    processBlock L parent.stateRoot built.block B.address = .ok built.transition ↔
      ∀ header txn, prepareHeader B parent = some header →
        beginTxn L parent.stateRoot header B.address = some txn →
        B.shouldWriteTransactions header.number = true → Clean L header.gasLimit txn handed := by
  obtain ⟨header, txn, hheader, htxn, hbegin, hgas, hexec, htrans⟩ := buildBlock_spec h
  have hcond : (∀ header' txn', prepareHeader B parent = some header' →
        beginTxn L parent.stateRoot header' B.address = some txn' →
        B.shouldWriteTransactions header'.number = true → Clean L header'.gasLimit txn' handed) ↔
      (B.shouldWriteTransactions header.number = true → Clean L header.gasLimit txn handed) := by
    constructor
    · exact fun hall ↦ hall header txn hheader htxn
    · intro hclean header' txn' hheader' htxn'
      cases hheader.symm.trans hheader'
      cases htxn.symm.trans htxn'
      exact hclean
  rw [hcond, processBlock, hbegin, hgas, hexec, htrans, writeTransactions]
  dsimp only
  split
  · rename_i hwrite
    rw [replay_iff_clean hL]
    exact ⟨fun hclean _ ↦ hclean, fun hclean ↦ hclean hwrite⟩
  · rename_i hwrite
    exact iff_of_true rfl fun htrue ↦ absurd htrue hwrite

end Replay

def ledger : StateLibrary ℕ (ℕ × Bool) where
  newTransitionAt _ _ := some 0
  write txn t :=
    if t.nonce = txn.state then
      .ok ⟨txn.state + 1, txn.receipts ++ [(t.nonce, true)], txn.totalGas + t.gas⟩
    else .error (.application (decide (txn.state < t.nonce)))
  writeFailedReceipt txn t := some { txn with receipts := txn.receipts ++ [(t.nonce, false)] }
  getSecurityInfo _ := none

theorem ledger_write {txn txn' : Transition ℕ (ℕ × Bool)} {t : Transaction}
    (h : ledger.write txn t = .ok txn') : txn'.receipts = txn.receipts ++ [(t.nonce, true)] := by
  simp only [ledger] at h
  split at h
  · cases h
    rfl
  · cases h

theorem ledger_appends : ledger.Appends where
  write h := ⟨_, ledger_write h⟩
  failed txn t := ⟨_, (t.nonce, false), rfl, rfl⟩
  distinct h h' := by
    cases h'
    rw [ledger_write h]
    simp

def plainBackend : Backend ℕ (ℕ × Bool) where
  address := bytesToAddress [1]
  calculateGasLimit _ := some 100000
  modifyHeader header _ := some (header.miner, header.nonce)
  calcHeaderTimestamp parent := parent + 2
  initIBFTExtra _ _ := some []
  shouldWriteTransactions _ := true
  preCommitState _ transition := some transition
  commit _ := zeroHash
  calculateTransactionsRoot _ := zeroHash
  calculateReceiptsRoot _ := zeroHash
  writeProposerSeal header := some header.extraData
  computeHash _ := zeroHash
  istanbulDigest := zeroHash
  emptyRootHash := zeroHash
  emptyUncleHash := zeroHash

def payment (nonce gas : ℕ) (recipient : Address) : Transaction :=
  { (default : Transaction) with
    nonce := nonce
    gas := gas
    toAddr := some recipient }

theorem buildBlock_accepted_payments :
    ∃ built, buildBlock ledger plainBackend default [payment 0 21000 (bytesToAddress [2]),
        payment 5 21000 (bytesToAddress [2]), payment 1 21000 (bytesToAddress [2])] = some built ∧
      built.block.transactions.length = 2 ∧
      processBlock ledger (default : Header).stateRoot built.block plainBackend.address =
        .ok built.transition := by
  refine ⟨_, rfl, rfl, ?_⟩
  refine (buildBlock_accepted_iff ledger ledger_appends plainBackend default _ _ rfl).mpr ?_
  intro header txn hheader htxn _
  cases hheader
  cases htxn
  exact ⟨rfl, rfl, rfl, rfl, rfl, trivial⟩

/-- A payment above the gas limit is dropped but leaves its receipt, and a payment to the zero
address is written by the builder and refused by the verifier. -/
theorem buildBlock_rejected :
    (∃ built, buildBlock ledger plainBackend default [payment 0 200000 (bytesToAddress [2])] =
        some built ∧
      processBlock ledger (default : Header).stateRoot built.block plainBackend.address ≠
        .ok built.transition) ∧
    ∃ built, buildBlock ledger plainBackend default [payment 0 21000 zeroAddress] = some built ∧
      processBlock ledger (default : Header).stateRoot built.block plainBackend.address ≠
        .ok built.transition :=
  ⟨⟨_, rfl, by decide +kernel⟩, ⟨_, rfl, by decide +kernel⟩⟩

end Mainnet.Consensus
