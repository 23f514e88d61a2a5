import Mainnet.Blockchain.Mining

namespace Mainnet.Blockchain

open Types Txpool Lib List Node

variable (M : TxMethods) (computeBlockHash : Header → Hash)

namespace Node

def getBlockByNumber (n : Node) (number : ℕ) : Option MinedBlock :=
  if n.chain.length ≤ number then none else n.chain[number]?

/-- `MineBlock` when no other call comes between its two calls to the pool. -/
def mineBlock (n : Node) (order : List Address) (env : Surroundings) :
    Node × Except MineError Unit :=
  match n.assemble M computeBlockHash env (n.pool.getPending order) with
  | .error e => (n, .error e)
  | .ok newBlock =>
    ({ n with
        chain := n.chain ++ [newBlock]
        latestBlock := some newBlock
        pool := n.pool.removeTransactions M newBlock.transactions }, .ok ())

inductive Action
  | event (event : Event)
  | pool (call : TxPool.Call)

def act (n : Node) : Action → Node
  | .event event => n.step M computeBlockHash event
  | .pool call => { n with pool := n.pool.call M call }

def mineBlockActions (order : List Address) (env : Surroundings) : List Action :=
  [.event (.readPending order), .event (.insertBlock env), .event .removeMined]

end Node

/-- Number, link to the parent, order of nonces and receipts in every block of a chain. Numbers are
`uint64`. -/
structure WellFormed (chain : List MinedBlock) : Prop where
  number : ∀ (i : ℕ) (block : MinedBlock), chain[i]? = some block → block.header.number = i % 2 ^ 64
  parentHash : ∀ (i : ℕ) (block next : MinedBlock), chain[i]? = some block →
    chain[i + 1]? = some next → next.header.parentHash = block.header.hash
  nonces : ∀ block ∈ chain, NoncesIncrease M block.transactions
  receipts : ∀ block ∈ chain, block.receipts = block.transactions.map (receiptOf M)

structure Shaped (n : Node) : Prop where
  wellFormed : WellFormed M n.chain
  latest : n.chain.getLast? = n.latestBlock
  latest_ne : n.latestBlock ≠ none
  ordered : n.pool.Ordered M
  read : NoncesIncrease M n.mining.read

variable {M computeBlockHash} {n : Node}

theorem getLatestBlock_eq (h : n.latestBlock ≠ none) : n.getLatestBlock = n.latestBlock := by
  rw [getLatestBlock]
  cases hl : n.latestBlock with
  | none => exact absurd hl h
  | some block => rfl

theorem wellFormed_genesis (now : ℕ) : WellFormed M [createGenesisBlock computeBlockHash now] := by
  constructor
  · intro i block hat
    cases i with
    | zero =>
      obtain rfl := Option.some.inj hat
      rfl
    | succ i => simp at hat
  · intro i block next _ hnext
    simp at hnext
  · intro block hmem
    rw [mem_singleton.mp hmem]
    exact Pairwise.nil
  · intro block hmem
    rw [mem_singleton.mp hmem]
    rfl

theorem shaped_newBlockchain (blockGasLimit now : ℕ) :
    Shaped M (newBlockchain computeBlockHash (newTxPool blockGasLimit) now) :=
  ⟨wellFormed_genesis now, rfl, by simp [newBlockchain], TxPool.ordered_newTxPool _, Pairwise.nil⟩

theorem execute_receipts {cancelled : Bool} {txs : List PoolTransaction}
    {receipts : List ExecReceipt} (h : execute M cancelled txs = .ok receipts) :
    receipts = txs.map (receiptOf M) := by
  rw [execute] at h
  split at h
  · rename_i hnil
    rw [← Except.ok.inj h, hnil]
    rfl
  · split at h
    · cases h
    · exact (Except.ok.inj h).symm

variable {env : Surroundings} {allTxs : List PoolTransaction} {newBlock : MinedBlock}

theorem assemble_spec (h : n.assemble M computeBlockHash env allTxs = .ok newBlock) :
    ∃ latestBlock, n.getLatestBlock = some latestBlock ∧
      newBlock.header.number = (latestBlock.header.number + 1) % 2 ^ 64 ∧
      newBlock.header.parentHash = latestBlock.header.hash ∧
      newBlock.transactions = allTxs.filter env.isSafe ∧
      newBlock.receipts = newBlock.transactions.map (receiptOf M) := by
  obtain ⟨receipts, hexec, h⟩ := Outcome.except_bind_eq_ok.mp h
  cases hl : n.getLatestBlock with
  | none => simp [hl] at h
  | some latestBlock =>
    simp only [hl] at h
    split at h
    · obtain rfl := Except.ok.inj h
      exact ⟨latestBlock, rfl, rfl, rfl, rfl, execute_receipts hexec⟩
    · cases h

theorem WellFormed.snoc {chain : List MinedBlock} (h : WellFormed M chain)
    {latestBlock : MinedBlock} (hlast : chain.getLast? = some latestBlock)
    (hnumber : newBlock.header.number = (latestBlock.header.number + 1) % 2 ^ 64)
    (hparent : newBlock.header.parentHash = latestBlock.header.hash)
    (hnonces : NoncesIncrease M newBlock.transactions)
    (hreceipts : newBlock.receipts = newBlock.transactions.map (receiptOf M)) :
    WellFormed M (chain ++ [newBlock]) := by
  rw [getLast?_eq_getElem?] at hlast
  obtain ⟨hlt, -⟩ := List.getElem?_eq_some_iff.mp hlast
  have hat : ∀ {i : ℕ} {block : MinedBlock}, (chain ++ [newBlock])[i]? = some block →
      chain[i]? = some block ∨ (i = chain.length ∧ block = newBlock) := by
    intro i block hi
    rw [getElem?_append] at hi
    split at hi
    · exact .inl hi
    · rw [getElem?_singleton] at hi
      split at hi
      · exact .inr ⟨by omega, (Option.some.inj hi).symm⟩
      · cases hi
  have hmem : ∀ block ∈ chain ++ [newBlock], block ∈ chain ∨ block = newBlock := by
    intro block hblock
    rwa [mem_append, mem_singleton] at hblock
  constructor
  · intro i block hi
    rcases hat hi with hi | ⟨rfl, rfl⟩
    · exact h.number i block hi
    · rw [hnumber, h.number _ _ hlast]
      omega
  · intro i block next hi hnext
    rcases hat hnext with hnext | ⟨hlen, rfl⟩
    · rcases hat hi with hi | ⟨rfl, -⟩
      · exact h.parentHash i block next hi hnext
      · rw [getElem?_eq_none (by omega)] at hnext
        cases hnext
    · obtain rfl : i = chain.length - 1 := by omega
      rw [getElem?_append_left hlt, hlast] at hi
      rw [hparent, Option.some.inj hi]
  · intro block hblock
    rcases hmem block hblock with hblock | rfl
    · exact h.nonces block hblock
    · exact hnonces
  · intro block hblock
    rcases hmem block hblock with hblock | rfl
    · exact h.receipts block hblock
    · exact hreceipts

theorem Shaped.wellFormed_append (h : Shaped M n) (hread : NoncesIncrease M allTxs)
    (hb : n.assemble M computeBlockHash env allTxs = .ok newBlock) :
    WellFormed M (n.chain ++ [newBlock]) := by
  obtain ⟨latestBlock, hlatest, hnumber, hparent, htxs, hreceipts⟩ := assemble_spec hb
  rw [getLatestBlock_eq h.latest_ne, ← h.latest] at hlatest
  refine h.wellFormed.snoc hlatest hnumber hparent ?_ hreceipts
  rw [htxs]
  exact hread.filter _

theorem Shaped.step (h : Shaped M n) (event : Event) :
    Shaped M (n.step M computeBlockHash event) := by
  cases event with
  | addTransaction tx now => exact { h with ordered := h.ordered.addTransaction now tx }
  | readPending order =>
    rw [Node.step]
    cases hm : n.mining with
    | idle =>
      dsimp only
      split
      · rename_i hperm
        exact { h with read := h.ordered.getPending (hperm.nodup_iff.mpr n.pool.pending.nodupKeys) }
      · exact h
    | assembling _ | inserted _ => exact h
  | insertBlock env =>
    rw [Node.step]
    cases hm : n.mining with
    | idle | inserted _ => exact h
    | assembling allTxs =>
      dsimp only
      cases hb : n.assemble M computeBlockHash env allTxs with
      | error e => exact { h with read := Pairwise.nil }
      | ok newBlock =>
        have hread : NoncesIncrease M allTxs := by
          have := h.read
          rwa [hm] at this
        exact ⟨h.wellFormed_append hread hb, by simp, by simp, h.ordered, Pairwise.nil⟩
  | removeMined =>
    rw [Node.step]
    cases hm : n.mining with
    | idle | assembling _ => exact h
    | inserted safeTxs =>
      exact { h with
        ordered := h.ordered.of_fewer (TxPool.call_fewer n.pool (.removeTransactions safeTxs))
        read := Pairwise.nil }

theorem Shaped.act (h : Shaped M n) (action : Node.Action) :
    Shaped M (n.act M computeBlockHash action) := by
  cases action with
  | event event => exact h.step event
  | pool call => exact { h with ordered := h.ordered.of_fewer (TxPool.call_fewer n.pool call) }

theorem exec_mineBlockActions (hidle : n.mining = .idle) {order : List Address}
    (horder : order.Perm n.pool.pending.keys) (env : Surroundings) :
    Run.exec (act M computeBlockHash) n (mineBlockActions order env) =
      (n.mineBlock M computeBlockHash order env).1 := by
  have hread : n.act M computeBlockHash (.event (.readPending order)) =
      { n with mining := .assembling (n.pool.getPending order) } := by
    simp only [act, step, hidle, if_pos horder]
  have hassemble : ∀ allTxs, ({ n with mining := .assembling allTxs } : Node).assemble M
      computeBlockHash env = n.assemble M computeBlockHash env := fun _ ↦ rfl
  simp only [mineBlockActions, Run.exec, foldl_cons, foldl_nil, hread]
  simp only [act, step, hassemble, mineBlock]
  cases n.assemble M computeBlockHash env (n.pool.getPending order) with
  | error e | ok newBlock => simp only [← hidle]

/-- Whatever comes in between the steps of the calls to `MineBlock`, the chain is well formed, the
getters find its blocks, and a call that fails has changed nothing. -/
theorem chain_wellFormed (M : TxMethods) (computeBlockHash : Header → Hash)
    (blockGasLimit genesisTime : ℕ) (actions : List Node.Action) :
    let n := Run.exec (act M computeBlockHash)
      (newBlockchain computeBlockHash (newTxPool blockGasLimit) genesisTime) actions
    WellFormed M n.chain ∧
      (n.getLatestBlock = n.chain.getLast? ∧ n.getLatestBlock ≠ none) ∧
      (∀ i, n.getBlockByNumber i = n.chain[i]?) ∧
      (∀ order env, (n.mineBlock M computeBlockHash order env).2 ≠ .ok () →
        (n.mineBlock M computeBlockHash order env).1 = n) ∧
      ∀ allTxs env e, n.mining = .assembling allTxs →
        n.assemble M computeBlockHash env allTxs = .error e →
        n.act M computeBlockHash (.event (.insertBlock env)) = { n with mining := .idle } := by
  intro n
  have h : Shaped M n := Run.exec_invariant (shaped_newBlockchain blockGasLimit genesisTime)
    (fun _ action hn ↦ hn.act action) actions
  refine ⟨h.wellFormed, ⟨?_, ?_⟩, fun i ↦ ?_, fun order env hfail ↦ ?_, fun allTxs env e hm he ↦ ?_⟩
  · rw [getLatestBlock_eq h.latest_ne, h.latest]
  · rw [getLatestBlock_eq h.latest_ne]
    exact h.latest_ne
  · rw [getBlockByNumber]
    split
    · rename_i hle
      rw [getElem?_eq_none hle]
    · rfl
  · rw [mineBlock] at hfail ⊢
    cases hb : n.assemble M computeBlockHash env (n.pool.getPending order) with
    | error e => rfl
    | ok newBlock =>
      rw [hb] at hfail
      exact absurd rfl hfail
  · simp only [act, step, hm, he]

end Mainnet.Blockchain
