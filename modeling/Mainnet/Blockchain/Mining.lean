import Mainnet.Txpool.Intact

namespace Mainnet.Blockchain

open Types Txpool Lib List Header

structure ExecReceipt where
  txHash : Hash
  success : Bool
  gasUsed : ℕ
deriving DecidableEq

structure MinedBlock where
  header : Header
  transactions : List PoolTransaction
  receipts : List ExecReceipt
deriving DecidableEq

inductive MineError
  | cancelled
  | noBlocks
  | invalidBlock
deriving DecidableEq

/-- Where a running `MineBlock` is between its two calls to the pool. -/
inductive Mining
  | idle
  | assembling (allTxs : List PoolTransaction)
  | inserted (safeTxs : List PoolTransaction)

open Mining

def Mining.read : Mining → List PoolTransaction
  | .assembling allTxs => allTxs
  | _ => []

def Mining.mined : Mining → List PoolTransaction
  | .inserted safeTxs => safeTxs
  | _ => []

/-- The chain and its pool. The pool has a lock of its own, so calls to it come between the steps of
`MineBlock`. -/
structure Node where
  pool : TxPool
  chain : List MinedBlock
  latestBlock : Option MinedBlock
  mining : Mining

open Node

structure Surroundings where
  isSafe : PoolTransaction → Bool
  cancelled : Bool
  verifyBlock : MinedBlock → Bool
  now : ℕ

inductive Event
  | addTransaction (tx : PoolTransaction) (now : ℤ)
  | readPending (order : List Address)
  | insertBlock (env : Surroundings)
  | removeMined

def receiptOf (M : TxMethods) (tx : PoolTransaction) : ExecReceipt := ⟨M.hash tx, true, tx.gas⟩

variable (M : TxMethods) (computeBlockHash : Header → Hash)

def execute (cancelled : Bool) (txs : List PoolTransaction) : Except MineError (List ExecReceipt) :=
  if txs = [] then .ok []
  else if cancelled then .error .cancelled
  else .ok (txs.map fun tx ↦ ⟨M.hash tx, true, tx.gas⟩)

def withHash (header : Header) : Header := { header with hash := computeBlockHash header }

def createGenesisBlock (now : ℕ) : MinedBlock :=
  ⟨withHash computeBlockHash { (default : Header) with number := 0, timestamp := now }, [], []⟩

def newBlockchain (pool : TxPool) (now : ℕ) : Node :=
  ⟨pool, [createGenesisBlock computeBlockHash now], some (createGenesisBlock computeBlockHash now),
    .idle⟩

namespace Node

variable (n : Node)

def getLatestBlock : Option MinedBlock :=
  match n.latestBlock with
  | some block => some block
  | none => n.chain.getLast?

def assemble (env : Surroundings) (allTxs : List PoolTransaction) : Except MineError MinedBlock := do
  let safeTxs := allTxs.filter env.isSafe
  let receipts ← execute M env.cancelled safeTxs
  match n.getLatestBlock with
  | none => .error .noBlocks
  | some latestBlock =>
    let header := { (default : Header) with
      number := (latestBlock.header.number + 1) % 2 ^ 64
      timestamp := env.now
      parentHash := latestBlock.header.hash }
    let newBlock := ⟨withHash computeBlockHash header, safeTxs, receipts⟩
    if env.verifyBlock newBlock then .ok newBlock else .error .invalidBlock

def step (n : Node) : Event → Node
  | .addTransaction tx now => { n with pool := (n.pool.addTransaction M now tx).1 }
  | .readPending order =>
    match n.mining with
    | .idle =>
      if order.Perm n.pool.pending.keys then
        { n with mining := .assembling (n.pool.getPending order) }
      else n
    | _ => n
  | .insertBlock env =>
    match n.mining with
    | .assembling allTxs =>
      match n.assemble M computeBlockHash env allTxs with
      | .error _ => { n with mining := .idle }
      | .ok newBlock =>
        { n with
          chain := n.chain ++ [newBlock]
          latestBlock := some newBlock
          mining := .inserted newBlock.transactions }
    | _ => n
  | .removeMined =>
    match n.mining with
    | .inserted safeTxs => { n with pool := n.pool.removeTransactions M safeTxs, mining := .idle }
    | _ => n

def spent : List (Option Address × ℕ) :=
  (n.chain.flatMap MinedBlock.transactions).map fun tx ↦ (M.sender tx, tx.nonce)

def NoReplay : Prop := (n.spent M).Nodup

instance : Decidable (n.NoReplay M) := inferInstanceAs (Decidable (Nodup _))

def Fresh : Event → Prop
  | .addTransaction tx _ =>
    M.hash tx ∈ n.pool.allTxs ∨ ((M.sender tx, tx.nonce) ∉ n.spent M ∧
      ∀ t ∈ n.mining.read, (M.sender t, t.nonce) ≠ (M.sender tx, tx.nonce))
  | _ => True

instance (event : Event) : Decidable (n.Fresh M event) :=
  match event with
  | .addTransaction _ _ => inferInstanceAs (Decidable (_ ∨ _))
  | .readPending _ => inferInstanceAs (Decidable True)
  | .insertBlock _ => inferInstanceAs (Decidable True)
  | .removeMined => inferInstanceAs (Decidable True)

end Node

def submitted (events : List Event) : Set PoolTransaction :=
  {tx | ∃ now, Event.addTransaction tx now ∈ events}

section Invariant

variable {M computeBlockHash} {S : Set PoolTransaction} {n : Node}

theorem getPending_nodup {tp : TxPool} (h : tp.Intact M) {order : List Address}
    (horder : order.Nodup) :
    ((tp.getPending order).map fun tx ↦ (M.sender tx, tx.nonce)).Nodup := by
  rw [TxPool.getPending, map_flatMap, nodup_flatMap]
  refine ⟨fun a _ ↦ ?_, horder.imp fun {a b} hab ↦ ?_⟩
  · refine Nodup.of_map Prod.snd ?_
    rw [map_map]
    exact h.distinct a
  · rintro ⟨src, nonce⟩ ha hb
    obtain ⟨t, ht, heq⟩ := mem_map.mp ha
    obtain ⟨u, hu, heq'⟩ := mem_map.mp hb
    have hs : some a = some b := by
      rw [← h.owned a t ht, ← h.owned b u hu]
      exact (Prod.mk.inj heq).1.trans (Prod.mk.inj heq').1.symm
    exact hab (Option.some.inj hs)

theorem assemble_transactions {env : Surroundings} {allTxs : List PoolTransaction}
    {newBlock : MinedBlock} (h : n.assemble M computeBlockHash env allTxs = .ok newBlock) :
    newBlock.transactions = allTxs.filter env.isSafe := by
  obtain ⟨receipts, -, h⟩ := Outcome.except_bind_eq_ok.mp h
  cases hl : n.getLatestBlock with
  | none => simp [hl] at h
  | some latest =>
    simp only [hl] at h
    split at h
    · rw [← Except.ok.inj h]
    · cases h

structure Guarded (M : TxMethods) (S : Set PoolTransaction) (n : Node) : Prop where
  intact : n.pool.IntactOn M S
  noReplay : n.NoReplay M
  -- after the block is appended its own transactions wait for their removal
  pending_spent : ∀ a, ∀ t ∈ n.pool.pending.list a, (M.sender t, t.nonce) ∈ n.spent M →
    t ∈ n.mining.mined
  read_known : ∀ t ∈ n.mining.read, t ∈ S
  read_nodup : (n.mining.read.map fun t ↦ (M.sender t, t.nonce)).Nodup
  read_unspent : ∀ t ∈ n.mining.read, (M.sender t, t.nonce) ∉ n.spent M
  read_pending : ∀ a, ∀ t ∈ n.pool.pending.list a, ∀ u ∈ n.mining.read,
    (M.sender t, t.nonce) = (M.sender u, u.nonce) → t = u
  mined_known : ∀ t ∈ n.mining.mined, t ∈ S

theorem guarded_newBlockchain (blockGasLimit now : ℕ) :
    Guarded M S (newBlockchain computeBlockHash (newTxPool blockGasLimit) now) := by
  have hspent : (newBlockchain computeBlockHash (newTxPool blockGasLimit) now).spent M = [] := rfl
  refine ⟨⟨TxPool.intact_newTxPool _, ?_⟩, ?_, ?_, ?_, ?_, ?_, ?_, ?_⟩
  · rintro t ⟨a, ht⟩
    exact absurd ht not_mem_nil
  · rw [NoReplay, hspent]
    exact nodup_nil
  all_goals simp [newBlockchain, newTxPool, Pending.list, Mining.read, Mining.mined]

section

variable (h : Guarded M S n)
include h

theorem Guarded.addTransaction (hinj : S.InjOn M.hash) {tx : PoolTransaction}
    (hS : tx ∈ S) {now : ℤ} (hfresh : n.Fresh M (.addTransaction tx now)) :
    Guarded M S (n.step M computeBlockHash (.addTransaction tx now)) := by
  have hmem : ∀ a, ∀ t ∈ (n.pool.addTransaction M now tx).1.pending.list a,
      t ∈ n.pool.pending.list a ∨ (t = tx ∧ (M.sender tx, tx.nonce) ∉ n.spent M ∧
        ∀ u ∈ n.mining.read, (M.sender u, u.nonce) ≠ (M.sender tx, tx.nonce)) := by
    intro a t ht
    rcases TxPool.mem_addTransaction M n.pool now ht with ht | ⟨rfl, hnew⟩
    · exact .inl ht
    · exact .inr ⟨rfl, hfresh.resolve_left hnew⟩
  refine ⟨h.intact.addTransaction hinj now hS, h.noReplay, fun a t ht hspent ↦ ?_, h.read_known,
    h.read_nodup, h.read_unspent, fun a t ht u hu heq ↦ ?_, h.mined_known⟩
  · rcases hmem a t ht with ht | ⟨rfl, hnot, -⟩
    · exact h.pending_spent a t ht hspent
    · exact absurd hspent hnot
  · rcases hmem a t ht with ht | ⟨rfl, -, hnot⟩
    · exact h.read_pending a t ht u hu heq
    · exact absurd heq.symm (hnot u hu)

theorem Guarded.unspent (hmined : n.mining.mined = []) (a : Address) :
    ∀ t ∈ n.pool.pending.list a, (M.sender t, t.nonce) ∉ n.spent M := fun t ht hspent ↦
  not_mem_nil (hmined ▸ h.pending_spent a t ht hspent)

theorem Guarded.readPending (order : List Address) :
    Guarded M S (n.step M computeBlockHash (.readPending order)) := by
  rw [step]
  cases hm : n.mining with
  | idle =>
    dsimp only
    split
    · rename_i hperm
      have hof : ∀ t ∈ n.pool.getPending order, ∃ a, t ∈ n.pool.pending.list a := by
        intro t ht
        obtain ⟨a, -, ht⟩ := mem_flatMap.mp ht
        exact ⟨a, ht⟩
      have hunspent := h.unspent (hm ▸ rfl)
      refine ⟨h.intact, h.noReplay, fun a t ht hspent ↦ absurd hspent (hunspent a t ht),
        fun t ht ↦ ?_, getPending_nodup h.intact.1 (hperm.nodup_iff.mpr n.pool.pending.nodupKeys),
        fun t ht ↦ ?_, fun a t ht u hu heq ↦ ?_, by simp [mined]⟩
      · obtain ⟨a, ha⟩ := hof t ht
        exact h.intact.2 t ⟨a, ha⟩
      · obtain ⟨a, ha⟩ := hof t ht
        exact hunspent a t ha
      · obtain ⟨b, hb⟩ := hof u hu
        exact h.intact.1.eq_of_nonce ht hb (Prod.mk.inj heq).1 (Prod.mk.inj heq).2
    · exact h
  | assembling _ | inserted _ => exact h

theorem Guarded.insertBlock (env : Surroundings) :
    Guarded M S (n.step M computeBlockHash (.insertBlock env)) := by
  rw [step]
  cases hm : n.mining with
  | idle | inserted _ => exact h
  | assembling allTxs =>
    have hunspent := h.unspent (hm ▸ rfl)
    have hread : n.mining.read = allTxs := by rw [hm, Mining.read]
    dsimp only
    cases hb : n.assemble M computeBlockHash env allTxs with
    | error e =>
      exact ⟨h.intact, h.noReplay, fun a t ht hs ↦ absurd hs (hunspent a t ht), by simp [Mining.read],
        by simp [Mining.read], by simp [Mining.read], by simp [Mining.read], by simp [Mining.mined]⟩
    | ok newBlock =>
      have htxs := assemble_transactions hb
      have hsub : newBlock.transactions.Sublist n.mining.read := by
        rw [htxs, hread]
        exact filter_sublist
      have hspent : ({ n with
          chain := n.chain ++ [newBlock]
          latestBlock := some newBlock
          mining := .inserted newBlock.transactions } : Node).spent M =
          n.spent M ++ newBlock.transactions.map fun t ↦ (M.sender t, t.nonce) := by
        simp [spent, flatMap_append]
      refine ⟨h.intact, ?_, fun a t ht hs ↦ ?_, by simp [Mining.read], by simp [Mining.read],
        by simp [Mining.read], by simp [Mining.read], fun t ht ↦ h.read_known t (hsub.mem ht)⟩
      · rw [NoReplay, hspent, nodup_append]
        refine ⟨h.noReplay, (hsub.map _).nodup h.read_nodup, fun k hk k' hk' heq ↦ ?_⟩
        obtain ⟨t, ht, rfl⟩ := mem_map.mp hk'
        exact h.read_unspent t (hsub.mem ht) (heq ▸ hk)
      · rw [hspent, mem_append] at hs
        rcases hs with hs | hs
        · exact absurd hs (hunspent a t ht)
        · obtain ⟨u, hu, heq⟩ := mem_map.mp hs
          rw [h.read_pending a t ht u (hsub.mem hu) heq.symm]
          exact hu

theorem Guarded.removeMined (hinj : S.InjOn M.hash) :
    Guarded M S (n.step M computeBlockHash .removeMined) := by
  rw [step]
  cases hm : n.mining with
  | idle | assembling _ => exact h
  | inserted safeTxs =>
    have hmined : n.mining.mined = safeTxs := by rw [hm, mined]
    have hknown : ∀ t ∈ safeTxs, t ∈ S := hmined ▸ h.mined_known
    obtain ⟨hintact, hmem⟩ := h.intact.removeTransactions hinj hknown
    refine ⟨hintact, h.noReplay, fun a t ht hs ↦ ?_, by simp [Mining.read], by simp [Mining.read],
      by simp [Mining.read], by simp [Mining.read], by simp [Mining.mined]⟩
    obtain ⟨hold, hgone⟩ := hmem a t ht
    exact absurd (hmined ▸ h.pending_spent a t hold hs) hgone

theorem Guarded.step (hinj : S.InjOn M.hash) {event : Event}
    (hS : ∀ tx now, event = .addTransaction tx now → tx ∈ S) (hfresh : n.Fresh M event) :
    Guarded M S (n.step M computeBlockHash event) := by
  cases event with
  | addTransaction tx now => exact h.addTransaction hinj (hS tx now rfl) hfresh
  | readPending order => exact h.readPending order
  | insertBlock env => exact h.insertBlock env
  | removeMined => exact h.removeMined hinj

end

end Invariant

section Runs

variable (M : TxMethods) (computeBlockHash : Header → Hash) (blockGasLimit genesisTime : ℕ)
  (events : List Event) (hinj : (submitted events).InjOn M.hash)
  (hfresh : Run.Admits (step M computeBlockHash) (Fresh M)
    (newBlockchain computeBlockHash (newTxPool blockGasLimit) genesisTime) events)
include hinj hfresh

theorem guarded_of_fresh : Guarded M (submitted events) (Run.exec (step M computeBlockHash)
    (newBlockchain computeBlockHash (newTxPool blockGasLimit) genesisTime) events) := by
  have hadm := hfresh.and_mem (P := fun event ↦ ∀ tx now, event = .addTransaction tx now →
    tx ∈ submitted events) fun event hevent tx now heq ↦ ⟨now, heq ▸ hevent⟩
  exact hadm.invariant (I := Guarded M (submitted events))
    (guarded_newBlockchain blockGasLimit genesisTime) fun n event hn hok ↦ hn.step hinj hok.2 hok.1

/-- Without additions that reuse a sender and nonce of the chain or of the block being mined, no
state of a run has a replay. -/
theorem noReplay_of_fresh : (Run.exec (step M computeBlockHash)
    (newBlockchain computeBlockHash (newTxPool blockGasLimit) genesisTime) events).NoReplay M :=
  (guarded_of_fresh M computeBlockHash blockGasLimit genesisTime events hinj hfresh).noReplay

/-- The pool stays intact, and while no block waits for the removal of its transactions nothing
pending has the sender and nonce of a transaction of the chain. -/
theorem pending_unspent :
    let n : Node := Run.exec (step M computeBlockHash)
      (newBlockchain computeBlockHash (newTxPool blockGasLimit) genesisTime) events
    n.pool.Intact M ∧ (n.mining.mined = [] → ∀ a, ∀ t ∈ n.pool.pending.list a,
      (M.sender t, t.nonce) ∉ n.spent M) := by
  have h := guarded_of_fresh M computeBlockHash blockGasLimit genesisTime events hinj hfresh
  exact ⟨h.intact.1, h.unspent⟩

end Runs

def Event.added : Event → Option PoolTransaction
  | .addTransaction tx _ => some tx
  | _ => none

theorem injOn_submitted {M : TxMethods} {events : List Event}
    (h : ∀ t ∈ events.filterMap Event.added, ∀ u ∈ events.filterMap Event.added,
      M.hash t = M.hash u → t = u) : (submitted events).InjOn M.hash := by
  rintro t ⟨nt, ht⟩ u ⟨nu, hu⟩
  exact h t (mem_filterMap.mpr ⟨_, ht, rfl⟩) u (mem_filterMap.mpr ⟨_, hu, rfl⟩)

def soloMethods : TxMethods where
  hash tx := bytesToHash [UInt8.ofNat tx.nonce, UInt8.ofNat (tx.gasPrice.getD 0).natAbs]
  sender _ := some (bytesToAddress [1])

def soloTx (nonce : ℕ) (price : ℤ) : PoolTransaction :=
  { (default : PoolTransaction) with
    nonce := nonce
    gasPrice := some price
    gas := 21000
    toAddr := some zeroAddress }

def submit (nonce : ℕ) (price : ℤ) : Event :=
  .addTransaction (soloTx nonce price) (62135596800 * 10 ^ 9)

def readSolo : Event := .readPending [bytesToAddress [1]]

def insertSafe : Event := .insertBlock ⟨fun _ ↦ true, false, fun _ ↦ true, 0⟩

def soloStart : Node := newBlockchain hash (newTxPool 30000) 0

def soloRun : List Event :=
  [submit 0 1, readSolo, submit 1 1, insertSafe, .removeMined, readSolo, insertSafe, .removeMined]

theorem noReplay_of_fresh_solo :
    (Run.exec (step soloMethods hash) soloStart soloRun).spent soloMethods =
      [(some (bytesToAddress [1]), 0), (some (bytesToAddress [1]), 1)] ∧
    (Run.exec (step soloMethods hash) soloStart soloRun).NoReplay soloMethods := by
  refine ⟨by decide +kernel, noReplay_of_fresh soloMethods hash 30000 0 soloRun ?_
    (by decide +kernel)⟩
  exact injOn_submitted (by decide +kernel)

theorem pending_unspent_solo :
    let n := Run.exec (step soloMethods hash) soloStart (soloRun.take 5)
    n.spent soloMethods = [(some (bytesToAddress [1]), 0)] ∧
      ∀ t ∈ n.pool.pending.list (bytesToAddress [1]),
        (soloMethods.sender t, t.nonce) ∉ n.spent soloMethods :=
  ⟨by decide +kernel, (pending_unspent soloMethods hash 30000 0 (soloRun.take 5)
    (injOn_submitted (by decide +kernel)) (by decide +kernel)).2 rfl _⟩

def resubmission : List Event :=
  [submit 0 1, readSolo, insertSafe, .removeMined, submit 0 1, readSolo, insertSafe, .removeMined]

def replacement : List Event :=
  [submit 0 1, readSolo, submit 0 2, insertSafe, .removeMined, readSolo, insertSafe, .removeMined]

/-- The pool does not know the nonces of the chain: both runs mine nonce 0 twice. -/
theorem replay_of_spent_nonce :
    ((submitted resubmission).InjOn soloMethods.hash ∧
      ¬ (Run.exec (step soloMethods hash) soloStart resubmission).NoReplay soloMethods) ∧
    (submitted replacement).InjOn soloMethods.hash ∧
      ¬ (Run.exec (step soloMethods hash) soloStart replacement).NoReplay
        soloMethods := by
  refine ⟨⟨injOn_submitted ?_, ?_⟩, injOn_submitted ?_, ?_⟩
  all_goals decide +kernel

end Mainnet.Blockchain
