import Mainnet.Itrie.CommitFaithful

namespace Mainnet.Itrie

open Types Types.Rlp Lib List Option Outcome State Ledger World Run

section Idle

variable {K : Keccak} {fuel : ℕ} {hash : Bytes} {e ep : UInt32} {edges : Nibble → Node}

theorem Txn.hash_cached (hlen : hash.length = 32) :
    (Txn.mk (.full hash e edges) ep).hash K =
      .ok (bytesToHash hash, ⟨.full hash e edges, ep⟩, []) := by
  have hne : hash ≠ [] := by
    rintro rfl
    cases hlen
  simp only [Txn.hash, Node.isNil, Node.hash, hne, ne_eq, not_false_eq_true, if_true,
    ok_bind, hlen, not_true, if_false]
  rfl

theorem World.commit_nil (w : World) (hlen : hash.length = 32) :
    w.commit K fuel ⟨.full hash e edges, ep⟩ [] =
      .ok ((w.put []).addState (bytesToHash hash) ⟨.full hash e edges, ep + 1⟩, w.tries.length,
        bytesToHash hash) := by
  rw [commit, commitObjects, ok_bind]
  dsimp only [Trie.txn]
  rw [Txn.hash_cached hlen]
  rfl

structure Idle (w : World) (node : Node) (root : Hash) (m : ℕ) (l : Ledger) : Prop where
  storage : l.world.storage = w.storage
  code : l.world.code = w.code
  length : l.snapshots.length = m + 2
  newest : ∃ p, l.snapshots[m + 1]? = some (p, root) ∧
    l.world.tries[p]? = some ⟨node, UInt32.ofNat (m + 1)⟩

variable {w : World} {m : ℕ} {l : Ledger}

theorem Idle.parent {node : Node} {root : Hash} (h : Idle w node root m l) :
    l.parent (m + 1) = some ⟨node, UInt32.ofNat (m + 1)⟩ := by
  obtain ⟨p, hs, ht⟩ := h.newest
  rw [Ledger.parent, hs]
  exact ht

theorem Idle.step (h : Idle w (.full hash e edges) (bytesToHash hash) m l)
    (hlen : hash.length = 32) :
    Idle w (.full hash e edges) (bytesToHash hash) (m + 1)
      (l.step K fuel (.commit (m + 1) [] false)) := by
  have hstep : l.step K fuel (.commit (m + 1) [] false) =
      ⟨(l.world.put []).addState (bytesToHash hash) ⟨.full hash e edges, UInt32.ofNat (m + 1) + 1⟩,
        l.snapshots ++ [(l.world.tries.length, bytesToHash hash)]⟩ := by
    simp only [Ledger.step, h.parent]
    rw [show l.commitOn K fuel _ [] false = l.world.commit K fuel _ [] from rfl, commit_nil _ hlen]
  rw [hstep]
  refine ⟨h.storage, h.code, ?_, l.world.tries.length, ?_, ?_⟩
  · rw [length_append, h.length, length_singleton]
  · rw [← h.length, getElem?_concat_length]
  · rw [UInt32.ofNat_add (m + 1) 1]
    exact getElem?_concat_length

theorem Idle.assumed (h : Idle w (.full hash e edges) (bytesToHash hash) m l)
    (hlen : hash.length = 32) (hS : w.storage.Faithful)
    (hcode : ∀ c ∈ w.code, w.code.lookup c.1 = some c.2) :
    l.Assumed K fuel (.commit (m + 1) [] false) := by
  intro t ht
  obtain rfl := some.inj (h.parent.symm.trans ht)
  refine ⟨by simp, fun r hr ↦ ?_, ?_⟩
  · obtain rfl := ok.inj ((Txn.hash_cached hlen).symm.trans hr)
    rw [h.storage]
    exact hS
  · rw [h.code]
    exact hcode

def idleBlocks (m : ℕ) : List LedgerOp := (range m).map fun k ↦ .commit (k + 1) [] false

theorem Idle.run (K : Keccak) (fuel : ℕ)
    (h : Idle w (.full hash e edges) (bytesToHash hash) 0 l)
    (hlen : hash.length = 32) (hS : w.storage.Faithful)
    (hcode : ∀ c ∈ w.code, w.code.lookup c.1 = some c.2) (m : ℕ) :
    Idle w (.full hash e edges) (bytesToHash hash) m
        (exec (Ledger.step K fuel) l (idleBlocks m)) ∧
      Admits (Ledger.step K fuel) (Ledger.Assumed K fuel) l (idleBlocks m) := by
  induction m with
  | zero => exact ⟨h, trivial⟩
  | succ m ih =>
    obtain ⟨hidle, hadm⟩ := ih
    rw [idleBlocks, range_succ, map_append, exec_append]
    exact ⟨hidle.step hlen, admits_append.mpr ⟨hadm, hidle.assumed hlen hS hcode, trivial⟩⟩

end Idle

section Wrap

open Ledger

theorem Trie.get_of_root (K : Keccak) (fuel : ℕ) (S : Storage) (node : Node) (ep ep' : UInt32)
    (k : Bytes) : (Trie.mk node ep).get K fuel S k = (Trie.mk node ep').get K fuel S k := by
  simp only [Trie.get, Trie.txn, Txn.lookup]
  cases node.lookup K S fuel (bytesToHexNibbles k) <;> rfl

def Node.header : Node → Option (Bytes × UInt32)
  | .full hash epoch _ => some (hash, epoch)
  | _ => none

theorem Node.eq_full_of_header {node : Node} {hash : Bytes} {e : UInt32}
    (h : node.header = some (hash, e)) : ∃ edges, node = .full hash e edges := by
  cases node with
  | full hash' e' edges =>
    cases h
    exact ⟨edges, rfl⟩
  | nil | value | short => cases h

def richAccount : Account := { contractAccount with balance := 2 }

theorem firstBlock_code : ∀ c ∈ firstBlock.world.code,
    firstBlock.world.code.lookup c.1 = some c.2 := by
  decide +kernel

theorem firstBlock_trie :
    (firstBlock.world.tries[2]?.map fun t ↦ (t.root.header, t.epoch)) =
      some (some (firstRoot.bytes, 1), 1) := by
  decide +kernel

theorem firstBlock_insert :
    (firstBlock.world.tries[2]?.map fun t ↦ (t.root.insert genesisKeccak firstBlock.world.storage 1
      134 (bytesToHexNibbles contractKey) (genesisKeccak.marshal richAccount.marshalWith)).map
        Node.header) = some (.ok (some (firstRoot.bytes, 1))) := by
  decide +kernel

theorem sound_firstBlock : firstBlock.Sound genesisKeccak :=
  (sound_emptyLedger.step genesisKeccak_faithful (le_refl 134)
    (show emptyLedger.Assumed genesisKeccak 134 .newSnapshot from trivial) trivial).step
    genesisKeccak_faithful le_rfl assumed_genesis epochsFit_genesis

theorem length_firstRoot : firstRoot.bytes.length = 32 := firstRoot.length_eq

theorem bytesToHash_firstRoot : bytesToHash firstRoot.bytes = firstRoot := firstRoot.ofBytes_bytes

variable {edges : Nibble → Node} {m : ℕ} {l : Ledger}

theorem exists_firstTrie :
    ∃ edges, firstBlock.world.tries[2]? = some ⟨.full firstRoot.bytes 1 edges, 1⟩ := by
  obtain ⟨⟨node, ep⟩, ht, heq⟩ := map_eq_some_iff.mp firstBlock_trie
  obtain ⟨hh, rfl⟩ := Prod.mk.inj heq
  obtain ⟨edges, rfl⟩ := Node.eq_full_of_header hh
  exact ⟨edges, ht⟩

theorem idle_firstBlock (ht : firstBlock.world.tries[2]? = some ⟨.full firstRoot.bytes 1 edges, 1⟩) :
    Idle firstBlock.world (.full firstRoot.bytes 1 edges) (bytesToHash firstRoot.bytes) 0
      firstBlock := by
  refine ⟨rfl, rfl, by rw [firstBlock_snapshots]; rfl, 2, ?_, ht⟩
  rw [firstBlock_snapshots, bytesToHash_firstRoot]
  rfl

def richObject : StateObject := ⟨richAccount, [], false, false, false, none⟩

section Transfer

variable {S : ReadSnapshot} (hS : S.getAccount contract = some contractAccount)

include hS in
theorem exec_transfer : exec (State.Txn.step S) State.newTxn [.addBalance contract 1] =
    State.newTxn.insert contract richObject := by
  have ho : State.newTxn.getStateObject S contract =
      some ⟨contractAccount, [], false, false, false, none⟩ := by
    rw [getStateObject_newTxn, hS, map_some]
  simp only [exec, foldl_cons, foldl_nil, State.Txn.step, State.Txn.addBalance,
    State.Txn.upsertAccount, ho]
  rfl

theorem commit_transfer (S : ReadSnapshot) :
    (newTxn.insert contract richObject).commit S false = [richObject.object contract] := rfl

end Transfer

section Wrapped

def wrappedTrie (edges : Nibble → Node) : Trie := ⟨.full firstRoot.bytes 1 edges, 0⟩

variable (ht : firstBlock.world.tries[2]? = some ⟨.full firstRoot.bytes 1 edges, 1⟩)
  (hstorage : l.world.storage = firstBlock.world.storage)

include ht hstorage in
theorem getAccount_wrapped :
    (l.world.readSnapshot genesisKeccak 134 (wrappedTrie edges)).getAccount contract =
      some contractAccount := by
  have hget : (wrappedTrie edges).get genesisKeccak 134 l.world.storage contractKey =
      some (genesisKeccak.marshal contractAccount.marshalWith) := by
    have h := firstBlock_get
    rwa [ht, bind_some, Trie.get_of_root _ _ _ _ 1 0, ← hstorage] at h
  exact getAccount_of_get genesisKeccak_faithful (by decide) hget

include ht hstorage in
theorem commitObject_wrapped : ∃ edges', commitObject genesisKeccak 134
    (l.world, (wrappedTrie edges).txn) (richObject.object contract) =
      .ok (l.world, ⟨.full firstRoot.bytes 1 edges', 1⟩) := by
  have h := firstBlock_insert
  rw [ht, map_some, some.injEq, ← hstorage] at h
  cases hins : (Node.full firstRoot.bytes 1 edges).insert genesisKeccak l.world.storage 1 134
      (bytesToHexNibbles contractKey) (genesisKeccak.marshal richAccount.marshalWith) with
  | error err =>
    rw [hins] at h
    cases h
  | panic =>
    rw [hins] at h
    cases h
  | ok node =>
    rw [hins] at h
    obtain ⟨edges', rfl⟩ := Node.eq_full_of_header (ok.inj h)
    refine ⟨edges', ?_⟩
    have hinsert : Txn.insert genesisKeccak l.world.storage 134 (wrappedTrie edges).txn contractKey
        (genesisKeccak.marshal richAccount.marshalWith) =
        .ok ⟨.full firstRoot.bytes 1 edges', 1⟩ := by
      simp only [Txn.insert, wrappedTrie, Trie.txn]
      rw [show (0 : UInt32) + 1 = 1 from rfl, hins]
      rfl
    have haccount : (⟨0, 2, contractAccount.root, (richObject.object contract).codeHash.bytes⟩ :
        Account) = richAccount := by decide +kernel
    rw [commitObject, if_neg (by decide), commitStorage,
      if_pos (show (richObject.object contract).storage = [] from rfl), ok_bind]
    dsimp only
    rw [if_neg (by decide)]
    rw [show Account.mk (richObject.object contract).nonce
      (richObject.object contract).balance (richObject.object contract).root
      (richObject.object contract).codeHash.bytes = richAccount from haccount]
    exact (congrArg (· >>= _) hinsert).trans rfl

theorem getAccount_fresh {w : World} {fresh : Trie}
    (hw : w.storage = firstBlock.world.storage)
    (hfresh : newTrieAt genesisKeccak w.storage firstRoot = some fresh) :
    w.getAccount genesisKeccak 134 fresh contract = some contractAccount := by
  obtain ⟨tree, ⟨⟨t, ht', hshow⟩, hr⟩, -⟩ := sound_firstBlock.taken (2, firstRoot) (by
    rw [firstBlock_snapshots]
    exact mem_cons_of_mem _ mem_cons_self)
  have hm : treeMap tree contractKey =
      some (genesisKeccak.marshal contractAccount.marshalWith) := by
    have h := firstBlock_get
    rwa [ht', bind_some, hshow.get genesisKeccak_faithful le_rfl
      (show contractKey.length = 32 from FixedBytes.length_eq _)] at h
  obtain ⟨fresh', hfresh', -, hshow'⟩ := newTrieAt_spec genesisKeccak_faithful
    sound_firstBlock.world.faithful hr
  rw [hw, hfresh'] at hfresh
  obtain rfl := some.inj hfresh
  rw [← hw] at hshow'
  exact getAccount_of_some genesisKeccak_faithful le_rfl hshow' hm (by decide)

end Wrapped

theorem Idle.parent_wrapped (hm : m + 1 = 2 ^ 32)
    (h : Idle firstBlock.world (.full firstRoot.bytes 1 edges) (bytesToHash firstRoot.bytes) m l) :
    l.parent (2 ^ 32) = some (wrappedTrie edges) := by
  rw [← hm, h.parent, hm]
  rfl

section Lost

variable (ht : firstBlock.world.tries[2]? = some ⟨.full firstRoot.bytes 1 edges, 1⟩)
  (h : Idle firstBlock.world (.full firstRoot.bytes 1 edges) (bytesToHash firstRoot.bytes) m l)

include ht h

theorem txnOn_wrapped : l.txnOn genesisKeccak 134 (wrappedTrie edges) [.addBalance contract 1] =
    State.newTxn.insert contract richObject :=
  exec_transfer (getAccount_wrapped ht h.storage)

theorem assumed_wrapped (hm : m + 1 = 2 ^ 32) :
    l.Assumed genesisKeccak 134 (.commit (2 ^ 32) [.addBalance contract 1] false) := by
  intro t ht'
  obtain rfl := some.inj ((h.parent_wrapped hm).symm.trans ht')
  obtain ⟨edges', hobj⟩ := commitObject_wrapped ht h.storage
  have hfaithful : l.world.storage.Faithful := by
    rw [h.storage]
    exact sound_firstBlock.world.faithful
  rw [txnOn_wrapped ht h, commit_transfer]
  refine ⟨by simp [TxnOp.Typed], fun _ r hr ↦ ?_, fun s hs ↦ ?_⟩
  · rw [commitStorage, if_pos (show (richObject.object contract).storage = [] from rfl)] at hr
    obtain rfl := ok.inj hr
    exact hfaithful
  · obtain rfl := ok.inj (hobj.symm.trans hs)
    refine ⟨fun r hr ↦ ?_, ?_⟩
    · obtain rfl := ok.inj ((Txn.hash_cached length_firstRoot).symm.trans hr)
      exact hfaithful
    · rw [h.code]
      exact firstBlock_code

theorem commitOn_wrapped : ∃ t, l.commitOn genesisKeccak 134 (wrappedTrie edges)
    [.addBalance contract 1] false =
      .ok ((l.world.put []).addState firstRoot t, l.world.tries.length, firstRoot) := by
  obtain ⟨edges', hobj⟩ := commitObject_wrapped ht h.storage
  refine ⟨⟨.full firstRoot.bytes 1 edges', 1⟩, ?_⟩
  rw [commitOn, txnOn_wrapped ht h, commit_transfer, commit, commitObjects, hobj,
    ok_bind, commitObjects, ok_bind]
  dsimp only
  rw [Txn.hash_cached length_firstRoot, bytesToHash_firstRoot]
  rfl

theorem transfer_lost (hm : m + 1 = 2 ^ 32) :
    ¬ l.CommitFaithful genesisKeccak 134 (2 ^ 32) [.addBalance contract 1] false := by
  intro hfaith
  obtain ⟨w, p, root, fresh, hcommit, hfresh, hreads⟩ := hfaith _ (h.parent_wrapped hm)
  obtain ⟨t, hc⟩ := commitOn_wrapped ht h
  cases hcommit.symm.trans hc
  have hapart : KeysApart genesisKeccak (newTxn.insert contract richObject) contract :=
    fun b hb _ ↦ mem_singleton.mp hb
  rw [txnOn_wrapped ht h] at hreads
  have hread := (hreads contract hapart).1.balance
  change _ = 2 at hread
  rw [Txn.getBalance, getStateObject_newTxn] at hread
  dsimp only [readSnapshot] at hread
  rw [getAccount_fresh (by exact h.storage) (by exact hfresh)] at hread
  cases hread

end Lost

def wrapRun (m : ℕ) : List LedgerOp :=
  [.newSnapshot, .commit 0 genesisOps true] ++ idleBlocks m

theorem exec_wrapRun (m : ℕ) :
    exec (step genesisKeccak 134) emptyLedger (wrapRun m) =
      exec (step genesisKeccak 134) firstBlock (idleBlocks m) := by
  simp only [wrapRun, exec, cons_append, nil_append, foldl_cons, foldl_nil,
    firstBlock, genesisLedger]

theorem transfer_lost_after (hm : m + 1 = 2 ^ 32) :
    Admits (Ledger.step genesisKeccak 134) (Ledger.Assumed genesisKeccak 134) emptyLedger
        (wrapRun m) ∧
      (exec (Ledger.step genesisKeccak 134) emptyLedger (wrapRun m)).Assumed genesisKeccak 134
        (.commit (2 ^ 32) [.addBalance contract 1] false) ∧
      ¬ (exec (Ledger.step genesisKeccak 134) emptyLedger (wrapRun m)).CommitFaithful
        genesisKeccak 134 (2 ^ 32) [.addBalance contract 1] false := by
  obtain ⟨edges, ht⟩ := exists_firstTrie
  obtain ⟨hidle, hadm⟩ := (idle_firstBlock ht).run genesisKeccak 134
    length_firstRoot sound_firstBlock.world.faithful firstBlock_code m
  rw [exec_wrapRun]
  exact ⟨⟨trivial, assumed_genesis, hadm⟩, assumed_wrapped ht hidle hm, transfer_lost ht hidle hm⟩

/-- After the first block and `2 ^ 32 - 1` empty ones a transfer is committed under the old root. -/
theorem not_commitFaithful_of_wrap :
    Admits (step genesisKeccak 134) (Assumed genesisKeccak 134) emptyLedger
        (wrapRun (2 ^ 32 - 1)) ∧
      (exec (step genesisKeccak 134) emptyLedger (wrapRun (2 ^ 32 - 1))).Assumed
        genesisKeccak 134 (.commit (2 ^ 32) [.addBalance contract 1] false) ∧
      ¬ (exec (step genesisKeccak 134) emptyLedger (wrapRun (2 ^ 32 - 1))).CommitFaithful
        genesisKeccak 134 (2 ^ 32) [.addBalance contract 1] false :=
  transfer_lost_after (by norm_num)

end Wrap

end Mainnet.Itrie
