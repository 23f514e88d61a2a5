import Mainnet.Itrie.Map
import Mainnet.State.Commit

namespace Mainnet.Itrie

open Types Types.Rlp Lib State

/-- The `State` of the tries: the storage with its code table, the tries in memory, and the cache
that knows some of them by their roots. -/
structure World where
  storage : Storage
  code : List (Hash × Bytes)
  tries : List Trie
  cache : AList fun _ : Hash ↦ ℕ

def emptyWorld : World := ⟨[], [], [], ∅⟩

section Model

variable (K : Keccak) (fuel : ℕ)

-- Loading a node that is stored in a broken form panics; no such node is ever stored.
def Trie.get (S : Storage) (t : Trie) (k : Bytes) : Option Bytes :=
  match t.txn.lookup K S fuel k with
  | .ok (_, res) => res
  | _ => none

def slotOp (entry : StorageObject) : Op :=
  if entry.deleted then .delete (K.keccak256 entry.key).bytes
  else .insert (K.keccak256 entry.key).bytes (K.marshal (.bytes (entry.val.dropWhile (· = 0))))

namespace World

variable (w : World)

def trieAt (root : Hash) : Option Trie :=
  if root = emptyRoot then some newTrie
  else
    match w.cache.lookup root with
    | some p => w.tries[p]?
    | none => newTrieAt K w.storage root

def getStorage (root rawkey : Hash) : Hash :=
  match (if root = emptyStateHash then some newTrie else w.trieAt K root) with
  | none => zeroHash
  | some trie =>
    match trie.get K fuel w.storage (K.keccak256 rawkey.bytes).bytes with
    | none => zeroHash
    | some val =>
      match (K.parse val).bind getBytes with
      | none => zeroHash
      | some res => bytesToHash res

def getAccount (t : Trie) (addr : Address) : Option Account :=
  match t.get K fuel w.storage (K.keccak256 addr.bytes).bytes with
  | none => none
  | some data => (Account.unmarshalRlp K.toFastrlp data).toOption

def getCode (hash : Hash) : Bytes := (w.code.lookup hash).getD []

def readSnapshot (t : Trie) : ReadSnapshot where
  getStorage _ root key := w.getStorage K fuel root key
  getAccount addr := w.getAccount K fuel t addr
  getCode hash := w.getCode hash
  keccak256 := K.keccak256

def setCode (hash : Hash) (code : Bytes) : World := { w with code := (hash, code) :: w.code }

def addState (root : Hash) (t : Trie) : World :=
  { w with tries := w.tries ++ [t], cache := w.cache.insert root w.tries.length }

/-- What a batch puts is in the storage at once, as with `memBatch`. -/
def put (puts : Storage) : World := { w with storage := puts ++ w.storage }

def commitStorage (obj : Object) : Outcome DecodeError (World × Hash) :=
  if obj.storage = [] then .ok (w, obj.root)
  else
    match w.trieAt K obj.root with
    | none => .panic
    | some trie => do
      let localTxn ← trie.txn.run K fuel w.storage (obj.storage.map (slotOp K))
      let (root, localTxn, puts) ← localTxn.hash K
      .ok ((w.put puts).addState root localTxn.commit, root)

def commitObject (s : World × Txn) (obj : Object) : Outcome DecodeError (World × Txn) :=
  if obj.deleted then do
    let tt ← s.2.delete K s.1.storage fuel (K.keccak256 obj.address.bytes).bytes
    .ok (s.1, tt)
  else do
    let (w, root) ← s.1.commitStorage K fuel obj
    let w := if obj.dirtyCode then w.setCode obj.codeHash obj.code else w
    let account : Account := ⟨obj.nonce, obj.balance, root, obj.codeHash.bytes⟩
    let tt ← s.2.insert K w.storage fuel (K.keccak256 obj.address.bytes).bytes
      (K.marshal account.marshalWith)
    .ok (w, tt)

def commitObjects : World × Txn → List Object → Outcome DecodeError (World × Txn)
  | s, [] => .ok s
  | s, obj :: objs => do
    let s ← commitObject K fuel s obj
    commitObjects s objs

/-- `Trie.Commit`: the new state, the place of the new trie in it, and its root. -/
def commit (t : Trie) (objs : List Object) : Outcome DecodeError (World × ℕ × Hash) := do
  let (w, tt) ← commitObjects K fuel (w, t.txn) objs
  let (root, tt, puts) ← tt.hash K
  .ok ((w.put puts).addState root tt.commit, w.tries.length, root)

end World

structure Ledger where
  world : World
  snapshots : List (ℕ × Hash)

/-- What happens to the state. A read links loaded nodes into the trie it goes through, and the
cache may drop an entry at any time. -/
inductive LedgerOp
  | newSnapshot
  | newSnapshotAt (i : ℕ)
  | read (p : ℕ) (key : Hash)
  | evict (root : Hash)
  | commit (i : ℕ) (ops : List TxnOp) (deleteEmptyObjects : Bool)

namespace Ledger

variable (l : Ledger)

def parent (i : ℕ) : Option Trie := l.snapshots[i]?.bind fun s ↦ l.world.tries[s.1]?

def txnOn (t : Trie) (ops : List State.TxnOp) : State.Txn :=
  Run.exec (State.Txn.step (l.world.readSnapshot K fuel t)) State.newTxn ops

def commitOn (t : Trie) (ops : List State.TxnOp) (deleteEmptyObjects : Bool) :
    Outcome DecodeError (World × ℕ × Hash) :=
  l.world.commit K fuel t
    ((l.txnOn K fuel t ops).commit (l.world.readSnapshot K fuel t) deleteEmptyObjects)

def step (l : Ledger) : LedgerOp → Ledger
  | .newSnapshot =>
    ⟨{ l.world with tries := l.world.tries ++ [newTrie] },
      l.snapshots ++ [(l.world.tries.length, emptyRoot)]⟩
  | .newSnapshotAt i =>
    match l.snapshots[i]? with
    | none => l
    | some (_, root) =>
      match (if root = emptyRoot then none else l.world.cache.lookup root) with
      | some p => { l with snapshots := l.snapshots ++ [(p, root)] }
      | none =>
        match newTrieAt K l.world.storage root with
        | none => l
        | some t => ⟨{ l.world with tries := l.world.tries ++ [t] },
            l.snapshots ++ [(l.world.tries.length, root)]⟩
  | .read p key =>
    match l.world.tries[p]? with
    | none => l
    | some t =>
      match t.txn.lookup K l.world.storage fuel key.bytes with
      | .ok (txn, _) =>
        { l with world := { l.world with tries := l.world.tries.set p { t with root := txn.root } } }
      | _ => l
  | .evict root => { l with world := { l.world with cache := l.world.cache.erase root } }
  | .commit i ops deleteEmptyObjects =>
    match l.parent i with
    | none => l
    | some t =>
      match l.commitOn K fuel t ops deleteEmptyObjects with
      | .ok (world, p, root) => ⟨world, l.snapshots ++ [(p, root)]⟩
      | _ => l

end Ledger

def emptyLedger : Ledger := ⟨emptyWorld, []⟩

end Model

end Mainnet.Itrie
