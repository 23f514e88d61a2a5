import Mainnet.Lib.Store
import Mainnet.State.CodeCache
import Mainnet.Types.Marshal

namespace Mainnet.State.Pointers

open Types Mainnet.Runtime Lib

abbrev Ref := ℕ

structure AccountCell where
  nonce : ℕ
  balance : Ref
  root : Hash
  codeHash : Bytes
deriving Inhabited

structure ObjectCell where
  account : Ref
  code : Bytes
  suicide : Bool
  deleted : Bool
  dirtyCode : Bool
  txn : Option Ref
deriving Inhabited

abbrev Slots := AList fun _ : Hash ↦ Option Hash

/-- What the pointers of a `Txn` point to. Radix trees are persistent, so that a radix transaction is
a cell that holds its current tree; nothing writes to a log once it has been made. -/
structure Heap where
  objects : Store ObjectCell
  accounts : Store AccountCell
  ints : Store ℤ
  txns : Store Slots
  arrays : Store (ℕ → Log)

namespace Heap

-- Array 0 is the one of slices without capacity.
def empty : Heap :=
  ⟨⟨0, fun _ ↦ default⟩, ⟨0, fun _ ↦ default⟩, ⟨0, fun _ ↦ 0⟩, ⟨0, fun _ ↦ ∅⟩, ⟨1, fun _ _ ↦ default⟩⟩

variable (h : Heap) (r : Ref)

def account : AccountCell := h.accounts.get (h.objects.get r).account

def balance : ℤ := h.ints.get (h.account r).balance

/-- `Account.Copy`; the copy is at `h.accounts.next`. -/
def copyAccount : Heap :=
  let a := h.accounts.get r
  { h with
    ints := h.ints.alloc (h.ints.get a.balance).natAbs
    accounts := h.accounts.alloc { a with balance := h.ints.next } }

def copySlots : Option Ref → Heap
  | none => h
  | some t => { h with txns := h.txns.alloc (h.txns.get t) }

/-- `StateObject.Copy`; the copy is at `h.objects.next`. -/
def copyObject : Heap :=
  let o := h.objects.get r
  let h' := (h.copyAccount o.account).copySlots o.txn
  { h' with
    objects := h'.objects.alloc
      { o with account := h.accounts.next, txn := o.txn.map fun _ ↦ h.txns.next } }

/-- A new object with a new account, at `h.objects.next`. -/
def putObject (o : StateObject) : Heap where
  ints := h.ints.alloc o.account.balance
  accounts := h.accounts.alloc ⟨o.account.nonce, h.ints.next, o.account.root, o.account.codeHash⟩
  txns := o.txn.elim h.txns h.txns.alloc
  objects := h.objects.alloc
    ⟨h.accounts.next, o.code, o.suicide, o.deleted, o.dirtyCode, o.txn.map fun _ ↦ h.txns.next⟩
  arrays := h.arrays

def modifyObject (f : ObjectCell → ObjectCell) : Heap :=
  { h with objects := h.objects.set r (f (h.objects.get r)) }

def modifyAccount (f : AccountCell → AccountCell) : Heap :=
  { h with accounts := h.accounts.set (h.objects.get r).account (f (h.account r)) }

def modifyBalance (f : ℤ → ℤ) : Heap :=
  { h with ints := h.ints.set (h.account r).balance (f (h.balance r)) }

/-- `*object = *newStateObject(txn)`. -/
def resetObject (S : ReadSnapshot) : Heap :=
  { h with
    ints := h.ints.alloc 0
    accounts := h.accounts.alloc ⟨0, h.ints.next, emptyStateHash, emptyCodeHash S⟩
    objects := h.objects.set r ⟨h.accounts.next, [], false, false, false, none⟩ }

def openSlots : Heap :=
  match (h.objects.get r).txn with
  | none =>
    { h with
      txns := h.txns.alloc ∅
      objects := h.objects.set r { h.objects.get r with txn := some h.txns.next } }
  | some _ => h

def insertSlot (key : Hash) (val : Option Hash) : Heap :=
  match (h.objects.get r).txn with
  | none => h
  | some t => { h with txns := h.txns.set t ((h.txns.get t).insert key val) }

end Heap

structure Tree where
  objects : AList fun _ : Address ↦ Ref
  logs : Option Window
  refund : Option ℕ

structure Txn where
  heap : Heap
  tree : Tree
  snapshots : List Tree
  codeCache : AList fun _ : Address ↦ Bytes

def newTxn : Txn := ⟨.empty, ⟨∅, none, none⟩, [], ∅⟩

namespace Txn

variable (S : ReadSnapshot) (grow : ℕ → ℕ) (txn : Txn) (addr : Address)

def snapshot : ℕ × Txn :=
  (txn.snapshots.length, { txn with snapshots := txn.snapshots ++ [txn.tree] })

def revertToSnapshot (id : ℕ) : Option Txn :=
  txn.snapshots[id]?.map fun tree ↦ { txn with tree := tree }

def getStateObject : Option Ref × Txn :=
  match txn.tree.objects.lookup addr with
  | some r =>
    if (txn.heap.objects.get r).deleted then (none, txn)
    else (some txn.heap.objects.next, { txn with heap := txn.heap.copyObject r })
  | none =>
    match S.getAccount addr with
    | none => (none, txn)
    | some account =>
      (some txn.heap.objects.next,
        { txn with heap := txn.heap.putObject ⟨account, [], false, false, false, none⟩ })

def insert (r : Ref) (heap : Heap) : Txn :=
  { txn with heap := heap, tree := { txn.tree with objects := txn.tree.objects.insert addr r } }

def upsertAccount (create : Bool) (f : Ref → Heap → Heap) : Txn :=
  match txn.getStateObject S addr with
  | (some r, txn) => txn.insert addr r (f r txn.heap)
  | (none, txn) =>
    if create then
      let r := txn.heap.objects.next
      txn.insert addr r (f r (txn.heap.putObject (newStateObject S)))
    else txn

def read {α : Type} (absent : α) (f : Heap → Ref → α) : α × Txn :=
  match txn.getStateObject S addr with
  | (none, txn) => (absent, txn)
  | (some r, txn) => (f txn.heap r, txn)

def getBalance : ℤ × Txn := txn.read S addr 0 Heap.balance

def getNonce : ℕ × Txn := txn.read S addr 0 fun h r ↦ (h.account r).nonce

def getCodeHash : Hash × Txn :=
  txn.read S addr zeroHash fun h r ↦ bytesToHash (h.account r).codeHash

def hasSuicided : Bool × Txn :=
  txn.read S addr false fun h r ↦ (h.objects.get r).suicide

def exist : Bool × Txn := txn.read S addr false fun _ _ ↦ true

def isEmpty (h : Heap) (r : Ref) : Bool :=
  (h.account r).nonce == 0 && h.balance r == 0 && (h.account r).codeHash == emptyCodeHash S

def empty : Bool × Txn := txn.read S addr true (isEmpty S)

def getCommittedState (key : Hash) : Hash × Txn :=
  txn.read S addr zeroHash fun h r ↦ S.getStorage addr (h.account r).root key

def getState (key : Hash) : Hash × Txn :=
  txn.read S addr zeroHash fun h r ↦
    match (h.objects.get r).txn.bind fun t ↦ (h.txns.get t).lookup key with
    | some val => val.getD zeroHash
    | none => S.getStorage addr (h.account r).root key

def getCode : Bytes × Txn :=
  match txn.getStateObject S addr with
  | (none, txn) => ([], txn)
  | (some r, txn) =>
    if (txn.heap.objects.get r).dirtyCode then ((txn.heap.objects.get r).code, txn)
    else
      match txn.codeCache.lookup addr with
      | some code => (code, txn)
      | none =>
        let code := S.getCode (bytesToHash (txn.heap.account r).codeHash)
        (code, { txn with codeCache := txn.codeCache.insert addr code })

def addSealingReward (balance : ℤ) : Txn :=
  txn.upsertAccount S addr true fun r h ↦
    if (h.objects.get r).suicide then (h.resetObject r S).modifyBalance r fun _ ↦ balance.natAbs
    else h.modifyBalance r (· + balance)

def addBalance (balance : ℤ) : Txn :=
  txn.upsertAccount S addr true fun r h ↦ h.modifyBalance r (· + balance)

/-- The flag is `ErrNotEnoughFunds`. -/
def subBalance (amount : ℤ) : Bool × Txn :=
  if amount = 0 then (false, txn)
  else
    let (balance, txn) := txn.getBalance S addr
    if balance < amount then (true, txn)
    else (false, txn.upsertAccount S addr true fun r h ↦ h.modifyBalance r (· - amount))

def setBalance (balance : ℤ) : Txn :=
  txn.upsertAccount S addr true fun r h ↦ h.modifyBalance r fun _ ↦ balance.natAbs

def setState (key value : Hash) : Txn :=
  txn.upsertAccount S addr true fun r h ↦
    (h.openSlots r).insertSlot r key (if value = zeroHash then none else some value)

def incrNonce : Txn :=
  txn.upsertAccount S addr true fun r h ↦
    h.modifyAccount r fun a ↦ { a with nonce := (a.nonce + 1) % 2 ^ 64 }

def setNonce (nonce : ℕ) : Txn :=
  txn.upsertAccount S addr true fun r h ↦ h.modifyAccount r fun a ↦ { a with nonce := nonce }

def setCode (code : Bytes) : Txn :=
  txn.upsertAccount S addr true fun r h ↦
    (h.modifyAccount r fun a ↦ { a with codeHash := (S.keccak256 code).bytes }).modifyObject r
      fun o ↦ { o with dirtyCode := true, code := code }

def suicide : Txn :=
  txn.upsertAccount S addr false fun r h ↦
    let h := h.modifyObject r fun o ↦ { o with suicide := true }
    { h with ints := h.ints.alloc 0 }.modifyAccount r fun a ↦ { a with balance := h.ints.next }

def touchAccount : Txn := txn.upsertAccount S addr true fun _ h ↦ h

def createAccount : Txn :=
  let obj := txn.heap.objects.next
  let txn := { txn with heap := txn.heap.putObject (newStateObject S) }
  match txn.getStateObject S addr with
  | (none, txn) => txn.insert addr obj txn.heap
  | (some prev, txn) =>
    txn.insert addr obj (txn.heap.modifyBalance obj fun _ ↦ (txn.heap.balance prev).natAbs)

def getRefund : ℕ := txn.tree.refund.getD 0

def addRefund (gas : ℕ) : Txn :=
  { txn with tree := { txn.tree with refund := some ((txn.getRefund + gas) % 2 ^ 64) } }

def subRefund (gas : ℕ) : Txn :=
  { txn with tree := { txn.tree with
      refund := some ((txn.getRefund + 2 ^ 64 - gas) % 2 ^ 64) } }

def setStorage (key value : Hash) (config : ForksInTime) : StorageStatus × Txn :=
  let (oldValue, txn) := txn.getState S addr key
  if oldValue = value then (.unchanged, txn)
  else
    let (original, txn) := txn.getCommittedState S addr key
    meterStorage addRefund subRefund (txn.setState S addr key value) config original oldValue value

def addLog (log : Log) : Txn :=
  let logs := txn.tree.logs.getD ⟨0, 0, 0⟩
  let (logs, arrays) := logs.append grow txn.heap.arrays log
  { txn with heap := { txn.heap with arrays := arrays }, tree := { txn.tree with logs := some logs } }

def emitLog (topics : List Hash) (data : Bytes) : Txn :=
  txn.addLog grow ⟨addr, topics, data⟩

def logs : Option (List Log) × Txn :=
  match txn.tree.logs with
  | none => (none, txn)
  | some w => (some (w.items txn.heap.arrays), { txn with tree := { txn.tree with logs := none } })

def removed (deleteEmptyObjects : Bool) : List Address :=
  txn.tree.objects.keys.filter fun k ↦ (txn.tree.objects.lookup k).any fun r ↦
    (txn.heap.objects.get r).suicide || isEmpty S txn.heap r && deleteEmptyObjects

def markDeleted (txn : Txn) (k : Address) : Txn :=
  match txn.tree.objects.lookup k with
  | none => txn
  | some r =>
    let r' := txn.heap.objects.next
    txn.insert k r' ((txn.heap.copyObject r).modifyObject r' fun o ↦ { o with deleted := true })

def cleanDeleteObjects (deleteEmptyObjects : Bool) : Txn :=
  let txn := (txn.removed S deleteEmptyObjects).foldl markDeleted txn
  { txn with tree := { txn.tree with refund := none } }

end Txn

/-- What a caller can do to a `Txn`, and what its cache can do behind its back. The methods that only
read all begin by copying the object, which is all that they do to the `Txn`. -/
inductive Op
  | addSealingReward (addr : Address) (balance : ℤ)
  | addBalance (addr : Address) (balance : ℤ)
  | subBalance (addr : Address) (amount : ℤ)
  | setBalance (addr : Address) (balance : ℤ)
  | incrNonce (addr : Address)
  | setNonce (addr : Address) (nonce : ℕ)
  | setCode (addr : Address) (code : Bytes)
  | setState (addr : Address) (key value : Hash)
  | setStorage (addr : Address) (key value : Hash) (config : ForksInTime)
  | addRefund (gas : ℕ)
  | subRefund (gas : ℕ)
  | createAccount (addr : Address)
  | suicide (addr : Address)
  | touchAccount (addr : Address)
  | cleanDeleteObjects (deleteEmptyObjects : Bool)
  | commit (deleteEmptyObjects : Bool)
  | emitLog (addr : Address) (topics : List Hash) (data : Bytes)
  | addLog (log : Log)
  | logs
  | snapshot
  | revertToSnapshot (id : ℕ)
  | read (addr : Address)
  | getCode (addr : Address)
  | evict (addr : Address)

variable (S : ReadSnapshot) (grow : ℕ → ℕ)

-- `Commit` cleans the objects and lists what is in the tree then. A call that panics leaves the `Txn`
-- as it was.
def Txn.step (txn : Txn) : Op → Txn
  | .addSealingReward addr balance => txn.addSealingReward S addr balance
  | .addBalance addr balance => txn.addBalance S addr balance
  | .subBalance addr amount => (txn.subBalance S addr amount).2
  | .setBalance addr balance => txn.setBalance S addr balance
  | .incrNonce addr => txn.incrNonce S addr
  | .setNonce addr nonce => txn.setNonce S addr nonce
  | .setCode addr code => txn.setCode S addr code
  | .setState addr key value => txn.setState S addr key value
  | .setStorage addr key value config => (txn.setStorage S addr key value config).2
  | .addRefund gas => txn.addRefund gas
  | .subRefund gas => txn.subRefund gas
  | .createAccount addr => txn.createAccount S addr
  | .suicide addr => txn.suicide S addr
  | .touchAccount addr => txn.touchAccount S addr
  | .cleanDeleteObjects e | .commit e => txn.cleanDeleteObjects S e
  | .emitLog addr topics data => txn.emitLog grow addr topics data
  | .addLog log => txn.addLog grow log
  | .logs => txn.logs.2
  | .snapshot => txn.snapshot.2
  | .revertToSnapshot id => (txn.revertToSnapshot id).getD txn
  | .read addr => (txn.getStateObject S addr).2
  | .getCode addr => (txn.getCode S addr).2
  | .evict addr => { txn with codeCache := txn.codeCache.erase addr }

end Mainnet.State.Pointers
