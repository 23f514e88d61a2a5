import Mathlib.Data.List.AList
import Mainnet.Lib.BigEndian
import Mainnet.Runtime.Basic

namespace Mainnet.State

open Types Mainnet.Runtime Option Tree

structure Account where
  nonce : ℕ
  balance : ℕ
  root : Hash
  codeHash : Bytes
deriving DecidableEq, Inhabited

structure StateObject where
  account : Account
  code : Bytes
  suicide : Bool
  deleted : Bool
  dirtyCode : Bool
  /-- The object's radix transaction of written slots; `none` under a key is a slot set to zero. -/
  txn : Option (AList fun _ : Hash ↦ Option Hash)
deriving DecidableEq

/-- The state that a `Txn` is opened on, and the hash function that names code. -/
structure ReadSnapshot where
  getStorage : Address → Hash → Hash → Hash
  getAccount : Address → Option Account
  getCode : Hash → Bytes
  keccak256 : Bytes → Hash

/-- The journalled radix tree: state objects under addresses, the counter under `refundIndex`. -/
structure Tree where
  objects : AList fun _ : Address ↦ StateObject
  refund : Option ℕ
deriving DecidableEq

structure Txn where
  tree : Tree
  snapshots : List Tree
  codeCache : AList fun _ : Address ↦ Bytes
deriving DecidableEq

def emptyStateHash : Hash := bytesToHash (Lib.BigEndian.toBytes
  0x56e81f171bcc55a6ff8345e692c0f86e5b48e01b996cadc001622fb5e363b421)

/-- What `SetStorage` adds to the refund counter once the slot is written, and its status. -/
def meterStorage {τ : Type} (addRefund subRefund : τ → ℕ → τ) (txn : τ) (config : ForksInTime)
    (original current value : Hash) : StorageStatus × τ :=
  let legacyGasMetering := !config.istanbul && (config.petersburg || !config.constantinople)
  if legacyGasMetering then
    if current = zeroHash then (.added, txn)
    else if value = zeroHash then (.deleted, addRefund txn 15000)
    else (.modified, txn)
  else if original = current then
    if original = zeroHash then (.added, txn)
    else if value = zeroHash then (.deleted, addRefund txn 15000)
    else (.modified, txn)
  else
    let txn :=
      if original ≠ zeroHash then
        if current = zeroHash then subRefund txn 15000
        else if value = zeroHash then addRefund txn 15000
        else txn
      else txn
    let txn :=
      if original = value then
        if original = zeroHash then addRefund txn (if config.istanbul then 19200 else 19800)
        else addRefund txn (if config.istanbul then 4200 else 4800)
      else txn
    (.modifiedAgain, txn)

def newTxn : Txn := ⟨⟨∅, none⟩, [], ∅⟩

variable (S : ReadSnapshot)

def emptyCodeHash : Bytes := (S.keccak256 []).bytes

def newStateObject : StateObject :=
  ⟨⟨0, 0, emptyStateHash, emptyCodeHash S⟩, [], false, false, false, none⟩

def StateObject.empty (o : StateObject) : Bool :=
  o.account.nonce == 0 && o.account.balance == 0 && o.account.codeHash == emptyCodeHash S

def Tree.getStateObject (t : Tree) (addr : Address) : Option StateObject :=
  match t.objects.lookup addr with
  | some obj => if obj.deleted then none else some obj
  | none => (S.getAccount addr).map fun account ↦ ⟨account, [], false, false, false, none⟩

def Tree.getState (t : Tree) (addr : Address) (key : Hash) : Hash :=
  match t.getStateObject S addr with
  | none => zeroHash
  | some object =>
    match object.txn.bind fun txn ↦ txn.lookup key with
    | some val => val.getD zeroHash
    | none => S.getStorage addr object.account.root key

def Tree.getCommittedState (t : Tree) (addr : Address) (key : Hash) : Hash :=
  match t.getStateObject S addr with
  | none => zeroHash
  | some object => S.getStorage addr object.account.root key

def Tree.getRefund (t : Tree) : ℕ := t.refund.getD 0

namespace Txn

variable (txn : Txn) (addr : Address)

def snapshot : ℕ × Txn :=
  (txn.snapshots.length, { txn with snapshots := txn.snapshots ++ [txn.tree] })

-- Both the explicit check and the slice index panic on an id that was never handed out.
def revertToSnapshot (id : ℕ) : Option Txn :=
  txn.snapshots[id]?.map fun tree ↦ { txn with tree := tree }

def getStateObject : Option StateObject := txn.tree.getStateObject S addr

def insert (object : StateObject) : Txn :=
  { txn with tree := { txn.tree with objects := txn.tree.objects.insert addr object } }

def upsertAccount (create : Bool) (f : StateObject → StateObject) : Txn :=
  match txn.getStateObject S addr with
  | some object => txn.insert addr (f object)
  | none => if create then txn.insert addr (f (newStateObject S)) else txn

def addSealingReward (balance : ℕ) : Txn :=
  txn.upsertAccount S addr true fun o ↦
    if o.suicide then
      let fresh := newStateObject S
      { fresh with account := { fresh.account with balance := balance } }
    else { o with account := { o.account with balance := o.account.balance + balance } }

def addBalance (balance : ℕ) : Txn :=
  txn.upsertAccount S addr true fun o ↦
    { o with account := { o.account with balance := o.account.balance + balance } }

def getBalance : ℕ :=
  match txn.getStateObject S addr with
  | none => 0
  | some object => object.account.balance

/-- `none` is `ErrNotEnoughFunds`. -/
def subBalance (amount : ℕ) : Option Txn :=
  if amount = 0 then some txn
  else if txn.getBalance S addr < amount then none
  else some (txn.upsertAccount S addr true fun o ↦
    { o with account := { o.account with balance := o.account.balance - amount } })

def setBalance (balance : ℕ) : Txn :=
  txn.upsertAccount S addr true fun o ↦ { o with account := { o.account with balance := balance } }

def setState (key value : Hash) : Txn :=
  txn.upsertAccount S addr true fun o ↦
    { o with txn := some ((o.txn.getD ∅).insert key
        (if value = zeroHash then none else some value)) }

def getState (key : Hash) : Hash := txn.tree.getState S addr key

def incrNonce : Txn :=
  txn.upsertAccount S addr true fun o ↦
    { o with account := { o.account with nonce := (o.account.nonce + 1) % 2 ^ 64 } }

def setNonce (nonce : ℕ) : Txn :=
  txn.upsertAccount S addr true fun o ↦ { o with account := { o.account with nonce := nonce } }

def getNonce : ℕ :=
  match txn.getStateObject S addr with
  | none => 0
  | some object => object.account.nonce

def setCode (code : Bytes) : Txn :=
  txn.upsertAccount S addr true fun o ↦
    { o with
      account := { o.account with codeHash := (S.keccak256 code).bytes }
      dirtyCode := true
      code := code }

def getCode : Bytes × Txn :=
  match txn.getStateObject S addr with
  | none => ([], txn)
  | some object =>
    if object.dirtyCode then (object.code, txn)
    else
      match txn.codeCache.lookup addr with
      | some code => (code, txn)
      | none =>
        let code := S.getCode (bytesToHash object.account.codeHash)
        (code, { txn with codeCache := txn.codeCache.insert addr code })

def getCodeSize : ℕ × Txn :=
  let (code, txn) := txn.getCode S addr
  (code.length, txn)

def getCodeHash : Hash :=
  match txn.getStateObject S addr with
  | none => zeroHash
  | some object => bytesToHash object.account.codeHash

def suicide : Bool × Txn :=
  (match txn.getStateObject S addr with
    | none => false
    | some object => !object.suicide,
    txn.upsertAccount S addr false fun o ↦
      { o with suicide := true, account := { o.account with balance := 0 } })

def hasSuicided : Bool :=
  match txn.getStateObject S addr with
  | none => false
  | some object => object.suicide

def getRefund : ℕ := txn.tree.getRefund

def addRefund (gas : ℕ) : Txn :=
  { txn with tree := { txn.tree with refund := some ((txn.getRefund + gas) % 2 ^ 64) } }

def subRefund (gas : ℕ) : Txn :=
  { txn with tree := { txn.tree with
      refund := some ((txn.getRefund + 2 ^ 64 - gas) % 2 ^ 64) } }

def getCommittedState (key : Hash) : Hash :=
  txn.tree.getCommittedState S addr key

def touchAccount : Txn := txn.upsertAccount S addr true id

def exist : Bool := (txn.getStateObject S addr).isSome

def empty : Bool :=
  match txn.getStateObject S addr with
  | none => true
  | some object => object.empty S

def createAccount : Txn :=
  let obj := newStateObject S
  match txn.getStateObject S addr with
  | none => txn.insert addr obj
  | some prev =>
    txn.insert addr { obj with account := { obj.account with balance := prev.account.balance } }

def removed (deleteEmptyObjects : Bool) : List Address :=
  txn.tree.objects.keys.filter fun k ↦
    (txn.tree.objects.lookup k).any fun a ↦ a.suicide || a.empty S && deleteEmptyObjects

def markDeleted (objects : AList fun _ : Address ↦ StateObject) (k : Address) :
    AList fun _ : Address ↦ StateObject :=
  match objects.lookup k with
  | none => objects
  | some obj => objects.insert k { obj with deleted := true }

def cleanDeleteObjects (deleteEmptyObjects : Bool) : Txn :=
  { txn with tree := ⟨(txn.removed S deleteEmptyObjects).foldl markDeleted txn.tree.objects, none⟩ }

def setStorage (key value : Hash) (config : ForksInTime) : StorageStatus × Txn :=
  let oldValue := txn.getState S addr key
  if oldValue = value then (.unchanged, txn)
  else
    let original := txn.getCommittedState S addr key
    meterStorage addRefund subRefund (txn.setState S addr key value) config original oldValue value

end Txn

section Lemmas

variable {S} {t : Tree} {txn : Txn} {a b : Address} {k : Hash} {o : StateObject}

theorem Tree.getStateObject_insert_self (h : o.deleted = false) :
    getStateObject S { t with objects := t.objects.insert a o } a = some o := by
  simp [getStateObject, h]

theorem Tree.getStateObject_insert_of_ne (h : b ≠ a) :
    getStateObject S { t with objects := t.objects.insert a o } b = t.getStateObject S b := by
  simp only [getStateObject, AList.lookup_insert_ne h]

theorem Tree.getStateObject_insert_eq_some {o' : StateObject}
    (h : getStateObject S { t with objects := t.objects.insert a o } b = some o') :
    b = a ∧ o' = o ∨ b ≠ a ∧ t.getStateObject S b = some o' := by
  by_cases hb : b = a
  · subst hb
    simp only [getStateObject, AList.lookup_insert] at h
    split at h
    · cases h
    · exact .inl ⟨rfl, (Option.some.inj h).symm⟩
  · rw [getStateObject_insert_of_ne hb] at h
    exact .inr ⟨hb, h⟩

theorem Tree.deleted_of_getStateObject (hS : t.getStateObject S a = some o) : o.deleted = false := by
  unfold getStateObject at hS
  split at hS
  · split at hS
    · cases hS
    · rename_i hd
      cases hS
      exact Bool.eq_false_iff.mpr hd
  · obtain ⟨account, -, rfl⟩ := map_eq_some_iff.mp hS
    rfl

theorem Txn.getStateObject_upsertAccount {f : StateObject → StateObject}
    (hf : ∀ o, (f o).deleted = o.deleted) :
    (txn.upsertAccount S a true f).getStateObject S a =
      some (f ((txn.getStateObject S a).getD (newStateObject S))) := by
  unfold upsertAccount
  cases ho : txn.getStateObject S a with
  | none => exact Tree.getStateObject_insert_self (hf _)
  | some o =>
    exact Tree.getStateObject_insert_self ((hf o).trans (Tree.deleted_of_getStateObject ho))

theorem Txn.getStateObject_upsertAccount_of_ne {create : Bool} {f : StateObject → StateObject}
    (h : b ≠ a) :
    (txn.upsertAccount S a create f).getStateObject S b = txn.getStateObject S b := by
  unfold upsertAccount
  split
  · exact Tree.getStateObject_insert_of_ne h
  · split
    · exact Tree.getStateObject_insert_of_ne h
    · rfl

theorem Txn.lookup_markDeleted (objects : AList fun _ : Address ↦ StateObject) :
    (markDeleted objects a).lookup b =
      if b = a then (objects.lookup b).map ({ · with deleted := true }) else objects.lookup b := by
  unfold markDeleted
  by_cases hb : b = a
  · subst hb
    split <;> simp_all
  · split <;> simp [hb]

theorem Txn.lookup_foldl_markDeleted (ks : List Address)
    (objects : AList fun _ : Address ↦ StateObject) :
    (ks.foldl markDeleted objects).lookup b =
      if b ∈ ks then (objects.lookup b).map ({ · with deleted := true })
      else objects.lookup b := by
  induction ks generalizing objects with
  | nil => simp
  | cons k ks ih =>
    rw [List.foldl_cons, ih, lookup_markDeleted]
    by_cases hk : b = k
    · subst hk
      cases objects.lookup b <;> simp
    · simp [hk]

theorem Txn.getStateObject_cleanDeleteObjects {e : Bool}
    (h : (txn.cleanDeleteObjects S e).getStateObject S a = some o) :
    txn.getStateObject S a = some o := by
  unfold Txn.getStateObject Tree.getStateObject cleanDeleteObjects at h
  rw [Txn.getStateObject, Tree.getStateObject]
  simp only [lookup_foldl_markDeleted] at h
  split at h
  · rename_i obj hobj
    split at hobj
    · obtain ⟨obj', -, rfl⟩ := map_eq_some_iff.mp hobj
      simp at h
    · rw [hobj]
      exact h
  · rename_i hobj
    split at hobj
    · rw [map_eq_none_iff.mp hobj]
      exact h
    · rw [hobj]
      exact h

theorem Txn.setStorage_snd (txn : Txn) (a : Address) (k v : Hash) (config : ForksInTime) :
    txn.getState S a k = v ∧ (txn.setStorage S a k v config).2 = txn ∨
      txn.getState S a k ≠ v ∧ ∃ r, (txn.setStorage S a k v config).2 =
        { txn.setState S a k v with
          tree := { (txn.setState S a k v).tree with refund := r } } := by
  by_cases hv : txn.getState S a k = v
  · exact .inl ⟨hv, by rw [setStorage, if_pos hv]⟩
  · refine .inr ⟨hv, ?_⟩
    rw [setStorage, if_neg hv, meterStorage]
    dsimp only
    split_ifs <;> exact ⟨_, rfl⟩

end Lemmas

end Mainnet.State
