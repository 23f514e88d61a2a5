import Mainnet.State.CodeCache
import Mainnet.Types.RoundTrip

namespace Mainnet.State

open Types Types.Rlp Lib List Option AList

def Account.marshalWith (a : Account) : Value :=
  .array [newUint a.nonce, newUint a.balance, newFixed a.root, .bytes a.codeHash]

def Account.unmarshalFrom (v : Value) : Except UnmarshalError Account := do
  let elems ← fetch (getElems v)
  match elems with
  | e0 :: e1 :: e2 :: e3 :: _ =>
    let nonce ← fetch (getUint64 e0)
    let balance ← fetch (getBigInt e1)
    let root ← fetch (getHash e2)
    let codeHash ← fetch (getBytes e3)
    return ⟨nonce, balance, root, codeHash⟩
  | _ => .error (.elements "account, expected 4" elems.length)

def Account.unmarshalRlp (R : Fastrlp) : Bytes → Except UnmarshalError Account :=
  Types.unmarshalRlp R unmarshalFrom

theorem Account.unmarshalRlp_marshalWith {R : Fastrlp} (hR : R.Faithful) {a : Account}
    (hn : a.nonce < 2 ^ 64) : unmarshalRlp R (R.marshal a.marshalWith) = .ok a := by
  simp only [unmarshalRlp, Types.unmarshalRlp, hR.parse_marshal, fetch_some, marshalWith,
    unmarshalFrom, getElems, getUint64_newUint hn, getBigInt_newUint, getHash_newFixed, getBytes]
  rfl

structure StorageObject where
  deleted : Bool
  key : Bytes
  val : Bytes
deriving DecidableEq

structure Object where
  address : Address
  codeHash : Hash
  balance : ℕ
  root : Hash
  nonce : ℕ
  deleted : Bool
  dirtyCode : Bool
  code : Bytes
  storage : List StorageObject
deriving DecidableEq

/-- A radix tree is walked in the order of its keys. -/
def walkOrder {n : ℕ} (ks : List (FixedBytes n)) : List (FixedBytes n) :=
  ks.insertionSort fun a b ↦ a.bytes ≤ b.bytes

theorem mem_walkOrder {n : ℕ} {ks : List (FixedBytes n)} {k : FixedBytes n} :
    k ∈ walkOrder ks ↔ k ∈ ks :=
  mem_insertionSort _

def storageObject (key : Hash) : Option Hash → StorageObject
  | none => ⟨true, key.bytes, []⟩
  | some val => ⟨false, key.bytes, val.bytes⟩

def StateObject.storageObjects (a : StateObject) : List StorageObject :=
  match a.txn with
  | none => []
  | some txn => (walkOrder txn.keys).filterMap fun k ↦ (txn.lookup k).map (storageObject k)

def StateObject.object (a : StateObject) (k : Address) : Object where
  address := k
  codeHash := bytesToHash a.account.codeHash
  balance := a.account.balance
  root := a.account.root
  nonce := a.account.nonce
  deleted := a.deleted
  dirtyCode := a.dirtyCode
  code := a.code
  storage := if a.deleted then [] else a.storageObjects

theorem StateObject.mem_storageObjects {a : StateObject} {entry : StorageObject} :
    entry ∈ a.storageObjects ↔ ∃ txn k val,
      a.txn = some txn ∧ txn.lookup k = some val ∧ entry = storageObject k val := by
  rw [storageObjects]
  cases a.txn with
  | none => simp
  | some txn =>
    simp only [mem_filterMap, mem_walkOrder, map_eq_some_iff, some.injEq]
    constructor
    · rintro ⟨k, -, val, hval, rfl⟩
      exact ⟨txn, k, val, rfl, hval, rfl⟩
    · rintro ⟨_, k, val, rfl, hval, rfl⟩
      exact ⟨k, lookup_isSome.mp (by rw [hval]; rfl), val, hval, rfl⟩

def Txn.commit (S : ReadSnapshot) (txn : Txn) (deleteEmptyObjects : Bool) : List Object :=
  let objects := (txn.cleanDeleteObjects S deleteEmptyObjects).tree.objects
  (walkOrder objects.keys).filterMap fun k ↦ (objects.lookup k).map fun a ↦ a.object k

section Objects

variable {S : ReadSnapshot} {txn : Txn} {e : Bool}

theorem Txn.mem_commit {obj : Object} :
    obj ∈ txn.commit S e ↔ ∃ k a,
      (txn.cleanDeleteObjects S e).tree.objects.lookup k = some a ∧ obj = a.object k := by
  simp only [commit, mem_filterMap, mem_walkOrder, map_eq_some_iff]
  constructor
  · rintro ⟨k, -, a, ha, rfl⟩
    exact ⟨k, a, ha, rfl⟩
  · rintro ⟨k, a, ha, rfl⟩
    exact ⟨k, lookup_isSome.mp (by rw [ha]; rfl), a, ha, rfl⟩

theorem Txn.lookup_cleanDeleteObjects (S : ReadSnapshot) (txn : Txn) (e : Bool) (k : Address) :
    ∃ d, (txn.cleanDeleteObjects S e).tree.objects.lookup k =
      (txn.tree.objects.lookup k).map fun o ↦ { o with deleted := o.deleted || d } := by
  simp only [cleanDeleteObjects, lookup_foldl_markDeleted]
  split
  · exact ⟨true, by simp⟩
  · exact ⟨false, by simp⟩

theorem Txn.deleted_of_removed {k : Address} {o : StateObject}
    (ho : txn.tree.objects.lookup k = some o)
    (hr : (o.suicide || o.empty S && e) = true) :
    (txn.cleanDeleteObjects S e).tree.objects.lookup k = some { o with deleted := true } := by
  have hk : k ∈ txn.removed S e := by
    simp only [removed, mem_filter, ho, any_some]
    exact ⟨lookup_isSome.mp (by rw [ho]; rfl), hr⟩
  simp only [cleanDeleteObjects, lookup_foldl_markDeleted, if_pos hk, ho, map_some]

theorem Txn.mem_keys_cleanDeleteObjects {k : Address} :
    k ∈ (txn.cleanDeleteObjects S e).tree.objects.keys ↔ k ∈ txn.tree.objects.keys := by
  obtain ⟨d, hd⟩ := lookup_cleanDeleteObjects S txn e k
  rw [← AList.mem_keys, ← AList.mem_keys, ← AList.lookup_isSome, ← AList.lookup_isSome, hd,
    isSome_map]

theorem Txn.length_commit_le : (txn.commit S e).length ≤ txn.tree.objects.keys.length := by
  have hperm : (txn.cleanDeleteObjects S e).tree.objects.keys.Perm txn.tree.objects.keys :=
    (perm_ext_iff_of_nodup (keys_nodup _) (keys_nodup _)).mpr fun _ ↦ mem_keys_cleanDeleteObjects
  rw [← hperm.length_eq]
  refine (length_filterMap_le _ _).trans (le_of_eq ?_)
  exact length_insertionSort _ _

end Objects

def StateObject.Fits (R : Hash → Prop) (o : StateObject) : Prop :=
  o.account.nonce < 2 ^ 64 ∧ R o.account.root

structure Txn.Fits (R : Hash → Prop) (txn : Txn) : Prop where
  live : ∀ a o, txn.tree.objects.lookup a = some o → o.Fits R
  saved : ∀ tree ∈ txn.snapshots, ∀ a o, tree.objects.lookup a = some o → o.Fits R

def TxnOp.Typed : TxnOp → Prop
  | .setNonce _ nonce => nonce < 2 ^ 64
  | _ => True

instance (op : TxnOp) : Decidable op.Typed := by
  unfold TxnOp.Typed
  split <;> infer_instance

namespace Txn.Fits

variable {S : ReadSnapshot} {R : Hash → Prop} {txn : Txn} {addr : Address} {o : StateObject}

theorem newTxn : newTxn.Fits R := ⟨by simp [State.newTxn], by simp [State.newTxn]⟩

theorem withRefund (h : txn.Fits R) (r : Option ℕ) :
    Txn.Fits R { txn with tree := { txn.tree with refund := r } } := ⟨h.live, h.saved⟩

theorem insert (h : txn.Fits R) (ho : o.Fits R) : (txn.insert addr o).Fits R := by
  refine ⟨fun a o' ho' ↦ ?_, h.saved⟩
  simp only [Txn.insert] at ho'
  by_cases ha : a = addr
  · subst ha
    rw [lookup_insert] at ho'
    rwa [← some.inj ho']
  · rw [lookup_insert_ne ha] at ho'
    exact h.live a o' ho'

variable (hempty : R emptyStateHash)
  (hacc : ∀ addr account, S.getAccount addr = some account →
    account.nonce < 2 ^ 64 ∧ R account.root)

include hacc in
theorem getStateObject (h : txn.Fits R) (ho : txn.getStateObject S addr = some o) : o.Fits R := by
  rw [Txn.getStateObject, Tree.getStateObject] at ho
  cases hl : txn.tree.objects.lookup addr with
  | some obj =>
    rw [hl] at ho
    dsimp only at ho
    split at ho
    · cases ho
    · rw [← some.inj ho]
      exact h.live addr obj hl
  | none =>
    rw [hl] at ho
    obtain ⟨account, ha, rfl⟩ := map_eq_some_iff.mp ho
    exact hacc addr account ha

include hempty in
theorem newStateObject : (newStateObject S).Fits R := ⟨by norm_num [State.newStateObject], hempty⟩

include hempty hacc in
theorem upsertAccount (h : txn.Fits R) {create : Bool} {f : StateObject → StateObject}
    (hf : ∀ o, o.Fits R → (f o).Fits R) : (txn.upsertAccount S addr create f).Fits R := by
  rw [Txn.upsertAccount]
  cases ho : txn.getStateObject S addr with
  | some o => exact h.insert (hf o (h.getStateObject hacc ho))
  | none =>
    dsimp only
    split
    · exact h.insert (hf _ (newStateObject hempty))
    · exact h

include hempty hacc in
theorem setState (h : txn.Fits R) (key value : Hash) : (txn.setState S addr key value).Fits R :=
  h.upsertAccount hempty hacc fun _ ho ↦ ho

theorem getCode (h : txn.Fits R) : (txn.getCode S addr).2.Fits R := by
  rw [Txn.getCode]
  split
  · exact h
  · split_ifs
    · exact h
    · split
      · exact h
      · exact ⟨h.live, h.saved⟩

include hempty hacc in
theorem step (h : txn.Fits R) {op : TxnOp} (hop : op.Typed) : (txn.step S op).Fits R := by
  cases op with
  | addSealingReward addr balance =>
    refine h.upsertAccount hempty hacc fun o ho ↦ ?_
    split
    · exact newStateObject (S := S) hempty
    · exact ho
  | addBalance addr balance | setBalance addr balance | setCode addr code | suicide addr
  | touchAccount addr => exact h.upsertAccount hempty hacc fun _ ho ↦ ho
  | subBalance addr amount =>
    simp only [Txn.step, Txn.subBalance]
    split_ifs
    · exact h
    · exact h
    · exact h.upsertAccount hempty hacc fun _ ho ↦ ho
  | incrNonce addr =>
    exact h.upsertAccount hempty hacc fun o ho ↦ ⟨Nat.mod_lt _ (by norm_num), ho.2⟩
  | setNonce addr nonce => exact h.upsertAccount hempty hacc fun o ho ↦ ⟨hop, ho.2⟩
  | setState addr key value => exact h.setState hempty hacc key value
  | setStorage addr key value config =>
    rcases txn.setStorage_snd (S := S) addr key value config with ⟨-, heq⟩ | ⟨-, r, heq⟩
    · simpa only [Txn.step, heq] using h
    · simpa only [Txn.step, heq] using (h.setState hempty hacc key value).withRefund r
  | addRefund gas | subRefund gas => exact h.withRefund _
  | createAccount addr =>
    simp only [Txn.step, Txn.createAccount]
    split
    · exact h.insert (newStateObject hempty)
    · exact h.insert (newStateObject (S := S) hempty)
  | cleanDeleteObjects e =>
    refine ⟨fun a o ho ↦ ?_, h.saved⟩
    obtain ⟨d, hd⟩ := Txn.lookup_cleanDeleteObjects S txn e a
    obtain ⟨o', ho', rfl⟩ := map_eq_some_iff.mp (hd.symm.trans ho)
    exact h.live a o' ho'
  | snapshot =>
    refine ⟨h.live, fun tree htree ↦ ?_⟩
    rcases mem_append.mp htree with htree | htree
    · exact h.saved tree htree
    · rw [mem_singleton.mp htree]
      exact h.live
  | revertToSnapshot id =>
    simp only [Txn.step, Txn.revertToSnapshot]
    cases hid : txn.snapshots[id]? with
    | none => exact h
    | some tree => exact ⟨h.saved tree (mem_of_getElem? hid), h.saved⟩
  | getCode addr | getCodeSize addr => exact h.getCode
  | evict addr => exact ⟨h.live, h.saved⟩

include hempty hacc in
theorem exec (h : txn.Fits R) {ops : List TxnOp} (hops : ∀ op ∈ ops, op.Typed) :
    (Run.exec (Txn.step S) txn ops).Fits R := by
  induction ops generalizing txn with
  | nil => exact h
  | cons op ops ih =>
    exact ih (h.step hempty hacc (hops op mem_cons_self))
      fun op' hop' ↦ hops op' (mem_cons_of_mem _ hop')

end Txn.Fits

end Mainnet.State
