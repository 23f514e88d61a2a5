import Mainnet.Crypto.Basic
import Mainnet.Lib.Run
import Mainnet.State.Txn

namespace Mainnet.State

open Types Mainnet.Runtime Lib.Run List Option FixedBytes Txn StateObject

/-- What a caller can do to a block's `Txn`, and what the LRU cache can do behind its back.
Reads that leave the `Txn` as it is are not steps. -/
inductive TxnOp
  | addSealingReward (addr : Address) (balance : ℕ)
  | addBalance (addr : Address) (balance : ℕ)
  | subBalance (addr : Address) (amount : ℕ)
  | setBalance (addr : Address) (balance : ℕ)
  | incrNonce (addr : Address)
  | setNonce (addr : Address) (nonce : ℕ)
  | setCode (addr : Address) (code : Bytes)
  | setState (addr : Address) (key value : Hash)
  | setStorage (addr : Address) (key value : Hash) (config : ForksInTime)
  | addRefund (gas : ℕ)
  | subRefund (gas : ℕ)
  | createAccount (addr : Address)
  | suicide (addr : Address)
  | touchAccount (addr : Address)
  | cleanDeleteObjects (deleteEmptyObjects : Bool)
  | snapshot
  | revertToSnapshot (id : ℕ)
  | getCode (addr : Address)
  | getCodeSize (addr : Address)
  | evict (addr : Address)

variable (S : ReadSnapshot)

-- A call that fails or panics leaves the `Txn` as it was.
def Txn.step (txn : Txn) : TxnOp → Txn
  | .addSealingReward addr balance => txn.addSealingReward S addr balance
  | .addBalance addr balance => txn.addBalance S addr balance
  | .subBalance addr amount => (txn.subBalance S addr amount).getD txn
  | .setBalance addr balance => txn.setBalance S addr balance
  | .incrNonce addr => txn.incrNonce S addr
  | .setNonce addr nonce => txn.setNonce S addr nonce
  | .setCode addr code => txn.setCode S addr code
  | .setState addr key value => txn.setState S addr key value
  | .setStorage addr key value config => (txn.setStorage S addr key value config).2
  | .addRefund gas => txn.addRefund gas
  | .subRefund gas => txn.subRefund gas
  | .createAccount addr => txn.createAccount S addr
  | .suicide addr => (txn.suicide S addr).2
  | .touchAccount addr => txn.touchAccount S addr
  | .cleanDeleteObjects e => txn.cleanDeleteObjects S e
  | .snapshot => txn.snapshot.2
  | .revertToSnapshot id => (txn.revertToSnapshot id).getD txn
  | .getCode addr => (txn.getCode S addr).2
  | .getCodeSize addr => (txn.getCodeSize S addr).2
  | .evict addr => { txn with codeCache := txn.codeCache.erase addr }

structure ReadSnapshot.StoresCode : Prop where
  keccak_getCode : ∀ addr account, S.getAccount addr = some account →
    S.keccak256 (S.getCode (bytesToHash account.codeHash)) = bytesToHash account.codeHash
  getCode_empty : S.getCode (S.keccak256 []) = []

def StateObject.CodeStored (o : StateObject) : Prop :=
  S.keccak256 (if o.dirtyCode then o.code else S.getCode (bytesToHash o.account.codeHash)) =
    bytesToHash o.account.codeHash

/-- What the cache holds for the object's address is not used, or is the object's code. -/
def StateObject.CacheAgrees (cache : AList fun _ : Address ↦ Bytes) (addr : Address)
    (o : StateObject) : Prop :=
  o.dirtyCode = false → ∀ code ∈ cache.lookup addr,
    S.keccak256 code = bytesToHash o.account.codeHash

def Txn.resetsCode (txn : Txn) : TxnOp → Option Address
  | .addSealingReward addr _ =>
    if txn.exist S addr && !txn.hasSuicided S addr then none else some addr
  | .setStorage addr key value _ =>
    if txn.exist S addr || txn.getState S addr key = value then none else some addr
  | .addBalance addr _ | .setBalance addr _ | .incrNonce addr | .setNonce addr _
  | .setState addr _ _ | .touchAccount addr =>
    if txn.exist S addr then none else some addr
  | .createAccount addr => some addr
  | _ => none

def Txn.restores (txn : Txn) : TxnOp → Option Tree
  | .revertToSnapshot id => txn.snapshots[id]?
  | _ => none

/-- An object without code is put only where the cache holds no code, and only objects that agree
with the cache are restored. -/
def Txn.CacheSafe (txn : Txn) (op : TxnOp) : Prop :=
  (∀ addr ∈ txn.resetsCode S op, ∀ code ∈ txn.codeCache.lookup addr,
    S.keccak256 code = S.keccak256 []) ∧
  ∀ tree ∈ txn.restores op, ∀ addr ∈ txn.codeCache.keys, ∀ o ∈ tree.getStateObject S addr,
    o.CacheAgrees S txn.codeCache addr

instance (cache : AList fun _ : Address ↦ Bytes) (addr : Address) (o : StateObject) :
    Decidable (o.CacheAgrees S cache addr) :=
  inferInstanceAs (Decidable (_ → ∀ code ∈ cache.lookup addr, _))

instance (txn : Txn) (op : TxnOp) : Decidable (txn.CacheSafe S op) :=
  inferInstanceAs (Decidable (_ ∧ _))

structure Txn.CodeInv (txn : Txn) : Prop where
  stored : ∀ addr o, txn.getStateObject S addr = some o → o.CodeStored S
  cached : ∀ addr o, txn.getStateObject S addr = some o → o.CacheAgrees S txn.codeCache addr
  saved : ∀ tree ∈ txn.snapshots, ∀ addr o, tree.getStateObject S addr = some o → o.CodeStored S

variable {S} {txn : Txn} {addr : Address} {o : StateObject}

namespace Txn.CodeInv

theorem insert (h : txn.CodeInv S) (hs : o.CodeStored S)
    (hc : o.CacheAgrees S txn.codeCache addr) : (txn.insert addr o).CodeInv S where
  stored b o' ho' := by
    obtain ⟨-, rfl⟩ | ⟨-, ho⟩ := Tree.getStateObject_insert_eq_some ho'
    · exact hs
    · exact h.stored b o' ho
  cached b o' ho' := by
    obtain ⟨rfl, rfl⟩ | ⟨-, ho⟩ := Tree.getStateObject_insert_eq_some ho'
    · exact hc
    · exact h.cached b o' ho
  saved := h.saved

theorem upsertAccount {create : Bool} {f : StateObject → StateObject} (h : txn.CodeInv S)
    (hlive : ∀ o, txn.getStateObject S addr = some o →
      (f o).CodeStored S ∧ (f o).CacheAgrees S txn.codeCache addr)
    (hfresh : create = true → txn.getStateObject S addr = none →
      (f (newStateObject S)).CodeStored S ∧
        (f (newStateObject S)).CacheAgrees S txn.codeCache addr) :
    (txn.upsertAccount S addr create f).CodeInv S := by
  unfold Txn.upsertAccount
  split
  · rename_i o ho
    exact h.insert (hlive o ho).1 (hlive o ho).2
  · rename_i ho
    split
    · rename_i hcreate
      exact h.insert (hfresh hcreate ho).1 (hfresh hcreate ho).2
    · exact h

end Txn.CodeInv

theorem newStateObject_codeStored (hS : S.StoresCode) : (newStateObject S).CodeStored S := by
  have hash : bytesToHash (newStateObject S).account.codeHash = S.keccak256 [] :=
    ofBytes_bytes _
  rw [CodeStored, hash]
  exact congrArg S.keccak256 hS.getCode_empty

theorem newStateObject_cacheAgrees {cache : AList fun _ : Address ↦ Bytes}
    (h : ∀ code ∈ cache.lookup addr, S.keccak256 code = S.keccak256 []) :
    (newStateObject S).CacheAgrees S cache addr := by
  intro _ code hcode
  rw [h code hcode]
  exact (ofBytes_bytes _).symm

def KeepsCode (f : StateObject → StateObject) : Prop :=
  ∀ o, (f o).dirtyCode = o.dirtyCode ∧ (f o).code = o.code ∧
    (f o).account.codeHash = o.account.codeHash

namespace KeepsCode

variable {f : StateObject → StateObject}

theorem codeStored (hf : KeepsCode f) (h : o.CodeStored S) : (f o).CodeStored S := by
  obtain ⟨hd, hc, hh⟩ := hf o
  rwa [CodeStored, hd, hc, hh]

theorem cacheAgrees {cache : AList fun _ : Address ↦ Bytes} (hf : KeepsCode f)
    (h : o.CacheAgrees S cache addr) : (f o).CacheAgrees S cache addr := by
  obtain ⟨hd, -, hh⟩ := hf o
  rwa [CacheAgrees, hd, hh]

theorem upsertAccount {create : Bool} (hf : KeepsCode f) (hS : S.StoresCode)
    (h : txn.CodeInv S)
    (hsafe : create = true → txn.getStateObject S addr = none →
      ∀ code ∈ txn.codeCache.lookup addr, S.keccak256 code = S.keccak256 []) :
    (txn.upsertAccount S addr create f).CodeInv S := by
  apply h.upsertAccount
  · intro o ho
    exact ⟨hf.codeStored (h.stored addr o ho), hf.cacheAgrees (h.cached addr o ho)⟩
  · intro hcreate ho
    exact ⟨hf.codeStored (newStateObject_codeStored hS),
      hf.cacheAgrees (newStateObject_cacheAgrees (hsafe hcreate ho))⟩

theorem createOrUpdate (hf : KeepsCode f) (hS : S.StoresCode) (h : txn.CodeInv S)
    (hreset : ∀ b ∈ (if txn.exist S addr then none else some addr : Option Address),
      ∀ code ∈ txn.codeCache.lookup b, S.keccak256 code = S.keccak256 []) :
    (txn.upsertAccount S addr true f).CodeInv S := by
  refine hf.upsertAccount hS h fun _ ho ↦ hreset addr ?_
  simp [exist, ho]

end KeepsCode

namespace Txn.CodeInv

theorem withRefund (h : txn.CodeInv S) (r : Option ℕ) :
    CodeInv S { txn with tree := { txn.tree with refund := r } } :=
  ⟨h.stored, h.cached, h.saved⟩

theorem addSealingReward (hS : S.StoresCode) (h : txn.CodeInv S) (balance : ℕ)
    (hsafe : ¬(txn.exist S addr && !txn.hasSuicided S addr) = true →
      ∀ code ∈ txn.codeCache.lookup addr, S.keccak256 code = S.keccak256 []) :
    (txn.addSealingReward S addr balance).CodeInv S := by
  apply h.upsertAccount
  · intro o ho
    by_cases hsuicide : o.suicide
    · simp only [hsuicide, if_true]
      have hreset : ¬(txn.exist S addr && !txn.hasSuicided S addr) = true := by
        simp [hasSuicided, ho, hsuicide]
      exact ⟨newStateObject_codeStored hS, newStateObject_cacheAgrees (hsafe hreset)⟩
    · simp only [hsuicide]
      exact ⟨h.stored addr o ho, h.cached addr o ho⟩
  · intro _ ho
    have hreset : ¬(txn.exist S addr && !txn.hasSuicided S addr) = true := by
      simp [exist, ho]
    exact ⟨newStateObject_codeStored hS, newStateObject_cacheAgrees (hsafe hreset)⟩

theorem setCode (h : txn.CodeInv S) (code : Bytes) : (txn.setCode S addr code).CodeInv S := by
  -- The object serves its own code from here on, whatever the cache holds.
  have hset : ∀ o : StateObject, CodeStored S
      { o with
        account := { o.account with codeHash := (S.keccak256 code).bytes }
        dirtyCode := true
        code := code } := by
    intro o
    exact (ofBytes_bytes _).symm
  apply h.upsertAccount
  · intro o _
    exact ⟨hset o, fun hd ↦ by cases hd⟩
  · intro _ _
    exact ⟨hset _, fun hd ↦ by cases hd⟩

theorem createAccount (hS : S.StoresCode) (h : txn.CodeInv S)
    (hsafe : ∀ code ∈ txn.codeCache.lookup addr, S.keccak256 code = S.keccak256 []) :
    (txn.createAccount S addr).CodeInv S := by
  unfold Txn.createAccount
  split <;>
  exact h.insert (newStateObject_codeStored hS) (newStateObject_cacheAgrees hsafe)

section

variable (h : txn.CodeInv S)
include h

theorem cleanDeleteObjects (e : Bool) :
    (txn.cleanDeleteObjects S e).CodeInv S where
  stored b o ho := h.stored b o (getStateObject_cleanDeleteObjects ho)
  cached b o ho := h.cached b o (getStateObject_cleanDeleteObjects ho)
  saved := h.saved

theorem snapshot : txn.snapshot.2.CodeInv S where
  stored := h.stored
  cached := h.cached
  saved tree htree := by
    obtain htree | htree := mem_append.mp htree
    · exact h.saved tree htree
    · obtain rfl := mem_singleton.mp htree
      exact h.stored

theorem revertToSnapshot {id : ℕ}
    (hsafe : ∀ tree ∈ txn.snapshots[id]?, ∀ addr ∈ txn.codeCache.keys,
      ∀ o ∈ tree.getStateObject S addr, o.CacheAgrees S txn.codeCache addr) :
    ((txn.revertToSnapshot id).getD txn).CodeInv S := by
  unfold Txn.revertToSnapshot
  cases htree : txn.snapshots[id]? with
  | none => exact h
  | some tree =>
    refine ⟨h.saved tree (mem_of_getElem? htree), ?_, h.saved⟩
    intro b o ho hd code hcode
    have hb : b ∈ txn.codeCache.keys := AList.lookup_isSome.mp (isSome_of_mem hcode)
    exact hsafe tree htree b hb o ho hd code hcode

theorem getCode : (txn.getCode S addr).2.CodeInv S := by
  unfold Txn.getCode
  split
  · exact h
  · rename_i o ho
    split
    · exact h
    · rename_i hd
      split
      · exact h
      · refine ⟨h.stored, ?_, h.saved⟩
        intro b o' ho' hd' code hcode
        by_cases hb : b = addr
        · -- The code that enters the cache is the one stored under the object's hash.
          subst hb
          obtain rfl : o = o' := Option.some.inj (ho.symm.trans ho')
          have hstored := h.stored b o ho
          rw [CodeStored, if_neg hd] at hstored
          obtain rfl : S.getCode (bytesToHash o.account.codeHash) = code := by simpa using hcode
          exact hstored
        · rw [AList.lookup_insert_ne hb] at hcode
          exact h.cached b o' ho' hd' code hcode

theorem evict (b : Address) : CodeInv S { txn with codeCache := txn.codeCache.erase b } where
  stored := h.stored
  cached addr o ho hd code hcode := by
    by_cases hb : addr = b
    · subst hb
      simp at hcode
    · rw [AList.lookup_erase_ne hb] at hcode
      exact h.cached addr o ho hd code hcode
  saved := h.saved

end

theorem step (hS : S.StoresCode) (h : txn.CodeInv S) {op : TxnOp} (hsafe : txn.CacheSafe S op) :
    (txn.step S op).CodeInv S := by
  obtain ⟨hreset, hrestore⟩ := hsafe
  cases op with
  | addSealingReward addr balance =>
    refine h.addSealingReward hS balance fun hlive ↦ hreset addr ?_
    simp only [resetsCode, if_neg hlive, mem_def]
  | addBalance addr balance | setBalance addr balance | incrNonce addr | setNonce addr nonce
  | setState addr key value | touchAccount addr =>
    exact KeepsCode.createOrUpdate (fun o ↦ ⟨rfl, rfl, rfl⟩) hS h hreset
  | subBalance addr amount =>
    rw [Txn.step, Txn.subBalance]
    split_ifs with hzero hfunds
    · exact h
    · exact h
    · refine KeepsCode.upsertAccount (fun o ↦ ⟨rfl, rfl, rfl⟩) hS h fun _ ho ↦ ?_
      simp only [getBalance, ho] at hfunds
      omega
  | setCode addr code => exact h.setCode code
  | setStorage addr key value config =>
    obtain ⟨-, heq⟩ | ⟨hne, r, heq⟩ := setStorage_snd (S := S) txn addr key value config
    · rw [Txn.step, heq]
      exact h
    · rw [Txn.step, heq]
      apply withRefund
      refine KeepsCode.upsertAccount (fun o ↦ ⟨rfl, rfl, rfl⟩) hS h fun _ ho ↦ hreset addr ?_
      simp [resetsCode, exist, ho, hne]
  | addRefund gas | subRefund gas => exact h.withRefund _
  | createAccount addr => exact h.createAccount hS (hreset addr rfl)
  | suicide addr => exact KeepsCode.upsertAccount (fun o ↦ ⟨rfl, rfl, rfl⟩) hS h nofun
  | cleanDeleteObjects e => exact h.cleanDeleteObjects e
  | snapshot => exact h.snapshot
  | revertToSnapshot id => exact h.revertToSnapshot hrestore
  | getCode addr | getCodeSize addr => exact h.getCode
  | evict addr => exact h.evict addr

theorem newTxn (hS : S.StoresCode) : (State.newTxn).CodeInv S where
  stored addr o ho := by
    obtain ⟨account, haccount, rfl⟩ := map_eq_some_iff.mp ho
    exact hS.keccak_getCode addr account haccount
  cached addr o ho _ code hcode := by cases hcode
  saved := by simp [State.newTxn]

theorem getCode_fst (h : txn.CodeInv S) (ho : txn.getStateObject S addr = some o) :
    S.keccak256 (txn.getCode S addr).1 = txn.getCodeHash S addr := by
  have hstored := h.stored addr o ho
  have hcached := h.cached addr o ho
  rw [Txn.getCodeHash, Txn.getCode, ho]
  dsimp only
  split_ifs with hd
  · rwa [CodeStored, if_pos hd] at hstored
  · cases hcode : txn.codeCache.lookup addr with
    | none => rwa [CodeStored, if_neg hd] at hstored
    | some code => exact hcached (Bool.eq_false_iff.mpr hd) code hcode

end Txn.CodeInv

/-- Along every run of safe steps each existing account's code has the account's code hash, and an
address without an account has no code. -/
theorem getCode_matches_getCodeHash (hS : S.StoresCode) (ops : List TxnOp)
    (hsafe : Admits (step S) (CacheSafe S) newTxn ops) (addr : Address) :
    let txn := exec (step S) newTxn ops
    (txn.exist S addr = true → S.keccak256 (txn.getCode S addr).1 = txn.getCodeHash S addr) ∧
      (txn.exist S addr = false → (txn.getCode S addr).1 = []) := by
  intro txn
  have hinv : txn.CodeInv S :=
    hsafe.invariant (CodeInv.newTxn hS) fun txn op h hop ↦ h.step hS hop
  constructor
  · intro hexist
    obtain ⟨o, ho⟩ := isSome_iff_exists.mp hexist
    exact hinv.getCode_fst ho
  · intro hexist
    have ho : txn.getStateObject S addr = none := by simpa [exist] using hexist
    rw [getCode, ho]

def oneContract : ReadSnapshot where
  getStorage _ _ _ := zeroHash
  getAccount addr :=
    if addr = zeroAddress then some ⟨1, 0, emptyStateHash, stopHash.bytes⟩ else none
  getCode hash := if hash = stopHash then [0] else []
  keccak256 code := if code = [0] then stopHash else Crypto.keccakNil
where
  stopHash : Hash := bytesToHash (Lib.BigEndian.toBytes
    0xbc36789e7a1e281436464229828f817d6612f7b477d66591ff96a9e064bcc98a)

theorem oneContract_storesCode : oneContract.StoresCode where
  keccak_getCode addr account h := by
    obtain ⟨-, heq⟩ := ite_none_right_eq_some.mp h
    cases heq
    decide +kernel
  getCode_empty := by decide +kernel

theorem getCode_matches_getCodeHash_evicted :
    let ops : List TxnOp := [.getCode zeroAddress, .snapshot, .setCode zeroAddress [],
      .revertToSnapshot 0, .suicide zeroAddress, .cleanDeleteObjects true, .evict zeroAddress,
      .addBalance zeroAddress 1]
    Admits (step oneContract) (CacheSafe oneContract) newTxn ops ∧
      let txn := exec (step oneContract) newTxn ops
      txn.exist oneContract zeroAddress = true ∧
        oneContract.keccak256 (txn.getCode oneContract zeroAddress).1 =
          txn.getCodeHash oneContract zeroAddress := by
  intro ops
  have hsafe : Admits (step oneContract) (CacheSafe oneContract) newTxn ops := by
    decide +kernel
  have hexist : (exec (step oneContract) newTxn ops).exist oneContract zeroAddress = true := by
    decide +kernel
  exact ⟨hsafe, hexist,
    (getCode_matches_getCodeHash oneContract_storesCode ops hsafe zeroAddress).1 hexist⟩

/-- A contract is called, destroyed and paid again within a block: the new account has no code,
and the cache still answers with the old one. -/
theorem getCode_after_suicide :
    let txn := exec (step oneContract) newTxn [.getCode zeroAddress, .suicide zeroAddress,
      .cleanDeleteObjects true, .addBalance zeroAddress 1]
    oneContract.StoresCode ∧ txn.exist oneContract zeroAddress = true ∧
      oneContract.keccak256 (txn.getCode oneContract zeroAddress).1 ≠
        txn.getCodeHash oneContract zeroAddress := by
  refine ⟨oneContract_storesCode, ?_, ?_⟩ <;> decide +kernel

end Mainnet.State
