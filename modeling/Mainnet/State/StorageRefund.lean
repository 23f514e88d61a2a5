import Mainnet.Crypto.Basic
import Mainnet.Lib.Covers
import Mainnet.Lib.Run
import Mainnet.State.Txn

namespace Mainnet.State

open Types Mainnet.Runtime Lib Lib.Run List Option Nat

/-- Net gas metering is on: EIP-2200, or EIP-1283 before it was withdrawn. -/
def NetMetering (config : ForksInTime) : Prop :=
  config.istanbul = true ∨ config.constantinople = true ∧ config.petersburg = false

/-- The status of a store by its EIP, from the values of the slot at the start of the transaction,
now, and after the store. -/
def netStatus (original current value : Hash) : StorageStatus :=
  if current = value then .unchanged
  else if original = current then
    if original = zeroHash then .added else if value = zeroHash then .deleted else .modified
  else .modifiedAgain

def netRefund (config : ForksInTime) (original current value : Hash) : ℤ :=
  if current = value then 0
  else if original = current then
    if original ≠ zeroHash ∧ value = zeroHash then 15000 else 0
  else
    (if original = zeroHash then 0
      else if current = zeroHash then -15000
      else if value = zeroHash then 15000 else 0) +
    (if original ≠ value then 0
      else if original = zeroHash then if config.istanbul then 19200 else 19800
      else if config.istanbul then 4200 else 4800)

/-- What a transaction does to storage; a revert names one of the transaction's own snapshots. -/
inductive StorageOp
  | setStorage (addr : Address) (key value : Hash)
  | snapshot
  | revertToSnapshot (i : ℕ)

structure StorageTx where
  ops : List StorageOp
  deleteEmptyObjects : Bool

def ReadSnapshot.EmptyRoot (S : ReadSnapshot) : Prop :=
  ∀ addr key, S.getStorage addr emptyStateHash key = zeroHash

variable (S : ReadSnapshot) (config : ForksInTime)

def Txn.storageStep (start txn : Txn) : StorageOp → Txn
  | .setStorage addr key value => (txn.setStorage S addr key value config).2
  | .snapshot => txn.snapshot.2
  | .revertToSnapshot i => (txn.revertToSnapshot (start.snapshots.length + i)).getD txn

def Txn.storageTx (txn : Txn) (tx : StorageTx) : Txn :=
  (exec (txn.storageStep S config) txn tx.ops).cleanDeleteObjects S tx.deleteEmptyObjects

/-- A store that changes a slot finds it, at the start of the transaction, at the value it had at
the start of the block, and the counter is not about to overflow. -/
def Txn.RefundSafe (start txn : Txn) : StorageOp → Prop
  | .setStorage addr key value => txn.getState S addr key = value ∨
      start.getState S addr key = start.getCommittedState S addr key ∧
        txn.getRefund + 19800 < 2 ^ 64
  | _ => True

instance (start txn : Txn) : ∀ op, Decidable (start.RefundSafe S txn op)
  | .setStorage _ _ _ => inferInstanceAs (Decidable (_ ∨ _))
  | .snapshot => inferInstanceAs (Decidable True)
  | .revertToSnapshot _ => inferInstanceAs (Decidable True)

variable {S config} {txn : Txn} {addr : Address} {key value : Hash}

def StateObject.slot (S : ReadSnapshot) (o : StateObject) (addr : Address) (key : Hash) : Hash :=
  match o.txn.bind fun txn ↦ txn.lookup key with
  | some val => val.getD zeroHash
  | none => S.getStorage addr o.account.root key

theorem Txn.getState_eq (hS : S.EmptyRoot) :
    txn.getState S addr key =
      ((txn.getStateObject S addr).getD (newStateObject S)).slot S addr key := by
  rw [getState, Tree.getState, getStateObject]
  cases txn.tree.getStateObject S addr with
  | none => exact (hS addr key).symm
  | some o => rfl

theorem Txn.getCommittedState_eq (hS : S.EmptyRoot) :
    txn.getCommittedState S addr key =
      S.getStorage addr ((txn.getStateObject S addr).getD (newStateObject S)).account.root key := by
  rw [getCommittedState, Tree.getCommittedState, getStateObject]
  cases txn.tree.getStateObject S addr with
  | none => exact (hS addr key).symm
  | some o => rfl

theorem StateObject.slot_insert (o : StateObject) (j : Hash) :
    StateObject.slot S { o with txn := some ((o.txn.getD ∅).insert key
        (if value = zeroHash then none else some value)) } addr j =
      if j = key then value else o.slot S addr j := by
  by_cases hj : j = key
  · subst hj
    by_cases hv : value = zeroHash <;> simp [slot, hv]
  · rw [slot, bind_some, AList.lookup_insert_ne hj, if_neg hj]
    cases ho : o.txn <;> simp [slot, ho]

theorem Txn.getStateObject_setState :
    (txn.setState S addr key value).getStateObject S addr =
      let o := (txn.getStateObject S addr).getD (newStateObject S)
      some { o with txn := some ((o.txn.getD ∅).insert key
        (if value = zeroHash then none else some value)) } :=
  getStateObject_upsertAccount fun _ ↦ rfl

theorem Txn.getState_setState (hS : S.EmptyRoot) (b : Address) (j : Hash) :
    (txn.setState S addr key value).getState S b j =
      if b = addr ∧ j = key then value else txn.getState S b j := by
  rw [getState_eq hS, getState_eq hS]
  by_cases hb : b = addr
  · subst hb
    rw [getStateObject_setState, getD_some, StateObject.slot_insert]
    simp
  · rw [setState, getStateObject_upsertAccount_of_ne hb, if_neg fun h ↦ hb h.1]

theorem Txn.getCommittedState_setState (hS : S.EmptyRoot) (b : Address) (j : Hash) :
    (txn.setState S addr key value).getCommittedState S b j = txn.getCommittedState S b j := by
  rw [getCommittedState_eq hS, getCommittedState_eq hS]
  by_cases hb : b = addr
  · subst hb
    rw [getStateObject_setState, getD_some]
  · rw [setState, getStateObject_upsertAccount_of_ne hb]

theorem Txn.snapshots_setState : (txn.setState S addr key value).snapshots = txn.snapshots := by
  unfold setState upsertAccount
  split <;> rfl

theorem Txn.getRefund_addRefund {gas : ℕ} (h : txn.getRefund + gas < 2 ^ 64) :
    (txn.addRefund gas).getRefund = txn.getRefund + gas :=
  mod_eq_of_lt h

theorem Txn.getRefund_subRefund {gas : ℕ} (hle : gas ≤ txn.getRefund)
    (hlt : txn.getRefund < 2 ^ 64) : (txn.subRefund gas).getRefund = txn.getRefund - gas := by
  have hsub : txn.getRefund + 2 ^ 64 - gas = txn.getRefund - gas + 2 ^ 64 := by omega
  rw [subRefund, hsub, add_mod_right, mod_eq_of_lt (by omega)]
  rfl

theorem Txn.getRefund_clearing (original current value : Hash)
    (hlt : txn.getRefund + 15000 < 2 ^ 64)
    (hcover : original ≠ zeroHash → current = zeroHash → 15000 ≤ txn.getRefund) :
    ((if original ≠ zeroHash then
        if current = zeroHash then txn.subRefund 15000
        else if value = zeroHash then txn.addRefund 15000
        else txn
      else txn).getRefund : ℤ) = txn.getRefund +
      if original = zeroHash then 0
      else if current = zeroHash then -15000
      else if value = zeroHash then 15000 else 0 := by
  by_cases hz : original = zeroHash
  · simp only [hz, ne_eq, not_true_eq_false, ↓reduceIte, add_zero]
  by_cases hc : current = zeroHash
  · have hle := hcover hz hc
    simp only [hz, hc, ne_eq, not_false_eq_true, ↓reduceIte,
      getRefund_subRefund hle (lt_of_le_of_lt (le_add_right _ _) hlt)]
    omega
  by_cases hv : value = zeroHash
  · simp only [hz, hc, hv, ne_eq, not_false_eq_true, ↓reduceIte, getRefund_addRefund hlt]
    omega
  · simp only [hz, hc, hv, ne_eq, not_false_eq_true, ↓reduceIte, add_zero]

theorem Txn.getRefund_resetting (config : ForksInTime) (original value : Hash)
    (hlt : original = value → txn.getRefund + 19800 < 2 ^ 64) :
    ((if original = value then
        if original = zeroHash then txn.addRefund (if config.istanbul then 19200 else 19800)
        else txn.addRefund (if config.istanbul then 4200 else 4800)
      else txn).getRefund : ℤ) = txn.getRefund +
      if original ≠ value then 0
      else if original = zeroHash then if config.istanbul then 19200 else 19800
      else if config.istanbul then 4200 else 4800 := by
  by_cases hov : original = value
  · have hadd : ∀ gas ≤ 19800, ((txn.addRefund gas).getRefund : ℤ) = txn.getRefund + gas := by
      intro gas hgas
      have hfit := hlt hov
      rw [getRefund_addRefund (by omega), cast_add]
    by_cases hz : original = zeroHash
    · rw [if_pos hov, if_pos hz, if_neg (not_not.mpr hov), if_pos hz,
        hadd _ (by split_ifs <;> omega)]
      split_ifs <;> rfl
    · rw [if_pos hov, if_neg hz, if_neg (not_not.mpr hov), if_neg hz,
        hadd _ (by split_ifs <;> omega)]
      split_ifs <;> rfl
  · rw [if_neg hov, if_pos hov, add_zero]

theorem Txn.setStorage_net (hnet : NetMetering config) (hlt : txn.getRefund + 19800 < 2 ^ 64)
    (hcover : txn.getCommittedState S addr key ≠ zeroHash → txn.getState S addr key = zeroHash →
      15000 ≤ txn.getRefund) :
    (txn.setStorage S addr key value config).1 =
        netStatus (txn.getCommittedState S addr key) (txn.getState S addr key) value ∧
      ((txn.setStorage S addr key value config).2.getRefund : ℤ) = txn.getRefund +
        netRefund config (txn.getCommittedState S addr key) (txn.getState S addr key) value := by
  have hlegacy : (!config.istanbul && (config.petersburg || !config.constantinople)) = false := by
    obtain h | ⟨hc, hp⟩ := hnet <;> simp [*]
  have hset : (txn.setState S addr key value).getRefund = txn.getRefund := by
    unfold setState upsertAccount
    split <;> rfl
  rw [setStorage, meterStorage, hlegacy]
  generalize txn.getCommittedState S addr key = o at *
  generalize txn.getState S addr key = c at *
  generalize txn.setState S addr key value = txn' at *
  rw [← hset] at hlt hcover ⊢
  by_cases hv : c = value
  · simp [netStatus, netRefund, hv, hset]
  by_cases hoc : o = c
  · subst hoc
    by_cases hz : o = zeroHash
    · subst hz
      simp [netStatus, netRefund, hv]
    by_cases hvz : value = zeroHash
    · subst hvz
      have hadd : (txn'.addRefund 15000).getRefund = txn'.getRefund + 15000 :=
        getRefund_addRefund (by omega)
      simp only [netStatus, netRefund, hz, hadd, ↓reduceIte, Bool.false_eq_true, ne_eq,
        not_false_eq_true, cast_add, cast_ofNat, and_self]
    · simp [netStatus, netRefund, hv, hz, hvz]
  · have hclear := getRefund_clearing o c value (by omega) hcover
    simp only [netStatus, netRefund, hv, hoc, ↓reduceIte, Bool.false_eq_true, true_and]
    rw [getRefund_resetting config o value fun hov ↦ ?_, hclear, add_assoc]
    -- A slot that is reset to its original value is not being cleared.
    subst hov
    split_ifs at hclear ⊢ <;> omega

theorem netRefund_ge (config : ForksInTime) (original current value : Hash) :
    ((if original ≠ zeroHash ∧ value = zeroHash then 15000 else 0 : ℕ) : ℤ) ≤
      netRefund config original current value +
        (if original ≠ zeroHash ∧ current = zeroHash then 15000 else 0 : ℕ) := by
  unfold netRefund
  split_ifs <;> simp_all

theorem netRefund_le (config : ForksInTime) (original current value : Hash) :
    netRefund config original current value ≤ 19800 := by
  unfold netRefund
  split_ifs <;> simp_all

structure Tree.RefundInv (S : ReadSnapshot) (start : Txn) (t : Tree) : Prop where
  committed : ∀ addr key, t.getCommittedState S addr key = start.getCommittedState S addr key
  refund_lt : t.getRefund < 2 ^ 64
  covers : Covers 15000 (fun x : Address × Hash ↦
    start.getState S x.1 x.2 ≠ zeroHash ∧ t.getState S x.1 x.2 = zeroHash) t.getRefund

structure Txn.RefundInv (S : ReadSnapshot) (start txn : Txn) : Prop where
  tree : txn.tree.RefundInv S start
  saved : ∀ i, ∀ t ∈ txn.snapshots[start.snapshots.length + i]?, t.RefundInv S start

variable {start : Txn}

theorem Txn.RefundInv.init (h : start.getRefund = 0) : start.RefundInv S start where
  tree := by
    refine ⟨fun _ _ ↦ rfl, ?_, ?_⟩
    · exact lt_of_eq_of_lt h (Nat.two_pow_pos 64)
    · intro s hs
      have hempty : s = ∅ := by
        apply Finset.eq_empty_of_forall_notMem
        intro x hx
        exact (hs x hx).1 (hs x hx).2
      rw [hempty]
      exact zero_le _
  saved i t ht := by simp at ht

theorem Txn.RefundInv.setStorage_law (h : start.RefundInv S txn) (hnet : NetMetering config)
    (hsafe : start.RefundSafe S txn (.setStorage addr key value)) :
    (txn.setStorage S addr key value config).1 =
        netStatus (start.getState S addr key) (txn.getState S addr key) value ∧
      ((txn.setStorage S addr key value config).2.getRefund : ℤ) = txn.getRefund +
        netRefund config (start.getState S addr key) (txn.getState S addr key) value := by
  obtain heq | ⟨hclean, hlt⟩ := hsafe
  · rw [setStorage, if_pos heq]
    simp [netStatus, netRefund, heq]
  · have horiginal : txn.getCommittedState S addr key = start.getState S addr key :=
      (h.tree.committed addr key).trans hclean.symm
    have hcover : txn.getCommittedState S addr key ≠ zeroHash →
        txn.getState S addr key = zeroHash → 15000 ≤ txn.getRefund := by
      intro ho hc
      rw [horiginal] at ho
      exact h.tree.covers.le_of_holds (x := (addr, key)) ⟨ho, hc⟩
    rw [← horiginal]
    exact setStorage_net hnet hlt hcover

theorem Txn.RefundInv.setStorage (hS : S.EmptyRoot) (h : start.RefundInv S txn)
    (hnet : NetMetering config) (hsafe : start.RefundSafe S txn (.setStorage addr key value)) :
    start.RefundInv S (txn.setStorage S addr key value config).2 := by
  have hrefund := (h.setStorage_law hnet hsafe).2
  obtain ⟨-, heq⟩ | ⟨hne, r, heq⟩ := setStorage_snd txn addr key value config
  · rwa [heq]
  obtain ⟨-, hlt⟩ := hsafe.resolve_left hne
  rw [heq] at hrefund ⊢
  replace hrefund : ((r.getD 0 : ℕ) : ℤ) = txn.getRefund +
    netRefund config (start.getState S addr key) (txn.getState S addr key) value := hrefund
  have hle := netRefund_le config (start.getState S addr key) (txn.getState S addr key) value
  have hge := netRefund_ge config (start.getState S addr key) (txn.getState S addr key) value
  have hslot : ∀ b j, (txn.setState S addr key value).getState S b j =
    if b = addr ∧ j = key then value else txn.getState S b j := getState_setState hS
  refine ⟨⟨fun b j ↦ ?_, ?_, ?_⟩, fun i t ht ↦ ?_⟩
  · exact (getCommittedState_setState hS b j).trans (h.tree.committed b j)
  · change r.getD 0 < 2 ^ 64
    omega
  · apply h.tree.covers.update (x := (addr, key))
    · rintro ⟨b, j⟩ hbj ⟨hstart, hzero⟩
      have hother : ¬(b = addr ∧ j = key) := fun heq ↦ hbj (Prod.ext heq.1 heq.2)
      exact ⟨hstart, ((hslot b j).trans (if_neg hother)).symm.trans hzero⟩
    · have hself : (txn.setState S addr key value).getState S addr key = value :=
        (hslot addr key).trans (if_pos ⟨rfl, rfl⟩)
      have hshare : txn.getRefund + (if start.getState S addr key ≠ zeroHash ∧
            (txn.setState S addr key value).getState S addr key = zeroHash then 15000 else 0) ≤
          r.getD 0 + (if start.getState S addr key ≠ zeroHash ∧
            txn.getState S addr key = zeroHash then 15000 else 0) := by
        rw [hself]
        omega
      exact hshare
  · rw [snapshots_setState] at ht
    exact h.saved i t ht

theorem Txn.RefundInv.snapshot (h : start.RefundInv S txn) :
    start.RefundInv S txn.snapshot.2 where
  tree := h.tree
  saved i t ht := by
    rw [mem_def, Txn.snapshot, getElem?_append] at ht
    split at ht
    · exact h.saved i t ht
    · obtain rfl := mem_singleton.mp (mem_of_getElem? ht)
      exact h.tree

theorem Txn.RefundInv.revertToSnapshot (h : start.RefundInv S txn) (i : ℕ) :
    start.RefundInv S ((txn.revertToSnapshot (start.snapshots.length + i)).getD txn) := by
  unfold Txn.revertToSnapshot
  cases ht : txn.snapshots[start.snapshots.length + i]? with
  | none => exact h
  | some t => exact ⟨h.saved i t ht, h.saved⟩

theorem Txn.RefundInv.step (hS : S.EmptyRoot) (hnet : NetMetering config)
    (h : start.RefundInv S txn) {op : StorageOp} (hsafe : start.RefundSafe S txn op) :
    start.RefundInv S (start.storageStep S config txn op) := by
  cases op with
  | setStorage addr key value => exact h.setStorage hS hnet hsafe
  | snapshot => exact h.snapshot
  | revertToSnapshot i => exact h.revertToSnapshot i

theorem Txn.getRefund_storageTx (txs : List StorageTx) :
    (txs.foldl (Txn.storageTx S config) newTxn).getRefund = 0 := by
  induction txs using reverseRecOn with
  | nil => rfl
  | append_singleton txs tx _ => rw [foldl_append]; rfl

/-- Each store of a transaction follows its EIP from the value that the slot had when the
transaction began, after any transactions before it. -/
theorem setStorage_net_metering (hS : S.EmptyRoot) (hnet : NetMetering config)
    (txs : List StorageTx) (ops : List StorageOp) (addr : Address) (key value : Hash) :
    let start := txs.foldl (Txn.storageTx S config) newTxn
    let txn := exec (start.storageStep S config) start ops
    Admits (start.storageStep S config) (start.RefundSafe S) start ops →
    start.RefundSafe S txn (.setStorage addr key value) →
    (txn.setStorage S addr key value config).1 =
        netStatus (start.getState S addr key) (txn.getState S addr key) value ∧
      ((txn.setStorage S addr key value config).2.getRefund : ℤ) = txn.getRefund +
        netRefund config (start.getState S addr key) (txn.getState S addr key) value := by
  intro start txn hops hcall
  have hinv : start.RefundInv S txn :=
    hops.invariant (Txn.RefundInv.init (Txn.getRefund_storageTx txs))
      fun txn op h hop ↦ h.step hS hnet hop
  exact hinv.setStorage_law hnet hcall

def oneSlot : ReadSnapshot where
  getStorage _ root key :=
    if root ≠ emptyStateHash ∧ key = zeroHash then bytesToHash [1] else zeroHash
  getAccount addr :=
    if addr = zeroAddress then some ⟨1, 0, bytesToHash [1], Crypto.keccakNil.bytes⟩ else none
  getCode _ := []
  keccak256 _ := Crypto.keccakNil

def istanbul : ForksInTime := ⟨true, true, true, true, true, true, true, true⟩

theorem oneSlot_emptyRoot : oneSlot.EmptyRoot := by
  intro addr key
  simp [oneSlot]

theorem setStorage_net_metering_cleared :
    let ops : List StorageOp := [.snapshot, .setStorage zeroAddress zeroHash zeroHash,
      .revertToSnapshot 0, .setStorage zeroAddress zeroHash zeroHash]
    let txn := exec (newTxn.storageStep oneSlot istanbul) newTxn ops
    Admits (newTxn.storageStep oneSlot istanbul) (newTxn.RefundSafe oneSlot) newTxn ops ∧
      txn.getRefund = 15000 ∧
      ((txn.setStorage oneSlot zeroAddress zeroHash (bytesToHash [2]) istanbul).2.getRefund : ℤ) =
        txn.getRefund + netRefund istanbul (newTxn.getState oneSlot zeroAddress zeroHash)
          (txn.getState oneSlot zeroAddress zeroHash) (bytesToHash [2]) := by
  intro ops txn
  have hops : Admits (newTxn.storageStep oneSlot istanbul) (newTxn.RefundSafe oneSlot) newTxn ops := by
    decide +kernel
  have hcall : newTxn.RefundSafe oneSlot txn
      (.setStorage zeroAddress zeroHash (bytesToHash [2])) := by
    decide +kernel
  refine ⟨hops, by decide +kernel, ?_⟩
  exact (setStorage_net_metering oneSlot_emptyRoot (.inl rfl) [] ops zeroAddress zeroHash
    (bytesToHash [2]) hops hcall).2

/-- The first transaction of a block clears the slot, the second one sets it: the second is told
that it modified the slot again, and takes back a refund that it was never given. -/
theorem setStorage_refund_underflow :
    let start := [(⟨[.setStorage zeroAddress zeroHash zeroHash], true⟩ : StorageTx)].foldl
      (Txn.storageTx oneSlot istanbul) newTxn
    let after := start.setStorage oneSlot zeroAddress zeroHash (bytesToHash [2]) istanbul
    oneSlot.EmptyRoot ∧ NetMetering istanbul ∧
      after.1 = .modifiedAgain ∧
      netStatus (start.getState oneSlot zeroAddress zeroHash)
        (start.getState oneSlot zeroAddress zeroHash) (bytesToHash [2]) = .added ∧
      netRefund istanbul (start.getState oneSlot zeroAddress zeroHash)
        (start.getState oneSlot zeroAddress zeroHash) (bytesToHash [2]) = 0 ∧
      start.getRefund = 0 ∧ after.2.getRefund = 2 ^ 64 - 15000 := by
  intro start after
  refine ⟨oneSlot_emptyRoot, .inl rfl, ?_, ?_, ?_, ?_, ?_⟩ <;> decide +kernel

end Mainnet.State
