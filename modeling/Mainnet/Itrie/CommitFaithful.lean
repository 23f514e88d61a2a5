import Mainnet.Itrie.CommitSpec

namespace Mainnet.Itrie

open Types Types.Rlp Lib List Option Function State.StateObject AList FixedBytes State.Txn Ledger

variable {K : Keccak} {fuel : ℕ} {t : Trie} {tree : Tree} {root : Hash}

theorem contents_of_ne {ops : List Op} {key : Bytes} (h : ∀ op ∈ ops, op.key ≠ key)
    (m : Bytes → Option Bytes) : contents m ops key = m key := by
  induction ops generalizing m with
  | nil => rfl
  | cons op ops ih =>
    have hop : op.apply m key = m key := by
      have hne := h op mem_cons_self
      cases op with
      | insert k v | delete k => exact update_of_ne hne.symm _ _
      | lookup k => rfl
    rw [contents, foldl_cons]
    exact (ih (fun o ho ↦ h o (mem_cons_of_mem _ ho)) _).trans hop

theorem contents_of_unique {ops : List Op} {op : Op} (hop : op ∈ ops)
    (h : ∀ o ∈ ops, o.key = op.key → o = op) {v : Option Bytes} (hv : ∀ m, op.apply m op.key = v)
    (m : Bytes → Option Bytes) : contents m ops op.key = v := by
  induction ops generalizing m with
  | nil => cases hop
  | cons o ops ih =>
    rw [contents, foldl_cons]
    have htail : ∀ o ∈ ops, o.key = op.key → o = op :=
      fun o ho ↦ h o (mem_cons_of_mem _ ho)
    by_cases hin : op ∈ ops
    · exact ih hin htail _
    · obtain rfl : op = o := (mem_cons.mp hop).resolve_right hin
      refine (contents_of_ne (fun o ho heq ↦ hin ?_) _).trans (hv m)
      rwa [← htail o ho heq]

def slotValue (K : Keccak) : Option Bytes → Hash
  | none => zeroHash
  | some val =>
    match (K.parse val).bind getBytes with
    | none => zeroHash
    | some res => bytesToHash res

def SlotsApart (K : Keccak) (o : State.StateObject) (key : Hash) : Prop :=
  ∀ txn, o.txn = some txn → ∀ k ∈ txn.keys, K.keccak256 k.bytes = K.keccak256 key.bytes → k = key

variable {o : State.StateObject} {key : Hash}

theorem SlotsApart.slotOp (hapart : SlotsApart K o key) {op : Op}
    (hop : op ∈ o.storageObjects.map (slotOp K)) (hk : op.key = (K.keccak256 key.bytes).bytes) :
    ∃ val, (o.txn.bind fun txn ↦ txn.lookup key) = some val ∧
      op = Itrie.slotOp K (State.storageObject key val) := by
  obtain ⟨entry, hentry, rfl⟩ := mem_map.mp hop
  obtain ⟨txn, k, val, htxn, hval, rfl⟩ := mem_storageObjects.mp hentry
  have hkey : (Itrie.slotOp K (State.storageObject k val)).key = (K.keccak256 k.bytes).bytes := by
    rw [World.slotOp_key]
    cases val <;> rfl
  obtain rfl : k = key := hapart txn htxn k (lookup_isSome.mp (by rw [hval]; rfl))
    (ext (hkey.symm.trans hk))
  exact ⟨val, by rw [htxn]; exact hval, rfl⟩

theorem slotValue_contents (hK : K.Faithful) (hapart : SlotsApart K o key)
    (m : Bytes → Option Bytes) :
    slotValue K (contents m (o.storageObjects.map (slotOp K)) (K.keccak256 key.bytes).bytes) =
      match o.txn.bind fun txn ↦ txn.lookup key with
      | some val => val.getD zeroHash
      | none => slotValue K (m (K.keccak256 key.bytes).bytes) := by
  cases hl : o.txn.bind fun txn ↦ txn.lookup key with
  | none =>
    rw [contents_of_ne fun op hop hk ↦ ?_]
    obtain ⟨val, hval, -⟩ := hapart.slotOp hop hk
    rw [hl] at hval
    cases hval
  | some val =>
    obtain ⟨txn, htxn, hval⟩ := bind_eq_some_iff.mp hl
    have hop : slotOp K (State.storageObject key val) ∈ o.storageObjects.map (slotOp K) :=
      mem_map_of_mem (mem_storageObjects.mpr ⟨txn, key, val, htxn, hval, rfl⟩)
    have huniq : ∀ op ∈ o.storageObjects.map (slotOp K),
        op.key = (K.keccak256 key.bytes).bytes → op = slotOp K (State.storageObject key val) := by
      intro op hop hk
      obtain ⟨val', hval', rfl⟩ := hapart.slotOp hop hk
      rw [hl] at hval'
      rw [some.inj hval']
    cases val with
    | none =>
      rw [show contents m _ (K.keccak256 key.bytes).bytes = none from
        contents_of_unique hop huniq (fun m ↦ update_self _ _ _) m]
      rfl
    | some v =>
      rw [show contents m _ (K.keccak256 key.bytes).bytes =
          some (K.marshal (.bytes (v.bytes.dropWhile (· = 0)))) from
        contents_of_unique hop huniq (fun m ↦ update_self _ _ _) m]
      rw [slotValue, hK.parse_marshal]
      exact v.ofBytes_dropWhile

namespace World

variable {w w' : World}

theorem getStorage_spec (hK : K.Faithful) (hf : 134 ≤ fuel) (h : w.Sound K)
    (hr : Rooted K w.storage root tree) (key : Hash) :
    w.getStorage K fuel root key = slotValue K (treeMap tree (K.keccak256 key.bytes).bytes) := by
  have htrie : (if root = State.emptyStateHash then some newTrie else w.trieAt K root) =
      w.trieAt K root := by
    by_cases he : root = State.emptyStateHash
    · rw [if_pos he, trieAt, if_pos (show root = emptyRoot from he)]
    · exact if_neg he
  obtain ⟨t, ht, hshow, -⟩ := trieAt_spec hK h hr
  rw [getStorage, htrie, ht]
  dsimp only
  rw [hshow.get hK hf (length_eq _)]
  cases treeMap tree (K.keccak256 key.bytes).bytes <;> rfl

variable {addr : Address} {a : State.Account}

theorem getAccount_of_get (hK : K.Faithful) (hn : a.nonce < 2 ^ 64)
    (h : t.get K fuel w.storage (K.keccak256 addr.bytes).bytes = some (K.marshal a.marshalWith)) :
    w.getAccount K fuel t addr = some a := by
  rw [getAccount, h]
  dsimp only
  rw [State.Account.unmarshalRlp_marshalWith hK hn]
  rfl

section

variable (hK : K.Faithful) (hf : 134 ≤ fuel) (hshow : t.Shows K w.storage tree)
include hK hf hshow

theorem getAccount_of_none
    (h : treeMap tree (K.keccak256 addr.bytes).bytes = none) :
    w.getAccount K fuel t addr = none := by
  rw [getAccount, hshow.get hK hf (length_eq _), h]

theorem getAccount_of_some
    (h : treeMap tree (K.keccak256 addr.bytes).bytes = some (K.marshal a.marshalWith))
    (hn : a.nonce < 2 ^ 64) : w.getAccount K fuel t addr = some a :=
  getAccount_of_get hK hn ((hshow.get hK hf (length_eq _)).trans h)

theorem Accounts.getAccount
    (hacc : Accounts K w.storage tree) (h : w.getAccount K fuel t addr = some a) :
    a.nonce < 2 ^ 64 ∧ (∃ st, Rooted K w.storage a.root st) ∧
      treeMap tree (K.keccak256 addr.bytes).bytes = some (K.marshal a.marshalWith) := by
  cases hm : treeMap tree (K.keccak256 addr.bytes).bytes with
  | none =>
    rw [getAccount_of_none hK hf hshow hm] at h
    cases h
  | some v =>
    obtain ⟨a', st, rfl, hn, hr⟩ := hacc _ _ hm
    rw [getAccount_of_some hK hf hshow hm hn] at h
    obtain rfl := some.inj h
    exact ⟨hn, ⟨st, hr⟩, rfl⟩

end

/-- The state of a process that starts again: the storage without anything in memory. -/
def restart (w : World) : World := { w with tries := [], cache := ∅ }

theorem Sound.restart (h : w.Sound K) : w.restart.Sound K :=
  ⟨h.faithful, fun root p hp ↦ by simp [World.restart] at hp⟩

def SameState (K : Keccak) (fuel : ℕ) (w w' : World) (t t' : Trie) : Prop :=
  ∀ addr, w'.getAccount K fuel t' addr = w.getAccount K fuel t addr ∧
    ∀ a, w.getAccount K fuel t addr = some a → ∀ key,
      w'.getStorage K fuel a.root key = w.getStorage K fuel a.root key

theorem sameState_of_le {t' : Trie} (hK : K.Faithful) (hf : 134 ≤ fuel) (h : w.Sound K)
    (h' : w'.Sound K) (hS : w.storage.Le w'.storage) (hshow : t.Shows K w.storage tree)
    (hshow' : t'.Shows K w'.storage tree) (hacc : Accounts K w.storage tree) :
    SameState K fuel w w' t t' := by
  refine fun addr ↦ ⟨?_, fun a ha key ↦ ?_⟩
  · rw [getAccount, getAccount, hshow.get hK hf (length_eq _), hshow'.get hK hf (length_eq _)]
  · obtain ⟨-, ⟨st, hr⟩, -⟩ := hacc.getAccount hK hf hshow ha
    rw [getStorage_spec hK hf h hr, getStorage_spec hK hf h' (hr.mono hS)]

end World

/-- A new `Txn` on a snapshot reads for an address what a `Txn` on another one reads: code as far
as `SetCode` gave it, slots whose keys are not confused by the hash. -/
structure SameReads (K : Keccak) (S S' : State.ReadSnapshot) (txn : State.Txn) (addr : Address) :
    Prop where
  exist : State.newTxn.exist S' addr = txn.exist S addr
  balance : State.newTxn.getBalance S' addr = txn.getBalance S addr
  nonce : State.newTxn.getNonce S' addr = txn.getNonce S addr
  codeHash : State.newTxn.getCodeHash S' addr = txn.getCodeHash S addr
  code : ∀ o, txn.getStateObject S addr = some o →
    (o.dirtyCode = true ∨
      txn.codeCache.lookup addr = none ∧ S.getCode (bytesToHash o.account.codeHash) ≠ []) →
    (State.newTxn.getCode S' addr).1 = (txn.getCode S addr).1
  state : ∀ key, (∀ o, txn.getStateObject S addr = some o → SlotsApart K o key) →
    State.newTxn.getState S' addr key = txn.getState S addr key

section SameReads

variable {S S' : State.ReadSnapshot} {txn : State.Txn} {addr : Address} {o : State.StateObject}
  {a : State.Account}

theorem getStateObject_newTxn (S : State.ReadSnapshot) (addr : Address) :
    State.newTxn.getStateObject S addr =
      (S.getAccount addr).map fun account ↦ ⟨account, [], false, false, false, none⟩ := by
  simp [getStateObject, State.Tree.getStateObject, State.newTxn]

theorem sameReads_of_absent (h : txn.getStateObject S addr = none)
    (h' : S'.getAccount addr = none) : SameReads K S S' txn addr := by
  have hnew : State.newTxn.getStateObject S' addr = none := by
    rw [getStateObject_newTxn, h', map_none]
  refine ⟨?_, ?_, ?_, ?_, fun o ho ↦ ?_, fun key _ ↦ ?_⟩
  · rw [exist, exist, h, hnew]
  · rw [getBalance, getBalance, h, hnew]
  · rw [getNonce, getNonce, h, hnew]
  · rw [getCodeHash, getCodeHash, h, hnew]
  · rw [h] at ho
    cases ho
  · rw [getStateObject] at h hnew
    rw [getState, getState, State.Tree.getState, State.Tree.getState, h, hnew]

theorem sameReads_of_account (h : txn.getStateObject S addr = some o)
    (h' : S'.getAccount addr = some a) (hbalance : a.balance = o.account.balance)
    (hnonce : a.nonce = o.account.nonce)
    (hhash : bytesToHash a.codeHash = bytesToHash o.account.codeHash)
    (hdirty : o.dirtyCode = true → S'.getCode (bytesToHash o.account.codeHash) = o.code)
    (hclean : S.getCode (bytesToHash o.account.codeHash) ≠ [] →
      S'.getCode (bytesToHash o.account.codeHash) = S.getCode (bytesToHash o.account.codeHash))
    (hslot : ∀ key, SlotsApart K o key → S'.getStorage addr a.root key =
      match o.txn.bind fun txn ↦ txn.lookup key with
      | some val => val.getD zeroHash
      | none => S.getStorage addr o.account.root key) : SameReads K S S' txn addr := by
  have hnew : State.newTxn.getStateObject S' addr = some ⟨a, [], false, false, false, none⟩ := by
    rw [getStateObject_newTxn, h', map_some]
  refine ⟨?_, ?_, ?_, ?_, fun o' ho' hc ↦ ?_, fun key hapart ↦ ?_⟩
  · rw [exist, exist, h, hnew]
    rfl
  · rw [getBalance, getBalance, h, hnew]
    exact hbalance
  · rw [getNonce, getNonce, h, hnew]
    exact hnonce
  · rw [getCodeHash, getCodeHash, h, hnew]
    exact hhash
  · obtain rfl : o = o' := some.inj (h.symm.trans ho')
    have hfresh : (State.newTxn.getCode S' addr).1 = S'.getCode (bytesToHash o.account.codeHash) := by
      rw [getCode, hnew, ← hhash]
      simp [State.newTxn]
    rw [hfresh, getCode, h]
    by_cases hd : o.dirtyCode = true
    · simp only [hd, if_true]
      exact hdirty hd
    · obtain ⟨hcache, hne⟩ := hc.resolve_left hd
      simp only [hd, hcache]
      exact hclean hne
  · rw [getState, getState, State.Tree.getState, State.Tree.getState]
    rw [getStateObject] at h hnew
    rw [h, hnew]
    exact hslot key (hapart o h)

end SameReads

def KeysApart (K : Keccak) (txn : State.Txn) (addr : Address) : Prop :=
  ∀ b ∈ txn.tree.objects.keys, K.keccak256 b.bytes = K.keccak256 addr.bytes → b = addr

theorem KeysApart.object {S : State.ReadSnapshot} {txn : State.Txn} {e : Bool} {addr : Address}
    (h : KeysApart K txn addr) {obj : State.Object} (hobj : obj ∈ txn.commit S e)
    (hk : World.objKey K obj = (K.keccak256 addr.bytes).bytes) :
    addr ∈ txn.tree.objects.keys ∧ ∃ o,
      (txn.cleanDeleteObjects S e).tree.objects.lookup addr = some o ∧ obj = o.object addr := by
  obtain ⟨k, o, ho, rfl⟩ := mem_commit.mp hobj
  have hmem : k ∈ txn.tree.objects.keys :=
    mem_keys_cleanDeleteObjects.mp (lookup_isSome.mp (by rw [ho]; rfl))
  obtain rfl := h k hmem (ext hk)
  exact ⟨hmem, o, ho, rfl⟩

namespace Ledger

variable (K fuel) (l : Ledger)

/-- The commit of a `Txn` on a snapshot returns a root from which a process without any memory of the
state reads what the `Txn` read after it was cleaned, and not the accounts that it removed. -/
def CommitFaithful (i : ℕ) (ops : List State.TxnOp) (e : Bool) : Prop :=
  ∀ t, l.parent i = some t →
    let S := l.world.readSnapshot K fuel t
    let txn := l.txnOn K fuel t ops
    ∃ w p root fresh, l.commitOn K fuel t ops e = .ok (w, p, root) ∧
      newTrieAt K w.storage root = some fresh ∧
      ∀ addr, KeysApart K txn addr →
        SameReads K S (w.restart.readSnapshot K fuel fresh) (txn.cleanDeleteObjects S e) addr ∧
        ∀ o, txn.tree.objects.lookup addr = some o → (o.suicide || o.empty S && e) = true →
          State.newTxn.exist (w.restart.readSnapshot K fuel fresh) addr = false

def EpochsFit : LedgerOp → Prop
  | .commit i ops _ => ∀ t, l.parent i = some t →
    t.epoch.toNat + (l.txnOn K fuel t ops).tree.objects.keys.length < 2 ^ 32 - 1 ∧
      l.world.EpochsFit (l.txnOn K fuel t ops).tree.objects.keys.length
  | _ => True

/-- Nonces are of 64 bits, and the storage keeps what a commit puts. -/
def Assumed : LedgerOp → Prop
  | .commit i ops e => ∀ t, l.parent i = some t → (∀ op ∈ ops, op.Typed) ∧
    World.CommitKept K fuel (l.world, t.txn)
      ((l.txnOn K fuel t ops).commit (l.world.readSnapshot K fuel t) e)
  | _ => True

structure Sound : Prop where
  world : l.world.Sound K
  taken : ∀ s ∈ l.snapshots, ∃ tree, l.world.Has K s.1 s.2 tree ∧
    World.Accounts K l.world.storage tree

variable {K fuel l} {i : ℕ} {ops : List State.TxnOp} {e : Bool}

theorem Sound.parent (h : l.Sound K) (ht : l.parent i = some t) :
    ∃ tree, t.Shows K l.world.storage tree ∧ World.Accounts K l.world.storage tree := by
  obtain ⟨s, hs, hst⟩ := bind_eq_some_iff.mp ht
  obtain ⟨tree, ⟨⟨t', ht', hshow⟩, -⟩, hacc⟩ := h.taken s (mem_of_getElem? hs)
  obtain rfl : t = t' := some.inj (hst.symm.trans ht')
  exact ⟨tree, hshow, hacc⟩

theorem fits_txnOn (hK : K.Faithful) (hf : 134 ≤ fuel) (hshow : t.Shows K l.world.storage tree)
    (hacc : World.Accounts K l.world.storage tree) (hops : ∀ op ∈ ops, op.Typed) :
    ((l.txnOn K fuel t ops).cleanDeleteObjects (l.world.readSnapshot K fuel t) e).Fits
      fun root ↦ ∃ st, Rooted K l.world.storage root st := by
  have hempty : ∃ st, Rooted K l.world.storage State.emptyStateHash st := ⟨.nil, rooted_nil⟩
  have hread : ∀ addr account, (l.world.readSnapshot K fuel t).getAccount addr = some account →
      account.nonce < 2 ^ 64 ∧ ∃ st, Rooted K l.world.storage account.root st := by
    intro addr account ha
    obtain ⟨hn, hr, -⟩ := hacc.getAccount hK hf hshow ha
    exact ⟨hn, hr⟩
  exact (Fits.newTxn.exec hempty hread hops).step hempty hread
    (show (State.TxnOp.cleanDeleteObjects e).Typed from trivial)

structure CommitResult (K : Keccak) (fuel : ℕ) (l : Ledger) (t : Trie) (txn : State.Txn) (e : Bool)
    (tree : Tree) (w : World) (p : ℕ) (root : Hash) (tree' : Tree) : Prop where
  sound : w.Sound K
  extend : l.world.Extends w
  has : w.Has K p root tree'
  accounts : World.Accounts K w.storage tree'
  code : ∀ c ∈ w.code, w.code.lookup c.1 = some c.2
  frame : ∀ addr, KeysApart K txn addr → txn.tree.objects.lookup addr = none →
    treeMap tree' (K.keccak256 addr.bytes).bytes = treeMap tree (K.keccak256 addr.bytes).bytes
  written : ∀ addr o, KeysApart K txn addr →
    (txn.cleanDeleteObjects (l.world.readSnapshot K fuel t) e).tree.objects.lookup addr = some o →
    World.Written K w.storage (o.object addr) (treeMap tree' (K.keccak256 addr.bytes).bytes) ∧
      (o.deleted = false → o.dirtyCode = true → (bytesToHash o.account.codeHash, o.code) ∈ w.code)

theorem Sound.commitOn (hK : K.Faithful) (hf : 134 ≤ fuel) (h : l.Sound K)
    (ht : l.parent i = some t) (hassumed : l.Assumed K fuel (.commit i ops e))
    (hfit : l.EpochsFit K fuel (.commit i ops e)) :
    ∃ tree w p root tree', t.Shows K l.world.storage tree ∧
      World.Accounts K l.world.storage tree ∧ l.commitOn K fuel t ops e = .ok (w, p, root) ∧
      CommitResult K fuel l t (l.txnOn K fuel t ops) e tree w p root tree' := by
  obtain ⟨tree, hshow, hacc⟩ := h.parent ht
  obtain ⟨hops, hkept⟩ := hassumed t ht
  obtain ⟨hepoch, hcached⟩ := hfit t ht
  have hlen := (l.txnOn K fuel t ops).length_commit_le (S := l.world.readSnapshot K fuel t) (e := e)
  have hfits := fits_txnOn (e := e) hK hf hshow hacc hops
  obtain ⟨w, p, root, tree', hcommit, hsound, hext, hhas, hacc', hcode, hframe, hwritten⟩ :=
    World.commit_spec hK hf h.world hshow hacc (by omega) (hcached.mono hlen)
      (fun obj hobj ↦ by
        obtain ⟨k, a, ha, rfl⟩ := mem_commit.mp hobj
        exact hfits.live k a ha) hkept
  refine ⟨tree, w, p, root, tree', hshow, hacc, hcommit, hsound, hext, hhas, hacc', hcode,
    fun addr hapart hnone ↦ hframe _ fun obj hobj hk ↦ ?_, fun addr o hapart ho ↦ ?_⟩
  · obtain ⟨hmem, -⟩ := hapart.object hobj hk
    exact lookup_eq_none.mp hnone hmem
  · refine hwritten (o.object addr) (mem_commit.mpr ⟨addr, o, ho, rfl⟩) fun obj hobj hk ↦ ?_
    obtain ⟨-, o', ho', rfl⟩ := hapart.object hobj hk
    rw [some.inj (ho'.symm.trans ho)]

namespace CommitResult

variable {txn : State.Txn} {tree' : Tree} {w : World} {p : ℕ} {fresh : Trie} {addr : Address}

theorem getCode (h : CommitResult K fuel l t txn e tree w p root tree') {hash : Hash} {code : Bytes}
    (hc : (hash, code) ∈ w.code) : w.restart.getCode hash = code := by
  rw [World.getCode, World.restart, h.code _ hc, getD_some]

theorem getCode_kept (h : CommitResult K fuel l t txn e tree w p root tree') {hash : Hash}
    (hne : l.world.getCode hash ≠ []) : w.restart.getCode hash = l.world.getCode hash := by
  cases hl : l.world.code.lookup hash with
  | none => exact absurd (by rw [World.getCode, hl, getD_none]) hne
  | some code =>
    obtain ⟨l₁, l₂, heq, -⟩ := lookup_eq_some_iff.mp hl
    have hmem : (hash, code) ∈ l.world.code := by
      rw [heq]
      exact mem_append_right _ mem_cons_self
    rw [h.getCode (h.extend.code.subset hmem), World.getCode, hl, getD_some]

section

variable (h : CommitResult K fuel l t txn e tree w p root tree') (hK : K.Faithful) (hf : 134 ≤ fuel)
include h hK hf

theorem getStorage_kept (hsound : l.world.Sound K) {r : Hash} {st : Tree}
    (hr : Rooted K l.world.storage r st) (key : Hash) :
    w.restart.getStorage K fuel r key = l.world.getStorage K fuel r key := by
  rw [World.getStorage_spec hK hf hsound hr,
    World.getStorage_spec hK hf h.sound.restart (hr.mono h.extend.storage)]

theorem sameReads_untouched (hsound : l.world.Sound K)
    (hshow : t.Shows K l.world.storage tree) (hacc : World.Accounts K l.world.storage tree)
    (hfresh : fresh.Shows K w.storage tree') (hapart : KeysApart K txn addr)
    (hnone : txn.tree.objects.lookup addr = none) :
    SameReads K (l.world.readSnapshot K fuel t) (w.restart.readSnapshot K fuel fresh)
      (txn.cleanDeleteObjects (l.world.readSnapshot K fuel t) e) addr := by
  have hm := h.frame addr hapart hnone
  have hread : (txn.cleanDeleteObjects (l.world.readSnapshot K fuel t) e).getStateObject
      (l.world.readSnapshot K fuel t) addr =
      (l.world.getAccount K fuel t addr).map fun account ↦
        ⟨account, [], false, false, false, none⟩ := by
    obtain ⟨d, hd⟩ := txn.lookup_cleanDeleteObjects (l.world.readSnapshot K fuel t) e addr
    rw [getStateObject, State.Tree.getStateObject, hd, hnone]
    rfl
  cases ha : l.world.getAccount K fuel t addr with
  | none =>
    rw [ha] at hread
    refine sameReads_of_absent hread (World.getAccount_of_none hK hf hfresh (hm.trans ?_))
    cases hv : treeMap tree (K.keccak256 addr.bytes).bytes with
    | none => rfl
    | some v =>
      obtain ⟨a, st, rfl, hn, -⟩ := hacc _ _ hv
      rw [World.getAccount_of_some hK hf hshow hv hn] at ha
      cases ha
  | some a =>
    rw [ha] at hread
    obtain ⟨hn, ⟨st, hr⟩, hv⟩ := hacc.getAccount hK hf hshow ha
    exact sameReads_of_account hread
      (World.getAccount_of_some hK hf hfresh (hm.trans hv) hn) rfl rfl rfl
      (fun hd ↦ by cases hd) h.getCode_kept fun key _ ↦ h.getStorage_kept hK hf hsound hr key

theorem getAccount_deleted (hfresh : fresh.Shows K w.storage tree')
    (hapart : KeysApart K txn addr) {o : State.StateObject}
    (ho : (txn.cleanDeleteObjects (l.world.readSnapshot K fuel t) e).tree.objects.lookup addr =
      some o) (hd : o.deleted = true) : w.restart.getAccount K fuel fresh addr = none := by
  have hw := (h.written addr o hapart ho).1
  rw [World.Written, if_pos (show (o.object addr).deleted = true from hd)] at hw
  exact World.getAccount_of_none hK hf hfresh hw

theorem sameReads_written (hsound : l.world.Sound K)
    (hfits : (txn.cleanDeleteObjects (l.world.readSnapshot K fuel t) e).Fits
      fun root ↦ ∃ st, Rooted K l.world.storage root st)
    (hfresh : fresh.Shows K w.storage tree') (hapart : KeysApart K txn addr)
    {o : State.StateObject}
    (ho : (txn.cleanDeleteObjects (l.world.readSnapshot K fuel t) e).tree.objects.lookup addr =
      some o) (hd : ¬ o.deleted = true) :
    SameReads K (l.world.readSnapshot K fuel t) (w.restart.readSnapshot K fuel fresh)
      (txn.cleanDeleteObjects (l.world.readSnapshot K fuel t) e) addr := by
  have hread : (txn.cleanDeleteObjects (l.world.readSnapshot K fuel t) e).getStateObject
      (l.world.readSnapshot K fuel t) addr = some o := by
    rw [getStateObject, State.Tree.getStateObject, ho]
    exact if_neg hd
  obtain ⟨hw, hcode⟩ := h.written addr o hapart ho
  rw [World.Written, if_neg (show ¬ (o.object addr).deleted = true from hd)] at hw
  obtain ⟨st, st', root', hr, hr', hm, hv⟩ := hw
  obtain ⟨hn, st₀, hr₀⟩ := hfits.live addr o ho
  obtain rfl := hr.unique hK h.sound.faithful (hr₀.mono h.extend.storage)
  have hstorage : (o.object addr).storage = o.storageObjects := if_neg hd
  rw [hstorage] at hm
  refine sameReads_of_account hread (World.getAccount_of_some hK hf hfresh hv hn) rfl rfl
    (ofBytes_bytes _)
    (fun hdirty ↦ h.getCode (hcode (Bool.eq_false_iff.mpr hd) hdirty)) h.getCode_kept
    fun key hslots ↦ ?_
  have hold := World.getStorage_spec hK hf hsound hr₀ key
  have hnew := World.getStorage_spec hK hf h.sound.restart hr' key
  rw [hm, slotValue_contents hK hslots, ← hold] at hnew
  exact hnew

end

end CommitResult

theorem Sound.commitFaithful (hK : K.Faithful) (hf : 134 ≤ fuel) (h : l.Sound K)
    (hassumed : l.Assumed K fuel (.commit i ops e)) (hfit : l.EpochsFit K fuel (.commit i ops e)) :
    l.CommitFaithful K fuel i ops e := by
  intro t ht
  obtain ⟨tree, w, p, root, tree', hshow, hacc, hcommit, hres⟩ := h.commitOn hK hf ht hassumed hfit
  obtain ⟨fresh, hfresh, -, hshow'⟩ := newTrieAt_spec hK hres.sound.faithful hres.has.rooted
  have hfits := fits_txnOn (e := e) hK hf hshow hacc (hassumed t ht).1
  refine ⟨w, p, root, fresh, hcommit, hfresh, fun addr hapart ↦ ⟨?_, fun o ho hrem ↦ ?_⟩⟩
  · obtain ⟨d, hd⟩ := (l.txnOn K fuel t ops).lookup_cleanDeleteObjects
      (l.world.readSnapshot K fuel t) e addr
    cases ho : (l.txnOn K fuel t ops).tree.objects.lookup addr with
    | none => exact hres.sameReads_untouched hK hf h.world hshow hacc hshow' hapart ho
    | some o =>
      rw [ho] at hd
      by_cases hdel : (o.deleted || d) = true
      · refine sameReads_of_absent ?_ (hres.getAccount_deleted hK hf hshow' hapart hd hdel)
        rw [getStateObject, State.Tree.getStateObject, hd]
        exact if_pos hdel
      · exact hres.sameReads_written hK hf h.world hfits hshow' hapart hd hdel
  · have hdel := deleted_of_removed ho hrem
    rw [exist, getStateObject_newTxn]
    dsimp only [World.readSnapshot]
    rw [hres.getAccount_deleted hK hf hshow' hapart hdel rfl]
    rfl

section Step

variable {w : World} {p : ℕ}

theorem sound_emptyLedger : emptyLedger.Sound K where
  world := ⟨⟨fun _ hp ↦ absurd hp not_mem_nil, rfl⟩,
    fun root p hp ↦ by simp [emptyLedger, emptyWorld] at hp⟩
  taken := by simp [emptyLedger]

theorem Sound.take (h : l.Sound K) (hw : w.Sound K) (hext : l.world.Extends w)
    (hhas : w.Has K p root tree) (hacc : World.Accounts K w.storage tree) :
    Sound K ⟨w, l.snapshots ++ [(p, root)]⟩ := by
  refine ⟨hw, fun s hs ↦ ?_⟩
  rcases mem_append.mp hs with hs | hs
  · obtain ⟨tree', hhas', hacc'⟩ := h.taken s hs
    exact ⟨tree', hhas'.extend hext, hacc'.mono hext.storage⟩
  · obtain rfl := mem_singleton.mp hs
    exact ⟨tree, hhas, hacc⟩

theorem Sound.open (h : l.Sound K) (hshow : t.Shows K l.world.storage tree)
    (hr : Rooted K l.world.storage root tree) (hacc : World.Accounts K l.world.storage tree) :
    Sound K ⟨{ l.world with tries := l.world.tries ++ [t] },
      l.snapshots ++ [(l.world.tries.length, root)]⟩ := by
  have hext : l.world.Extends { l.world with tries := l.world.tries ++ [t] } :=
    ⟨fun _ _ h ↦ h, prefix_append _ _, suffix_refl _⟩
  refine h.take ⟨h.world.faithful, fun root' p' hp' ↦ ?_⟩ hext
    ⟨⟨t, getElem?_concat_length, hshow⟩, hr⟩ hacc
  obtain ⟨tree', htree'⟩ := h.world.cached root' p' hp'
  exact ⟨tree', htree'.extend hext⟩

theorem has_read (hK : K.Faithful) (hf : 134 ≤ fuel) {key : Hash} {txn : Txn} {res : Option Bytes}
    {p' : ℕ} (ht : w.tries[p]? = some t)
    (hread : t.txn.lookup K w.storage fuel key.bytes = .ok (txn, res)) (h : w.Has K p' root tree) :
    World.Has K { w with tries := w.tries.set p { t with root := txn.root } } p' root tree := by
  obtain ⟨t', ht', hshow⟩ := h.trie
  refine ⟨?_, h.rooted⟩
  by_cases hp : p = p'
  · subst hp
    obtain rfl : t = t' := some.inj (ht.symm.trans ht')
    obtain ⟨txn', hl, hshow'⟩ := hshow.lookup hK hf key.length_eq
    obtain rfl : txn = txn' := (Prod.mk.inj (Outcome.ok.inj (hread.symm.trans hl))).1
    exact ⟨_, List.getElem?_set_self (List.getElem?_eq_some_iff.mp ht).1, hshow'⟩
  · exact ⟨t', (List.getElem?_set_ne hp).trans ht', hshow⟩

theorem Sound.read (hK : K.Faithful) (hf : 134 ≤ fuel) (h : l.Sound K) (p : ℕ) (key : Hash) :
    (l.step K fuel (.read p key)).Sound K := by
  simp only [step]
  cases ht : l.world.tries[p]? with
  | none => exact h
  | some t =>
    dsimp only
    split
    · rename_i txn res hread
      refine ⟨⟨h.world.faithful, fun root p' hp' ↦ ?_⟩, fun s hs ↦ ?_⟩
      · obtain ⟨tree, htree⟩ := h.world.cached root p' hp'
        exact ⟨tree, has_read hK hf ht hread htree⟩
      · obtain ⟨tree, htree, hacc⟩ := h.taken s hs
        exact ⟨tree, has_read hK hf ht hread htree, hacc⟩
    · exact h

theorem Sound.newSnapshotAt (hK : K.Faithful) (h : l.Sound K) (i : ℕ) :
    (l.step K fuel (.newSnapshotAt i)).Sound K := by
  simp only [step]
  cases hs : l.snapshots[i]? with
  | none => exact h
  | some s =>
    obtain ⟨p, root⟩ := s
    obtain ⟨tree, hhas, hacc⟩ := h.taken _ (mem_of_getElem? hs)
    dsimp only
    split
    · rename_i p' hp'
      have hc : l.world.cache.lookup root = some p' := by
        split at hp'
        · cases hp'
        · exact hp'
      obtain ⟨tree', hhas'⟩ := h.world.cached root p' hc
      obtain rfl := hhas.rooted.unique hK h.world.faithful hhas'.rooted
      exact h.take h.world (World.Extends.refl _) hhas' hacc
    · obtain ⟨t, ht, -, hshow⟩ := newTrieAt_spec hK h.world.faithful hhas.rooted
      rw [ht]
      exact h.open hshow hhas.rooted hacc

theorem Sound.evict (h : l.Sound K) (root : Hash) : (l.step K fuel (.evict root)).Sound K := by
  refine ⟨⟨h.world.faithful, fun root' p hp ↦ ?_⟩, fun s hs ↦ ?_⟩
  · have hp' : l.world.cache.lookup root' = some p := by
      by_cases hr : root' = root
      · subst hr
        simp [step, lookup_erase] at hp
      · rwa [step, lookup_erase_ne hr] at hp
    obtain ⟨tree, htrie, hrooted⟩ := h.world.cached root' p hp'
    exact ⟨tree, htrie, hrooted⟩
  · obtain ⟨tree, ⟨htrie, hrooted⟩, hacc⟩ := h.taken s hs
    exact ⟨tree, ⟨htrie, hrooted⟩, hacc⟩

/-- Nothing is taken out of the storage and no snapshot is given up. -/
def Grows (l l' : Ledger) : Prop :=
  l.world.storage.Le l'.world.storage ∧ l.snapshots <+: l'.snapshots

theorem Sound.grows (hK : K.Faithful) (hf : 134 ≤ fuel) (h : l.Sound K) {op : LedgerOp}
    (hassumed : l.Assumed K fuel op) (hfit : l.EpochsFit K fuel op) :
    (l.step K fuel op).Sound K ∧ l.Grows (l.step K fuel op) := by
  have hrefl : l.world.storage.Le l.world.storage := fun _ _ hk ↦ hk
  cases op with
  | newSnapshot =>
    exact ⟨h.open shows_newTrie rooted_nil fun key v hv ↦ (by cases hv), hrefl, prefix_append _ _⟩
  | newSnapshotAt i =>
    refine ⟨h.newSnapshotAt hK i, ?_⟩
    simp only [Ledger.step]
    repeat' split
    all_goals exact ⟨hrefl, by simp⟩
  | read p key =>
    refine ⟨h.read hK hf p key, ?_⟩
    simp only [Ledger.step]
    repeat' split
    all_goals exact ⟨hrefl, prefix_rfl⟩
  | evict root => exact ⟨h.evict root, hrefl, prefix_rfl⟩
  | commit i ops e =>
    simp only [Ledger.step]
    cases ht : l.parent i with
    | none => exact ⟨h, hrefl, prefix_rfl⟩
    | some t =>
      obtain ⟨tree, w, p, root, tree', -, -, hcommit, hres⟩ := h.commitOn hK hf ht hassumed hfit
      dsimp only
      rw [hcommit]
      exact ⟨h.take hres.sound hres.extend hres.has hres.accounts, hres.extend.storage,
        prefix_append _ _⟩

theorem Sound.step (hK : K.Faithful) (hf : 134 ≤ fuel) (h : l.Sound K) {op : LedgerOp}
    (hassumed : l.Assumed K fuel op) (hfit : l.EpochsFit K fuel op) :
    (l.step K fuel op).Sound K := (h.grows hK hf hassumed hfit).1

theorem Sound.exists_newSnapshotAt (hK : K.Faithful) (h : l.Sound K)
    (hs : l.snapshots[i]? = some (p, root)) :
    ∃ p', (l.step K fuel (.newSnapshotAt i)).snapshots = l.snapshots ++ [(p', root)] := by
  obtain ⟨tree, hhas, -⟩ := h.taken _ (mem_of_getElem? hs)
  obtain ⟨t, ht, -⟩ := newTrieAt_spec hK h.world.faithful hhas.rooted
  simp only [Ledger.step, hs, ht]
  split
  · exact ⟨_, rfl⟩
  · exact ⟨_, rfl⟩

end Step

/-- A root names one state, which stays: whatever is committed, read or evicted after a snapshot was
taken, one can be opened at its root, and all that have the root have its accounts and slots. -/
theorem root_names_state (hK : K.Faithful) (hf : 134 ≤ fuel) (run run' : List LedgerOp)
    (hrun : Run.Admits (step K fuel)
      (fun l op ↦ l.Assumed K fuel op ∧ l.EpochsFit K fuel op) emptyLedger (run ++ run'))
    {p : ℕ} (hi : (Run.exec (step K fuel) emptyLedger run).snapshots[i]? = some (p, root)) :
    let l := Run.exec (step K fuel) emptyLedger run
    let l' := Run.exec (step K fuel) emptyLedger (run ++ run')
    (∃ p', (l'.step K fuel (.newSnapshotAt i)).snapshots = l'.snapshots ++ [(p', root)]) ∧
      ∀ j p', l'.snapshots[j]? = some (p', root) →
        ∃ t t', l.parent i = some t ∧ l'.parent j = some t' ∧
          World.SameState K fuel l.world l'.world t t' := by
  intro l l'
  obtain ⟨hfirst, hrest⟩ := Run.admits_append.mp hrun
  have hl : l.Sound K := hfirst.invariant sound_emptyLedger
    fun _ _ hl hop ↦ hl.step hK hf hop.1 hop.2
  have hl' : l'.Sound K ∧ l.Grows l' := by
    rw [show l' = _ from Run.exec_append ..]
    refine hrest.invariant (I := fun m ↦ m.Sound K ∧ l.Grows m)
      ⟨hl, fun _ _ hk ↦ hk, prefix_rfl⟩ fun m op ⟨hm, hle, hpre⟩ hop ↦ ?_
    obtain ⟨hm', hle', hpre'⟩ := hm.grows hK hf hop.1 hop.2
    exact ⟨hm', fun k v hk ↦ hle' k v (hle k v hk), hpre.trans hpre'⟩
  obtain ⟨hsound', hle, rest, heq⟩ := hl'
  have hi' : l'.snapshots[i]? = some (p, root) := by
    rw [← heq, List.getElem?_append_left (List.getElem?_eq_some_iff.mp hi).1, hi]
  refine ⟨hsound'.exists_newSnapshotAt hK hi', fun j p' hj ↦ ?_⟩
  obtain ⟨tree, ⟨⟨t, ht, hshow⟩, hrooted⟩, hacc⟩ := hl.taken _ (mem_of_getElem? hi)
  obtain ⟨tree', ⟨⟨t', ht', hshow'⟩, hrooted'⟩, -⟩ := hsound'.taken _ (mem_of_getElem? hj)
  obtain rfl := hrooted'.unique hK hsound'.world.faithful (hrooted.mono hle)
  exact ⟨t, t', bind_eq_some_iff.mpr ⟨_, hi, ht⟩, bind_eq_some_iff.mpr ⟨_, hj, ht'⟩,
    World.sameState_of_le hK hf hl.world hsound'.world hle hshow hshow' hacc⟩

/-- After every run in which no epoch wraps around, a commit whose epochs do not wrap around either
can be read back from the storage. -/
theorem commitFaithful_of_epochsFit (hK : K.Faithful) (hf : 134 ≤ fuel) {run : List LedgerOp}
    (hrun : Run.Admits (step K fuel)
      (fun l op ↦ l.Assumed K fuel op ∧ l.EpochsFit K fuel op) emptyLedger run)
    (hassumed : (Run.exec (step K fuel) emptyLedger run).Assumed K fuel (.commit i ops e))
    (hfit : (Run.exec (step K fuel) emptyLedger run).EpochsFit K fuel (.commit i ops e)) :
    (Run.exec (step K fuel) emptyLedger run).CommitFaithful K fuel i ops e :=
  (hrun.invariant sound_emptyLedger fun _ _ hl hop ↦ hl.step hK hf hop.1 hop.2).commitFaithful
    hK hf hassumed hfit

section Genesis

def genesisAddress (b : UInt8) : Address := bytesToAddress (replicate 20 b)

def genesisDigest (b : Bytes) : Hash :=
  bytesToHash (BigEndian.toBytes (
    match b.length with
    -- the empty code, the code and the slot that are set
    | 0 => 0xc5d2460186f7233c927e7db2dcc703c0e500b653ca82273b7bfad8045d85a470
    | 1 => 0xbc36789e7a1e281436464229828f817d6612f7b477d66591ff96a9e064bcc98a
    | 32 => 0xb10e2d527612073b26eecdfd717e6a320cf44b4afac2b0732d9fcbe2b7fa0cf6
    | 20 =>
      if b = (genesisAddress 10).bytes then
        0x74cea37733c92164c75b5f6b77f367feb0e5e550dfe0f5b36e7e5d260399e312
      else if b = (genesisAddress 11).bytes then
        0x323ca94920d7e77c294c659f8b56b5229981195b48b3570e31f6d421b7bb7350
      else 0x613e5598966505e3761137685dc386cb60186073ee59ac47aaa6ff185e57ecd4
    -- the leaf of the slot, those of the accounts, and the root above them
    | 36 => 0x507dc864c12c35fa19f6a8c824601ce2f1bedd1fdf454c2df2f2a7ce411a6d6f
    | 107 => 0x179d1085dfb5954611d74122388420e1158ff61497683a5d6782c69418512f88
    | 109 => 0xb1d523b4c23659a72b6c0565fe20c8de6cb38006479fcbf2c835431c6a3adfd3
    | _ => 0x68ab3310c086608e0ca0699957bb81768101daebc9d2c1c3ab3ad1e316c67c66))

noncomputable def genesisKeccak : Keccak := { rlpCodec with keccak256 := genesisDigest }

theorem genesisKeccak_faithful : genesisKeccak.Faithful := rlpCodec_faithful

def genesisOps : List State.TxnOp :=
  [.addBalance (genesisAddress 10) 1, .setCode (genesisAddress 10) [0],
    .setState (genesisAddress 10) (bytesToHash [1]) (bytesToHash [5]),
    .addBalance (genesisAddress 11) 1000, .addBalance (genesisAddress 12) 7,
    .suicide (genesisAddress 12)]

noncomputable def genesisLedger : Ledger :=
  Run.exec (step genesisKeccak 134) emptyLedger [.newSnapshot]

theorem assumed_genesis : genesisLedger.Assumed genesisKeccak 134 (.commit 0 genesisOps true) := by
  intro t ht
  obtain rfl : newTrie = t := some.inj ht
  refine ⟨by decide +kernel, by decide +kernel⟩

theorem epochsFit_genesis :
    genesisLedger.EpochsFit genesisKeccak 134 (.commit 0 genesisOps true) := by
  intro t ht
  obtain rfl : newTrie = t := some.inj ht
  refine ⟨by decide +kernel, fun root p t hp ↦ ?_⟩
  cases hp

theorem admits_genesis : Run.Admits (step genesisKeccak 134)
    (fun l op ↦ l.Assumed genesisKeccak 134 op ∧ l.EpochsFit genesisKeccak 134 op) emptyLedger
    [.newSnapshot] :=
  ⟨⟨trivial, trivial⟩, trivial⟩

theorem commitFaithful_of_epochsFit_genesis :
    genesisLedger.CommitFaithful genesisKeccak 134 0 genesisOps true :=
  commitFaithful_of_epochsFit genesisKeccak_faithful le_rfl admits_genesis assumed_genesis
    epochsFit_genesis

noncomputable def firstBlock : Ledger :=
  genesisLedger.step genesisKeccak 134 (.commit 0 genesisOps true)

def firstRoot : Hash :=
  bytesToHash (BigEndian.toBytes 0x68ab3310c086608e0ca0699957bb81768101daebc9d2c1c3ab3ad1e316c67c66)

def contract : Address := genesisAddress 10

noncomputable def contractKey : Bytes := (genesisKeccak.keccak256 contract.bytes).bytes

def contractAccount : State.Account :=
  ⟨0, 1, genesisDigest (replicate 36 0), (genesisDigest [0]).bytes⟩

theorem firstBlock_snapshots : firstBlock.snapshots = [(0, emptyRoot), (2, firstRoot)] := by
  decide +kernel

theorem firstBlock_get :
    (firstBlock.world.tries[2]?.bind fun t ↦
      t.get genesisKeccak 134 firstBlock.world.storage contractKey) =
      some (genesisKeccak.marshal contractAccount.marshalWith) := by
  decide +kernel

/-- The first block is opened again from the storage. -/
theorem root_names_state_reopened :
    let l := Run.exec (step genesisKeccak 134) emptyLedger
      ([.newSnapshot, .commit 0 genesisOps true] ++ [.evict firstRoot, .newSnapshotAt 1])
    ∃ t, l.parent 2 = some t ∧
      l.world.getAccount genesisKeccak 134 t contract = some contractAccount := by
  -- the run of the first block is not to be computed
  obtain ⟨run, hr⟩ : ∃ run : List LedgerOp, [.newSnapshot, .commit 0 genesisOps true] = run :=
    ⟨_, rfl⟩
  have hblock : Run.exec (step genesisKeccak 134) emptyLedger run = firstBlock := by
    simp only [← hr, firstBlock, genesisLedger, Run.exec, foldl_cons, foldl_nil]
  have hi : firstBlock.snapshots[1]? = some (2, firstRoot) := by rw [firstBlock_snapshots]; rfl
  have hnames := fun run' hrest ↦ root_names_state genesisKeccak_faithful (le_refl 134) run run'
    (Run.admits_append.mpr
      ⟨hr ▸ ⟨⟨trivial, trivial⟩, ⟨assumed_genesis, epochsFit_genesis⟩, trivial⟩, hrest⟩)
    (hblock ▸ hi)
  rw [hr]
  simp only [Run.exec_append, hblock] at hnames ⊢
  obtain ⟨⟨p', hopen⟩, -⟩ := hnames [.evict firstRoot] ⟨⟨trivial, trivial⟩, trivial⟩
  obtain ⟨t, t', ht, ht', hsame⟩ := (hnames [.evict firstRoot, .newSnapshotAt 1]
    ⟨⟨trivial, trivial⟩, ⟨trivial, trivial⟩, trivial⟩).2 2 p' (by
      simp only [Run.exec, foldl_cons, foldl_nil] at hopen ⊢
      rw [hopen, step, firstBlock_snapshots]
      rfl)
  refine ⟨t', ht', (hsame contract).1.trans ?_⟩
  have hget := firstBlock_get
  rw [show firstBlock.world.tries[2]? = some t by simpa [parent, hi] using ht, bind_some] at hget
  exact World.getAccount_of_get genesisKeccak_faithful (by decide) hget

end Genesis

end Ledger

end Mainnet.Itrie
