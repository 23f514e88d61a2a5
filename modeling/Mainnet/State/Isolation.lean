import Mainnet.State.Pointers
import Mainnet.State.StorageRefund

namespace Mainnet.State.Pointers

open Types Mainnet.Runtime Lib Store List Option Nat Window Heap Txn Retains

/-- The object that a pointer stands for. The sign of a balance is lost in every copy. -/
def Heap.object (h : Heap) (r : Ref) : StateObject where
  account := ⟨(h.account r).nonce, (h.balance r).natAbs, (h.account r).root, (h.account r).codeHash⟩
  code := (h.objects.get r).code
  suicide := (h.objects.get r).suicide
  deleted := (h.objects.get r).deleted
  dirtyCode := (h.objects.get r).dirtyCode
  txn := (h.objects.get r).txn.map h.txns.get

theorem Heap.copyObject_eq (h : Heap) (r : Ref) : h.copyObject r = h.putObject (h.object r) := by
  unfold copyObject copyAccount putObject object balance account
  generalize h.objects.get r = o
  obtain ⟨a, code, suicide, deleted, dirtyCode, slots⟩ := o
  cases slots with
  | none | some t => rfl

structure Heap.Valid (h : Heap) (r : Ref) : Prop where
  object : r < h.objects.next
  account : (h.objects.get r).account < h.accounts.next
  balance : (h.account r).balance < h.ints.next
  txn : ∀ t ∈ (h.objects.get r).txn, t < h.txns.next

structure Heap.Grows (h h' : Heap) : Prop where
  objects : Retains h.objects h'.objects
  accounts : Retains h.accounts h'.accounts
  ints : Retains h.ints h'.ints
  txns : Retains h.txns h'.txns
  arrays : h'.arrays = h.arrays

structure Heap.New (h₀ h : Heap) (r : Ref) : Prop where
  valid : h.Valid r
  object : h₀.objects.next ≤ r
  account : h₀.accounts.next ≤ (h.objects.get r).account
  balance : h₀.ints.next ≤ (h.account r).balance
  txn : ∀ t ∈ (h.objects.get r).txn, h₀.txns.next ≤ t

namespace Heap

variable {h₀ h h' : Heap} {r : Ref}

theorem Grows.refl (h : Heap) : Grows h h := ⟨.refl _, .refl _, .refl _, .refl _, rfl⟩

theorem Grows.trans (hg : Grows h₀ h) (hg' : Grows h h') : Grows h₀ h' where
  objects := hg.objects.trans hg'.objects
  accounts := hg.accounts.trans hg'.accounts
  ints := hg.ints.trans hg'.ints
  txns := hg.txns.trans hg'.txns
  arrays := hg'.arrays.trans hg.arrays

theorem Grows.account (hg : Grows h h') (hv : h.Valid r) : h'.account r = h.account r := by
  unfold Heap.account
  rw [hg.objects.get r hv.object, hg.accounts.get _ hv.account]

theorem Grows.valid (hg : Grows h h') (hv : h.Valid r) : h'.Valid r := by
  have hobject := hg.objects.get r hv.object
  constructor
  · exact hv.object.trans_le hg.objects.le
  · rw [hobject]
    exact hv.account.trans_le hg.accounts.le
  · rw [hg.account hv]
    exact hv.balance.trans_le hg.ints.le
  · rw [hobject]
    intro t ht
    exact (hv.txn t ht).trans_le hg.txns.le

theorem Grows.object (hg : Grows h h') (hv : h.Valid r) : h'.object r = h.object r := by
  have hobject := hg.objects.get r hv.object
  have hbalance : h'.balance r = h.balance r := by
    rw [balance, hg.account hv, hg.ints.get _ hv.balance]
    rfl
  have htxn : (h.objects.get r).txn.map h'.txns.get = (h.objects.get r).txn.map h.txns.get := by
    apply Option.map_congr
    intro t ht
    exact hg.txns.get t (hv.txn t ht)
  unfold Heap.object
  rw [hg.account hv, hbalance, hobject, htxn]

theorem New.grows (hnew : New h₀ h r) (hg : Grows h h') : New h₀ h' r := by
  have hobject := hg.objects.get r hnew.valid.object
  refine ⟨hg.valid hnew.valid, hnew.object, ?_, ?_, ?_⟩
  · rw [hobject]
    exact hnew.account
  · rw [hg.account hnew.valid]
    exact hnew.balance
  · rw [hobject]
    exact hnew.txn

theorem new_iff : New h₀ h r ↔ r ∈ Set.Ico h₀.objects.next h.objects.next ∧
    (h.objects.get r).account ∈ Set.Ico h₀.accounts.next h.accounts.next ∧
    (h.account r).balance ∈ Set.Ico h₀.ints.next h.ints.next ∧
    ∀ t ∈ (h.objects.get r).txn, t ∈ Set.Ico h₀.txns.next h.txns.next := by
  constructor
  · rintro ⟨⟨hr, ha, hb, ht⟩, hr', ha', hb', ht'⟩
    exact ⟨⟨hr', hr⟩, ⟨ha', ha⟩, ⟨hb', hb⟩, fun t h ↦ ⟨ht' t h, ht t h⟩⟩
  · rintro ⟨⟨hr', hr⟩, ⟨ha', ha⟩, ⟨hb', hb⟩, ht⟩
    exact ⟨⟨hr, ha, hb, fun t h ↦ (ht t h).2⟩, hr', ha', hb', fun t h ↦ (ht t h).1⟩

section

variable (h : Heap) (o : StateObject)

@[simp] theorem objects_putObject : (h.putObject o).objects.get h.objects.next =
    ⟨h.accounts.next, o.code, o.suicide, o.deleted, o.dirtyCode, o.txn.map fun _ ↦ h.txns.next⟩ :=
  alloc_get_next ..

@[simp] theorem account_putObject : (h.putObject o).account h.objects.next =
    ⟨o.account.nonce, h.ints.next, o.account.root, o.account.codeHash⟩ := by
  rw [account, objects_putObject]
  exact alloc_get_next ..

@[simp] theorem balance_putObject : (h.putObject o).balance h.objects.next = o.account.balance := by
  rw [balance, account_putObject]
  exact alloc_get_next ..

theorem txn_putObject (key : Hash) :
    (((h.putObject o).objects.get h.objects.next).txn.bind fun t ↦
      ((h.putObject o).txns.get t).lookup key) = o.txn.bind fun slots ↦ slots.lookup key := by
  rw [objects_putObject]
  cases hslots : o.txn with
  | none => rfl
  | some slots => simp [putObject, hslots]

end

theorem grows_putObject (h : Heap) (o : StateObject) : Grows h (h.putObject o) := by
  refine ⟨(refl _).alloc _, (refl _).alloc _, (refl _).alloc _, ?_, rfl⟩
  cases hslots : o.txn with
  | none => simpa [putObject, hslots] using refl h.txns
  | some s => simpa [putObject, hslots] using (refl h.txns).alloc s

theorem new_putObject (h : Heap) (o : StateObject) : New h (h.putObject o) h.objects.next := by
  rw [new_iff, objects_putObject, account_putObject]
  refine ⟨⟨le_rfl, lt_succ_self _⟩, ⟨le_rfl, lt_succ_self _⟩, ⟨le_rfl, lt_succ_self _⟩, ?_⟩
  intro t ht
  obtain ⟨s, hs, rfl⟩ := mem_map.mp ht
  rw [putObject, mem_def.mp hs]
  exact ⟨le_rfl, lt_succ_self _⟩

def Tame (f : Ref → Heap → Heap) : Prop :=
  ∀ h₀ h r, Grows h₀ h → New h₀ h r → Grows h₀ (f r h) ∧ New h₀ (f r h) r

variable {f g : Ref → Heap → Heap} {t : Ref}

theorem Tame.comp (hg : Tame g) (hf : Tame f) : Tame fun r h ↦ g r (f r h) := by
  intro h₀ h r hgrows hnew
  obtain ⟨hgrows, hnew⟩ := hf h₀ h r hgrows hnew
  exact hg h₀ (f r h) r hgrows hnew

theorem Tame.ite {p : Ref → Heap → Bool} (hf : Tame f) (hg : Tame g) :
    Tame fun r h ↦ if p r h then f r h else g r h := by
  intro h₀ h r hgrows hnew
  dsimp only
  split_ifs
  · exact hf h₀ h r hgrows hnew
  · exact hg h₀ h r hgrows hnew

theorem tame_modifyObject {g : ObjectCell → ObjectCell}
    (hg : ∀ o, (g o).account = o.account ∧ (g o).txn = o.txn) :
    Tame fun r h ↦ h.modifyObject r g := by
  intro h₀ h r hgrows hnew
  have hcell : (h.modifyObject r g).objects.get r = g (h.objects.get r) := set_get_self ..
  obtain ⟨haccount, htxn⟩ := hg (h.objects.get r)
  have haccount' : (h.modifyObject r g).account r = h.account r := by
    unfold account
    rw [hcell, haccount]
    rfl
  refine ⟨{ hgrows with objects := hgrows.objects.set hnew.object _ }, new_iff.mpr ?_⟩
  rw [haccount', hcell, haccount, htxn]
  exact new_iff.mp hnew

theorem tame_modifyAccount {g : AccountCell → AccountCell} (hg : ∀ a, (g a).balance = a.balance) :
    Tame fun r h ↦ h.modifyAccount r g := by
  intro h₀ h r hgrows hnew
  have haccount : ((h.modifyAccount r g).account r).balance = (h.account r).balance := by
    have hcell : (h.modifyAccount r g).account r = g (h.account r) := set_get_self ..
    rw [hcell, hg]
  refine ⟨{ hgrows with accounts := hgrows.accounts.set hnew.account _ }, new_iff.mpr ?_⟩
  rw [haccount]
  exact new_iff.mp hnew

theorem tame_modifyBalance (g : ℤ → ℤ) : Tame fun r h ↦ h.modifyBalance r g := by
  intro h₀ h r hgrows hnew
  exact ⟨{ hgrows with ints := hgrows.ints.set hnew.balance _ }, new_iff.mpr ((new_iff (h := h)).mp hnew)⟩

theorem tame_newBalance : Tame fun r h ↦
    { h with ints := h.ints.alloc 0 }.modifyAccount r fun a ↦ { a with balance := h.ints.next } := by
  intro h₀ h r hgrows hnew
  have haccount : ((modifyAccount { h with ints := h.ints.alloc 0 } r
      fun a ↦ { a with balance := h.ints.next }).account r).balance = h.ints.next :=
    congrArg AccountCell.balance (set_get_self ..)
  obtain ⟨hr, ha, -, ht⟩ := new_iff.mp hnew
  refine ⟨{ hgrows with ints := hgrows.ints.alloc _, accounts := hgrows.accounts.set ha.1 _ },
    new_iff.mpr ⟨hr, ha, ?_, ht⟩⟩
  rw [haccount]
  exact ⟨hgrows.ints.le, lt_succ_self _⟩

theorem tame_resetObject (S : ReadSnapshot) : Tame fun r h ↦ h.resetObject r S := by
  intro h₀ h r hgrows hnew
  have hcell : (h.resetObject r S).objects.get r = ⟨h.accounts.next, [], false, false, false, none⟩ :=
    set_get_self ..
  have haccount : (h.resetObject r S).account r =
      ⟨0, h.ints.next, emptyStateHash, emptyCodeHash S⟩ := by
    unfold account
    rw [hcell]
    exact alloc_get_next ..
  refine ⟨{ hgrows with
    ints := hgrows.ints.alloc _
    accounts := hgrows.accounts.alloc _
    objects := hgrows.objects.set hnew.object _ }, new_iff.mpr ⟨⟨hnew.object, hnew.valid.object⟩, ?_⟩⟩
  rw [hcell, haccount]
  exact ⟨⟨hgrows.accounts.le, lt_succ_self _⟩, ⟨hgrows.ints.le, lt_succ_self _⟩, by simp⟩

theorem tame_openSlots : Tame fun r h ↦ h.openSlots r := by
  intro h₀ h r hgrows hnew
  dsimp only
  cases htxn : (h.objects.get r).txn with
  | some t =>
    rw [openSlots, htxn]
    exact ⟨hgrows, hnew⟩
  | none =>
    rw [openSlots, htxn]
    set h' := modifyObject { h with txns := h.txns.alloc ∅ } r
      fun o ↦ { o with txn := some h.txns.next }
    change Grows h₀ h' ∧ New h₀ h' r
    have hcell : h'.objects.get r = { h.objects.get r with txn := some h.txns.next } :=
      set_get_self ..
    have haccount : h'.account r = h.account r := by
      unfold account
      rw [hcell]
      rfl
    obtain ⟨hr, ha, hb, -⟩ := new_iff.mp hnew
    refine ⟨{ hgrows with
      txns := hgrows.txns.alloc _
      objects := hgrows.objects.set hr.1 _ }, new_iff.mpr ⟨hr, ?_⟩⟩
    rw [hcell, haccount]
    refine ⟨ha, hb, ?_⟩
    rintro _ ⟨⟩
    exact ⟨hgrows.txns.le, lt_succ_self _⟩

theorem tame_insertSlot (key : Hash) (val : Option Hash) :
    Tame fun r h ↦ h.insertSlot r key val := by
  intro h₀ h r hgrows hnew
  dsimp only
  cases htxn : (h.objects.get r).txn with
  | none =>
    rw [insertSlot, htxn]
    exact ⟨hgrows, hnew⟩
  | some t =>
    rw [insertSlot, htxn]
    exact ⟨{ hgrows with txns := hgrows.txns.set (hnew.txn t htxn) _ },
      new_iff.mpr ((new_iff (h := h)).mp hnew)⟩

end Heap

def Tree.Valid (h : Heap) (t : Tree) : Prop := ∀ addr r, t.objects.lookup addr = some r → h.Valid r

structure Touches (txn txn' : Txn) : Prop where
  grows : txn.heap.Grows txn'.heap
  valid : txn.tree.Valid txn.heap → txn'.tree.Valid txn'.heap
  logs : txn'.tree.logs = txn.tree.logs
  snapshots : txn'.snapshots = txn.snapshots

variable {S : ReadSnapshot} {grow : ℕ → ℕ} {txn txn' txn'' : Txn}

theorem Tree.Valid.grows {h h' : Heap} {t : Tree} (hv : t.Valid h) (hg : h.Grows h') : t.Valid h' :=
  fun addr r hr ↦ hg.valid (hv addr r hr)

namespace Touches

theorem refl (txn : Txn) : Touches txn txn := ⟨.refl _, id, rfl, rfl⟩

theorem trans (h : Touches txn txn') (h' : Touches txn' txn'') : Touches txn txn'' where
  grows := h.grows.trans h'.grows
  valid := h'.valid ∘ h.valid
  logs := h'.logs.trans h.logs
  snapshots := h'.snapshots.trans h.snapshots

theorem same (hg : txn.heap.Grows txn'.heap) (hobjects : txn'.tree.objects = txn.tree.objects)
    (hlogs : txn'.tree.logs = txn.tree.logs) (hsnapshots : txn'.snapshots = txn.snapshots) :
    Touches txn txn' := by
  refine ⟨hg, ?_, hlogs, hsnapshots⟩
  intro hvalid addr r hr
  rw [hobjects] at hr
  exact hg.valid (hvalid addr r hr)

theorem insert {heap : Heap} {r : Ref} (hg : txn.heap.Grows heap) (hv : heap.Valid r)
    (addr : Address) : Touches txn (txn.insert addr r heap) := by
  refine ⟨hg, ?_, rfl, rfl⟩
  intro hvalid b r' hr'
  by_cases hb : b = addr
  · subst hb
    rw [Txn.insert, AList.lookup_insert] at hr'
    cases hr'
    exact hv
  · rw [Txn.insert, AList.lookup_insert_ne hb] at hr'
    exact hg.valid (hvalid b r' hr')

end Touches

def Tree.values (h : Heap) (t : Tree) : State.Tree := ⟨resolve h.object t.objects, t.refund⟩

theorem Tree.Valid.values {h h' : Heap} {t : Tree} (hv : t.Valid h) (hg : h.Grows h') :
    t.values h' = t.values h :=
  congrArg (State.Tree.mk · t.refund) (resolve_congr fun addr r hr ↦ hg.object (hv addr r hr))

theorem Txn.getStateObject_eq (txn : Txn) (addr : Address) : txn.getStateObject S addr =
    ((txn.tree.values txn.heap).getStateObject S addr).elim (none, txn) fun o ↦
      (some txn.heap.objects.next, { txn with heap := txn.heap.putObject o }) := by
  unfold getStateObject State.Tree.getStateObject Tree.values
  rw [lookup_resolve]
  cases txn.tree.objects.lookup addr with
  | some r =>
    change (if (txn.heap.objects.get r).deleted then _ else _) =
      (if (txn.heap.objects.get r).deleted then none else some (txn.heap.object r)).elim _ _
    split_ifs
    · rfl
    · rw [copyObject_eq]
      rfl
  | none => cases S.getAccount addr <;> simp

namespace Touches

theorem putObject (txn : Txn) (o : StateObject) :
    Touches txn { txn with heap := txn.heap.putObject o } :=
  same (txn.heap.grows_putObject o) rfl rfl rfl

theorem getStateObject (txn : Txn) (addr : Address) : Touches txn (txn.getStateObject S addr).2 := by
  rw [txn.getStateObject_eq]
  cases (txn.tree.values txn.heap).getStateObject S addr with
  | none => exact refl txn
  | some o => exact putObject txn o

theorem read {α : Type} (txn : Txn) (addr : Address) (absent : α) (f : Heap → Ref → α) :
    Touches txn (txn.read S addr absent f).2 := by
  have h := getStateObject (S := S) txn addr
  unfold Txn.read
  generalize txn.getStateObject S addr = res at h
  obtain ⟨_ | r, txn'⟩ := res
  · exact h
  · exact h

theorem upsertAccount {f : Ref → Heap → Heap} (hf : Tame f) (txn : Txn) (addr : Address)
    (create : Bool) : Touches txn (txn.upsertAccount S addr create f) := by
  have hput (o : StateObject) : Touches txn (txn.insert addr txn.heap.objects.next
      (f txn.heap.objects.next (txn.heap.putObject o))) := by
    obtain ⟨hgrows, hnew⟩ := hf txn.heap (txn.heap.putObject o) txn.heap.objects.next
      (txn.heap.grows_putObject o) (txn.heap.new_putObject o)
    exact insert hgrows hnew.valid addr
  unfold Txn.upsertAccount
  rw [txn.getStateObject_eq]
  cases (txn.tree.values txn.heap).getStateObject S addr with
  | some o => exact hput o
  | none =>
    split_ifs
    · exact hput _
    · exact refl txn

theorem refund (txn : Txn) (refund : Option ℕ) :
    Touches txn { txn with tree := { txn.tree with refund := refund } } :=
  same (.refl _) rfl rfl rfl

section

variable (addr : Address)

theorem addSealingReward (balance : ℤ) : Touches txn (txn.addSealingReward S addr balance) :=
  upsertAccount (.ite ((tame_modifyBalance _).comp (tame_resetObject S))
    (tame_modifyBalance _)) txn addr true

theorem subBalance (amount : ℤ) : Touches txn (txn.subBalance S addr amount).2 := by
  unfold Txn.subBalance
  split_ifs
  · exact refl txn
  have hread := read (S := S) txn addr 0 balance
  dsimp only
  split_ifs
  · exact hread
  · exact hread.trans (upsertAccount (tame_modifyBalance _) _ addr true)

theorem setState (key value : Hash) : Touches txn (txn.setState S addr key value) :=
  upsertAccount ((tame_insertSlot _ _).comp tame_openSlots) txn addr true

theorem setCode (code : Bytes) : Touches txn (txn.setCode S addr code) :=
  upsertAccount ((tame_modifyObject (by intro; exact ⟨rfl, rfl⟩)).comp
    (tame_modifyAccount (by intro; rfl))) txn addr true

theorem suicide : Touches txn (txn.suicide S addr) :=
  upsertAccount (tame_newBalance.comp (tame_modifyObject (by intro; exact ⟨rfl, rfl⟩)))
    txn addr false

theorem createAccount : Touches txn (txn.createAccount S addr) := by
  have hgrows := txn.heap.grows_putObject (newStateObject S)
  have hnew := txn.heap.new_putObject (newStateObject S)
  unfold Txn.createAccount
  dsimp only
  rw [getStateObject_eq]
  cases State.Tree.getStateObject S _ addr with
  | none => exact insert hgrows hnew.valid addr
  | some o =>
    have hcopy := (txn.heap.putObject (newStateObject S)).grows_putObject o
    obtain ⟨hgrows, hnew⟩ := tame_modifyBalance _ txn.heap _ _ (hgrows.trans hcopy)
      (hnew.grows hcopy)
    exact insert hgrows hnew.valid addr

end

theorem meterStorage (config : ForksInTime) (original current value : Hash) :
    Touches txn
      (State.meterStorage Txn.addRefund Txn.subRefund txn config original current value).2 := by
  unfold State.meterStorage
  dsimp only
  split_ifs <;> exact refund txn _

theorem setStorage (addr : Address) (key value : Hash) (config : ForksInTime) :
    Touches txn (txn.setStorage S addr key value config).2 := by
  have hread : Touches txn (txn.getState S addr key).2 := read txn addr _ _
  unfold Txn.setStorage
  dsimp only
  split_ifs
  · exact hread
  · exact ((hread.trans (read _ addr _ _)).trans (setState addr key value)).trans
      (meterStorage config _ _ _)

theorem getCode (addr : Address) : Touches txn (txn.getCode S addr).2 := by
  have hcopy := getStateObject (S := S) txn addr
  unfold Txn.getCode
  generalize txn.getStateObject S addr = res at hcopy
  obtain ⟨_ | r, txn'⟩ := res
  · exact hcopy
  dsimp only
  split_ifs
  · exact hcopy
  cases txn'.codeCache.lookup addr with
  | some code => exact hcopy
  | none => exact hcopy.trans (same (.refl _) rfl rfl rfl)

theorem markDeleted (txn : Txn) (k : Address) : Touches txn (txn.markDeleted k) := by
  unfold Txn.markDeleted
  cases txn.tree.objects.lookup k with
  | none => exact refl txn
  | some r =>
    dsimp only
    rw [copyObject_eq]
    obtain ⟨hgrows, hnew⟩ := tame_modifyObject (g := fun o ↦ { o with deleted := true })
      (fun _ ↦ ⟨rfl, rfl⟩) txn.heap _ _ (txn.heap.grows_putObject (txn.heap.object r))
      (txn.heap.new_putObject _)
    exact insert hgrows hnew.valid k

theorem cleanDeleteObjects (e : Bool) : Touches txn (txn.cleanDeleteObjects S e) := by
  have hmarks (ks : List Address) (txn : Txn) : Touches txn (ks.foldl Txn.markDeleted txn) := by
    induction ks generalizing txn with
    | nil => exact refl txn
    | cons k ks ih => exact (markDeleted txn k).trans (ih (txn.markDeleted k))
  exact (hmarks _ txn).trans (refund _ _)

end Touches

inductive Does (grow : ℕ → ℕ) (txn : Txn) : Op → Txn → Prop
  | touches {op : Op} {txn' : Txn} : Touches txn txn' → Does grow txn op txn'
  | addLog {op : Op} (log : Log) : Does grow txn op (txn.addLog grow log)
  | logs : Does grow txn .logs txn.logs.2
  | snapshot : Does grow txn .snapshot txn.snapshot.2
  | revert {id : ℕ} {tree : Tree} : txn.snapshots[id]? = some tree →
    Does grow txn (.revertToSnapshot id) { txn with tree := tree }

theorem step_does (S : ReadSnapshot) (grow : ℕ → ℕ) (txn : Txn) (op : Op) :
    Does grow txn op (txn.step S grow op) := by
  cases op with
  | addSealingReward addr balance => exact .touches (.addSealingReward addr balance)
  | addBalance addr balance | setBalance addr balance =>
    exact .touches (.upsertAccount (tame_modifyBalance _) txn addr true)
  | subBalance addr amount => exact .touches (.subBalance addr amount)
  | incrNonce addr | setNonce addr nonce =>
    exact .touches (.upsertAccount (tame_modifyAccount (by intro; rfl)) txn addr true)
  | setCode addr code => exact .touches (.setCode addr code)
  | setState addr key value => exact .touches (.setState addr key value)
  | setStorage addr key value config => exact .touches (.setStorage addr key value config)
  | addRefund gas | subRefund gas => exact .touches (.refund txn _)
  | createAccount addr => exact .touches (.createAccount addr)
  | suicide addr => exact .touches (.suicide addr)
  | touchAccount addr => exact .touches (.upsertAccount (fun _ _ _ ↦ .intro) txn addr true)
  | cleanDeleteObjects e | commit e => exact .touches (.cleanDeleteObjects e)
  | emitLog addr topics data => exact .addLog _
  | addLog log => exact .addLog log
  | logs => exact .logs
  | snapshot => exact .snapshot
  | revertToSnapshot id =>
    rw [step, revertToSnapshot]
    cases htree : txn.snapshots[id]? with
    | none => exact .touches (.refl txn)
    | some tree => exact .revert htree
  | read addr => exact .touches (.getStateObject txn addr)
  | getCode addr => exact .touches (.getCode addr)
  | evict addr => exact .touches (.same (.refl _) rfl rfl rfl)

structure Reads where
  exist : Address → Bool
  balance : Address → ℤ
  nonce : Address → ℕ
  codeHash : Address → Hash
  state : Address → Hash → Hash
  committedState : Address → Hash → Hash
  hasSuicided : Address → Bool
  empty : Address → Bool
  logs : Option (List Log)
  refund : ℕ

def Txn.reads (S : ReadSnapshot) (txn : Txn) : Reads where
  exist addr := (txn.exist S addr).1
  balance addr := (txn.getBalance S addr).1
  nonce addr := (txn.getNonce S addr).1
  codeHash addr := (txn.getCodeHash S addr).1
  state addr key := (txn.getState S addr key).1
  committedState addr key := (txn.getCommittedState S addr key).1
  hasSuicided addr := (txn.hasSuicided S addr).1
  empty addr := (txn.empty S addr).1
  logs := txn.logs.1
  refund := txn.getRefund

theorem Txn.read_fst {α : Type} (txn : Txn) (addr : Address) (absent : α) {f : Heap → Ref → α}
    {g : StateObject → α} (hf : ∀ (h : Heap) o, f (h.putObject o) h.objects.next = g o) :
    (txn.read S addr absent f).1 =
      ((txn.tree.values txn.heap).getStateObject S addr).elim absent g := by
  unfold read
  rw [txn.getStateObject_eq]
  cases (txn.tree.values txn.heap).getStateObject S addr with
  | none => rfl
  | some o => exact hf txn.heap o

theorem Txn.reads_eq (S : ReadSnapshot) (txn : Txn) :
    let t : State.Txn := ⟨txn.tree.values txn.heap, [], ∅⟩
    txn.reads S =
      { exist := t.exist S
        balance := fun addr ↦ t.getBalance S addr
        nonce := t.getNonce S
        codeHash := t.getCodeHash S
        state := t.getState S
        committedState := t.getCommittedState S
        hasSuicided := t.hasSuicided S
        empty := t.empty S
        logs := txn.tree.logs.map (items txn.heap.arrays)
        refund := t.getRefund } := by
  unfold reads State.Txn.exist State.Txn.getBalance State.Txn.getNonce State.Txn.getCodeHash
    State.Txn.getState State.Tree.getState State.Txn.getCommittedState
    State.Tree.getCommittedState State.Txn.hasSuicided State.Txn.empty State.Txn.getStateObject
  congr 1
  · funext addr
    refine (txn.read_fst addr _ fun _ _ ↦ rfl).trans ?_
    cases State.Tree.getStateObject S _ addr <;> rfl
  · funext addr
    refine (txn.read_fst addr _ balance_putObject).trans ?_
    cases State.Tree.getStateObject S _ addr <;> rfl
  · funext addr
    refine (txn.read_fst addr _ (g := fun o ↦ o.account.nonce) (by simp)).trans ?_
    cases State.Tree.getStateObject S _ addr <;> rfl
  · funext addr
    refine (txn.read_fst addr _ (g := fun o ↦ bytesToHash o.account.codeHash) (by simp)).trans ?_
    cases State.Tree.getStateObject S _ addr <;> rfl
  · funext addr key
    refine (txn.read_fst addr _ (g := fun o ↦ o.slot S addr key) ?_).trans ?_
    · intro h o
      rw [h.txn_putObject, h.account_putObject]
      rfl
    · cases State.Tree.getStateObject S _ addr <;> rfl
  · funext addr key
    refine (txn.read_fst addr _ (g := fun o ↦ S.getStorage addr o.account.root key) (by simp)).trans ?_
    cases State.Tree.getStateObject S _ addr <;> rfl
  · funext addr
    refine (txn.read_fst addr _ (g := StateObject.suicide) (by simp)).trans ?_
    cases State.Tree.getStateObject S _ addr <;> rfl
  · funext addr
    refine (txn.read_fst addr _ (g := StateObject.empty S) ?_).trans ?_
    · intro h o
      have hzero : ((o.account.balance : ℤ) == 0) = (o.account.balance == 0) := by
        rw [Bool.eq_iff_iff, beq_iff_eq, beq_iff_eq, Int.natCast_eq_zero]
      simp [isEmpty, StateObject.empty, hzero]
    · cases State.Tree.getStateObject S _ addr <;> rfl
  · unfold logs
    cases txn.tree.logs <;> rfl

inductive Txn.Live (id : ℕ) (txn : Txn) : Tree → Prop
  | current : Live id txn txn.tree
  | saved {j : ℕ} {t : Tree} : id ≤ j → txn.snapshots[j]? = some t → Live id txn t

def Txn.window (txn : Txn) : Window := txn.tree.logs.getD ⟨0, 0, 0⟩

structure Txn.Valid (txn : Txn) : Prop where
  objects : ∀ t, txn.Live 0 t → t.Valid txn.heap
  logs : ∀ t, txn.Live 0 t → ∀ w ∈ t.logs, 0 < w.array ∧ w.array < txn.heap.arrays.next
  base : 0 < txn.heap.arrays.next

/-- The snapshot `id` is the tree `t`, which shows what it showed in the memory `h`; the logs of later
trees follow its own. -/
structure Txn.Holds (h : Heap) (t : Tree) (id : ℕ) (txn : Txn) : Prop where
  snapshot : txn.snapshots[id]? = some t
  values : t.values txn.heap = t.values h
  items : ∀ w ∈ t.logs, w.items txn.heap.arrays = w.items h.arrays
  follows : ∀ w ∈ t.logs, ∀ t', txn.Live id t' → ∀ v ∈ t'.logs, w.Follows v

namespace Txn

variable {id : ℕ} {t : Tree}

theorem Live.of_snapshots (h : txn'.Live id t) (txn : Txn)
    (hsnapshots : txn'.snapshots = txn.snapshots) :
    t = txn'.tree ∨ txn.Live id t := by
  cases h with
  | current => exact .inl rfl
  | saved hj ht => exact .inr (.saved hj (hsnapshots ▸ ht))

theorem live_snapshot (h : txn.snapshot.2.Live id t) : txn.Live id t := by
  cases h with
  | current => exact .current
  | @saved j _ hj ht =>
    obtain hlt | hge := lt_or_ge j txn.snapshots.length
    · rw [snapshot, getElem?_append_left hlt] at ht
      exact .saved hj ht
    · rw [snapshot, getElem?_append_right hge] at ht
      obtain rfl : t = txn.tree := mem_singleton.mp (mem_of_getElem? ht)
      exact .current

theorem valid_newTxn : newTxn.Valid := by
  have hlive {t : Tree} (ht : newTxn.Live 0 t) : t = ⟨∅, none, none⟩ := by
    cases ht with
    | current => rfl
    | saved _ ht => cases ht
  refine ⟨?_, ?_, one_pos⟩
  · intro t ht addr r hr
    rw [hlive ht, AList.lookup_empty] at hr
    cases hr
  · intro t ht w hw
    rw [hlive ht] at hw
    cases hw

theorem Valid.window_lt (h : txn.Valid) : txn.window.array < txn.heap.arrays.next := by
  unfold window
  cases hlogs : txn.tree.logs with
  | none => exact h.base
  | some w => exact (h.logs txn.tree .current w hlogs).2

theorem Valid.window_pos (h : txn.Valid) (hlt : txn.window.len < txn.window.cap) :
    0 < txn.window.array := by
  unfold window at hlt ⊢
  cases hlogs : txn.tree.logs with
  | none =>
    rw [hlogs] at hlt
    exact absurd hlt (lt_irrefl 0)
  | some w => exact (h.logs txn.tree .current w hlogs).1

theorem Valid.addLog (h : txn.Valid) (log : Log) : (txn.addLog grow log).Valid := by
  have hnext : txn.heap.arrays.next ≤ (txn.addLog grow log).heap.arrays.next :=
    append_next_le log
  have hobjects {t : Tree} (ht : t.Valid txn.heap) : t.Valid (txn.addLog grow log).heap := by
    intro addr r hr
    obtain ⟨hobject, haccount, hbalance, htxn⟩ := ht addr r hr
    exact ⟨hobject, haccount, hbalance, htxn⟩
  refine ⟨?_, ?_, h.base.trans_le hnext⟩
  · intro t hlive
    obtain rfl | hlive := hlive.of_snapshots txn rfl
    · exact hobjects (h.objects txn.tree .current)
    · exact hobjects (h.objects t hlive)
  · intro t hlive w hw
    obtain rfl | hlive := hlive.of_snapshots txn rfl
    · cases hw
      refine ⟨?_, append_array_lt h.window_lt log⟩
      obtain ⟨hlt, harray⟩ | harray := append_array _ txn.heap.arrays txn.window log
      · exact (h.window_pos hlt).trans_eq harray.symm
      · exact h.base.trans_eq harray.symm
    · exact (h.logs t hlive w hw).imp_right hnext.trans_lt'

theorem Valid.withTree (h : txn.Valid) (hobjects : t.Valid txn.heap)
    (hlogs : ∀ w ∈ t.logs, 0 < w.array ∧ w.array < txn.heap.arrays.next) :
    Valid { txn with tree := t } := by
  refine ⟨?_, ?_, h.base⟩ <;> intro t' hlive <;>
    obtain rfl | hlive := hlive.of_snapshots txn rfl
  · exact hobjects
  · exact h.objects t' hlive
  · exact hlogs
  · exact h.logs t' hlive

theorem Valid.does {op : Op} (h : txn.Valid) (hdoes : Does grow txn op txn') : txn'.Valid := by
  cases hdoes with
  | touches ht =>
    refine ⟨?_, ?_, ht.grows.arrays ▸ h.base⟩
    · intro t hlive
      obtain rfl | hlive := hlive.of_snapshots txn ht.snapshots
      · exact ht.valid (h.objects _ .current)
      · exact (h.objects t hlive).grows ht.grows
    · intro t hlive w hw
      rw [ht.grows.arrays]
      obtain rfl | hlive := hlive.of_snapshots txn ht.snapshots
      · exact h.logs _ .current w (ht.logs ▸ hw)
      · exact h.logs t hlive w hw
  | addLog log => exact h.addLog log
  | logs =>
    unfold Txn.logs
    cases hlogs : txn.tree.logs with
    | none => exact h
    | some w => exact h.withTree (h.objects txn.tree .current) (by simp)
  | snapshot =>
    refine ⟨?_, ?_, h.base⟩
    · intro t hlive
      exact h.objects t (live_snapshot hlive)
    · intro t hlive
      exact h.logs t (live_snapshot hlive)
  | @revert j tree ht =>
    have hlive : txn.Live 0 tree := .saved (zero_le j) ht
    exact h.withTree (h.objects tree hlive) (h.logs tree hlive)

theorem snapshot_getElem?_of_some {j : ℕ} (ht : txn.snapshots[j]? = some t) :
    txn.snapshot.2.snapshots[j]? = some t := by
  have hlt : j < txn.snapshots.length := (List.getElem?_eq_some_iff.mp ht).1
  exact (List.getElem?_append_left hlt).trans ht

theorem Holds.addLog {h : Heap} (hv : txn.Valid) (hh : txn.Holds h t id) (log : Log) :
    (txn.addLog grow log).Holds h t id := by
  have hlive : txn.Live 0 t := .saved (zero_le id) hh.snapshot
  have hfollows : ∀ w ∈ t.logs, w.Follows txn.window := by
    intro w hw
    unfold window
    cases hlogs : txn.tree.logs with
    | some v => exact hh.follows w hw _ .current v hlogs
    | none =>
      intro harray
      exact absurd harray (hv.logs t hlive w hw).1.ne
  refine ⟨hh.snapshot, ?_, ?_, ?_⟩
  · exact hh.values
  · intro w hw
    refine (items_append_of_follows (hv.logs t hlive w hw).2 (hfollows w hw) log).trans ?_
    exact hh.items w hw
  · intro w hw t' ht' v hv'
    obtain rfl | ht' := ht'.of_snapshots txn rfl
    · cases hv'
      exact follows_append (hv.logs t hlive w hw).2 (hfollows w hw) log
    · exact hh.follows w hw t' ht' v hv'

theorem Holds.withTree {h : Heap} {tree : Tree} (hh : txn.Holds h t id)
    (hfollows : ∀ w ∈ t.logs, ∀ v ∈ tree.logs, w.Follows v) :
    Holds h t id { txn with tree := tree } := by
  refine ⟨hh.snapshot, hh.values, hh.items, fun w hw t' ht' ↦ ?_⟩
  obtain rfl | ht' := ht'.of_snapshots txn rfl
  · exact hfollows w hw
  · exact hh.follows w hw t' ht'

theorem Holds.does {h : Heap} {op : Op} (hv : txn.Valid) (hh : txn.Holds h t id)
    (hdoes : Does grow txn op txn') (hop : ∀ j, op = .revertToSnapshot j → id ≤ j) :
    txn'.Holds h t id := by
  cases hdoes with
  | touches ht =>
    have hvalid : t.Valid txn.heap := hv.objects t (.saved (zero_le id) hh.snapshot)
    refine ⟨ht.snapshots ▸ hh.snapshot, (hvalid.values ht.grows).trans hh.values, ?_, ?_⟩
    · rw [ht.grows.arrays]
      exact hh.items
    · intro w hw t' ht' v hv'
      obtain rfl | ht' := ht'.of_snapshots txn ht.snapshots
      · exact hh.follows w hw _ .current v (ht.logs ▸ hv')
      · exact hh.follows w hw t' ht' v hv'
  | addLog log => exact hh.addLog hv log
  | logs =>
    unfold logs
    cases hlogs : txn.tree.logs with
    | none => exact hh
    | some _ => exact hh.withTree (by simp)
  | snapshot =>
    refine ⟨snapshot_getElem?_of_some hh.snapshot, hh.values, hh.items, ?_⟩
    intro w hw t' ht'
    exact hh.follows w hw t' (live_snapshot ht')
  | @revert j tree htree =>
    exact hh.withTree fun w hw ↦ hh.follows w hw _ (.saved (hop j rfl) htree)

theorem holds_snapshot (txn : Txn) : txn.snapshot.2.Holds txn.heap txn.tree txn.snapshot.1 := by
  refine ⟨?_, rfl, fun _ _ ↦ rfl, ?_⟩
  · rw [snapshot, getElem?_append_right le_rfl, Nat.sub_self]
    rfl
  · intro w hw t' ht' v hv'
    have hcurrent : t' = txn.tree := by
      cases ht' with
      | current => rfl
      | saved hj ht =>
        rw [snapshot, getElem?_append_right hj] at ht
        exact mem_singleton.mp (mem_of_getElem? ht)
    rw [hcurrent, mem_def.mp hw] at hv'
    cases hv'
    exact fun _ ↦ le_rfl

theorem Holds.reads {h : Heap} (hh : txn.Holds h t id) (S : ReadSnapshot)
    (snapshots : List Tree) (codeCache : AList fun _ : Address ↦ Bytes) :
    reads S { txn with tree := t } = reads S ⟨h, t, snapshots, codeCache⟩ := by
  have hlogs : t.logs.map (Window.items txn.heap.arrays) = t.logs.map (Window.items h.arrays) :=
    map_congr hh.items
  rw [reads_eq, reads_eq]
  rw [hh.values, hlogs]

end Txn

open Run

/-- Reverting to a snapshot restores what is read, whatever was done since, as long as it was not
reverted to an earlier one. -/
theorem revertToSnapshot_restores (S : ReadSnapshot) (grow : ℕ → ℕ) (before after : List Op)
    (hafter : ∀ j, .revertToSnapshot j ∈ after →
      (exec (step S grow) newTxn before).snapshot.1 ≤ j) :
    ∃ txn', (exec (step S grow) (exec (step S grow) newTxn before).snapshot.2
          after).revertToSnapshot (exec (step S grow) newTxn before).snapshot.1 = some txn' ∧
      txn'.reads S = (exec (step S grow) newTxn before).reads S := by
  have hvalid : (exec (step S grow) newTxn before).Valid :=
    exec_invariant valid_newTxn (fun txn op h ↦ h.does (step_does S grow txn op)) before
  generalize exec (step S grow) newTxn before = txn at hafter hvalid ⊢
  have hholds : (exec (step S grow) txn.snapshot.2 after).Valid ∧
      (exec (step S grow) txn.snapshot.2 after).Holds txn.heap txn.tree txn.snapshot.1 := by
    refine exec_invariant_mem (I := fun t : Txn ↦ t.Valid ∧
      t.Holds txn.heap txn.tree txn.snapshot.1) ?_ ?_
    · exact ⟨hvalid.does (.snapshot : Does grow txn .snapshot txn.snapshot.2), txn.holds_snapshot⟩
    · intro op hop t ⟨hv, hh⟩
      have hdoes := step_does S grow t op
      refine ⟨hv.does hdoes, hh.does hv hdoes ?_⟩
      rintro j rfl
      exact hafter j hop
  refine ⟨_, ?_, hholds.2.reads S txn.snapshots txn.codeCache⟩
  rw [revertToSnapshot, hholds.2.snapshot]
  rfl

theorem revertToSnapshot_restores_logs : ∃ txn', (exec (step oneSlot fun _ ↦ 4)
      (exec (step oneSlot fun _ ↦ 4) newTxn [.emitLog zeroAddress [] [1]]).snapshot.2
      [.emitLog zeroAddress [] [2], .setState zeroAddress zeroHash (bytesToHash [7]), .snapshot,
        .revertToSnapshot 0, .emitLog zeroAddress [] [3], .revertToSnapshot 1]).revertToSnapshot 0 =
      some txn' ∧
    txn'.reads oneSlot =
      (exec (step oneSlot fun _ ↦ 4) newTxn [.emitLog zeroAddress [] [1]]).reads oneSlot :=
  revertToSnapshot_restores oneSlot (fun _ ↦ 4) [.emitLog zeroAddress [] [1]] _ fun j _ ↦ zero_le j

-- The log of an earlier snapshot's future is lost: both slices have room in the same array.
example : (exec (step oneSlot fun _ ↦ 4) newTxn [.emitLog zeroAddress [] [1], .snapshot,
    .emitLog zeroAddress [] [2], .snapshot, .revertToSnapshot 0, .emitLog zeroAddress [] [3],
    .revertToSnapshot 1]).logs.1 = some [⟨zeroAddress, [], [1]⟩, ⟨zeroAddress, [], [3]⟩] := rfl

end Mainnet.State.Pointers
