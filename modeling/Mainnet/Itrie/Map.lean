import Mainnet.Itrie.Hasher

namespace Mainnet.Itrie

open Types Lib List Outcome

section Model

variable (K : Keccak) (fuel : ℕ)

inductive Op
  | insert (key value : Bytes)
  | delete (key : Bytes)
  | lookup (key : Bytes)
deriving DecidableEq

def Op.key : Op → Bytes
  | .insert key _ => key
  | .delete key => key
  | .lookup key => key

def Op.value? : Op → Option Bytes
  | .insert _ value => some value
  | _ => none

def Op.Valid (l : ℕ) (op : Op) : Prop := op.key.length = l ∧ op.value? ≠ some []

instance (l : ℕ) (op : Op) : Decidable (op.Valid l) :=
  inferInstanceAs (Decidable (op.key.length = l ∧ op.value? ≠ some []))

def Txn.step (S : Storage) (t : Txn) : Op → Outcome DecodeError Txn
  | .insert key value => t.insert K S fuel key value
  | .delete key => t.delete K S fuel key
  | .lookup key => (t.lookup K S fuel key).map Prod.fst

def Txn.run (S : Storage) : Txn → List Op → Outcome DecodeError Txn
  | t, [] => .ok t
  | t, op :: ops => do
    let t ← t.step K fuel S op
    t.run S ops

def openAt (S : Storage) (root : Hash) : Outcome DecodeError Txn :=
  match newTrieAt K S root with
  | none => .panic
  | some trie => .ok trie.txn

def session (s : Storage × Hash) (ops : List Op) : Outcome DecodeError (Storage × Hash) := do
  let t ← openAt K s.1 s.2
  let t ← t.run K fuel s.1 ops
  let (root, _, puts) ← t.hash K
  .ok (puts ++ s.1, root)

/-- Transactions one after the other, each on the trie reloaded from the storage. -/
def sessions : Storage × Hash → List (List Op) → Outcome DecodeError (Storage × Hash)
  | s, [] => .ok s
  | s, ops :: rest => do
    let s ← session K fuel s ops
    sessions s rest

def history (rounds : List (List Op)) : Outcome DecodeError (Storage × Hash) :=
  sessions K fuel ([], emptyRoot) rounds

end Model

def Op.apply (m : Bytes → Option Bytes) : Op → Bytes → Option Bytes
  | .insert key value => Function.update m key (some value)
  | .delete key => Function.update m key none
  | .lookup _ => m

def contents (m : Bytes → Option Bytes) (ops : List Op) : Bytes → Option Bytes :=
  ops.foldl Op.apply m

def noContents : Bytes → Option Bytes := fun _ ↦ none

/-- The storage returns what was put, and nothing was put under the empty root. -/
structure Storage.Faithful (S : Storage) : Prop where
  holds : S.Holds S
  empty : S.get emptyRoot.bytes = none

instance (S : Storage) : Decidable S.Faithful :=
  decidable_of_iff ((∀ p ∈ S, S.get p.1 = some p.2) ∧ S.get emptyRoot.bytes = none)
    ⟨fun h ↦ ⟨h.1, h.2⟩, fun h ↦ ⟨h.holds, h.empty⟩⟩

structure Txn.Opens (K : Keccak) (S : Storage) (P : Bytes → UInt32 → Prop) (l : ℕ) (t : Txn)
    (tree : Tree) : Prop where
  denotes : Denotes K S P t.root tree
  shaped : Shaped (2 * l + 1) tree
  loaded : t.root.isRef = false

def rootOf (K : Keccak) : Tree → Hash
  | .nil => emptyRoot
  | tree => K.keccak256Rlp (item K tree)

theorem rootOf_of_ne (K : Keccak) {tree : Tree} (h : tree ≠ .nil) :
    rootOf K tree = K.keccak256Rlp (item K tree) := by
  cases tree <;> first | rfl | exact absurd rfl h

variable {K : Keccak} {S : Storage} {P : Bytes → UInt32 → Prop} {l fuel : ℕ} {t : Txn} {tree : Tree}

namespace Txn

variable {key : Bytes}

theorem Opens.enough (h : t.Opens K S P l tree) (hk : key.length = l)
    (hf : 4 * l + 6 ≤ fuel) {c : ℕ} (hc : c ≤ 3) :
    2 * (bytesToHexNibbles key).length + c + t.root.isRef.toNat ≤ fuel := by
  rw [h.loaded, Bool.toNat_false, length_bytesToHexNibbles, hk]
  omega

section

variable (hK : K.Faithful) (hL : Label P t.epoch) (h : t.Opens K S P l tree)
include hK hL h

theorem lookup_spec
    (hk : key.length = l) (hf : 4 * l + 6 ≤ fuel) :
    ∃ t', t.lookup K S fuel key = .ok (t', treeMap tree key) ∧ t'.Opens K S P l tree ∧
      t'.epoch = t.epoch := by
  obtain ⟨node', hr, hd, href⟩ := means_lookup (h.denotes.means hK hL.zero h.shaped)
    h.shaped.sound (closed_bytesToHexNibbles key) (h.enough hk hf (by omega))
  refine ⟨{ t with root := node' }, ?_, ⟨hd.denotes, h.shaped, href h.loaded⟩, rfl⟩
  simp only [lookup, hr, ok_bind, h.loaded]
  rfl

theorem insert_spec
    (hk : key.length = l) (value : Bytes) (hf : 4 * l + 6 ≤ fuel) :
    ∃ t' tree', t.insert K S fuel key value = .ok t' ∧ t'.Opens K S P l tree' ∧
      t'.epoch = t.epoch ∧ treeMap tree' = Function.update (treeMap tree) key (some value) := by
  obtain ⟨node', hr, hd, href⟩ := means_insert value hL.unset (h.denotes.means hK hL.zero h.shaped)
    h.shaped.sound (closed_bytesToHexNibbles key) (.inl (h.denotes.not_stale hL.fresh _))
    (h.enough hk hf le_rfl)
  obtain ⟨hs, hn⟩ := h.shaped.insert hk value
  have hnil : node'.isNil = false := by
    rwa [← Bool.not_eq_true, hd.isNil]
  refine ⟨{ t with root := node' }, _, ?_, ⟨hd.denotes, hs, href⟩, rfl,
    treeMap_update (h.shaped.get_insert hk value)⟩
  simp only [insert, hr, ok_bind, hnil]
  rfl

theorem delete_spec
    (hk : key.length = l) (hf : 4 * l + 6 ≤ fuel) :
    ∃ t' tree', t.delete K S fuel key = .ok t' ∧ t'.Opens K S P l tree' ∧
      t'.epoch = t.epoch ∧ treeMap tree' = Function.update (treeMap tree) key none := by
  have hf' : 4 * key.length + 6 ≤ fuel := by rwa [hk]
  obtain ⟨node', res, hr, hd, href⟩ := means_pruned hL.unset (h.denotes.means hK hL.zero h.shaped)
    h.shaped.sound key hf'
  obtain ⟨hs, hm⟩ := h.shaped.pruned hk
  refine ⟨{ t with root := res.getD node' }, _, ?_, ⟨hd.denotes, hs, href h.loaded⟩, rfl, hm⟩
  simp only [delete, hr, ok_bind]

theorem step_spec {op : Op}
    (hop : op.key.length = l) (hf : 4 * l + 6 ≤ fuel) :
    ∃ t' tree', t.step K fuel S op = .ok t' ∧ t'.Opens K S P l tree' ∧ t'.epoch = t.epoch ∧
      treeMap tree' = op.apply (treeMap tree) := by
  cases op with
  | insert key value => exact insert_spec hK hL h hop value hf
  | delete key => exact delete_spec hK hL h hop hf
  | lookup key =>
    obtain ⟨t', hr, ho, he⟩ := lookup_spec hK hL h (show key.length = l from hop) hf
    exact ⟨t', tree, by rw [step, hr]; rfl, ho, he, rfl⟩

theorem run_spec
    {ops : List Op} (hops : ∀ op ∈ ops, op.key.length = l) (hf : 4 * l + 6 ≤ fuel) :
    ∃ t' tree', t.run K fuel S ops = .ok t' ∧ t'.Opens K S P l tree' ∧ t'.epoch = t.epoch ∧
      treeMap tree' = contents (treeMap tree) ops := by
  induction ops generalizing t tree with
  | nil => exact ⟨t, tree, rfl, h, rfl, rfl⟩
  | cons op ops ih =>
    obtain ⟨t₁, tree₁, hr, ho, he, hm⟩ := step_spec hK hL h (hops op (by simp)) hf
    obtain ⟨t₂, tree₂, hr₂, ho₂, he₂, hm₂⟩ := ih (he ▸ hL) ho fun op hop ↦ hops op (by simp [hop])
    refine ⟨t₂, tree₂, ?_, ho₂, he₂.trans he, ?_⟩
    · rw [run, hr, ok_bind, hr₂]
    · rw [hm₂, hm]
      rfl

end

theorem hash_spec {Q : Bytes → UInt32 → Prop} (hP : ∀ c e, P c e → Q c e)
    (hset : ∀ c e h, P c e → Q h e) (h : t.Opens K S P l tree) :
    ∃ root t' puts, t.hash K = .ok (root, t', puts) ∧ Addressed K puts ∧ t'.epoch = t.epoch ∧
      root = rootOf K tree ∧
      ∀ S' : Storage, S.Le S' → S'.Holds puts → t'.Opens K S' Q l tree ∧
        (tree ≠ .nil → S'.get root.bytes = some (K.marshal (item K tree)) ∧ Stored K S' tree) := by
  by_cases hn : tree = .nil
  · have hnil := h.denotes.isNil.mpr hn
    refine ⟨emptyRoot, t, [], by rw [hash, if_pos hnil], addressed_nil, rfl, by rw [hn]; rfl,
      fun S' hS' _ ↦ ⟨⟨h.denotes.mono hS' hP, h.shaped, h.loaded⟩, fun hne ↦ absurd hn hne⟩⟩
  · have hnil : ¬ t.root.isNil = true := fun hh ↦ hn (h.denotes.isNil.mp hh)
    have hc := h.shaped.canonical hn
    obtain ⟨elems, ha⟩ := item_array (K := K) hc (by omega)
    obtain ⟨node', puts, hr, haddr, href, hden⟩ := Itrie.hash_spec hP hset h.denotes hc
    by_cases hl : (K.marshal (item K tree)).length < 32
    · -- A small root is hashed and put here.
      refine ⟨K.keccak256Rlp (item K tree), { t with root := node' },
        ((K.keccak256Rlp (item K tree)).bytes, K.marshal (item K tree)) :: puts, ?_, ?_, rfl,
        (rootOf_of_ne K hn).symm, fun S' hS' hholds ↦ ?_⟩
      · have hfold : foldItem K (item K tree) = .array elems := by
          rw [ha] at hl ⊢
          rw [foldItem, if_pos hl]
        rw [hash, if_neg hnil, hr, ok_bind, hfold, ha]
        rfl
      · intro p hp
        obtain rfl | hp := mem_cons.mp hp
        · exact ⟨elems, by rw [ha]⟩
        · exact haddr p hp
      · obtain ⟨hst, hd⟩ := hden S' hS' fun p hp ↦ hholds p (mem_cons_of_mem _ hp)
        exact ⟨⟨hd, h.shaped, href.trans h.loaded⟩, fun _ ↦ ⟨hholds _ mem_cons_self, hst⟩⟩
    · refine ⟨K.keccak256Rlp (item K tree), { t with root := node' }, puts, ?_, haddr, rfl,
        (rootOf_of_ne K hn).symm, fun S' hS' hholds ↦ ?_⟩
      · rw [hash, if_neg hnil, hr, ok_bind, foldItem_of_le ⟨elems, ha⟩ (Nat.le_of_not_lt hl)]
        simp only [(K.keccak256Rlp (item K tree)).length_eq, ne_eq, not_true, if_false, bytesToHash,
          FixedBytes.ofBytes_bytes]
      · obtain ⟨hst, hd⟩ := hden S' hS' hholds
        refine ⟨⟨hd, h.shaped, href.trans h.loaded⟩, fun _ ↦ ⟨?_, hst⟩⟩
        exact hst.kept ha (Nat.le_of_not_lt hl)

end Txn

end Mainnet.Itrie
