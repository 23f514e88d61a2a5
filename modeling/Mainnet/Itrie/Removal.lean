import Mainnet.Itrie.History

namespace Mainnet.Itrie

open Types Lib List Outcome

inductive UpdateError
  | missingNode
deriving DecidableEq

/-- The trie is changed in place; on the error only its cached hashes are. -/
def Trie.tryUpdate (K : Keccak) (S : Storage) (fuel : ℕ) (t : Trie) (key value : Bytes) :
    Outcome DecodeError (Trie × Except UpdateError Unit) :=
  if value.length ≠ 0 then do
    let n ← t.root.insert K S t.txn.epoch fuel (bytesToHexNibbles key) value
    .ok ({ t with root := n }, .ok ())
  else do
    let (node, res) ← t.root.delete K S fuel (bytesToHexNibbles key)
    match res with
    | none => .ok ({ t with root := node }, .error .missingNode)
    | some n => .ok ({ t with root := n }, .ok ())

structure Txn.Stands (K : Keccak) (S : Storage) (t : Txn) (tree : Tree) : Prop where
  means : Means K S .any t.root tree
  sound : Sound false tree

theorem newTrie_stands (K : Keccak) (S : Storage) : newTrie.txn.Stands K S .nil :=
  ⟨.nil, sound_nil _⟩

def RemovesOnly (K : Keccak) (S : Storage) (key : Bytes) (t t' : Txn) : Prop :=
  ∀ k fuel, 4 * k.length + 6 ≤ fuel → ∃ t₁ t₂ found, t.lookup K S fuel k = .ok (t₁, found) ∧
    t'.lookup K S fuel k = .ok (t₂, if k = key then none else found)

/-- The walk of a deletion, which takes a path of which the key has only the first nibbles for
followed, arrives at another key. -/
def Strays (K : Keccak) (S : Storage) (key : Bytes) (t : Txn) : Prop :=
  ∃ tree other, Means K S .any t.root tree ∧ other ≠ key ∧
    tree.reach (bytesToHexNibbles key) = some (bytesToHexNibbles other)

variable {K : Keccak} {S : Storage} {fuel : ℕ} {t t' : Txn} {tree : Tree}

namespace Txn

theorem lookup_means {U : Marks} (h : Means K S U t.root tree) (hs : Sound false tree) (key : Bytes)
    (hf : 4 * key.length + 6 ≤ fuel) :
    ∃ t', t.lookup K S fuel key = .ok (t', treeMap tree key) ∧ Means K S U t'.root tree := by
  have href := t.root.isRef.toNat_le
  have hf' : 2 * (bytesToHexNibbles key).length + 1 + t.root.isRef.toNat ≤ fuel := by
    rw [length_bytesToHexNibbles]
    omega
  obtain ⟨node', hr, hd, -⟩ := means_lookup h hs (closed_bytesToHexNibbles key) hf'
  refine ⟨_, by simp only [Txn.lookup, hr, ok_bind]; rfl, ?_⟩
  split
  · exact h
  · exact hd

section

variable (h : t.Stands K S tree)
include h

theorem Stands.lookup (key : Bytes) (hf : 4 * key.length + 6 ≤ fuel) :
    ∃ t', t.lookup K S fuel key = .ok (t', treeMap tree key) ∧ t'.Stands K S tree := by
  obtain ⟨t', hr, hd⟩ := lookup_means h.means h.sound key hf
  exact ⟨t', hr, hd, h.sound⟩

theorem Stands.insert_root (key value : Bytes) (hf : 4 * key.length + 6 ≤ fuel) (ep : UInt32) :
    ∃ node, t.root.insert K S ep fuel (bytesToHexNibbles key) value = .ok node ∧
      node.isNil = false ∧
      Txn.Stands K S ⟨node, t.epoch⟩ (tree.insert (bytesToHexNibbles key) value) := by
  have href := t.root.isRef.toNat_le
  have hclosed := closed_bytesToHexNibbles key
  have hkeep : t.root.Keeps .any ep value tree (bytesToHexNibbles key) :=
    .inr (.inr fun _ _ ↦ trivial)
  have hf' : 2 * (bytesToHexNibbles key).length + 3 + t.root.isRef.toNat ≤ fuel := by
    rw [length_bytesToHexNibbles]
    omega
  obtain ⟨node, hr, hd, -⟩ := means_insert value (Marks.any_unset _) h.means h.sound hclosed hkeep hf'
  have hp : (tree.insert (bytesToHexNibbles key) value).Proper terminator false :=
    .insert h.sound hclosed value
  refine ⟨node, hr, ?_, hd, fun _ ↦ hp⟩
  rw [← Bool.not_eq_true, hd.isNil]
  exact hp.ne_nil

theorem Stands.delete_root (key : Bytes) (hf : 4 * key.length + 6 ≤ fuel) :
    ∃ node res, t.root.delete K S fuel (bytesToHexNibbles key) = .ok (node, res) ∧
      Txn.Stands K S ⟨res.getD node, t.epoch⟩ (pruned tree key) := by
  obtain ⟨node, res, hr, hd, -⟩ := means_pruned (Marks.any_unset 0) h.means h.sound key hf
  exact ⟨node, res, hr, hd, (h.sound.pruned key).1⟩

theorem Stands.delete (key : Bytes) (hf : 4 * key.length + 6 ≤ fuel) :
    ∃ t', t.delete K S fuel key = .ok t' ∧ t'.Stands K S (pruned tree key) := by
  obtain ⟨node, res, hr, hs⟩ := h.delete_root key hf
  exact ⟨_, by simp only [Txn.delete, hr, ok_bind], hs⟩

theorem Stands.step (op : Op) (hf : 4 * op.key.length + 6 ≤ fuel) :
    ∃ t' tree', t.step K fuel S op = .ok t' ∧ t'.Stands K S tree' := by
  cases op with
  | insert key value =>
    obtain ⟨node, hr, hnil, hs⟩ := h.insert_root key value hf t.epoch
    refine ⟨⟨node, t.epoch⟩, _, ?_, hs⟩
    simp only [Txn.step, Txn.insert, hr, ok_bind, hnil]
    rfl
  | delete key =>
    obtain ⟨t', hr, hs⟩ := h.delete key hf
    exact ⟨t', _, hr, hs⟩
  | lookup key =>
    obtain ⟨t', hr, hs⟩ := h.lookup key hf
    exact ⟨t', tree, by simp only [Txn.step, hr, Outcome.map], hs⟩

end

theorem Stands.run {ops : List Op} (h : t.Stands K S tree)
    (hf : ∀ op ∈ ops, 4 * op.key.length + 6 ≤ fuel) :
    ∃ t' tree', t.run K fuel S ops = .ok t' ∧ t'.Stands K S tree' := by
  induction ops generalizing t tree with
  | nil => exact ⟨t, tree, rfl, h⟩
  | cons op ops ih =>
    obtain ⟨t₁, tree₁, hr, hs⟩ := h.step op (hf op mem_cons_self)
    obtain ⟨t', tree', hrest, hs'⟩ := ih hs fun op hop ↦ hf op (mem_cons_of_mem _ hop)
    exact ⟨t', tree', by simp only [Txn.run, hr, ok_bind, hrest], hs'⟩

end Txn

theorem tryUpdate_stands (h : t.Stands K S tree) (key : Bytes) (hf : 4 * key.length + 6 ≤ fuel) :
    ∃ trie err, t.commit.tryUpdate K S fuel key [] = .ok (trie, err) ∧
      trie.txn.Stands K S (pruned tree key) := by
  obtain ⟨node, res, hr, hs⟩ := h.delete_root key hf
  rw [Trie.tryUpdate, if_neg (by simp)]
  simp only [Txn.commit, hr, ok_bind]
  cases res with
  | none | some n => exact ⟨_, _, rfl, hs.means, hs.sound⟩

theorem removesOnly_iff {tree' : Tree} {key : Bytes} (h : t.Stands K S tree)
    (h' : t'.Stands K S tree') :
    RemovesOnly K S key t t' ↔ treeMap tree' = Function.update (treeMap tree) key none := by
  have hupdate : ∀ k, Function.update (treeMap tree) key none k =
      if k = key then none else treeMap tree k := fun k ↦ Function.update_apply _ _ _ _
  constructor
  · intro hr
    funext k
    obtain ⟨t₁, t₂, found, h₁, h₂⟩ := hr k (4 * k.length + 6) le_rfl
    obtain ⟨_, hl, -⟩ := h.lookup k le_rfl
    obtain ⟨_, hl', -⟩ := h'.lookup k le_rfl
    rw [hl] at h₁
    rw [hl'] at h₂
    obtain ⟨-, rfl⟩ := Prod.mk.inj (ok.inj h₁)
    obtain ⟨-, hfound⟩ := Prod.mk.inj (ok.inj h₂)
    rw [hfound, hupdate]
  · intro hm k fuel hf
    obtain ⟨t₁, hl, -⟩ := h.lookup _ hf
    obtain ⟨t₂, hl', -⟩ := h'.lookup _ hf
    exact ⟨t₁, t₂, _, hl, by rw [hl', hm, hupdate]⟩

theorem strays_iff {key : Bytes} (h : t.Stands K S tree) :
    Strays K S key t ↔ ∃ other, other ≠ key ∧
      tree.reach (bytesToHexNibbles key) = some (bytesToHexNibbles other) := by
  constructor
  · rintro ⟨tree', other, hm, hne, hr⟩
    rw [hm.unique h.means] at hr
    exact ⟨other, hne, hr⟩
  · rintro ⟨other, hne, hr⟩
    exact ⟨tree, other, h.means, hne, hr⟩

theorem removesOnly_pruned {key : Bytes} (h : t.Stands K S tree)
    (h' : t'.Stands K S (pruned tree key)) :
    RemovesOnly K S key t t' ↔ ¬ Strays K S key t := by
  rw [removesOnly_iff h h', h.sound.treeMap_pruned_iff, strays_iff h]
  simp only [not_exists, not_and, ne_eq]

/-- After any operations with keys of any lengths, taking out a key, by a deletion or by an update
with an empty value, takes out that key alone exactly when the walk strays to no other. -/
theorem removes_only_iff {ops : List Op} {t₀ : Txn} (h₀ : t₀.Stands K S tree)
    (hf : ∀ op ∈ ops, 4 * op.key.length + 6 ≤ fuel) (key : Bytes)
    (hk : 4 * key.length + 6 ≤ fuel) :
    ∃ t t' trie err, t₀.run K fuel S ops = .ok t ∧ t.delete K S fuel key = .ok t' ∧
      t.commit.tryUpdate K S fuel key [] = .ok (trie, err) ∧
      (RemovesOnly K S key t t' ↔ ¬ Strays K S key t) ∧
      (RemovesOnly K S key t trie.txn ↔ ¬ Strays K S key t) := by
  obtain ⟨t, tree', hrun, hs⟩ := h₀.run hf
  obtain ⟨t', hd, hs'⟩ := hs.delete key hk
  obtain ⟨trie, err, hu, hs''⟩ := tryUpdate_stands hs key hk
  exact ⟨t, t', trie, err, hrun, hd, hu, removesOnly_pruned hs hs', removesOnly_pruned hs hs''⟩

def mixedOps : List Op := [.insert [0x12, 0x34] [1], .insert [0x12, 0x35] [2]]

theorem removes_only_iff_mixed :
    ∃ t t' trie err, newTrie.txn.run pairKeccak 14 [] mixedOps = .ok t ∧
      t.delete pairKeccak [] 14 [0x14] = .ok t' ∧
      t.commit.tryUpdate pairKeccak [] 14 [0x14] [] = .ok (trie, err) ∧
      (RemovesOnly pairKeccak [] [0x14] t t' ↔ ¬ Strays pairKeccak [] [0x14] t) ∧
      (RemovesOnly pairKeccak [] [0x14] t trie.txn ↔ ¬ Strays pairKeccak [] [0x14] t) :=
  removes_only_iff (newTrie_stands _ _) (by decide) _ (by decide)

def Txn.found (K : Keccak) (t : Txn) (key : Bytes) : Outcome DecodeError (Option Bytes) :=
  (t.lookup K [] 14 key).map Prod.snd

/-- The path `1, 2, 3` starts with the first nibble of the absent key `14`; its branch is then
searched for the second, and the key `12 34` is removed. -/
theorem delete_absent_removes :
    ((newTrie.txn.run pairKeccak 14 [] mixedOps).bind fun t ↦ t.found pairKeccak [0x14]) = .ok none ∧
      ((newTrie.txn.run pairKeccak 14 [] mixedOps).bind fun t ↦ t.found pairKeccak [0x12, 0x34]) =
        .ok (some [1]) ∧
      (((newTrie.txn.run pairKeccak 14 [] mixedOps).bind fun t ↦
        t.delete pairKeccak [] 14 [0x14]).bind fun t ↦ t.found pairKeccak [0x12, 0x34]) = .ok none ∧
      (((newTrie.txn.run pairKeccak 14 [] mixedOps).bind fun t ↦
        t.commit.tryUpdate pairKeccak [] 14 [0x14] []).bind fun r ↦
          r.1.txn.found pairKeccak [0x12, 0x34]) = .ok none := by
  decide +kernel

end Mainnet.Itrie
