import Mathlib.Data.Set.Finite.List
import Mainnet.Itrie.Removal

namespace Mainnet.Itrie

open Types Lib List Function Outcome

def Marks.right (K : Keccak) : Marks where
  ref buf t := foldItem K (item K t) = .bytes buf
  short c t := c ≠ [] → foldItem K (item K t) = .bytes c
  full c _ t := c ≠ [] → foldItem K (item K t) = .bytes c

theorem Marks.right_unset (K : Keccak) (ep : UInt32) : (Marks.right K).Unset ep :=
  ⟨fun _ h ↦ absurd rfl h, fun _ h ↦ absurd rfl h, fun _ h ↦ absurd rfl h⟩

variable {K : Keccak} {S : Storage} {M : Marks} {node : Node} {t : Tree}

theorem Means.mono {M' : Marks} (h : Means K S M node t) (hr : ∀ b t, M.ref b t → M'.ref b t)
    (hs : ∀ c key t, M.short c (.short key t) → M'.short c (.short key t))
    (hf : ∀ c e ts, M.full c e (.full ts) → M'.full c e (.full ts)) : Means K S M' node t := by
  induction h with
  | nil => exact .nil
  | value v => exact .value v
  | ref hg hm _ ih => exact .ref hg (hr _ _ hm) ih
  | short hm _ ih => exact .short (hs _ _ _ hm) ih
  | full hm _ ih => exact .full (hf _ _ _ hm) ih

theorem Means.any (h : Means K S M node t) : Means K S .any node t :=
  h.mono (fun _ _ _ ↦ trivial) (fun _ _ _ _ ↦ trivial) fun _ _ _ _ ↦ trivial

section Hash

def HashesTo (K : Keccak) (node : Node) (v : Rlp.Value) : Prop :=
  ∃ node' puts, node.hash K = .ok (v, node', puts)

theorem HashesTo.isNil {v : Rlp.Value} (h : HashesTo K node v) : node.isNil = false := by
  obtain ⟨node', puts, h⟩ := h
  cases node with
  | nil => cases h
  | _ => rfl

theorem sealItem_eq (elems : List Rlp.Value) (puts : Storage) (mk : Bytes → Node) :
    ∃ c puts', Node.sealItem K (.array elems) puts mk = (foldItem K (.array elems), mk c, puts') ∧
      (c ≠ [] → foldItem K (.array elems) = .bytes c) := by
  obtain ⟨c, puts', hseal, -, -, -, hc⟩ := sealItem_spec elems puts mk
  refine ⟨c, puts', hseal, fun hne ↦ ?_⟩
  obtain ⟨rfl, hl⟩ := hc hne
  rw [foldItem, if_neg (not_lt.mpr hl)]

theorem hash_short (key : List Nibble) {child child' : Node} {v : Rlp.Value} {puts : Storage}
    (h : child.hash K = .ok (v, child', puts)) :
    ∃ c puts', (Node.short [] key child).hash K =
      .ok (foldItem K (.array [.bytes (encodeCompact key), v]), .short c key child', puts') ∧
      (c ≠ [] → foldItem K (.array [.bytes (encodeCompact key), v]) = .bytes c) := by
  obtain ⟨c, puts', hseal, hc⟩ := sealItem_eq [.bytes (encodeCompact key), v] puts
    fun h ↦ .short h key child'
  exact ⟨c, puts', by simp only [Node.hash, ne_eq, not_true, if_false, h, ok_bind, hseal], hc⟩

theorem hash_full {e : UInt32} {edges edges' : Nibble → Node} {vs : Nibble → Rlp.Value}
    {puts : Nibble → Storage}
    (h : ∀ i, (if (edges i).isNil then .ok (.bytes [], .nil, []) else (edges i).hash K) =
      .ok (vs i, edges' i, puts i)) :
    ∃ c puts', (Node.full [] e edges).hash K =
      .ok (foldItem K (.array ((finRange 17).map vs)), .full c e edges', puts') ∧
      (c ≠ [] → foldItem K (.array ((finRange 17).map vs)) = .bytes c) := by
  obtain ⟨c, puts', hseal, hc⟩ := sealItem_eq ((finRange 17).map vs)
    ((finRange 17).reverse.flatMap puts) fun h ↦ .full h e edges'
  refine ⟨c, puts', ?_, hc⟩
  simp only [Node.hash, ne_eq, not_true, if_false, collect_ok h, ok_bind, hseal]

theorem hash_edge (hd : Means K S (.right K) node t)
    (h : t ≠ .nil → ∃ node' puts, node.hash K = .ok (foldItem K (item K t), node', puts) ∧
      Means K S (.right K) node' t) :
    ∃ node' puts, (if node.isNil then .ok (.bytes [], .nil, []) else node.hash K) =
      .ok (foldItem K (item K t), node', puts) ∧ Means K S (.right K) node' t := by
  by_cases ht : t = .nil
  · subst ht
    rw [if_pos (hd.isNil.mpr rfl)]
    exact ⟨.nil, [], rfl, .nil⟩
  · rw [if_neg (mt hd.isNil.mp ht)]
    exact h ht

theorem means_hash {b : Bool} (h : Means K S (.right K) node t) (hs : Sound b t) (hn : t ≠ .nil) :
    ∃ node' puts, node.hash K = .ok (foldItem K (item K t), node', puts) ∧
      Means K S (.right K) node' t := by
  induction h generalizing b with
  | nil => exact absurd rfl hn
  | value v => exact ⟨.value false v, [], rfl, .value v⟩
  | @ref buf nc t hg hm h => exact ⟨.value true buf, [], by rw [hm]; rfl, .ref hg hm h⟩
  | @short cached key child t hm h ih =>
    by_cases hne : cached = []
    · subst hne
      obtain ⟨b', -, -, -, -, hc⟩ := hs.short
      obtain ⟨child', puts, hr, hd⟩ := ih (fun _ ↦ hc) hc.ne_nil
      obtain ⟨c, puts', hr', hc'⟩ := hash_short key hr
      exact ⟨_, _, hr', .short hc' hd⟩
    · refine ⟨.short cached key child, [], ?_, .short hm h⟩
      rw [hm hne, Node.hash, if_pos hne]
  | @full cached e edges ts hm h ih =>
    by_cases hne : cached = []
    · subst hne
      obtain ⟨-, hs', -⟩ := hs.full
      choose nodes puts hr hd using fun i ↦ hash_edge (h i) (ih i (hs' i))
      obtain ⟨c, puts', hr', hc'⟩ := hash_full hr
      exact ⟨_, _, hr', .full hc' hd⟩
    · refine ⟨.full cached e edges, [], ?_, .full hm h⟩
      rw [hm hne, Node.hash, if_pos hne]

theorem hash_full_update {ep : UInt32} {edges : Nibble → Node} {ts : Nibble → Tree} {x : Nibble}
    (h : ∀ i, Means K S (.right K) (edges i) (ts i))
    (hs : ∀ i, Sound (decide (i = terminator)) (ts i))
    (hx : HashesTo K node (foldItem K (item K (ts x)))) :
    HashesTo K (.full [] ep (update edges x node))
      (foldItem K (item K (.full ts))) := by
  have hedge : ∀ i, ∃ n p,
      (if (update edges x node i).isNil then .ok (.bytes [], .nil, [])
        else (update edges x node i).hash K) =
        .ok (foldItem K (item K (ts i)), n, p) := by
    intro i
    by_cases hi : i = x
    · subst hi
      rw [update_self, if_neg (by rw [hx.isNil]; simp)]
      exact hx
    · rw [update_of_ne hi]
      obtain ⟨n, p, hn, -⟩ := hash_edge (h i) fun hti ↦ means_hash (h i) (hs i) hti
      exact ⟨n, p, hn⟩
  choose nodes puts hr using hedge
  obtain ⟨c, puts', hr', -⟩ := hash_full hr
  exact ⟨_, _, hr'⟩

end Hash

theorem insert_stale {ep : UInt32} (v : Bytes) {fuel : ℕ} {b : Bool}
    (hd : Means K S (.right K) node t) (hs : Sound b t) {s : List Nibble}
    (hk : Patricia.Rest terminator b s) (hst : node.stale ep s = true)
    (hf : 2 * s.length + 3 + node.isRef.toNat ≤ fuel) :
    ∃ node', node.insert K S ep fuel s v = .ok node' ∧ HashesTo K node' (foldItem K (item K t)) := by
  induction fuel generalizing node t b s with
  | zero => omega
  | succ fuel ih =>
    cases hd with
    | nil | value w | ref => cases hst
    | @short cached key child t hm h =>
      obtain ⟨b', rfl, hne, hp, -, hc⟩ := hs.short
      have hkl := length_pos_of_ne_nil hne
      have hb := child.isRef.toNat_le
      rw [Node.stale, Bool.and_eq_true, decide_eq_true_iff] at hst
      obtain ⟨⟨rest, rfl⟩, hst⟩ := hst
      rw [drop_left] at hst
      simp only [Node.isRef, Bool.toNat_false, length_append] at hf
      obtain ⟨node', hr, node'', puts, hh⟩ := ih h (fun _ ↦ hc) (hp.rest hk) hst (by omega)
      refine ⟨.short [] key node', ?_, ?_⟩
      · simp [Node.insert, Patricia.Tree.prefixLen_append_self, hr]
      · obtain ⟨c, puts', hh', -⟩ := hash_short key hh
        exact ⟨_, _, hh'⟩
    | @full cached e edges ts hm h =>
      obtain ⟨rfl, hs', -⟩ := hs.full
      obtain ⟨x, s, rfl⟩ := exists_cons_of_ne_nil (Patricia.Closed.ne_nil hk)
      have hb := (edges x).isRef.toNat_le
      simp only [Node.isRef, Bool.toNat_false, length_cons] at hf
      have hrest := (Patricia.front_singleton x).rest hk
      by_cases hown : e = ep ∧ cached ≠ []
      · have hkeep : (edges x).Keeps .any ep v (ts x) s := .inr (.inr fun _ _ ↦ trivial)
        have hf' : 2 * s.length + 3 + (edges x).isRef.toNat ≤ fuel := by omega
        obtain ⟨node', hr, -⟩ := means_insert v (Marks.any_unset _) (h x).any (hs' x) hrest hkeep hf'
        refine ⟨.full cached e (update edges x node'), ?_,
          .full cached e (update edges x node'), [], ?_⟩
        · simp only [Node.insert, hr, ok_bind, Node.writeNode, hown.1, if_true]
        · rw [hm hown.2, Node.hash, if_pos hown.2]
      · rw [Node.stale, decide_eq_false hown, Bool.false_or] at hst
        obtain ⟨node', hr, node'', puts, hh⟩ := ih (h x) (hs' x) hrest hst (by omega)
        refine ⟨.full [] ep (update edges x node'), ?_, ?_⟩
        · simp only [Node.insert, hr, ok_bind, Node.writeNode]
          split
          · rename_i he
            obtain rfl : cached = [] := by
              by_contra hne
              exact hown ⟨he.symm, hne⟩
            rw [he]
          · rfl
        · exact hash_full_update h hs' ⟨node'', puts, hh⟩

section Model

variable (K : Keccak) (S : Storage) (fuel : ℕ)

inductive Call
  | op (op : Op)
  | hash
deriving DecidableEq

def Txn.call (t : Txn) : Call → Outcome DecodeError (Txn × Option Hash)
  | .op op => (t.step K fuel S op).map fun t ↦ (t, none)
  | .hash => (t.hash K).map fun r ↦ (r.2.1, some r.1)

def Txn.calls : Txn → List Call → Outcome DecodeError (Txn × List Hash)
  | t, [] => .ok (t, [])
  | t, c :: cs => do
    let (t, root) ← t.call K S fuel c
    let (t, roots) ← t.calls cs
    .ok (t, root.toList ++ roots)

def Call.apply (m : Bytes → Option Bytes) : Call → Bytes → Option Bytes
  | .op o => o.apply m
  | .hash => m

def hashed : (Bytes → Option Bytes) → List Call → List (Bytes → Option Bytes)
  | _, [] => []
  | m, .op op :: cs => hashed (op.apply m) cs
  | m, .hash :: cs => m :: hashed m cs

def Call.Valid (l : ℕ) : Call → Prop
  | .op o => o.key.length = l
  | .hash => True

instance (l : ℕ) (c : Call) : Decidable (c.Valid l) := by
  cases c <;> unfold Call.Valid <;> infer_instance

/-- The call is no insertion that writes into a node with a cached hash and changes the contents. -/
def Call.Calm (t : Txn) (m : Bytes → Option Bytes) : Call → Prop
  | .op (.insert key value) =>
    t.root.stale t.epoch (bytesToHexNibbles key) = false ∨ m key = some value
  | _ => True

instance (t : Txn) (m : Bytes → Option Bytes) : (c : Call) → Decidable (c.Calm t m)
  | .op (.insert key value) => inferInstanceAs (Decidable
      (t.root.stale t.epoch (bytesToHexNibbles key) = false ∨ m key = some value))
  | .op (.delete _) => isTrue trivial
  | .op (.lookup _) => isTrue trivial
  | .hash => isTrue trivial

def Calm : Txn → (Bytes → Option Bytes) → List Call → Prop
  | _, _, [] => True
  | t, m, c :: cs => c.Calm t m ∧ ∀ r, t.call K S fuel c = .ok r → Calm r.1 (c.apply m) cs

instance Calm.decidable : ∀ t m cs, Decidable (Calm K S fuel t m cs)
  | _, _, [] => isTrue trivial
  | t, m, c :: cs =>
    have : DecidablePred fun r : Txn × Option Hash ↦ Calm K S fuel r.1 (c.apply m) cs :=
      fun r ↦ Calm.decidable r.1 (c.apply m) cs
    inferInstanceAs (Decidable
      (c.Calm t m ∧ ∀ r, t.call K S fuel c = .ok r → Calm K S fuel r.1 (c.apply m) cs))

end Model

def FreshRoot (K : Keccak) (l : ℕ) (m : Bytes → Option Bytes) (root : Hash) : Prop :=
  ∃ ops, (∀ op ∈ ops, op.key.length = l) ∧ contents noContents ops = m ∧
    ∀ fuel S, 4 * l + 6 ≤ fuel → ∃ t t' puts, newTrie.txn.run K fuel S ops = .ok t ∧
      t.hash K = .ok (root, t', puts)

structure Txn.Shows (K : Keccak) (S : Storage) (l : ℕ) (t : Txn) (tree : Tree) : Prop where
  means : Means K S (.right K) t.root tree
  shaped : Shaped (2 * l + 1) tree

theorem newTrie_shows (K : Keccak) (S : Storage) (l : ℕ) : newTrie.txn.Shows K S l .nil :=
  ⟨.nil, shaped_nil _⟩

section Fresh

variable {l : ℕ}

theorem contents_inserts (g : Bytes → Option Bytes) (keys : List Bytes) (m : Bytes → Option Bytes)
    (k : Bytes) : contents m (keys.filterMap fun k ↦ (g k).map (Op.insert k)) k =
      if k ∈ keys ∧ (g k).isSome then g k else m k := by
  induction keys generalizing m with
  | nil => simp [contents]
  | cons key keys ih =>
    cases hg : g key with
    | none =>
      rw [filterMap_cons_none (by rw [hg]; rfl), ih]
      by_cases hk : k = key
      · subst hk
        simp [hg]
      · simp [hk]
    | some v =>
      rw [filterMap_cons_some (by rw [hg]; rfl)]
      change contents ((Op.insert key v).apply m) _ k = _
      rw [ih, Op.apply]
      by_cases hk : k = key
      · subst hk
        simp [hg]
      · simp [hk]

theorem exists_inserts {tree : Tree} (h : Shaped (2 * l + 1) tree) :
    ∃ ops, (∀ op ∈ ops, op.key.length = l) ∧ contents noContents ops = treeMap tree := by
  have hfin : Finite UInt8 := Finite.of_injective UInt8.toFin fun _ _ ↦ UInt8.toFin_inj.mp
  obtain ⟨keys, hkeys⟩ : ∃ keys : List Bytes, ∀ k, k ∈ keys ↔ k.length = l :=
    ⟨(finite_length_eq UInt8 l).toFinset.toList, fun k ↦ by simp⟩
  refine ⟨keys.filterMap fun k ↦ (treeMap tree k).map (Op.insert k), ?_, ?_⟩
  · intro op hop
    obtain ⟨k, hk, hop⟩ := mem_filterMap.mp hop
    obtain ⟨v, -, rfl⟩ := Option.map_eq_some_iff.mp hop
    exact (hkeys k).mp hk
  · funext k
    rw [contents_inserts]
    split
    · rfl
    · rename_i hno
      cases hg : treeMap tree k with
      | none => rfl
      | some v =>
        have hne : tree ≠ .nil := by
          rintro rfl
          cases hg
        have hlen := (h.canonical hne).length_of_get hg
        rw [length_bytesToHexNibbles] at hlen
        exact absurd ⟨(hkeys k).mpr (by omega), by rw [hg]; rfl⟩ hno

theorem freshRoot_rootOf (hK : K.Faithful) {tree : Tree} (h : Shaped (2 * l + 1) tree) :
    FreshRoot K l (treeMap tree) (rootOf K tree) := by
  obtain ⟨ops, hops, hm⟩ := exists_inserts h
  refine ⟨ops, hops, hm, fun fuel S hf ↦ ?_⟩
  have hopen : newTrie.txn.Opens K S (Fresh 1) l .nil := ⟨.nil, shaped_nil _, rfl⟩
  obtain ⟨t, tree', hrun, hopen', -, hm'⟩ := Txn.run_spec hK (label_fresh 1) hopen hops hf
  obtain rfl : tree' = tree := hopen'.shaped.eq_of_treeMap h (hm'.trans hm)
  obtain ⟨root, t', puts, hhash, -, -, rfl, -⟩ :=
    Txn.hash_spec (fun _ _ _ ↦ trivial) (fun _ _ _ _ ↦ trivial) hopen'
  exact ⟨t, t', puts, hrun, hhash⟩

end Fresh

namespace Txn

variable {l fuel : ℕ} {t : Txn} {tree : Tree}

theorem hash_eq {node' : Node} {puts : Storage} (hs : Shaped (2 * l + 1) tree) (hn : tree ≠ .nil)
    (h : t.root.hash K = .ok (foldItem K (item K tree), node', puts)) :
    ∃ puts', t.hash K = .ok (rootOf K tree, { t with root := node' }, puts') := by
  have hnil : ¬ t.root.isNil = true := by
    rw [HashesTo.isNil ⟨_, _, h⟩]
    simp
  obtain ⟨elems, ha⟩ := item_array (hs.canonical hn) (by omega)
  rw [rootOf_of_ne K hn, hash, if_neg hnil, h, ok_bind, ha]
  by_cases hl : (K.marshal (.array elems)).length < 32
  · rw [foldItem, if_pos hl]
    exact ⟨_, rfl⟩
  · rw [foldItem, if_neg hl]
    simp only [(K.keccak256Rlp (.array elems)).length_eq, ne_eq, not_true, if_false, bytesToHash,
      FixedBytes.ofBytes_bytes]
    exact ⟨_, rfl⟩

theorem Shows.hash (h : t.Shows K S l tree) :
    ∃ t' puts, t.hash K = .ok (rootOf K tree, t', puts) ∧ t'.Shows K S l tree := by
  by_cases hn : tree = .nil
  · refine ⟨t, [], ?_, h⟩
    rw [Txn.hash, if_pos (h.means.isNil.mpr hn), hn]
    rfl
  · obtain ⟨node', puts, hr, hd⟩ := means_hash h.means h.shaped.sound hn
    obtain ⟨puts', hh⟩ := hash_eq h.shaped hn hr
    exact ⟨_, puts', hh, hd, h.shaped⟩

variable {key : Bytes}

section

variable (h : t.Shows K S l tree) (hk : key.length = l)
include h hk

theorem Shows.insert {value : Bytes}
    (hcalm : (Call.op (.insert key value)).Calm t (treeMap tree)) (hf : 4 * l + 6 ≤ fuel) :
    ∃ t', t.insert K S fuel key value = .ok t' ∧
      t'.Shows K S l (tree.insert (bytesToHexNibbles key) value) := by
  have href := t.root.isRef.toNat_le
  have hlen : (bytesToHexNibbles key).length = 2 * l + 1 := by rw [length_bytesToHexNibbles, hk]
  obtain ⟨hshape, hne⟩ := h.shaped.insert hk value
  have hget := treeMap_update (h.shaped.get_insert hk value)
  have hkeep : t.root.Keeps (.right K) t.epoch value tree (bytesToHexNibbles key) := by
    obtain hst | hsame := hcalm
    · exact .inl hst
    · refine .inr (.inl (hshape.eq_of_treeMap h.shaped ?_))
      rw [hget, update_eq_self_iff, hsame]
  have hf' : 2 * (bytesToHexNibbles key).length + 3 + t.root.isRef.toNat ≤ fuel := by omega
  obtain ⟨node', hr, hd, -⟩ := means_insert value (Marks.right_unset K _) h.means h.shaped.sound
    (closed_bytesToHexNibbles key) hkeep hf'
  have hnil : node'.isNil = false := by
    rwa [← Bool.not_eq_true, hd.isNil]
  refine ⟨{ t with root := node' }, ?_, hd, hshape⟩
  simp only [Txn.insert, hr, ok_bind, hnil]
  rfl

theorem Shows.insert_stale (value : Bytes)
    (hst : t.root.stale t.epoch (bytesToHexNibbles key) = true) (hf : 4 * l + 6 ≤ fuel) :
    ∃ t' t'' puts, t.insert K S fuel key value = .ok t' ∧
      t'.hash K = .ok (rootOf K tree, t'', puts) := by
  have href := t.root.isRef.toNat_le
  have hlen : (bytesToHexNibbles key).length = 2 * l + 1 := by rw [length_bytesToHexNibbles, hk]
  have hn : tree ≠ .nil := by
    rintro rfl
    rw [h.means.eq_nil] at hst
    cases hst
  have hf' : 2 * (bytesToHexNibbles key).length + 3 + t.root.isRef.toNat ≤ fuel := by omega
  obtain ⟨node', hr, node'', puts, hh⟩ := Itrie.insert_stale value h.means h.shaped.sound
    (closed_bytesToHexNibbles key) hst hf'
  have hnil := HashesTo.isNil ⟨_, _, hh⟩
  obtain ⟨puts', hroot⟩ := hash_eq (t := { t with root := node' }) h.shaped hn hh
  refine ⟨{ t with root := node' }, _, puts', ?_, hroot⟩
  simp only [Txn.insert, hr, ok_bind, hnil]
  rfl

theorem Shows.delete (hf : 4 * l + 6 ≤ fuel) :
    ∃ t', t.delete K S fuel key = .ok t' ∧ t'.Shows K S l (pruned tree key) := by
  have hf' : 4 * key.length + 6 ≤ fuel := by omega
  obtain ⟨node, res, hr, hd, -⟩ :=
    means_pruned (Marks.right_unset K 0) h.means h.shaped.sound key hf'
  refine ⟨{ t with root := res.getD node }, ?_, hd, (h.shaped.pruned hk).1⟩
  simp only [Txn.delete, hr, ok_bind]

theorem Shows.lookup (hf : 4 * l + 6 ≤ fuel) :
    ∃ t' res, t.lookup K S fuel key = .ok (t', res) ∧ t'.Shows K S l tree := by
  obtain ⟨t', hr, hd⟩ := lookup_means h.means h.shaped.sound key (hk ▸ hf)
  exact ⟨t', _, hr, hd, h.shaped⟩

end

theorem Shows.step (h : t.Shows K S l tree) {op : Op} (hop : op.key.length = l)
    (hcalm : (Call.op op).Calm t (treeMap tree)) (hf : 4 * l + 6 ≤ fuel) :
    ∃ t' tree', t.step K fuel S op = .ok t' ∧ t'.Shows K S l tree' ∧
      treeMap tree' = op.apply (treeMap tree) := by
  cases op with
  | insert key value =>
    obtain ⟨t', hr, hs⟩ := h.insert hop hcalm hf
    exact ⟨t', _, hr, hs, treeMap_update (h.shaped.get_insert hop value)⟩
  | delete key =>
    obtain ⟨t', hr, hs⟩ := h.delete hop hf
    exact ⟨t', _, hr, hs, (h.shaped.pruned hop).2⟩
  | lookup key =>
    have hk : key.length = l := hop
    obtain ⟨t', res, hr, hs⟩ := h.lookup hk hf
    exact ⟨t', tree, by simp only [Txn.step, hr, Outcome.map], hs, rfl⟩

theorem Shows.calls (h : t.Shows K S l tree) {calls : List Call} (hv : ∀ c ∈ calls, c.Valid l)
    (hcalm : Calm K S fuel t (treeMap tree) calls) (hf : 4 * l + 6 ≤ fuel) (hK : K.Faithful) :
    ∃ t' tree' roots, t.calls K S fuel calls = .ok (t', roots) ∧ t'.Shows K S l tree' ∧
      treeMap tree' = calls.foldl Call.apply (treeMap tree) ∧
      Forall₂ (FreshRoot K l) (hashed (treeMap tree) calls) roots := by
  induction calls generalizing t tree with
  | nil => exact ⟨t, tree, [], rfl, h, rfl, .nil⟩
  | cons c calls ih =>
    have hv' := fun c hc ↦ hv c (mem_cons_of_mem _ hc)
    obtain ⟨hc, hrest⟩ := hcalm
    cases c with
    | op op =>
      obtain ⟨t₁, tree₁, hr, hs, hm⟩ := h.step (hv _ mem_cons_self) hc hf
      have hcall : t.call K S fuel (.op op) = .ok (t₁, none) := by
        simp only [Txn.call, hr, Outcome.map]
      have hcalm' : Calm K S fuel t₁ (treeMap tree₁) calls := hm ▸ hrest _ hcall
      obtain ⟨t', tree', roots, hr', hs', hm', hroots⟩ := ih hs hv' hcalm'
      refine ⟨t', tree', roots, ?_, hs', ?_, ?_⟩
      · simp only [Txn.calls, hcall, ok_bind, hr']
        rfl
      · rw [hm', hm]
        rfl
      · rw [hm] at hroots
        exact hroots
    | hash =>
      obtain ⟨t₁, puts, hr, hs⟩ := h.hash
      have hcall : t.call K S fuel .hash = .ok (t₁, some (rootOf K tree)) := by
        simp only [Txn.call, hr, Outcome.map]
      obtain ⟨t', tree', roots, hr', hs', hm', hroots⟩ := ih hs hv' (hrest _ hcall)
      refine ⟨t', tree', rootOf K tree :: roots, ?_, hs', hm', ?_⟩
      · simp only [Txn.calls, hcall, ok_bind, hr']
        rfl
      · exact .cons (freshRoot_rootOf hK h.shaped) hroots

end Txn

/-- In a run of calm calls every hash is the root of a fresh trie with the contents at that call;
the first insertion that is not calm is hidden from a hash after it. -/
theorem hash_calls_fresh (hK : K.Faithful) {l fuel : ℕ} {t : Txn} {tree : Tree}
    (h : t.Shows K S l tree) {calls : List Call} (hv : ∀ c ∈ calls, c.Valid l)
    (hcalm : Calm K S fuel t (treeMap tree) calls) (hf : 4 * l + 6 ≤ fuel) :
    ∃ t' roots, t.calls K S fuel calls = .ok (t', roots) ∧
      Forall₂ (FreshRoot K l) (hashed (treeMap tree) calls) roots ∧
      ∀ key value, key.length = l →
        ¬ (Call.op (.insert key value)).Calm t' (calls.foldl Call.apply (treeMap tree)) →
        ∃ t₁ t₂ root puts, t'.insert K S fuel key value = .ok t₁ ∧ t₁.hash K = .ok (root, t₂, puts) ∧
          FreshRoot K l (calls.foldl Call.apply (treeMap tree)) root := by
  obtain ⟨t', tree', roots, hr, hs, hm, hroots⟩ := h.calls hv hcalm hf hK
  refine ⟨t', roots, hr, hroots, fun key value hk hno ↦ ?_⟩
  have hst : t'.root.stale t'.epoch (bytesToHexNibbles key) = true := by
    by_contra hst
    exact hno (.inl (Bool.not_eq_true _ ▸ hst))
  obtain ⟨t₁, t₂, puts, hi, hh⟩ := hs.insert_stale hk value hst hf
  exact ⟨t₁, t₂, _, puts, hi, hh, hm ▸ freshRoot_rootOf hK hs.shaped⟩

def zeroLeaf (v : UInt8) : Bytes := [0xe2, 0xa0, 0x30] ++ replicate 31 0 ++ [v]

def twoChildren (a b : Hash) : Bytes :=
  [0xf8, 0x51, 0xa0] ++ a.bytes ++ [0xa0] ++ b.bytes ++ replicate 15 0x80

def leafOne : Hash :=
  bytesToHash (BigEndian.toBytes 0x51786a8d3bc13523fe2a4a4de42ba891617b2aad3a2da9a0681c6efa2263f434)

def leafTwo : Hash :=
  bytesToHash (BigEndian.toBytes 0x6e9c0ad64301ea72977e7b346f6b5762c993b45bf7dabfb51c0957d1d6455b6b)

def rootOne : Hash :=
  bytesToHash (BigEndian.toBytes 0x1010b703e7ece9f88636761fa327fa28338d587a9c0fa375948f5d572df4c228)

def rootTwo : Hash :=
  bytesToHash (BigEndian.toBytes 0x8437af4e72e0beac459c5d633364951f133f03c6fbd6332f25be3e6000775b85)

noncomputable def leafKeccak : Keccak :=
  { rlpCodec with
    keccak256 := fun b ↦
      if b = zeroLeaf 1 then leafOne
      else if b = zeroLeaf 2 then leafTwo
      else if b = twoChildren leafOne leafOne then rootOne
      else if b = twoChildren leafTwo leafOne then rootTwo
      else emptyRoot }

def zeroKey : Bytes := replicate 32 0

def otherKey : Bytes := 0x10 :: replicate 31 0

def calmCalls : List Call :=
  [.op (.insert zeroKey [1]), .op (.insert otherKey [1]), .hash, .op (.insert zeroKey [1]),
    .op (.delete otherKey), .hash]

theorem hash_calls_fresh_calm :
    ∃ t' roots, newTrie.txn.calls leafKeccak [] 140 calmCalls = .ok (t', roots) ∧
      Forall₂ (FreshRoot leafKeccak 32) (hashed (treeMap .nil) calmCalls) roots ∧
      ∀ key value, key.length = 32 →
        ¬ (Call.op (.insert key value)).Calm t' (calmCalls.foldl Call.apply (treeMap .nil)) →
        ∃ t₁ t₂ root puts, t'.insert leafKeccak [] 140 key value = .ok t₁ ∧
          t₁.hash leafKeccak = .ok (root, t₂, puts) ∧
          FreshRoot leafKeccak 32 (calmCalls.foldl Call.apply (treeMap .nil)) root :=
  hash_calls_fresh rlpCodec_faithful (newTrie_shows _ _ _) (by decide) (by decide +kernel)
    (by decide)

def hashes (K : Keccak) (calls : List Call) : Outcome DecodeError (List Hash) :=
  (newTrie.txn.calls K [] 140 calls).map Prod.snd

/-- The second hash misses the insertion between the two; without the first hash it is right. -/
theorem hash_after_insert_stale :
    hashes leafKeccak [.op (.insert zeroKey [1]), .op (.insert otherKey [1]), .hash,
        .op (.insert zeroKey [2]), .hash] = .ok [rootOne, rootOne] ∧
      hashes leafKeccak [.op (.insert zeroKey [1]), .op (.insert otherKey [1]),
        .op (.insert zeroKey [2]), .hash] = .ok [rootTwo] ∧
      hashes leafKeccak [.op (.insert zeroKey [2]), .op (.insert otherKey [1]), .hash] =
        .ok [rootTwo] ∧ rootOne ≠ rootTwo := by
  decide +kernel

end Mainnet.Itrie
