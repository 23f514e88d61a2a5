import Mathlib.Data.List.GetD
import Mainnet.Itrie.Node

namespace Mainnet.Itrie

open Types Lib List Outcome Patricia.Tree

abbrev Tree := Patricia.Tree Nibble Bytes

section Items

variable (K : Keccak)

def foldItem : Rlp.Value → Rlp.Value
  | .bytes b => .bytes b
  | .array elems =>
    if (K.marshal (.array elems)).length < 32 then .array elems
    else .bytes (K.keccak256Rlp (.array elems)).bytes

def item : Tree → Rlp.Value
  | .nil => .bytes []
  | .leaf v => .bytes v
  | .short key child => .array [.bytes (encodeCompact key), foldItem K (item child)]
  | .full edges => .array ((finRange 17).map fun i ↦ foldItem K (item (edges i)))

/-- The storage has an item, unless the item is small enough to be embedded. -/
def Kept (S : Storage) (v : Rlp.Value) : Prop :=
  32 ≤ (K.marshal v).length → S.get (K.keccak256Rlp v).bytes = some (K.marshal v)

def Stored (S : Storage) : Tree → Prop
  | .nil => True
  | .leaf _ => True
  | .short key child => Kept K S (item K (.short key child)) ∧ Stored S child
  | .full edges => Kept K S (item K (.full edges)) ∧ ∀ i, Stored S (edges i)

/-- A cached hash is the hash of the node's item, and the storage has everything below it. -/
def CacheOk (S : Storage) (cached : Bytes) (t : Tree) : Prop :=
  cached ≠ [] → cached = (K.keccak256Rlp (item K t)).bytes ∧
    32 ≤ (K.marshal (item K t)).length ∧ Stored K S t

/-- The tree that a node stands for. `P` is what is known of the cached hash and the epoch of
every full node. -/
inductive Denotes (S : Storage) (P : Bytes → UInt32 → Prop) : Node → Tree → Prop
  | nil : Denotes S P .nil .nil
  | value (v : Bytes) : Denotes S P (.value false v) (.leaf v)
  | ref {t : Tree} (hs : Stored K S t) (ha : ∃ elems, item K t = .array elems)
      (hl : 32 ≤ (K.marshal (item K t)).length) :
      Denotes S P (.value true (K.keccak256Rlp (item K t)).bytes) t
  | short {cached : Bytes} {key : List Nibble} {child : Node} {t : Tree}
      (hc : CacheOk K S cached (.short key t)) (h : Denotes S P child t) :
      Denotes S P (.short cached key child) (.short key t)
  | full {cached : Bytes} {e : UInt32} {edges : Nibble → Node} {ts : Nibble → Tree}
      (hc : CacheOk K S cached (.full ts)) (hp : P cached e)
      (h : ∀ i, Denotes S P (edges i) (ts i)) : Denotes S P (.full cached e edges) (.full ts)

end Items

def Keyed (t : Tree) : Prop := ∀ k v, t.get k = some v → KeyTail k

variable {K : Keccak} {S S' : Storage} {P P' : Bytes → UInt32 → Prop}

theorem cacheOk_nil (t : Tree) : CacheOk K S [] t := fun h ↦ absurd rfl h

section Shape

variable {n : ℕ} {key : List Nibble} {t : Tree} {edges : Nibble → Tree}

theorem Keyed.edge (h : Keyed (.full edges)) (i : Nibble) : Keyed (edges i) :=
  fun k v hk ↦ (h (i :: k) v hk).of_append (p := [i])

theorem Keyed.child (h : Keyed (.short key t)) : Keyed t :=
  fun k v hk ↦ (h (key ++ k) v (by simpa using hk)).of_append

theorem Keyed.full (h : Keyed (.full edges)) (hc : Canonical n (.full edges)) :
    edges terminator = .nil ∧ 2 ≤ n := by
  cases hc with
  | @full _ n' _ hm he h2 =>
    have hn : n' ≠ 0 := by
      rintro rfl
      have hterm : ∀ i, edges i ≠ .nil → i = terminator := by
        intro i hi
        obtain ⟨k, v, hk⟩ := (he i hi).exists_key
        obtain rfl := length_eq_zero_iff.mp ((he i hi).length_of_get hk)
        exact h [i] v hk
      obtain ⟨i, j, hij, hi, hj⟩ := h2
      exact hij ((hterm i hi).trans (hterm j hj).symm)
    refine ⟨?_, by omega⟩
    by_contra hne
    obtain ⟨k, v, hk⟩ := (he _ hne).exists_key
    have hl := (he _ hne).length_of_get hk
    refine (h (terminator :: k) v hk).digits_of_append (p := [terminator]) ?_ terminator
      (by simp) rfl
    rintro rfl
    exact hn hl.symm

theorem Keyed.short_leaf {v : Bytes} (h : Keyed (.short key (.leaf v))) (hk : key ≠ []) :
    ∃ d, key = d ++ [terminator] ∧ ∀ x ∈ d, x ≠ terminator := by
  have hkey : KeyTail key := h key v (by simpa using get_short_append key [] (.leaf v))
  exact hkey.eq_append_terminator hk

theorem Keyed.short_digits (h : Keyed (.short key t)) (hc : Canonical n t)
    (hn : n ≠ 0) : ∀ x ∈ key, x ≠ terminator := by
  obtain ⟨k, v, hk⟩ := hc.exists_key
  refine (h (key ++ k) v (by simpa using hk)).digits_of_append ?_
  rintro rfl
  exact hn (hc.length_of_get hk).symm

theorem item_array (hc : Canonical n t) (hn : n ≠ 0) : ∃ elems, item K t = .array elems := by
  cases hc with
  | leaf => exact absurd rfl hn
  | short | full => exact ⟨_, rfl⟩

end Shape

theorem decodeNodes_eq_map (vs : List Rlp.Value) : decodeNodes vs = vs.map decodeNode := by
  induction vs with
  | nil => rw [decodeNodes]; rfl
  | cons v vs ih => rw [decodeNodes, ih, map_cons]

def Node.isLoaded (n : Node) : Prop := n.isNil = false ∧ n.isRef = false

variable {n : ℕ} {t : Tree}

theorem decodeNode_foldItem (hc : Canonical n t) (hn : n ≠ 0) (hs : Stored K S t)
    (h : ∃ node, decodeNode (item K t) = .ok node ∧ Denotes K S P node t ∧ node.isLoaded) :
    ∃ node, decodeNode (foldItem K (item K t)) = .ok node ∧ Denotes K S P node t := by
  obtain ⟨elems, ha⟩ := item_array (K := K) hc hn
  by_cases hl : (K.marshal (item K t)).length < 32
  · obtain ⟨node, hd, hden, -⟩ := h
    refine ⟨node, ?_, hden⟩
    rw [ha] at hd hl ⊢
    rwa [foldItem, if_pos hl]
  · refine ⟨_, ?_, .ref hs ⟨elems, ha⟩ (Nat.le_of_not_lt hl)⟩
    rw [ha] at hl ⊢
    rw [foldItem, if_neg hl, decodeNode]

theorem decodeChild_foldItem (hc : Canonical n t) (hn : n ≠ 0)
    (child : Outcome DecodeError Node) : decodeChild (foldItem K (item K t)) child = child := by
  obtain ⟨elems, ha⟩ := item_array (K := K) hc hn
  rw [ha, foldItem]
  split
  · rfl
  · obtain ⟨b, bs, hb⟩ := exists_cons_of_length_eq_add_one (K.keccak256Rlp (.array elems)).length_eq
    rw [hb]
    rfl

theorem decodeNode_seventeen {f : Nibble → Rlp.Value} {nodes : Nibble → Node}
    (hc : ∀ i : Fin 16, decodeChild (f i.castSucc) (decodeNode (f i.castSucc)) =
      .ok (nodes i.castSucc))
    (hv : decodeValue (f terminator) = .ok (nodes terminator)) :
    decodeNode (.array ((finRange 17).map f)) = .ok (.full [] 0 nodes) := by
  have hget : ∀ i : Nibble, ((finRange 17).map f).getD i.val default = f i := by
    intro i
    rw [getD_eq_getElem _ _ (by simp), getElem_map, getElem_finRange]
    rfl
  have hnodes : ∀ i : Nibble, (((finRange 17).map f).map decodeNode).getD i.val .panic =
      decodeNode (f i) := by
    intro i
    rw [getD_eq_getElem _ _ (by simp), getElem_map, getElem_map, getElem_finRange]
    rfl
  rw [decodeNode, decodeNodes_eq_map, decodeElems]
  · have hcollect := collect_ok fun i : Fin 16 ↦
      (congrArg₂ decodeChild (hget i.castSucc) (hnodes i.castSucc)).trans (hc i)
    rw [if_pos (by simp)]
    simp only [Fin.val_castSucc] at hcollect
    have hvalue : decodeValue (((finRange 17).map f).getD 16 default) =
        .ok (nodes terminator) := (congrArg decodeValue (hget terminator)).trans hv
    rw [hcollect, ok_bind, hvalue, ok_bind]
    congr 2
    funext i
    split
    · rfl
    · rename_i hi
      have := i.isLt
      congr 1
      exact (Fin.ext (by simp only [terminator]; omega) : terminator = i)
  · intro key val x child hkv
    exact absurd (congrArg length hkv) (by simp)

theorem decodeNode_item (hP : P [] 0) (hc : Canonical n t)
    (hn : n ≠ 0) (hk : Keyed t) (hs : Stored K S t) :
    ∃ node, decodeNode (item K t) = .ok node ∧ Denotes K S P node t ∧ node.isLoaded := by
  induction hc with
  | leaf v => exact absurd rfl hn
  | @short m n key child hm hkey hshort hchild ih =>
    rw [item, decodeNode, decodeNodes_eq_map]
    simp only [map_cons, map_nil, decodeElems, decodeShort]
    cases hchild with
    | leaf v =>
      obtain ⟨d, rfl, hd⟩ := hk.short_leaf hkey
      rw [(decodeCompact_encodeCompact hd).2]
      refine ⟨_, ?_, .short (cacheOk_nil _) (.value v), rfl, rfl⟩
      simp [hasTerminator_append, item, foldItem]
    | short => exact absurd rfl (hshort _ _)
    | full hm' he h2 =>
      have hc' := Canonical.full hm' he h2
      have hn' : n ≠ 0 := by omega
      have hd := hk.short_digits hc' hn'
      obtain ⟨node, hdec, hden⟩ := decodeNode_foldItem hc' hn' hs.2 (ih hn' hk.child hs.2)
      rw [(decodeCompact_encodeCompact hd).1, hdec]
      refine ⟨_, ?_, .short (cacheOk_nil _) hden, rfl, rfl⟩
      simp [hasTerminator_of_digits hd, Outcome.map]
  | @full m n edges hm he h2 ih =>
    obtain ⟨hterm, hm2⟩ := hk.full (.full hm he h2)
    have hn' : n ≠ 0 := by omega
    have hchild : ∀ i, ∃ node, (edges i = .nil → node = .nil) ∧
        (edges i ≠ .nil → decodeNode (foldItem K (item K (edges i))) = .ok node) ∧
        Denotes K S P node (edges i) := by
      intro i
      by_cases hi : edges i = .nil
      · exact ⟨.nil, fun _ ↦ rfl, fun h ↦ absurd hi h, hi ▸ .nil⟩
      · obtain ⟨node, hdec, hden⟩ := decodeNode_foldItem (he i hi) hn' (hs.2 i)
          (ih i hi hn' (hk.edge i) (hs.2 i))
        exact ⟨node, fun h ↦ absurd h hi, fun _ ↦ hdec, hden⟩
    choose nodes hnil hdec hden using hchild
    refine ⟨.full [] 0 nodes, ?_, .full (cacheOk_nil _) hP hden, rfl, rfl⟩
    apply decodeNode_seventeen
    · intro i
      by_cases hi : edges i.castSucc = .nil
      · rw [hi, hnil _ hi]
        rfl
      · rw [decodeChild_foldItem (he _ hi) hn', hdec _ hi]
    · rw [hterm, hnil _ hterm]
      rfl

theorem getNode_item (hK : K.Faithful) (hP : P [] 0) {h : Bytes}
    (hg : S.get h = some (K.marshal (item K t))) (hc : Canonical n t) (hn : n ≠ 0)
    (hk : Keyed t) (hs : Stored K S t) :
    ∃ node, getNode K S h = .ok (some node) ∧ Denotes K S P node t ∧ node.isLoaded := by
  obtain ⟨node, hdec, hden, hl⟩ := decodeNode_item hP hc hn hk hs
  obtain ⟨elems, ha⟩ := item_array (K := K) hc hn
  refine ⟨node, ?_, hden, hl⟩
  rw [ha] at hdec
  simp only [getNode, hg, hK.parse_marshal, ha, hdec, Outcome.map]

end Mainnet.Itrie
