import Mainnet.Lib.PatriciaWords
import Mainnet.Itrie.Resolve

namespace Mainnet.Itrie

open Types Lib List Function Outcome Bool Patricia.Tree Patricia.Closed Node Patricia

/-- What is known of the buffer of a reference and of the cached hashes, each with the tree that
its node stands for. -/
structure Marks where
  ref : Bytes → Tree → Prop
  short : Bytes → Tree → Prop
  full : Bytes → UInt32 → Tree → Prop

def Marks.any : Marks := ⟨fun _ _ ↦ True, fun _ _ ↦ True, fun _ _ _ ↦ True⟩

/-- A node without a cached hash needs no mark, be it loaded or made by a transaction of epoch
`ep`. -/
structure Marks.Unset (M : Marks) (ep : UInt32) : Prop where
  short : ∀ t, M.short [] t
  loaded : ∀ t, M.full [] 0 t
  own : ∀ t, M.full [] ep t

theorem Marks.any_unset (ep : UInt32) : Marks.any.Unset ep :=
  ⟨fun _ ↦ trivial, fun _ ↦ trivial, fun _ ↦ trivial⟩

/-- The tree that a node stands for, through the references that the storage resolves. -/
inductive Means (K : Keccak) (S : Storage) (M : Marks) : Node → Tree → Prop
  | nil : Means K S M .nil .nil
  | value (v : Bytes) : Means K S M (.value false v) (.leaf v)
  | ref {buf : Bytes} {nc : Node} {t : Tree} (hg : getNode K S buf = .ok (some nc))
      (hm : M.ref buf t) (h : Means K S M nc t) : Means K S M (.value true buf) t
  | short {cached : Bytes} {key : List Nibble} {child : Node} {t : Tree}
      (hm : M.short cached (.short key t)) (h : Means K S M child t) :
      Means K S M (.short cached key child) (.short key t)
  | full {cached : Bytes} {e : UInt32} {edges : Nibble → Node} {ts : Nibble → Tree}
      (hm : M.full cached e (.full ts)) (h : ∀ i, Means K S M (edges i) (ts i)) :
      Means K S M (.full cached e edges) (.full ts)

variable {K : Keccak} {S : Storage} {M : Marks} {node : Node} {t : Tree}

inductive Node.Bare : Node → Prop
  | nil : nil.Bare
  | value (hash : Bool) (buf : Bytes) : (value hash buf).Bare
  | short (key : List Nibble) {child : Node} (h : child.Bare) : (short [] key child).Bare
  | full {edges : Nibble → Node} (h : ∀ i, (edges i).Bare) : (full [] 0 edges).Bare

variable {nc : Node} {buf : Bytes} {ts : Nibble → Tree} {b : Bool} {key : List Nibble}

theorem decodeElems_cases {elems : List Rlp.Value} {nodes : List (Outcome DecodeError Node)}
    (hnodes : ∀ r ∈ nodes, ∀ n, r = .ok n → n.Bare) (h : decodeElems elems nodes = .ok nc) :
    nc.Bare ∧ ((∃ key child, nc = .short [] key child) ∨ ∃ edges, nc = .full [] 0 edges) := by
  unfold decodeElems at h
  split at h
  · rename_i key val _ child
    unfold decodeShort at h
    split at h
    · cases h
    split at h
    · cases h
    split at h
    · split at h <;> cases h
      exact ⟨.short _ (.value _ _), .inl ⟨_, _, rfl⟩⟩
    · obtain ⟨n, hn, rfl⟩ := map_eq_ok.mp h
      exact ⟨.short _ (hnodes child (by simp) n hn), .inl ⟨_, _, rfl⟩⟩
  · split at h
    · obtain ⟨children, hch, h⟩ := bind_eq_ok.mp h
      obtain ⟨value, hval, h⟩ := bind_eq_ok.mp h
      cases h
      refine ⟨.full fun i ↦ ?_, .inr ⟨_, rfl⟩⟩
      split
      · rename_i hi
        have hc := of_collect_eq_ok hch ⟨i, hi⟩
        unfold decodeChild at hc
        split at hc
        · rw [← Outcome.ok.inj hc]
          exact .nil
        · by_cases hlen : i.val < nodes.length
          · rw [getD_eq_getElem _ _ hlen] at hc
            exact hnodes _ (getElem_mem hlen) _ hc
          · rw [getD_eq_default _ _ (Nat.le_of_not_lt hlen)] at hc
            cases hc
      · unfold decodeValue at hval
        split at hval <;> cases hval
        · exact .nil
        · exact .value _ _
    · cases h

mutual

theorem decodeNode_bare (v : Rlp.Value) {node : Node} (h : decodeNode v = .ok node) :
    node.Bare := by
  cases v with
  | bytes b =>
    rw [decodeNode] at h
    cases h
    exact .value _ _
  | array elems =>
    rw [decodeNode] at h
    exact (decodeElems_cases (decodeNodes_bare elems) h).1

theorem decodeNodes_bare (vs : List Rlp.Value) : ∀ r ∈ decodeNodes vs, ∀ n, r = .ok n → n.Bare := by
  cases vs with
  | nil =>
    intro r hr
    rw [decodeNodes] at hr
    cases hr
  | cons v vs =>
    intro r hr n hn
    rw [decodeNodes] at hr
    obtain rfl | hr := mem_cons.mp hr
    · exact decodeNode_bare v hn
    · exact decodeNodes_bare vs r hr n hn

end

section

variable (h : getNode K S buf = .ok (some nc))
include h

theorem getNode_cases :
    nc.Bare ∧ ((∃ key child, nc = .short [] key child) ∨ ∃ edges, nc = .full [] 0 edges) := by
  rw [getNode] at h
  split at h
  · cases h
  split at h
  · cases h
  · cases h
  · rename_i v hv _
    obtain ⟨n, hn, hnc⟩ := map_eq_ok.mp h
    obtain rfl := Option.some.inj hnc
    cases v with
    | bytes b => exact absurd rfl (hv b)
    | array elems =>
      rw [decodeNode] at hn
      exact decodeElems_cases (decodeNodes_bare elems) hn

theorem getNode_loaded : (∃ key child, nc = .short [] key child) ∨ ∃ edges, nc = .full [] 0 edges :=
  (getNode_cases h).2

theorem getNode_isRef : nc.isRef = false := by
  obtain ⟨_, _, rfl⟩ | ⟨_, rfl⟩ := getNode_loaded h <;> rfl

end

theorem Means.eq_nil (h : Means K S M node .nil) : node = .nil := by
  cases h with
  | nil => rfl
  | ref hg hm h => obtain ⟨_, _, rfl⟩ | ⟨_, rfl⟩ := getNode_loaded hg <;> cases h

theorem Means.isNil (h : Means K S M node t) : node.isNil = true ↔ t = .nil := by
  constructor
  · intro hn
    cases h <;> first | rfl | cases hn
  · rintro rfl
    rw [h.eq_nil]
    rfl

theorem Means.eq_value {v : Bytes} (h : Means K S M node (.leaf v)) : node = .value false v := by
  cases h with
  | value => rfl
  | ref hg hm h => obtain ⟨_, _, rfl⟩ | ⟨_, rfl⟩ := getNode_loaded hg <;> cases h

theorem Means.unique {t' : Tree} (h : Means K S M node t) (h' : Means K S M node t') : t = t' := by
  induction h generalizing t' with
  | nil | value v => cases h'; rfl
  | ref hg hm h ih =>
    cases h' with
    | ref hg' _ h' =>
      cases hg.symm.trans hg'
      exact ih h'
  | short hm h ih =>
    cases h' with
    | short _ h' => rw [ih h']
  | full hm h ih =>
    cases h' with
    | full _ h' => exact congrArg Tree.full (funext fun i ↦ ih i (h' i))

theorem means_update {edges : Nibble → Node}
    (h : ∀ i, Means K S M (edges i) (ts i)) {k : Nibble} (hk : Means K S M node t) (i : Nibble) :
    Means K S M (update edges k node i) (update ts k t i) := by
  by_cases hi : i = k
  · subst hi
    rwa [update_self, update_self]
  · rw [update_of_ne hi, update_of_ne hi]
    exact h i

def Sound (b : Bool) (t : Tree) : Prop := t ≠ .nil → t.Proper terminator b

theorem sound_nil (b : Bool) : Sound b .nil := fun h ↦ absurd rfl h

theorem Sound.short (h : Sound b (.short key t)) :
    ∃ b', b = false ∧ key ≠ [] ∧ Front terminator b' key ∧ (∀ k c, t ≠ .short k c) ∧
      t.Proper terminator b' := by
  cases h (by simp) with
  | short hk hp hs hc => exact ⟨_, rfl, hk, hp, hs, hc⟩

theorem Sound.full (h : Sound b (.full ts)) :
    b = false ∧ (∀ i, Sound (decide (i = terminator)) (ts i)) ∧
      ∃ i j, i ≠ j ∧ ts i ≠ .nil ∧ ts j ≠ .nil := by
  cases h (by simp) with
  | full he h2 => exact ⟨rfl, he, h2⟩

theorem Means.isRef_terminator (h : Means K S M node t) (hs : Sound b t)
    (hb : b = true) : node.isRef = false := by
  subst hb
  by_cases hn : t = .nil
  · subst hn
    rw [h.eq_nil]
    rfl
  · obtain ⟨v, rfl⟩ := (hs hn).eq_leaf
    rw [h.eq_value]
    rfl

theorem closed_bytesToHexNibbles (key : Bytes) : Closed terminator (bytesToHexNibbles key) := by
  have hne : bytesToHexNibbles key ≠ [] := by
    intro h
    have := congrArg length h
    rw [length_bytesToHexNibbles] at this
    simp at this
  obtain ⟨d, hd, hdig⟩ := (keyTail_bytesToHexNibbles key).eq_append_terminator hne
  exact ⟨d, hd, fun hm ↦ hdig _ hm rfl⟩

theorem means_lookup {fuel : ℕ} (hd : Means K S M node t) (hs : Sound b t)
    (hk : Rest terminator b key) (hf : 2 * key.length + 1 + node.isRef.toNat ≤ fuel) :
    ∃ node', node.lookup K S fuel key = .ok (node', t.get key) ∧ Means K S M node' t ∧
      (node.isRef = false → node'.isRef = false) := by
  induction fuel generalizing node t b key with
  | zero => omega
  | succ fuel ih =>
    cases hd with
    | nil => exact ⟨.nil, rfl, .nil, fun _ ↦ rfl⟩
    | value v => exact ⟨.value false v, rfl, .value v, fun _ ↦ rfl⟩
    | @ref buf nc _ hg hm h =>
      simp only [Node.isRef, toNat_true] at hf
      obtain ⟨node', hr, hden', -⟩ := ih h hs hk (by rw [getNode_isRef hg, toNat_false]; omega)
      exact ⟨node', by simp only [Node.lookup, hg, hr], hden', fun h ↦ by cases h⟩
    | @short cached k child t hm h =>
      obtain ⟨b', rfl, hne, hp, -, hc⟩ := hs.short
      have hkl := length_pos_of_ne_nil hne
      by_cases hpre : k <+: key
      · obtain ⟨rest, rfl⟩ := hpre
        have hb := child.isRef.toNat_le
        simp only [Node.isRef, toNat_false, length_append] at hf
        obtain ⟨node', hr, hden', -⟩ := ih h (fun _ ↦ hc) (hp.rest hk) (by omega)
        refine ⟨.short cached k node', ?_, .short hm hden', fun _ ↦ rfl⟩
        simp [Node.lookup, hr]
      · refine ⟨.short cached k child, ?_, .short hm h, fun _ ↦ rfl⟩
        have hcond : ¬ (k.length ≤ key.length ∧ key.take k.length = k) :=
          fun h ↦ hpre (prefix_iff_eq_take.mpr h.2.symm)
        rw [Node.lookup, if_neg hcond, get_short_of_mismatch t hpre]
    | @full cached e edges ts hm h =>
      obtain ⟨rfl, hs', -⟩ := hs.full
      obtain ⟨x, key, rfl⟩ := exists_cons_of_ne_nil (ne_nil hk)
      have hb := (edges x).isRef.toNat_le
      simp only [Node.isRef, toNat_false, length_cons] at hf
      have hrest := (front_singleton (T := terminator) x).rest (s := key) hk
      obtain ⟨node', hr, hden', -⟩ := ih (h x) (hs' x) hrest (by omega)
      have hok : ¬ (x = terminator ∧ (edges x).isRef = true ∧ (!node'.isRef) = true) := by
        rintro ⟨rfl, href, -⟩
        rw [(h terminator).isRef_terminator (hs' terminator) (decide_eq_true rfl)] at href
        cases href
      have hall := means_update h (k := x) hden'
      rw [update_eq_self] at hall
      refine ⟨.full cached e (update edges x node'), ?_, .full hm hall, fun _ ↦ rfl⟩
      simp only [Node.lookup, hr, ok_bind, if_neg hok, get_full_cons]

section Insert

variable {ep : UInt32} (v : Bytes)

def Node.stem (key : List Nibble) (node : Node) : Node :=
  if key = [] then node else .short [] key node

variable {key s : List Nibble} {fuel : ℕ} {cached : Bytes} {e : UInt32} {edges : Nibble → Node}
  {ts : Nibble → Tree} {k : Nibble}

theorem Node.stem_isRef (h : node.isRef = false) : (stem key node).isRef = false := by
  unfold stem
  split
  · exact h
  · rfl

theorem Means.stem (hU : M.Unset ep) (key : List Nibble) (h : Means K S M node t) :
    Means K S M (node.stem key) (t.stem key) := by
  cases key with
  | nil => exact h
  | cons e key => exact .short (hU.short _) h

theorem insert_nil (hf : 2 ≤ fuel) (s : List Nibble) :
    nil.insert K S ep fuel s v = .ok (stem s (.value false v)) := by
  obtain ⟨fuel, rfl⟩ := Nat.exists_eq_add_of_le hf
  rw [Nat.add_comm]
  cases s <;> rfl

def Node.fork (ep : UInt32) (a b : Nibble) (old new : Node) : Node :=
  .full [] ep (update (update noEdges a old) b new)

theorem insert_split {a b : Nibble} (hab : a ≠ b) (p ks ss : List Nibble) (hf : 3 ≤ fuel) :
    (short cached (p ++ a :: ks) node).insert K S ep (fuel + 1) (p ++ b :: ss) v =
      .ok (Node.stem p (Node.fork ep a b (Node.stem ks node) (Node.stem ss (.value false v)))) := by
  obtain ⟨fuel, rfl⟩ := Nat.exists_eq_add_of_le hf
  rw [Nat.add_comm 3 fuel]
  have hleaf : nil.insert K S ep (fuel + 2) ss v = .ok (stem ss (.value false v)) :=
    insert_nil v (by omega) ss
  have hplen : Tree.prefixLen (p ++ b :: ss) (p ++ a :: ks) = p.length := by
    rw [prefixLen_append, prefixLen_cons_of_ne hab.symm, Nat.add_zero]
  have hbranch : (full [] ep (update noEdges a (stem ks node))).insert K S ep
      (fuel + 3) (b :: ss) v =
        .ok (fork ep a b (stem ks node) (stem ss (.value false v))) := by
    rw [Node.insert, update_of_ne hab.symm, noEdges, hleaf, ok_bind, Node.writeNode, if_pos rfl]
    rfl
  have hold : (if ks = [] then node else .short [] ks node) = stem ks node := rfl
  rw [Node.insert, hplen]
  simp only [drop_left, take_left, hold, hbranch, ok_bind]
  cases p <;> rfl

/-- The insertion goes through a full node that it writes in place and that has a cached hash. -/
def Node.stale (ep : UInt32) : Node → List Nibble → Bool
  | .short _ key child, s => decide (key <+: s) && child.stale ep (s.drop key.length)
  | .full hash e edges, k :: s => decide (e = ep ∧ hash ≠ []) || (edges k).stale ep s
  | _, _ => false

theorem Node.Bare.stale (h : node.Bare) (ep : UInt32) (s : List Nibble) :
    node.stale ep s = false := by
  induction h generalizing s with
  | nil | value => rfl
  | short key h ih => rw [Node.stale, ih, Bool.and_false]
  | full h ih =>
    cases s with
    | nil => rfl
    | cons k s => simp [Node.stale, ih]

/-- The marks of the full nodes that an insertion writes in place stay right: it meets no cached
hash, or it changes nothing, or the marks say nothing. -/
def Node.Keeps (M : Marks) (ep : UInt32) (v : Bytes) (node : Node) (t : Tree) (s : List Nibble) :
    Prop :=
  node.stale ep s = false ∨ t.insert s v = t ∨ ∀ c t, M.full c ep t

theorem means_writeNode (hU : M.Unset ep) {hash : Bytes} (hw : e = ep → M.full hash e (.full ts))
    (h : ∀ i, Means K S M (edges i) (ts i)) :
    Means K S M (writeNode ep hash e edges) (.full ts) ∧
      (writeNode ep hash e edges).isRef = false := by
  unfold writeNode
  split
  · rename_i he
    exact ⟨.full (hw he.symm) h, rfl⟩
  · exact ⟨.full (hU.own _) h, rfl⟩

variable {v}

theorem Node.Keeps.short {rest : List Nibble} {child : Node}
    (h : (short cached key child).Keeps M ep v (.short key t) (key ++ rest)) :
    child.Keeps M ep v t rest := by
  obtain hst | heq | hM := h
  · exact .inl (by simpa [stale] using hst)
  · rw [insert_short_append, Tree.short.injEq] at heq
    exact .inr (.inl heq.2)
  · exact .inr (.inr hM)

theorem Node.Keeps.edge (h : (full cached e edges).Keeps M ep v (.full ts) (k :: s)) :
    (edges k).Keeps M ep v (ts k) s := by
  obtain hst | heq | hM := h
  · rw [stale, or_eq_false_iff] at hst
    exact .inl hst.2
  · rw [Tree.insert, Tree.full.injEq] at heq
    have := congrFun heq k
    rw [update_self] at this
    exact .inr (.inl this)
  · exact .inr (.inr hM)

theorem Node.Keeps.full (hU : M.Unset ep) (hm : M.full cached e (.full ts))
    (h : (full cached e edges).Keeps M ep v (.full ts) (k :: s)) (he : e = ep) :
    M.full cached e (Tree.insert (.full ts) (k :: s) v) := by
  obtain hst | heq | hM := h
  · rw [stale, or_eq_false_iff, decide_eq_false_iff_not] at hst
    obtain rfl : cached = [] := by
      by_contra hne
      exact hst.1 ⟨he, hne⟩
    rw [he]
    exact hU.own _
  · rwa [heq]
  · rw [he]
    exact hM _ _

variable (v)

theorem means_insert (hU : M.Unset ep) {b : Bool} (hd : Means K S M node t) (hs : Sound b t)
    (hk : Rest terminator b s) (hkeep : node.Keeps M ep v t s)
    (hf : 2 * s.length + 3 + node.isRef.toNat ≤ fuel) :
    ∃ node', node.insert K S ep fuel s v = .ok node' ∧ Means K S M node' (t.insert s v) ∧
      node'.isRef = false := by
  induction fuel generalizing node t b s with
  | zero => omega
  | succ fuel ih =>
    cases hd with
    | nil => exact ⟨_, insert_nil v (by omega) s, (Means.value v).stem hU s, stem_isRef rfl⟩
    | value w =>
      obtain @⟨⟩ := hs (by simp)
      cases hk
      exact ⟨.value false v, rfl, .value v, rfl⟩
    | @ref buf nc _ hg hm h =>
      simp only [isRef, toNat_true] at hf
      obtain ⟨node', hr, hden'⟩ := ih h hs hk (.inl ((getNode_cases hg).1.stale _ _))
        (by rw [getNode_isRef hg, toNat_false]; omega)
      exact ⟨node', by simp only [Node.insert, hg, hr], hden'⟩
    | @short cached key child t hm h =>
      obtain ⟨b', rfl, hne, hp, -, hc⟩ := hs.short
      have hkl := length_pos_of_ne_nil hne
      have hb := child.isRef.toNat_le
      simp only [isRef, toNat_false] at hf
      obtain ⟨rest, rfl⟩ | ⟨p, a, ks, c, ss, hac, rfl, rfl⟩ :=
        prefix_or_leave hk hp
      · rw [length_append] at hf
        obtain ⟨node', hr, hden', -⟩ := ih h (fun _ ↦ hc) (hp.rest hk) hkeep.short (by omega)
        refine ⟨.short [] key node', ?_, ?_, rfl⟩
        · simp [Node.insert, prefixLen_append_self, hr]
        · rw [insert_short_append]
          exact .short (hU.short _) hden'
      · rw [insert_short_split hac]
        rw [length_append, length_cons] at hf
        have hfork : Means K S M
            (fork ep a c (stem ks child) (stem ss (.value false v))) _ :=
          .full (hU.own _) (means_update (means_update (fun _ ↦ .nil) (h.stem hU ks))
            ((Means.value v).stem hU ss))
        exact ⟨_, insert_split v hac p ks ss (by omega), hfork.stem hU p, stem_isRef rfl⟩
    | @full cached e edges ts hm h =>
      obtain ⟨rfl, hs', -⟩ := hs.full
      obtain ⟨x, s, rfl⟩ := exists_cons_of_ne_nil (ne_nil hk)
      have hb := (edges x).isRef.toNat_le
      simp only [isRef, toNat_false, length_cons] at hf
      have hrest := (front_singleton (T := terminator) x).rest (s := s) hk
      obtain ⟨node', hr, hden', -⟩ := ih (h x) (hs' x) hrest hkeep.edge (by omega)
      refine ⟨writeNode ep cached e (update edges x node'), ?_,
        means_writeNode hU (hkeep.full hU hm) (means_update h hden')⟩
      simp only [Node.insert, hr, ok_bind]

end Insert

end Mainnet.Itrie
