import Mainnet.Itrie.Refine

namespace Mainnet.Itrie

open Types Lib List Nat Outcome

def Storage.Le (S S' : Storage) : Prop := ∀ k v, S.get k = some v → S'.get k = some v

def Storage.Holds (S : Storage) (puts : Storage) : Prop := ∀ p ∈ puts, S.get p.1 = some p.2

def Addressed (K : Keccak) (puts : Storage) : Prop :=
  ∀ p ∈ puts, ∃ elems, p = ((K.keccak256Rlp (.array elems)).bytes, K.marshal (.array elems))

variable {K : Keccak} {S S' : Storage} {P P' : Bytes → UInt32 → Prop} {node : Node} {t : Tree}

theorem addressed_nil : Addressed K [] := fun _ hp ↦ by cases hp

theorem Kept.mono (hS : S.Le S') {v : Rlp.Value} (h : Kept K S v) : Kept K S' v :=
  fun hl ↦ hS _ _ (h hl)

theorem Stored.mono (hS : S.Le S') (h : Stored K S t) : Stored K S' t := by
  induction t with
  | nil | leaf v => trivial
  | short key child ih => exact ⟨h.1.mono hS, ih h.2⟩
  | full edges ih => exact ⟨h.1.mono hS, fun i ↦ ih i (h.2 i)⟩

theorem Denotes.mono (hS : S.Le S') (hP : ∀ c e, P c e → P' c e) (h : Denotes K S P node t) :
    Denotes K S' P' node t := by
  have hcache : ∀ {c t}, CacheOk K S c t → CacheOk K S' c t :=
    fun hc hne ↦ ⟨(hc hne).1, (hc hne).2.1, (hc hne).2.2.mono hS⟩
  induction h with
  | nil => exact .nil
  | value v => exact .value v
  | ref hs ha hl => exact .ref (hs.mono hS) ha hl
  | short hc _ ih => exact .short (hcache hc) ih
  | full hc hp _ ih => exact .full (hcache hc) (hP _ _ hp) ih

theorem foldItem_of_le {t : Tree} (ha : ∃ elems, item K t = .array elems)
    (hl : 32 ≤ (K.marshal (item K t)).length) :
    foldItem K (item K t) = .bytes (K.keccak256Rlp (item K t)).bytes := by
  obtain ⟨elems, ha⟩ := ha
  rw [ha] at hl ⊢
  rw [foldItem, if_neg (not_lt.mpr hl)]

theorem sealItem_spec (elems : List Rlp.Value) (puts : Storage) (mk : Bytes → Node) :
    ∃ c puts', Node.sealItem K (.array elems) puts mk = (foldItem K (.array elems), mk c, puts') ∧
      (Addressed K puts → Addressed K puts') ∧ (∀ p ∈ puts, p ∈ puts') ∧
      (∀ S' : Storage, S'.Holds puts' → Kept K S' (.array elems)) ∧
      (c ≠ [] → c = (K.keccak256Rlp (.array elems)).bytes ∧
        32 ≤ (K.marshal (.array elems)).length) := by
  by_cases hl : (K.marshal (.array elems)).length < 32
  · refine ⟨[], puts, ?_, id, fun p hp ↦ hp, ?_, fun h ↦ absurd rfl h⟩
    · simp only [Node.sealItem, foldItem, if_pos hl]
    · exact fun S' _ hge ↦ absurd hl (not_lt.mpr hge)
  · refine ⟨_, ((K.keccak256Rlp (.array elems)).bytes, K.marshal (.array elems)) :: puts, ?_, ?_,
      fun p hp ↦ mem_cons_of_mem _ hp, ?_, fun _ ↦ ⟨rfl, Nat.le_of_not_lt hl⟩⟩
    · simp only [Node.sealItem, foldItem, if_neg hl]
      rfl
    · intro hputs p hp
      obtain rfl | hp := mem_cons.mp hp
      · exact ⟨elems, rfl⟩
      · exact hputs p hp
    · exact fun S' hS' _ ↦ hS' _ mem_cons_self

/-- Hashing a node returns the folded item of its tree and puts what the storage needs to load
it. -/
def Hashes (K : Keccak) (S : Storage) (P : Bytes → UInt32 → Prop) (node : Node) (t : Tree) : Prop :=
  ∃ node' puts, node.hash K = .ok (foldItem K (item K t), node', puts) ∧ Addressed K puts ∧
    node'.isRef = node.isRef ∧
    ∀ S' : Storage, S.Le S' → S'.Holds puts → Stored K S' t ∧ Denotes K S' P node' t

section Cases

theorem Hashes.of_cached {cached : Bytes} (hd : Denotes K S P node t)
    (hcache : CacheOk K S cached t) (hne : cached ≠ []) (ha : ∃ elems, item K t = .array elems)
    (hr : node.hash K = .ok (.bytes cached, node, [])) : Hashes K S P node t := by
  obtain ⟨hhash, hl, hst⟩ := hcache hne
  refine ⟨node, [], ?_, addressed_nil, rfl, fun S' hS' _ ↦
    ⟨hst.mono hS', hd.mono hS' fun _ _ he ↦ he⟩⟩
  rw [hr, foldItem_of_le ha hl, ← hhash]

theorem Hashes.short {key : List Nibble} {child : Node} (h : Hashes K S P child t) :
    Hashes K S P (.short [] key child) (.short key t) := by
  obtain ⟨child', puts, hr, haddr, -, hden⟩ := h
  obtain ⟨c, puts', hseal, haddr', hsub, hkept, hcached⟩ := sealItem_spec (K := K)
    [.bytes (encodeCompact key), foldItem K (item K t)] puts fun h ↦ .short h key child'
  refine ⟨.short c key child', puts', ?_, haddr' haddr, rfl, fun S' hS' hholds ↦ ?_⟩
  · simp only [Node.hash, ne_eq, not_true, if_false, hr, ok_bind, hseal]
    rfl
  · obtain ⟨hst, hden'⟩ := hden S' hS' fun p hp ↦ hholds p (hsub p hp)
    have hst' : Stored K S' (.short key t) := ⟨hkept S' hholds, hst⟩
    exact ⟨hst', .short (fun hne ↦ ⟨(hcached hne).1, (hcached hne).2, hst'⟩) hden'⟩

theorem Hashes.edge (hd : Denotes K S P' node t) (h : t ≠ .nil → Hashes K S P node t) :
    ∃ node' puts, (if node.isNil then .ok (.bytes [], .nil, []) else node.hash K) =
        .ok (foldItem K (item K t), node', puts) ∧ Addressed K puts ∧
      ∀ S' : Storage, S.Le S' → S'.Holds puts → Stored K S' t ∧ Denotes K S' P node' t := by
  by_cases ht : t = .nil
  · rw [ht, if_pos (hd.isNil.mpr ht)]
    exact ⟨.nil, [], rfl, addressed_nil, fun S' _ _ ↦ ⟨trivial, .nil⟩⟩
  · rw [if_neg (fun hn ↦ ht (hd.isNil.mp hn))]
    obtain ⟨node', puts, hr, haddr, -, hden⟩ := h ht
    exact ⟨node', puts, hr, haddr, hden⟩

theorem Hashes.full {e : UInt32} {edges : Nibble → Node} {ts : Nibble → Tree}
    (hp : ∀ h, P h e) (hd : ∀ i, Denotes K S P' (edges i) (ts i))
    (h : ∀ i, ts i ≠ .nil → Hashes K S P (edges i) (ts i)) :
    Hashes K S P (.full [] e edges) (.full ts) := by
  choose nodes puts hr haddr hden using fun i ↦ Hashes.edge (hd i) (h i)
  have hcol := collect_ok hr
  have haddr' : Addressed K ((finRange 17).reverse.flatMap puts) := by
    intro p hp
    obtain ⟨i, -, hi⟩ := mem_flatMap.mp hp
    exact haddr i p hi
  obtain ⟨c, puts', hseal, haddr'', hsub, hkept, hcached⟩ := sealItem_spec (K := K)
    ((finRange 17).map fun i ↦ foldItem K (item K (ts i)))
    ((finRange 17).reverse.flatMap puts) fun h ↦ .full h e nodes
  refine ⟨.full c e nodes, puts', ?_, haddr'' haddr', rfl, fun S' hS' hholds ↦ ?_⟩
  · simp only [Node.hash, ne_eq, not_true, if_false, hcol, ok_bind, hseal]
    rfl
  · have hchild := fun i ↦ hden i S' hS' fun p hp ↦ hholds p
      (hsub p (mem_flatMap.mpr ⟨i, by simp, hp⟩))
    have hst' : Stored K S' (.full ts) := ⟨hkept S' hholds, fun i ↦ (hchild i).1⟩
    exact ⟨hst', .full (fun hne ↦ ⟨(hcached hne).1, (hcached hne).2, hst'⟩) (hp c)
      fun i ↦ (hchild i).2⟩

end Cases

theorem hash_spec (hP : ∀ c e, P c e → P' c e) (hset : ∀ c e h, P c e → P' h e) {n : ℕ}
    (hd : Denotes K S P node t) (hc : t.Canonical n) : Hashes K S P' node t := by
  induction hd generalizing n with
  | nil => exact absurd rfl hc.ne_nil
  | value v => exact ⟨.value false v, [], rfl, addressed_nil, rfl, fun S' _ _ ↦ ⟨trivial, .value v⟩⟩
  | ref hs ha hl =>
    refine ⟨_, [], ?_, addressed_nil, rfl, fun S' hS' _ ↦ ⟨hs.mono hS', .ref (hs.mono hS') ha hl⟩⟩
    rw [foldItem_of_le ha hl]
    rfl
  | @short cached key child t hcache h ih =>
    by_cases hne : cached = []
    · subst hne
      obtain @⟨⟩ | @⟨_, n', _, _, hm, hk, hs, hchild⟩ := hc
      exact (ih hchild).short
    · exact .of_cached ((Denotes.short hcache h).mono (fun _ _ hk ↦ hk) hP) hcache hne ⟨_, rfl⟩
        (by rw [Node.hash, if_pos hne])
  | @full cached e edges ts hcache hp h ih =>
    by_cases hne : cached = []
    · subst hne
      obtain @⟨⟩ | @⟨⟩ | @⟨_, n', _, hm, he, h2⟩ := hc
      exact .full (fun c ↦ hset _ _ c hp) h fun i hi ↦ ih i (he i hi)
    · exact .of_cached ((Denotes.full hcache hp h).mono (fun _ _ hk ↦ hk) hP) hcache hne ⟨_, rfl⟩
        (by rw [Node.hash, if_pos hne])

end Mainnet.Itrie
