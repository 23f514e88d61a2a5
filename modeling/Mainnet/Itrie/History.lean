import Mainnet.Itrie.Map

namespace Mainnet.Itrie

open Types Lib List Function Outcome Txn Storage

variable {K : Keccak} {l fuel : ℕ}

def Fresh (ep : UInt32) (c : Bytes) (e : UInt32) : Prop := e = ep → c = []

theorem label_fresh (ep : UInt32) : Label (Fresh ep) ep :=
  ⟨fun _ ↦ rfl, fun _ ↦ rfl, fun _ h ↦ h rfl⟩

structure Committed (K : Keccak) (l : ℕ) (s : Storage × Hash) (tree : Tree) : Prop where
  shaped : Shaped (2 * l + 1) tree
  root : s.2 = rootOf K tree
  addressed : Addressed K s.1
  kept : s.1.Holds s.1 → tree ≠ .nil →
    s.1.get s.2.bytes = some (K.marshal (item K tree)) ∧ Stored K s.1 tree

theorem committed_init : Committed K l ([], emptyRoot) .nil :=
  ⟨shaped_nil _, rfl, addressed_nil, fun _ h ↦ absurd rfl h⟩

variable {S : Storage} {s : Storage × Hash} {tree : Tree} {ops : List Op} {rounds : List (List Op)}
  {D : Set Bytes}

theorem Storage.mem_of_get {k v : Bytes} (h : S.get k = some v) : (k, v) ∈ S := by
  obtain ⟨l₁, l₂, rfl, -⟩ := lookup_eq_some_iff.mp h
  exact mem_append_right _ mem_cons_self

theorem openAt_spec (hK : K.Faithful) (h : Committed K l s tree) (hs : s.1.Faithful) :
    ∃ t, openAt K s.1 s.2 = .ok t ∧ t.Opens K s.1 (Fresh 1) l tree ∧ t.epoch = 1 := by
  by_cases hn : tree = .nil
  · subst hn
    refine ⟨newTrie.txn, ?_, ⟨.nil, shaped_nil _, rfl⟩, rfl⟩
    rw [openAt, newTrieAt, h.root]
    rfl
  · obtain ⟨hget, hst⟩ := h.kept hs.holds hn
    have hne : s.2 ≠ emptyRoot := by
      intro he
      rw [he, hs.empty] at hget
      cases hget
    obtain ⟨node, hnode, hd, hload⟩ := getNode_item hK (label_fresh 1).zero hget
      (h.shaped.canonical hn) (by omega) h.shaped.keyed hst
    refine ⟨(Trie.mk node 0).txn, ?_, ⟨hd, h.shaped, hload.2⟩, rfl⟩
    rw [openAt, newTrieAt, if_neg hne, hnode]

theorem session_spec (hK : K.Faithful) (hf : 4 * l + 6 ≤ fuel)
    (h : Committed K l s tree) (hs : s.1.Faithful) (hops : ∀ op ∈ ops, op.Valid l) :
    ∃ s' tree', session K fuel s ops = .ok s' ∧ Committed K l s' tree' ∧
      treeMap tree' = contents (treeMap tree) ops := by
  obtain ⟨t, hopen, hopens, he⟩ := openAt_spec hK h hs
  obtain ⟨t', tree', hrun, hopens', -, hm⟩ :=
    run_spec hK (he ▸ label_fresh 1) hopens (fun op hop ↦ (hops op hop).1) hf
  obtain ⟨root, t'', puts, hhash, haddr, -, hroot, hload⟩ :=
    Txn.hash_spec (Q := fun _ _ ↦ True) (fun _ _ _ ↦ trivial) (fun _ _ _ _ ↦ trivial) hopens'
  refine ⟨(puts ++ s.1, root), tree', ?_, ⟨hopens'.shaped, hroot, ?_, fun hholds hn ↦ ?_⟩, hm⟩
  · simp only [session, hopen, ok_bind, hrun, hhash]
  · intro p hp
    exact (mem_append.mp hp).elim (haddr p) (h.addressed p)
  · refine (hload (puts ++ s.1) (fun k v hkv ↦ ?_) fun p hp ↦ ?_).2 hn
    · exact hholds (k, v) (mem_append_right _ (mem_of_get hkv))
    · exact hholds p (mem_append_left _ hp)

theorem sessions_spec (hK : K.Faithful) (hf : 4 * l + 6 ≤ fuel)
    (h : Committed K l s tree)
    (hops : ∀ ops ∈ rounds, ∀ op ∈ ops, op.Valid l)
    (hput : ∀ past, past <+: rounds → ∀ s', sessions K fuel s past = .ok s' →
      Addressed K s'.1 → s'.1.Faithful) :
    ∃ s' tree', sessions K fuel s rounds = .ok s' ∧ Committed K l s' tree' ∧
      treeMap tree' = contents (treeMap tree) rounds.flatten := by
  induction rounds generalizing s tree with
  | nil => exact ⟨s, tree, rfl, h, rfl⟩
  | cons ops rounds ih =>
    obtain ⟨s₁, tree₁, hr₁, hc₁, hm₁⟩ := session_spec hK hf h (hput [] (by simp) s rfl h.addressed)
      (hops ops (by simp))
    obtain ⟨s₂, tree₂, hr₂, hc₂, hm₂⟩ := ih hc₁ (fun o ho ↦ hops o (by simp [ho]))
      fun past hp s' hs' ↦ hput (ops :: past) (by simpa using hp) s'
        (by rw [sessions, hr₁, ok_bind, hs'])
    refine ⟨s₂, tree₂, by rw [sessions, hr₁, ok_bind, hr₂], hc₂, ?_⟩
    rw [hm₂, hm₁, flatten_cons, contents, contents, contents, foldl_append]

theorem treeMap_nil : treeMap .nil = noContents := rfl

def KeptRounds (K : Keccak) (fuel : ℕ) (rounds : List (List Op)) : Prop :=
  ∀ past, past <+: rounds → ∀ s, history K fuel past = .ok s → s.1.Faithful

/-- A transaction on the empty trie or on a trie reloaded from storage is a finite map. -/
theorem lookup_of_history (hK : K.Faithful) (hf : 4 * l + 6 ≤ fuel) {rounds : List (List Op)}
    (hrounds : ∀ ops ∈ rounds, ∀ op ∈ ops, op.Valid l) {ops : List Op}
    (hops : ∀ op ∈ ops, op.Valid l) (hput : KeptRounds K fuel rounds) {key : Bytes}
    (hk : key.length = l) :
    ∃ s t₀ t t', history K fuel rounds = .ok s ∧ openAt K s.1 s.2 = .ok t₀ ∧
      t₀.run K fuel s.1 ops = .ok t ∧
      t.lookup K s.1 fuel key = .ok (t', contents noContents (rounds.flatten ++ ops) key) ∧
      ∀ absent, absent.length = l → contents noContents (rounds.flatten ++ ops) absent = none →
        ∃ t₁ t₂, t.delete K s.1 fuel absent = .ok t₁ ∧
          t₁.lookup K s.1 fuel key = .ok (t₂, contents noContents (rounds.flatten ++ ops) key) := by
  obtain ⟨s, tree, hr, hc, hm⟩ := sessions_spec hK hf (committed_init (K := K)) hrounds
    fun past hp s hs _ ↦ hput past hp s hs
  obtain ⟨t₀, hopen, hopens, he⟩ := openAt_spec hK hc (hput rounds (prefix_refl _) s hr)
  have hL : Label (Fresh 1) t₀.epoch := he ▸ label_fresh 1
  obtain ⟨t, tree', hrun, hopens', he', hm'⟩ := run_spec hK hL hopens
    (fun op hop ↦ (hops op hop).1) hf
  have hmap : treeMap tree' = contents noContents (rounds.flatten ++ ops) := by
    rw [hm', hm, treeMap_nil, contents, contents, contents, foldl_append]
  have hL' : Label (Fresh 1) t.epoch := he' ▸ hL
  obtain ⟨t', hlook, -, -⟩ := lookup_spec hK hL' hopens' hk hf
  refine ⟨s, t₀, t, t', hr, hopen, hrun, hmap ▸ hlook, fun absent ha hnone ↦ ?_⟩
  obtain ⟨t₁, tree₁, hdel, hopens₁, he₁, hm₁⟩ := delete_spec hK hL' hopens' ha hf
  obtain ⟨t₂, hlook₂, -, -⟩ := lookup_spec hK (he₁ ▸ hL') hopens₁ hk hf
  refine ⟨t₁, t₂, hdel, ?_⟩
  have hsame : treeMap tree₁ = contents noContents (rounds.flatten ++ ops) := by
    rw [hm₁, hmap, update_eq_self_iff]
    exact hnone.symm
  exact hsame ▸ hlook₂

def pairNode : Bytes :=
  [0xd7, 0x11, 0xd5, 0x80, 0x80, 0xc2, 0x20, 0x05, 0xc2, 0x20, 0x06, 0x80, 0x80, 0x80, 0x80, 0x80,
    0x80, 0x80, 0x80, 0x80, 0x80, 0x80, 0x80, 0x80]

def pairRoot : Hash :=
  bytesToHash (BigEndian.toBytes 0xcbb5f6e1d95ea3c5d9c24165a9dbc0967a79a528e32ab513b2e58609f072fe50)

noncomputable def pairKeccak : Keccak :=
  { rlpCodec with keccak256 := fun b ↦ if b = pairNode then pairRoot else emptyRoot }

def pairOps : List Op := [.insert [0x12] [5], .insert [0x13] [6]]

theorem history_pairOps :
    history pairKeccak 10 [pairOps] = .ok ([(pairRoot.bytes, pairNode)], pairRoot) := by
  decide +kernel

theorem keptRounds_pairOps : KeptRounds pairKeccak 10 [pairOps] := by
  intro past hp s hs
  obtain rfl | rfl : past = [] ∨ past = [pairOps] := by
    cases past with
    | nil => exact .inl rfl
    | cons a past => exact .inr (hp.eq_of_length_le (by simp))
  · cases hs
    exact ⟨fun p hp ↦ absurd hp (by simp), rfl⟩
  · cases history_pairOps.symm.trans hs
    decide +kernel

theorem lookup_of_history_reloaded :
    ∃ s t₀ t t', history pairKeccak 10 [pairOps] = .ok s ∧
      openAt pairKeccak s.1 s.2 = .ok t₀ ∧
      t₀.run pairKeccak 10 s.1 [.delete [0x12]] = .ok t ∧
      t.lookup pairKeccak s.1 10 [0x13] = .ok (t', some [6]) ∧
      ∀ absent, absent.length = 1 →
        contents noContents ([pairOps].flatten ++ [.delete [0x12]]) absent = none →
        ∃ t₁ t₂, t.delete pairKeccak s.1 10 absent = .ok t₁ ∧
          t₁.lookup pairKeccak s.1 10 [0x13] = .ok (t₂, some [6]) :=
  lookup_of_history (l := 1) rlpCodec_faithful (by decide) (by decide) (by decide)
    keptRounds_pairOps rfl

theorem Shaped.eq_of_treeMap {tree' : Tree} (h : Shaped (2 * l + 1) tree)
    (h' : Shaped (2 * l + 1) tree') (hm : treeMap tree = treeMap tree') : tree = tree' := by
  have hle : ∀ {a b : Tree}, Shaped (2 * l + 1) a → treeMap a = treeMap b → ∀ k v,
      a.get k = some v → b.get k = some v := by
    intro a b ha hab k v hk
    have hn : a ≠ .nil := by rintro rfl; cases hk
    obtain ⟨key, rfl⟩ := (ha.keyed k v hk).exists_bytes ((ha.canonical hn).length_of_get hk)
    exact (congrFun hab key).symm.trans hk
  have hg : ∀ k, tree.get k = tree'.get k := by
    intro k
    cases hk : tree.get k with
    | some v => exact (hle h hm k v hk).symm
    | none =>
      cases hk' : tree'.get k with
      | none => rfl
      | some v => rw [hle h' hm.symm k v hk'] at hk; cases hk
  by_cases hn : tree = .nil
  · by_cases hn' : tree' = .nil
    · rw [hn, hn']
    · obtain ⟨k, v, hk⟩ := (h'.canonical hn').exists_key
      rw [← hg, hn] at hk
      cases hk
  · by_cases hn' : tree' = .nil
    · obtain ⟨k, v, hk⟩ := (h.canonical hn).exists_key
      rw [hg, hn'] at hk
      cases hk
    · exact (h.canonical hn).unique (h'.canonical hn') hg

def encodings (K : Keccak) (fuel : ℕ) (rounds : List (List Op)) : Set Bytes :=
  {v | v = K.marshal (.bytes []) ∨
    ∃ past, past <+: rounds ∧ ∃ s, history K fuel past = .ok s ∧ ∃ k, (k, v) ∈ s.1}

theorem Storage.faithful_of_injOn (hK : K.Faithful)
    (hempty : K.keccak256Rlp (.bytes []) = emptyRoot)
    (hD : D.InjOn K.keccak256) (hS : Addressed K S) (hmem : ∀ p ∈ S, p.2 ∈ D)
    (hnull : K.marshal (.bytes []) ∈ D) : S.Faithful := by
  refine ⟨fun p hp ↦ ?_, ?_⟩
  · obtain ⟨v, hv⟩ : ∃ v, S.get p.1 = some v := by
      cases hg : S.get p.1 with
      | some v => exact ⟨v, rfl⟩
      | none => simpa using lookup_eq_none_iff.mp hg p hp
    have hpv := mem_of_get hv
    obtain ⟨elems, he⟩ := hS p hp
    obtain ⟨elems', he'⟩ := hS _ hpv
    rw [hv]
    congr 1
    apply hD (hmem _ hpv) (hmem p hp)
    apply FixedBytes.ext
    rw [congrArg Prod.snd he, congrArg Prod.snd he']
    exact (congrArg Prod.fst he').symm.trans (congrArg Prod.fst he)
  · cases hg : S.get emptyRoot.bytes with
    | none => rfl
    | some v =>
      have hv := mem_of_get hg
      obtain ⟨elems, he⟩ := hS _ hv
      obtain ⟨hroot, rfl⟩ := Prod.mk.inj he
      have hhash : K.keccak256 (K.marshal (.array elems)) = K.keccak256 (K.marshal (.bytes [])) :=
        (FixedBytes.ext hroot.symm).trans hempty.symm
      cases hK.marshal_injective (hD (hmem _ hv) hnull hhash)

theorem history_root (hK : K.Faithful) (hempty : K.keccak256Rlp (.bytes []) = emptyRoot)
    (hf : 4 * l + 6 ≤ fuel) (hrounds : ∀ ops ∈ rounds, ∀ op ∈ ops, op.Valid l)
    (hD : D.InjOn K.keccak256) (hsub : encodings K fuel rounds ⊆ D) :
    ∃ s tree, history K fuel rounds = .ok s ∧ Shaped (2 * l + 1) tree ∧ s.2 = rootOf K tree ∧
      treeMap tree = contents noContents rounds.flatten ∧ (s.2 = emptyRoot ↔ tree = .nil) := by
  have hfaith : ∀ past, past <+: rounds → ∀ s, history K fuel past = .ok s →
      Addressed K s.1 → s.1.Faithful := fun past hp s hs ha ↦
    faithful_of_injOn hK hempty hD ha
      (fun p hmem ↦ hsub (.inr ⟨past, hp, s, hs, p.1, hmem⟩)) (hsub (.inl rfl))
  obtain ⟨s, tree, hr, hc, hm⟩ := sessions_spec hK hf (committed_init (K := K)) hrounds hfaith
  refine ⟨s, tree, hr, hc.shaped, hc.root, hm, fun he ↦ ?_, fun hn ↦ by rw [hc.root, hn]; rfl⟩
  by_contra hn
  have hs := hfaith rounds (prefix_refl _) s hr hc.addressed
  have hget := (hc.kept hs.holds hn).1
  rw [he, hs.empty] at hget
  cases hget

/-- The state root depends on the final map only. -/
theorem root_of_contents (hK : K.Faithful) (hempty : K.keccak256Rlp (.bytes []) = emptyRoot)
    (hf : 4 * l + 6 ≤ fuel) {rounds rounds' : List (List Op)}
    (hrounds : ∀ ops ∈ rounds, ∀ op ∈ ops, op.Valid l)
    (hrounds' : ∀ ops ∈ rounds', ∀ op ∈ ops, op.Valid l)
    (hinj : (encodings K fuel rounds ∪ encodings K fuel rounds').InjOn K.keccak256)
    (hsame : contents noContents rounds.flatten = contents noContents rounds'.flatten) :
    ∃ s s', history K fuel rounds = .ok s ∧ history K fuel rounds' = .ok s' ∧ s.2 = s'.2 ∧
      (s.2 = emptyRoot ↔ ∀ key, contents noContents rounds.flatten key = none) := by
  obtain ⟨s, tree, hr, hs, hroot, hm, he⟩ := history_root hK hempty hf hrounds hinj
    Set.subset_union_left
  obtain ⟨s', tree', hr', hs', hroot', hm', -⟩ := history_root hK hempty hf hrounds' hinj
    Set.subset_union_right
  obtain rfl : tree = tree' := hs.eq_of_treeMap hs' (by rw [hm, hm', hsame])
  refine ⟨s, s', hr, hr', hroot.trans hroot'.symm, he.trans ⟨fun hn key ↦ ?_, fun h ↦ ?_⟩⟩
  · rw [← hm, hn]
    rfl
  · exact hs.eq_of_treeMap (shaped_nil _) (hm.trans (funext h))

def pairOps' : List Op :=
  [.insert [0x13] [6], .insert [0x24] [7], .insert [0x12] [5], .delete [0x24]]

theorem history_pairOps' :
    history pairKeccak 10 [pairOps'] = .ok ([(pairRoot.bytes, pairNode)], pairRoot) := by
  decide +kernel

theorem encodings_subset
    (h : history pairKeccak 10 [ops] = .ok ([(pairRoot.bytes, pairNode)], pairRoot)) :
    encodings pairKeccak 10 [ops] ⊆ {[0x80], pairNode} := by
  rintro v (rfl | ⟨past, hp, s, hs, k, hk⟩)
  · exact .inl (by decide +kernel)
  · cases past with
    | nil => cases hs; cases hk
    | cons a past =>
      rw [hp.eq_of_length_le (by simp)] at hs
      cases h.symm.trans hs
      simp only [mem_singleton, Prod.mk.injEq] at hk
      exact .inr hk.2

theorem root_of_contents_pair :
    ∃ s s', history pairKeccak 10 [pairOps] = .ok s ∧ history pairKeccak 10 [pairOps'] = .ok s' ∧
      s.2 = s'.2 ∧ (s.2 = emptyRoot ↔ ∀ key, contents noContents [pairOps].flatten key = none) := by
  refine root_of_contents (l := 1) rlpCodec_faithful (by decide +kernel) (by decide) (by decide)
    (by decide) ?_ ?_
  · have hsub := Set.union_subset (encodings_subset history_pairOps)
      (encodings_subset history_pairOps')
    refine Set.InjOn.mono hsub ?_
    rintro a (rfl | rfl) b (rfl | rfl) hab
    · rfl
    · exact absurd hab (by decide +kernel)
    · exact absurd hab (by decide +kernel)
    · rfl
  · funext key
    simp only [flatten_cons, flatten_nil, append_nil, contents, pairOps, pairOps',
      foldl_cons, foldl_nil, Op.apply, noContents, update_apply]
    split_ifs <;> simp_all

end Mainnet.Itrie
