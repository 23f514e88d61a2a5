import Mainnet.Itrie.History
import Mainnet.Itrie.State

namespace Mainnet.Itrie

open Types Types.Rlp Lib List Nat Function Outcome Txn AList State

def Within (ep : UInt32) (_ : Bytes) (e : UInt32) : Prop := e.toNat ≤ ep.toNat

def During (ep : UInt32) (c : Bytes) (e : UInt32) : Prop := e.toNat < ep.toNat ∨ e = ep ∧ c = []

variable {ep : UInt32} {key : Bytes} {puts : Storage}

theorem label_during (h : 0 < ep.toNat) : Label (During ep) ep :=
  ⟨.inl h, .inr ⟨rfl, rfl⟩, fun _ hc ↦ hc.elim (fun hlt ↦ absurd hlt (lt_irrefl _)) And.right⟩

theorem within_of_during {c : Bytes} {e : UInt32} (h : During ep c e) (c' : Bytes) :
    Within ep c' e :=
  h.elim le_of_lt fun h ↦ (congrArg UInt32.toNat h.1).le

theorem Trie.toNat_txn_epoch {t : Trie} (h : t.epoch.toNat < 2 ^ 32 - 1) :
    t.txn.epoch.toNat = t.epoch.toNat + 1 := by
  rw [Trie.txn, UInt32.toNat_add]
  simp only [UInt32.reduceToNat]
  omega

def Trie.Shows (K : Keccak) (S : Storage) (t : Trie) (tree : Tree) : Prop :=
  t.txn.Opens K S (Within t.epoch) 32 tree

structure Rooted (K : Keccak) (S : Storage) (root : Hash) (tree : Tree) : Prop where
  shaped : Shaped (2 * 32 + 1) tree
  root_eq : root = rootOf K tree
  kept : tree ≠ .nil → S.get root.bytes = some (K.marshal (item K tree)) ∧ Stored K S tree

variable {K : Keccak} {S S' : Storage} {fuel : ℕ} {t : Trie} {tree tree' : Tree} {root : Hash}

theorem rooted_nil : Rooted K S emptyRoot .nil := ⟨shaped_nil _, rfl, fun h ↦ absurd rfl h⟩

theorem Rooted.mono (h : Rooted K S root tree) (hS : S.Le S') : Rooted K S' root tree :=
  ⟨h.shaped, h.root_eq, fun hn ↦ ⟨hS _ _ (h.kept hn).1, (h.kept hn).2.mono hS⟩⟩

theorem Trie.Shows.mono (h : t.Shows K S tree) (hS : S.Le S') : t.Shows K S' tree :=
  ⟨h.denotes.mono hS fun _ _ he ↦ he, h.shaped, h.loaded⟩

theorem shows_newTrie : newTrie.Shows K S .nil := ⟨.nil, shaped_nil _, rfl⟩

theorem Rooted.eq_nil (h : Rooted K S emptyRoot tree) (hS : S.Faithful) : tree = .nil := by
  by_contra hn
  have hget := (h.kept hn).1
  rw [hS.empty] at hget
  cases hget

theorem newTrieAt_spec (hK : K.Faithful) (hS : S.Faithful) (h : Rooted K S root tree) :
    ∃ t, newTrieAt K S root = some t ∧ t.epoch = 0 ∧ t.Shows K S tree := by
  by_cases hr : root = emptyRoot
  · subst hr
    obtain rfl := h.eq_nil hS
    exact ⟨newTrie, by rw [newTrieAt, if_pos rfl], rfl, shows_newTrie⟩
  · have hn : tree ≠ .nil := by
      rintro rfl
      exact hr h.root_eq
    obtain ⟨hget, hst⟩ := h.kept hn
    obtain ⟨node, hnode, hd, hload⟩ := getNode_item hK (P := Within 0) (le_refl _) hget
      (h.shaped.canonical hn) (by omega) h.shaped.keyed hst
    exact ⟨⟨node, 0⟩, by rw [newTrieAt, if_neg hr, hnode], rfl, hd, h.shaped, hload.2⟩

theorem Trie.Shows.lookup (hK : K.Faithful) (hf : 134 ≤ fuel) (h : t.Shows K S tree)
    (hk : key.length = 32) :
    ∃ txn, t.txn.lookup K S fuel key = .ok (txn, treeMap tree key) ∧
      ({ t with root := txn.root } : Trie).Shows K S tree := by
  obtain ⟨node', hr, hd, href⟩ := means_lookup
    (h.denotes.means hK (zero_le _) h.shaped) h.shaped.sound
    (closed_bytesToHexNibbles key) (h.enough hk hf (by omega))
  refine ⟨{ t.txn with root := node' }, ?_, hd.denotes, h.shaped, href h.loaded⟩
  simp only [Txn.lookup, hr, ok_bind, h.loaded]
  rfl

theorem Trie.Shows.get (hK : K.Faithful) (hf : 134 ≤ fuel) (h : t.Shows K S tree)
    (hk : key.length = 32) : t.get K fuel S key = treeMap tree key := by
  obtain ⟨txn, hr, -⟩ := h.lookup hK hf hk
  rw [Trie.get, hr]

theorem Shaped.treeMap_eq_none {n : ℕ} (h : Shaped (2 * n + 1) tree)
    (hk : key.length ≠ n) : treeMap tree key = none := by
  cases hg : treeMap tree key with
  | none => rfl
  | some v =>
    have hn : tree ≠ .nil := by
      rintro rfl
      cases hg
    have hl := (h.canonical hn).length_of_get hg
    rw [length_bytesToHexNibbles] at hl
    omega

theorem Rooted.unique (hK : K.Faithful) (hS : S.Faithful) (h : Rooted K S root tree)
    (h' : Rooted K S root tree') : tree = tree' := by
  obtain ⟨t, ht, -, hshow⟩ := newTrieAt_spec hK hS h
  obtain ⟨t', ht', -, hshow'⟩ := newTrieAt_spec hK hS h'
  obtain rfl : t = t' := Option.some.inj (ht.symm.trans ht')
  refine h.shaped.eq_of_treeMap h'.shaped (funext fun key ↦ ?_)
  by_cases hk : key.length = 32
  · rw [← hshow.get hK le_rfl hk, ← hshow'.get hK le_rfl hk]
  · rw [h.shaped.treeMap_eq_none hk, h'.shaped.treeMap_eq_none hk]

theorem Trie.Shows.opens (h : t.Shows K S tree) (he : t.epoch.toNat < 2 ^ 32 - 1) :
    t.txn.Opens K S (During t.txn.epoch) 32 tree ∧ Label (During t.txn.epoch) t.txn.epoch := by
  have hep := Trie.toNat_txn_epoch he
  refine ⟨⟨h.denotes.mono (fun _ _ hk ↦ hk) fun c e hle ↦ .inl ?_, h.shaped, h.loaded⟩,
    label_during (by omega)⟩
  rw [hep]
  exact lt_succ_of_le hle

theorem Storage.Faithful.le_append (h : (puts ++ S).Faithful) : S.Le (puts ++ S) := fun k v hk ↦
  h.holds (k, v) (mem_append_right _ (Storage.mem_of_get hk))

theorem Txn.hash_commit {tt : Txn} (h : tt.Opens K S (During tt.epoch) 32 tree) :
    ∃ tt' puts, tt.hash K = .ok (rootOf K tree, tt', puts) ∧ tt'.epoch = tt.epoch ∧
      ((puts ++ S).Faithful → tt'.commit.Shows K (puts ++ S) tree ∧
        Rooted K (puts ++ S) (rootOf K tree) tree) := by
  obtain ⟨root, tt', puts, hr, -, he, rfl, hload⟩ := hash_spec (Q := Within tt.epoch)
    (fun c e hd ↦ within_of_during hd c) (fun c e h hd ↦ within_of_during hd h) h
  refine ⟨tt', puts, hr, he, fun hS ↦ ?_⟩
  obtain ⟨hopens, hkept⟩ := hload (puts ++ S) hS.le_append
    fun p hp ↦ hS.holds p (mem_append_left _ hp)
  refine ⟨?_, h.shaped, rfl, hkept⟩
  rw [Trie.Shows, Txn.commit, he]
  exact ⟨hopens.denotes, hopens.shaped, hopens.loaded⟩

namespace World

structure Has (K : Keccak) (w : World) (p : ℕ) (root : Hash) (tree : Tree) : Prop where
  trie : ∃ t, w.tries[p]? = some t ∧ t.Shows K w.storage tree
  rooted : Rooted K w.storage root tree

structure Sound (K : Keccak) (w : World) : Prop where
  faithful : w.storage.Faithful
  cached : ∀ root p, w.cache.lookup root = some p → ∃ tree, w.Has K p root tree

def EpochsFit (w : World) (n : ℕ) : Prop :=
  ∀ root p t, w.cache.lookup root = some p → w.tries[p]? = some t → t.epoch.toNat + n < 2 ^ 32 - 1

structure Extends (w w' : World) : Prop where
  storage : w.storage.Le w'.storage
  tries : w.tries <+: w'.tries
  code : w.code <:+ w'.code

variable {w w' w'' : World} {p n : ℕ}

theorem Extends.refl (w : World) : w.Extends w :=
  ⟨fun _ _ h ↦ h, prefix_refl _, suffix_refl _⟩

theorem Extends.trans (h : w.Extends w') (h' : w'.Extends w'') : w.Extends w'' :=
  ⟨fun k v hk ↦ h'.storage k v (h.storage k v hk), h.tries.trans h'.tries, h.code.trans h'.code⟩

theorem Has.extend (h : w.Has K p root tree) (he : w.Extends w') : w'.Has K p root tree := by
  obtain ⟨t, ht, hshow⟩ := h.trie
  obtain ⟨rest, hrest⟩ := he.tries
  refine ⟨⟨t, ?_, hshow.mono he.storage⟩, h.rooted.mono he.storage⟩
  rw [← hrest, List.getElem?_append_left (List.getElem?_eq_some_iff.mp ht).1, ht]

theorem trieAt_spec (hK : K.Faithful) (h : w.Sound K) (hr : Rooted K w.storage root tree) :
    ∃ t, w.trieAt K root = some t ∧ t.Shows K w.storage tree ∧
      (t.epoch = 0 ∨ ∃ p, w.cache.lookup root = some p ∧ w.tries[p]? = some t) := by
  rw [trieAt]
  by_cases he : root = emptyRoot
  · subst he
    obtain rfl := hr.eq_nil h.faithful
    exact ⟨newTrie, if_pos rfl, shows_newTrie, .inl rfl⟩
  rw [if_neg he]
  cases hc : w.cache.lookup root with
  | none =>
    obtain ⟨t, ht, hz, hshow⟩ := newTrieAt_spec hK h.faithful hr
    exact ⟨t, ht, hshow, .inl hz⟩
  | some p =>
    obtain ⟨tree', ⟨t, ht, hshow⟩, hr'⟩ := h.cached root p hc
    obtain rfl := hr.unique hK h.faithful hr'
    exact ⟨t, ht, hshow, .inr ⟨p, rfl, ht⟩⟩

theorem Sound.addState (h : w.Sound K) {puts : Storage} (hS : (puts ++ w.storage).Faithful)
    (hshow : t.Shows K (puts ++ w.storage) tree) (hr : Rooted K (puts ++ w.storage) root tree) :
    ((w.put puts).addState root t).Sound K ∧ w.Extends ((w.put puts).addState root t) ∧
      ((w.put puts).addState root t).Has K w.tries.length root tree := by
  have hext : w.Extends ((w.put puts).addState root t) :=
    ⟨hS.le_append, prefix_append _ _, suffix_refl _⟩
  have hhas : ((w.put puts).addState root t).Has K w.tries.length root tree :=
    ⟨⟨t, by simp [World.addState, put], hshow⟩, hr⟩
  refine ⟨⟨hS, fun root' p hp ↦ ?_⟩, hext, hhas⟩
  rw [World.addState] at hp
  by_cases hroot : root' = root
  · subst hroot
    rw [lookup_insert] at hp
    obtain rfl := Option.some.inj hp
    exact ⟨tree, hhas⟩
  · rw [lookup_insert_ne hroot] at hp
    obtain ⟨tree', htree⟩ := h.cached root' p hp
    exact ⟨tree', htree.extend hext⟩

theorem EpochsFit.addState (h : w.EpochsFit n) (hsound : w.Sound K) {puts : Storage}
    (ht : t.epoch.toNat + n < 2 ^ 32 - 1) : ((w.put puts).addState root t).EpochsFit n := by
  intro root' p t' hp ht'
  simp only [World.addState, put] at hp ht'
  by_cases hroot : root' = root
  · subst hroot
    rw [lookup_insert] at hp
    obtain rfl := Option.some.inj hp
    rw [List.getElem?_concat_length] at ht'
    rwa [← Option.some.inj ht']
  · rw [lookup_insert_ne hroot] at hp
    obtain ⟨-, ⟨t'', ht'', -⟩, -⟩ := hsound.cached root' p hp
    rw [List.getElem?_append_left (List.getElem?_eq_some_iff.mp ht'').1] at ht'
    exact h root' p t' hp ht'

theorem EpochsFit.mono {m : ℕ} (h : w.EpochsFit n) (hm : m ≤ n) : w.EpochsFit m :=
  fun root p t hp ht ↦ by
    have := h root p t hp ht
    omega

theorem slotOp_key (entry : StorageObject) :
    (slotOp K entry).key = (K.keccak256 entry.key).bytes := by
  rw [slotOp]
  split <;> rfl

theorem commitStorage_spec (hK : K.Faithful) (hf : 134 ≤ fuel) (h : w.Sound K)
    (hn : n < 2 ^ 32 - 2) (hfit : w.EpochsFit (n + 1)) {obj : Object}
    (hr : Rooted K w.storage obj.root tree) :
    ∃ w' root' tree', w.commitStorage K fuel obj = .ok (w', root') ∧ w'.code = w.code ∧
      treeMap tree' = contents (treeMap tree) (obj.storage.map (slotOp K)) ∧
      (w'.storage.Faithful → w'.Sound K ∧ w.Extends w' ∧ Rooted K w'.storage root' tree' ∧
        w'.EpochsFit n) := by
  rw [commitStorage]
  by_cases hs : obj.storage = []
  · rw [if_pos hs, hs]
    exact ⟨w, obj.root, tree, rfl, rfl, rfl, fun _ ↦ ⟨h, Extends.refl w, hr, hfit.mono (le_succ n)⟩⟩
  rw [if_neg hs]
  obtain ⟨t, ht, hshow, hepoch⟩ := trieAt_spec hK h hr
  have he : t.epoch.toNat + (n + 1) < 2 ^ 32 - 1 := by
    rcases hepoch with hz | ⟨p, hp, htp⟩
    · rw [hz]
      simp only [UInt32.reduceToNat]
      omega
    · exact hfit obj.root p t hp htp
  obtain ⟨hopens, hL⟩ := hshow.opens (by omega)
  have hkeys : ∀ op ∈ obj.storage.map (slotOp K), op.key.length = 32 := by
    intro op hop
    obtain ⟨entry, -, rfl⟩ := mem_map.mp hop
    rw [slotOp_key, FixedBytes.length_eq]
  obtain ⟨t₁, tree₁, hrun, hopens₁, he₁, hm₁⟩ := run_spec hK hL hopens hkeys hf
  obtain ⟨t₂, puts, hhash, he₂, hload⟩ := hash_commit (he₁ ▸ hopens₁)
  refine ⟨(w.put puts).addState (rootOf K tree₁) t₂.commit, rootOf K tree₁, tree₁, ?_, rfl, hm₁,
    fun hS ↦ ?_⟩
  · rw [ht]
    dsimp only
    rw [hrun, ok_bind, hhash]
    rfl
  · obtain ⟨hshow', hr'⟩ := hload hS
    obtain ⟨hsound, hext, -⟩ := h.addState hS hshow' hr'
    refine ⟨hsound, hext, hr', (hfit.mono (le_succ n)).addState h ?_⟩
    have hep := Trie.toNat_txn_epoch (show t.epoch.toNat < 2 ^ 32 - 1 by omega)
    rw [Txn.commit, he₂, he₁, hep]
    omega

/-- What a commit writes under the address of an object: nothing, or the account with the root of its
storage. -/
def Written (K : Keccak) (S : Storage) (obj : Object) (v : Option Bytes) : Prop :=
  if obj.deleted then v = none
  else ∃ tree tree' root, Rooted K S obj.root tree ∧ Rooted K S root tree' ∧
    treeMap tree' = contents (treeMap tree) (obj.storage.map (slotOp K)) ∧
    v = some (K.marshal (Account.mk obj.nonce obj.balance root obj.codeHash.bytes).marshalWith)

theorem Written.mono {obj : Object} {v : Option Bytes} (h : Written K S obj v)
    (hS : S.Le S') : Written K S' obj v := by
  rw [Written] at h ⊢
  by_cases hd : obj.deleted = true
  · rw [if_pos hd] at h ⊢
    exact h
  · rw [if_neg hd] at h ⊢
    obtain ⟨tree, tree', root, hr, hr', hm, hv⟩ := h
    exact ⟨tree, tree', root, hr.mono hS, hr'.mono hS, hm, hv⟩

def objKey (K : Keccak) (obj : Object) : Bytes := (K.keccak256 obj.address.bytes).bytes

theorem Sound.setCode (h : w.Sound K) (hash : Hash) (code : Bytes) : (w.setCode hash code).Sound K :=
  ⟨h.faithful, fun root p hp ↦ by
    obtain ⟨tree, htrie, hr⟩ := h.cached root p hp
    exact ⟨tree, htrie, hr⟩⟩

variable {tt : Txn} {obj : Object}

theorem writeCode_spec (h : w.Sound K) (hfit : w.EpochsFit n) (obj : Object) :
    ∃ w', w' = (if obj.dirtyCode then w.setCode obj.codeHash obj.code else w) ∧ w'.Sound K ∧
      w.Extends w' ∧ w'.EpochsFit n ∧ w'.storage = w.storage ∧
      (obj.dirtyCode = true → (obj.codeHash, obj.code) ∈ w'.code) := by
  refine ⟨_, rfl, ?_⟩
  by_cases hdirty : obj.dirtyCode = true
  · rw [if_pos hdirty]
    exact ⟨h.setCode _ _, ⟨fun _ _ h ↦ h, prefix_refl _, suffix_cons _ _⟩, hfit, rfl,
      fun _ ↦ mem_cons_self⟩
  · rw [if_neg hdirty]
    exact ⟨h, Extends.refl _, hfit, rfl, fun hh ↦ absurd hh hdirty⟩

theorem commitObject_spec (hK : K.Faithful) (hf : 134 ≤ fuel) (h : w.Sound K)
    (hopens : tt.Opens K w.storage (During tt.epoch) 32 tree)
    (hL : Label (During tt.epoch) tt.epoch) (hn : n < 2 ^ 32 - 2) (hfit : w.EpochsFit (n + 1))
    {st : Tree} (hr : Rooted K w.storage obj.root st)
    (hkept : obj.deleted = false → ∀ r, w.commitStorage K fuel obj = .ok r → r.1.storage.Faithful) :
    ∃ w' tt' tree' v, commitObject K fuel (w, tt) obj = .ok (w', tt') ∧ w'.Sound K ∧
      w.Extends w' ∧ w'.EpochsFit n ∧ tt'.Opens K w'.storage (During tt.epoch) 32 tree' ∧
      tt'.epoch = tt.epoch ∧ treeMap tree' = update (treeMap tree) (objKey K obj) v ∧
      Written K w'.storage obj v ∧
      (obj.deleted = false → obj.dirtyCode = true → (obj.codeHash, obj.code) ∈ w'.code) := by
  have hlen : (objKey K obj).length = 32 := FixedBytes.length_eq _
  by_cases hd : obj.deleted = true
  · obtain ⟨tt', tree', hr', hopens', he', hm'⟩ := delete_spec hK hL hopens hlen hf
    refine ⟨w, tt', tree', none, ?_, h, Extends.refl w, hfit.mono (le_succ n), hopens', he', hm',
      by rw [Written, if_pos hd], fun hnd ↦ by rw [hnd] at hd; cases hd⟩
    rw [commitObject, if_pos hd]
    exact (congrArg (· >>= _) hr').trans rfl
  · have hnd : obj.deleted = false := Bool.eq_false_iff.mpr hd
    obtain ⟨w₁, root', st', hst, hcode, hm, hload⟩ := commitStorage_spec hK hf h hn hfit hr
    obtain ⟨hsound₁, hext₁, hr₁, hfit₁⟩ := hload (hkept hnd _ hst)
    obtain ⟨w₂, hw₂, hsound₂, hext₂, hfit₂, hstor₂, hin⟩ := writeCode_spec hsound₁ hfit₁ obj
    have hopens₂ : tt.Opens K w₂.storage (During tt.epoch) 32 tree :=
      ⟨hopens.denotes.mono (hext₁.trans hext₂).storage fun _ _ he ↦ he, hopens.shaped, hopens.loaded⟩
    obtain ⟨tt', tree', hins, hopens', he', hm'⟩ := insert_spec hK hL hopens₂ hlen
      (K.marshal (Account.mk obj.nonce obj.balance root' obj.codeHash.bytes).marshalWith) hf
    refine ⟨w₂, tt', tree', _, ?_, hsound₂, hext₁.trans hext₂, hfit₂, hopens', he', hm', ?_,
      fun _ ↦ hin⟩
    · rw [commitObject, if_neg hd]
      dsimp only
      rw [hst, ok_bind]
      rw [← hw₂]
      exact (congrArg (· >>= _) hins).trans rfl
    · rw [Written, if_neg hd, hstor₂]
      exact ⟨st, st', root', hr.mono hext₁.storage, hr₁, hm, rfl⟩

/-- The storage is a faithful map at every point of a commit, and so is the code table at its
end. -/
def CommitKept (K : Keccak) (fuel : ℕ) : World × Txn → List Object → Prop
  | s, [] => (∀ r, s.2.hash K = .ok r → (r.2.2 ++ s.1.storage).Faithful) ∧
      ∀ c ∈ s.1.code, s.1.code.lookup c.1 = some c.2
  | s, obj :: objs =>
    (obj.deleted = false → ∀ r, s.1.commitStorage K fuel obj = .ok r → r.1.storage.Faithful) ∧
      ∀ s', commitObject K fuel s obj = .ok s' → CommitKept K fuel s' objs

instance decidableCommitKept : ∀ s objs, Decidable (CommitKept K fuel s objs)
  | s, [] => inferInstanceAs (Decidable ((∀ r, s.2.hash K = .ok r →
      (r.2.2 ++ s.1.storage).Faithful) ∧ ∀ c ∈ s.1.code, s.1.code.lookup c.1 = some c.2))
  | s, obj :: objs =>
    have := fun s' ↦ decidableCommitKept s' objs
    inferInstanceAs (Decidable ((obj.deleted = false → ∀ r, s.1.commitStorage K fuel obj = .ok r →
      r.1.storage.Faithful) ∧ ∀ s', commitObject K fuel s obj = .ok s' → CommitKept K fuel s' objs))

variable {objs : List Object}

theorem commitObjects_spec (hK : K.Faithful) (hf : 134 ≤ fuel) (h : w.Sound K)
    (hopens : tt.Opens K w.storage (During tt.epoch) 32 tree)
    (hL : Label (During tt.epoch) tt.epoch) (hn : objs.length < 2 ^ 32 - 1)
    (hfit : w.EpochsFit objs.length)
    (hr : ∀ obj ∈ objs, ∃ st, Rooted K w.storage obj.root st)
    (hkept : CommitKept K fuel (w, tt) objs) :
    ∃ w' tt' tree', commitObjects K fuel (w, tt) objs = .ok (w', tt') ∧ w'.Sound K ∧
      w.Extends w' ∧ tt'.Opens K w'.storage (During tt.epoch) 32 tree' ∧ tt'.epoch = tt.epoch ∧
      CommitKept K fuel (w', tt') [] ∧
      (∀ x, (∀ obj ∈ objs, objKey K obj ≠ x) → treeMap tree' x = treeMap tree x) ∧
      (∀ obj ∈ objs, (∀ obj' ∈ objs, objKey K obj' = objKey K obj → obj' = obj) →
        Written K w'.storage obj (treeMap tree' (objKey K obj)) ∧
        (obj.deleted = false → obj.dirtyCode = true → (obj.codeHash, obj.code) ∈ w'.code)) ∧
      ∀ x, treeMap tree' x = treeMap tree x ∨
        ∃ obj ∈ objs, Written K w'.storage obj (treeMap tree' x) := by
  induction objs generalizing w tt tree with
  | nil => exact ⟨w, tt, tree, rfl, h, Extends.refl w, hopens, rfl, hkept, fun _ _ ↦ rfl, by simp,
      fun _ ↦ .inl rfl⟩
  | cons obj objs ih =>
    rw [length_cons] at hn hfit
    obtain ⟨st, hst⟩ := hr obj mem_cons_self
    obtain ⟨w₁, tt₁, tree₁, v, hobj, hsound₁, hext₁, hfit₁, hopens₁, he₁, hm₁, hwrit, hcode⟩ :=
      commitObject_spec hK hf h hopens hL (by omega) hfit hst hkept.1
    obtain ⟨w₂, tt₂, tree₂, hobjs, hsound₂, hext₂, hopens₂, he₂, hkept₂, hframe, hval, hall⟩ :=
      ih hsound₁ (he₁ ▸ hopens₁) (he₁ ▸ hL) (by omega) hfit₁
        (fun o ho ↦ by
          obtain ⟨st', hst'⟩ := hr o (mem_cons_of_mem _ ho)
          exact ⟨st', hst'.mono hext₁.storage⟩)
        (hkept.2 _ hobj)
    refine ⟨w₂, tt₂, tree₂, ?_, hsound₂, hext₁.trans hext₂, he₁ ▸ hopens₂, he₂.trans he₁, hkept₂,
      fun x hx ↦ ?_, fun o ho huniq ↦ ?_, fun x ↦ ?_⟩
    · rw [commitObjects, hobj, ok_bind, hobjs]
    · rw [hframe x fun o ho ↦ hx o (mem_cons_of_mem _ ho), hm₁,
        update_of_ne (hx obj mem_cons_self).symm]
    · by_cases hin : o ∈ objs
      · exact hval o hin fun o' ho' ↦ huniq o' (mem_cons_of_mem _ ho')
      · obtain rfl : o = obj := (mem_cons.mp ho).resolve_right hin
        have hsame : treeMap tree₂ (objKey K o) = v := by
          rw [hframe _ fun o' ho' heq ↦ hin (huniq o' (mem_cons_of_mem _ ho') heq ▸ ho'), hm₁,
            update_self]
        rw [hsame]
        exact ⟨hwrit.mono hext₂.storage, fun hd hc ↦ hext₂.code.subset (hcode hd hc)⟩
    · rcases hall x with heq | ⟨o, ho, hw⟩
      · by_cases hx : x = objKey K obj
        · right
          refine ⟨obj, mem_cons_self, ?_⟩
          rw [heq, hm₁, hx, update_self]
          exact hwrit.mono hext₂.storage
        · left
          rw [heq, hm₁, update_of_ne hx]
      · exact .inr ⟨o, mem_cons_of_mem _ ho, hw⟩

def Accounts (K : Keccak) (S : Storage) (tree : Tree) : Prop :=
  ∀ key v, treeMap tree key = some v → ∃ (a : Account) (st : Tree),
    v = K.marshal a.marshalWith ∧ a.nonce < 2 ^ 64 ∧ Rooted K S a.root st

theorem Accounts.mono (h : Accounts K S tree) (hS : S.Le S') : Accounts K S' tree := by
  intro key v hv
  obtain ⟨a, st, hm, hn, hr⟩ := h key v hv
  exact ⟨a, st, hm, hn, hr.mono hS⟩

theorem commit_spec (hK : K.Faithful) (hf : 134 ≤ fuel) (h : w.Sound K)
    (hshow : t.Shows K w.storage tree) (hacc : Accounts K w.storage tree)
    (hepoch : t.epoch.toNat + objs.length < 2 ^ 32 - 1) (hfit : w.EpochsFit objs.length)
    (hr : ∀ obj ∈ objs, obj.nonce < 2 ^ 64 ∧ ∃ st, Rooted K w.storage obj.root st)
    (hkept : CommitKept K fuel (w, t.txn) objs) :
    ∃ w' p root tree', w.commit K fuel t objs = .ok (w', p, root) ∧ w'.Sound K ∧ w.Extends w' ∧
      w'.Has K p root tree' ∧ Accounts K w'.storage tree' ∧
      (∀ c ∈ w'.code, w'.code.lookup c.1 = some c.2) ∧
      (∀ x, (∀ obj ∈ objs, objKey K obj ≠ x) → treeMap tree' x = treeMap tree x) ∧
      ∀ obj ∈ objs, (∀ obj' ∈ objs, objKey K obj' = objKey K obj → obj' = obj) →
        Written K w'.storage obj (treeMap tree' (objKey K obj)) ∧
        (obj.deleted = false → obj.dirtyCode = true → (obj.codeHash, obj.code) ∈ w'.code) := by
  obtain ⟨hopens, hL⟩ := hshow.opens (by omega)
  obtain ⟨w₁, tt₁, tree₁, hobjs, hsound₁, hext₁, hopens₁, he₁, hkept₁, hframe, hval, hall⟩ :=
    commitObjects_spec hK hf h hopens hL (by omega) hfit (fun o ho ↦ (hr o ho).2) hkept
  obtain ⟨tt₂, puts, hhash, he₂, hload⟩ := hash_commit (he₁ ▸ hopens₁)
  have hS := hkept₁.1 _ hhash
  obtain ⟨hshow₂, hr₂⟩ := hload hS
  obtain ⟨hsound₂, hext₂, hhas₂⟩ := hsound₁.addState hS hshow₂ hr₂
  refine ⟨_, w₁.tries.length, rootOf K tree₁, tree₁, ?_, hsound₂, hext₁.trans hext₂, hhas₂, ?_,
    hkept₁.2, hframe, fun o ho huniq ↦ ?_⟩
  · rw [World.commit, hobjs, ok_bind]
    dsimp only
    rw [hhash]
    rfl
  · intro key v hv
    rcases hall key with heq | ⟨o, ho, hw⟩
    · exact hacc.mono (hext₁.trans hext₂).storage key v (heq ▸ hv)
    · rw [Written, hv] at hw
      split at hw
      · cases hw
      · obtain ⟨-, st', root', -, hr', -, hv'⟩ := hw
        exact ⟨_, st', Option.some.inj hv', (hr o ho).1, hr'.mono hext₂.storage⟩
  · obtain ⟨hw, hc⟩ := hval o ho huniq
    exact ⟨hw.mono hext₂.storage, hc⟩

end World

end Mainnet.Itrie
