import Mainnet.Itrie.Delete

namespace Mainnet.Itrie

open Types Lib Function

structure Shaped (n : ℕ) (t : Tree) : Prop where
  canonical : t ≠ .nil → t.Canonical n
  keyed : Keyed t

theorem shaped_nil (n : ℕ) : Shaped n .nil := ⟨fun h ↦ absurd rfl h, fun _ _ h ↦ by cases h⟩

section Shape

variable {m n : ℕ} {key : List Nibble} {t : Tree} {edges : Nibble → Tree}

theorem Shaped.short (h : Shaped m (.short key t)) :
    ∃ n, m = key.length + n ∧ key ≠ [] ∧ (∀ k c, t ≠ .short k c) ∧ t.Canonical n ∧ Shaped n t := by
  obtain @⟨⟩ | @⟨_, n, _, _, hm, hk, hs, hc⟩ := h.canonical (by simp)
  exact ⟨n, hm, hk, hs, hc, fun _ ↦ hc, h.keyed.child⟩

theorem Shaped.full (h : Shaped m (.full edges)) :
    ∃ n, m = n + 1 ∧ n ≠ 0 ∧ edges terminator = .nil ∧ (∀ i, Shaped n (edges i)) ∧
      ∃ i j, i ≠ j ∧ edges i ≠ .nil ∧ edges j ≠ .nil := by
  have hc := h.canonical (by simp)
  obtain ⟨hterm, h2⟩ := h.keyed.full hc
  obtain @⟨⟩ | @⟨⟩ | @⟨_, n, _, hm, he, hij⟩ := hc
  exact ⟨n, hm, by omega, hterm, fun i ↦ ⟨he i, h.keyed.edge i⟩, hij⟩

theorem Shaped.sound {n : ℕ} (h : Shaped n t) : Sound (decide (n = 0)) t := by
  induction t generalizing n with
  | nil => exact sound_nil _
  | leaf v =>
    obtain @⟨⟩ := h.canonical (by simp)
    exact fun _ ↦ .leaf v
  | short key child ih =>
    obtain ⟨n', hm, hk, hs, hc, hshape⟩ := h.short
    have hlen := List.length_pos_of_ne_nil hk
    rw [decide_eq_false (by omega)]
    refine fun _ ↦ .short (b := decide (n' = 0)) hk ?_ hs (ih hshape hc.ne_nil)
    by_cases hn : n' = 0
    · subst hn
      obtain ⟨v, rfl⟩ := hc.eq_leaf
      obtain ⟨d, hd, hdig⟩ := h.keyed.short_leaf hk
      exact ⟨d, hd, fun hm ↦ hdig _ hm rfl⟩
    · rw [decide_eq_false hn]
      exact fun hm ↦ h.keyed.short_digits hc hn _ hm rfl
  | full edges ih =>
    obtain ⟨n', rfl, hn, hterm, hshape, h2⟩ := h.full
    refine fun _ ↦ .full (fun i hi ↦ ?_) h2
    have hit : i ≠ terminator := by
      rintro rfl
      exact hi hterm
    have := ih i (hshape i) hi
    rwa [decide_eq_false hn, ← decide_eq_false hit] at this

theorem Shaped.of_sound {b : Bool} (h : Sound b t)
    (hk : ∀ k v, t.get k = some v → k.length = n ∧ KeyTail k) : Shaped n t :=
  ⟨fun hn ↦ (h hn).canonical fun k v hg ↦ (hk k v hg).1, fun k v hg ↦ (hk k v hg).2⟩

theorem Shaped.keyTail (h : Shaped n t) {k : List Nibble} {v : Bytes} (hg : t.get k = some v) :
    k.length = n ∧ KeyTail k := by
  have hn : t ≠ .nil := by
    rintro rfl
    cases hg
  exact ⟨(h.canonical hn).length_of_get hg, h.keyed k v hg⟩

variable {l : ℕ} {k : Bytes}

section

variable (h : Shaped (2 * l + 1) t) (hk : k.length = l)
include h hk

theorem Shaped.get_insert (v : Bytes) :
    (t.insert (bytesToHexNibbles k) v).get = update t.get (bytesToHexNibbles k) (some v) :=
  Patricia.Tree.get_insert h.canonical (by rw [length_bytesToHexNibbles, hk]) v

theorem Shaped.insert (v : Bytes) :
    Shaped (2 * l + 1) (t.insert (bytesToHexNibbles k) v) ∧
      t.insert (bytesToHexNibbles k) v ≠ .nil := by
  have hp := Patricia.Tree.Proper.insert h.sound (closed_bytesToHexNibbles k) v
  refine ⟨.of_sound (fun _ ↦ hp) fun k' w hw ↦ ?_, hp.ne_nil⟩
  rw [h.get_insert hk] at hw
  by_cases hkk : k' = bytesToHexNibbles k
  · subst hkk
    exact ⟨by rw [length_bytesToHexNibbles, hk], keyTail_bytesToHexNibbles k⟩
  · rw [update_of_ne hkk] at hw
    exact h.keyTail hw

theorem Shaped.pruned :
    Shaped (2 * l + 1) (pruned t k) ∧
      treeMap (Itrie.pruned t k) = update (treeMap t) k none := by
  obtain ⟨hs, hp⟩ := Sound.pruned h.sound k
  refine ⟨.of_sound hs fun k' w hw ↦ ?_,
    (Sound.treeMap_pruned_iff h.sound k).mpr fun other hne hr ↦ hne ?_⟩
  · obtain ⟨-, hp⟩ | ⟨s, -, hp⟩ := hp
    · exact h.keyTail (hp ▸ hw)
    · rw [hp] at hw
      by_cases hks : k' = s
      · rw [hks, update_self] at hw
        cases hw
      · rw [update_of_ne hks] at hw
        exact h.keyTail hw
  · have hn : t ≠ .nil := by
      rintro rfl
      cases hr
    have hlen : (bytesToHexNibbles k).length = 2 * l + 1 := by rw [length_bytesToHexNibbles, hk]
    exact bytesToHexNibbles_injective ((h.canonical hn).eq_of_reach hlen.ge hr).1

end

end Shape

variable {K : Keccak} {S : Storage} {P : Bytes → UInt32 → Prop} {node : Node} {t : Tree}

theorem Denotes.eq_nil (h : Denotes K S P node .nil) : node = .nil := by
  cases h with
  | nil => rfl
  | ref _ ha _ =>
    obtain ⟨elems, ha⟩ := ha
    cases ha

theorem Denotes.isNil (h : Denotes K S P node t) : node.isNil = true ↔ t = .nil := by
  constructor
  · intro hn
    cases h <;> first | rfl | cases hn
  · rintro rfl
    rw [h.eq_nil]
    rfl

theorem Stored.kept (hs : Stored K S t) {elems : List Rlp.Value} (ha : item K t = .array elems) :
    Kept K S (item K t) := by
  cases t with
  | nil | leaf v => cases ha
  | short key child | full edges => exact hs.1

theorem Denotes.load (hK : K.Faithful) (hP : P [] 0) {n : ℕ} {buf : Bytes}
    (h : Denotes K S P (.value true buf) t) (hs : Shaped n t) :
    n ≠ 0 ∧ ∃ nc, getNode K S buf = .ok (some nc) ∧ Denotes K S P nc t ∧ nc.isLoaded := by
  cases h with
  | ref hst ha hl =>
    obtain ⟨elems, ha⟩ := ha
    have hnil : t ≠ .nil := by rintro rfl; cases ha
    have hc := hs.canonical hnil
    have hn : n ≠ 0 := by
      rintro rfl
      obtain ⟨v, rfl⟩ := hc.eq_leaf
      cases ha
    exact ⟨hn, getNode_item hK hP (hst.kept ha hl) hc hn hs.keyed hst⟩

def Marks.kept (K : Keccak) (S : Storage) (P : Bytes → UInt32 → Prop) : Marks where
  ref buf t := buf = (K.keccak256Rlp (item K t)).bytes ∧ Stored K S t ∧
    (∃ elems, item K t = .array elems) ∧ 32 ≤ (K.marshal (item K t)).length
  short c t := CacheOk K S c t
  full c e t := CacheOk K S c t ∧ P c e

/-- What a transaction of epoch `ep` relies on: the full nodes of its own epoch have no hash yet. -/
structure Label (P : Bytes → UInt32 → Prop) (ep : UInt32) : Prop where
  zero : P [] 0
  own : P [] ep
  fresh : ∀ c, P c ep → c = []

theorem Label.unset {ep : UInt32} (h : Label P ep) : (Marks.kept K S P).Unset ep :=
  ⟨cacheOk_nil, fun t ↦ ⟨cacheOk_nil t, h.zero⟩, fun t ↦ ⟨cacheOk_nil t, h.own⟩⟩

theorem Means.denotes (h : Means K S (.kept K S P) node t) : Denotes K S P node t := by
  induction h with
  | nil => exact .nil
  | value v => exact .value v
  | ref _ hm _ _ =>
    obtain ⟨rfl, hs, ha, hl⟩ := hm
    exact .ref hs ha hl
  | short hm _ ih => exact .short hm ih
  | full hm _ ih => exact .full hm.1 hm.2 ih

theorem Denotes.means (hK : K.Faithful) (hP : P [] 0) {n : ℕ} (hd : Denotes K S P node t)
    (hs : Shaped n t) : Means K S (.kept K S P) node t := by
  -- The references are loaded once; what is loaded stands for the same tree.
  have hload : ∀ {buf : Bytes} {t : Tree} {n : ℕ}, Denotes K S P (.value true buf) t →
      Shaped n t → (∀ nc, nc.isLoaded → Denotes K S P nc t → Means K S (.kept K S P) nc t) →
      Means K S (.kept K S P) (.value true buf) t := by
    intro buf t n hd hs h
    obtain ⟨-, nc, hg, hden, hl⟩ := hd.load hK hP hs
    refine .ref hg ?_ (h nc hl hden)
    cases hd with
    | ref hst ha hl => exact ⟨rfl, hst, ha, hl⟩
  induction t generalizing node n with
  | nil =>
    rw [hd.eq_nil]
    exact .nil
  | leaf v =>
    cases hd with
    | value => exact .value v
    | ref hst ha hl =>
      obtain ⟨elems, ha⟩ := ha
      cases ha
  | short key child ih =>
    obtain ⟨n', -, -, -, -, hshape⟩ := hs.short
    cases hd with
    | ref hst ha hl =>
      refine hload (.ref hst ha hl) hs fun nc hl hd ↦ ?_
      cases hd with
      | ref => cases hl.2
      | short hc hd => exact .short hc (ih hd hshape)
    | short hc hd => exact .short hc (ih hd hshape)
  | full ts ih =>
    obtain ⟨n', -, -, -, hshape, -⟩ := hs.full
    cases hd with
    | ref hst ha hl =>
      refine hload (.ref hst ha hl) hs fun nc hl hd ↦ ?_
      cases hd with
      | ref => cases hl.2
      | full hc hp hd => exact .full ⟨hc, hp⟩ fun i ↦ ih i (hd i) (hshape i)
    | full hc hp hd => exact .full ⟨hc, hp⟩ fun i ↦ ih i (hd i) (hshape i)

theorem Denotes.not_stale {ep : UInt32} (hfresh : ∀ c, P c ep → c = []) (h : Denotes K S P node t)
    (s : List Nibble) : node.stale ep s = false := by
  induction h generalizing s with
  | nil | value | ref => rfl
  | short _ _ ih => rw [Node.stale, ih, Bool.and_false]
  | full hc hp h ih =>
    cases s with
    | nil => rfl
    | cons k s =>
      rw [Node.stale, ih, Bool.or_false, decide_eq_false_iff_not]
      rintro ⟨rfl, hne⟩
      exact hne (hfresh _ hp)

end Mainnet.Itrie
