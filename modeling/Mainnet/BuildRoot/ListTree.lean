import Mainnet.Itrie.History
import Mainnet.BuildRoot.Printing

namespace Mainnet.BuildRoot

open Types Lib Itrie List Nat Function BigEndian Patricia.Tree UInt8 Lib.Rlp

section Tree

variable (num : ℕ) (cb : ℕ → Bytes)

def groupDigit (g : ℕ) : Nibble := if g = 0 then 1 else 0

def groupStart (g : ℕ) : ℕ := 16 * g + groupDigit g

def groupStop (g : ℕ) : ℕ := min num (16 * g + 16)

def groupSlot (g j : ℕ) : Tree :=
  if groupStart g ≤ 16 * g + j ∧ 16 * g + j < groupStop num g then
    .short [terminator] (.leaf (cb (16 * g + j)))
  else .nil

def groupTree (g : ℕ) : Tree :=
  if groupStop num g ≤ groupStart g then .nil
  else if groupStop num g - groupStart g = 1 then
    .short [groupDigit g, terminator] (.leaf (cb (groupStart g)))
  else .full fun j ↦ groupSlot num cb g j

def listSlot (i : ℕ) : Tree :=
  if i < 8 then groupTree num cb i
  else if i = 8 then .short [0, terminator] (.leaf (cb 0))
  else .nil

def listTree : Tree :=
  if num = 1 then .short [8, 0, terminator] (.leaf (cb 0))
  else .full fun i ↦ listSlot num cb i

end Tree

variable {num : ℕ} {cb : ℕ → Bytes}

theorem groupDigit_cases (g : ℕ) :
    g = 0 ∧ (groupDigit g).val = 1 ∨ g ≠ 0 ∧ (groupDigit g).val = 0 := by
  unfold groupDigit
  split
  · exact .inl ⟨by assumption, rfl⟩
  · exact .inr ⟨by assumption, rfl⟩

variable {n g : ℕ} {key : List Nibble} {v : Bytes}

theorem canonical_leaf (hk : key.length = n + 1) (v : Bytes) :
    (short key (.leaf v)).Canonical (n + 1) :=
  .short hk.symm (ne_nil_of_length_eq_add_one hk) (by simp) (.leaf v)

theorem groupSlot_ne_nil {j : ℕ} :
    groupSlot num cb g j ≠ .nil ↔ groupStart g ≤ 16 * g + j ∧ 16 * g + j < groupStop num g := by
  unfold groupSlot
  split <;> simp_all

theorem canonical_groupTree (h : groupTree num cb g ≠ .nil) : (groupTree num cb g).Canonical 2 := by
  unfold groupTree at h ⊢
  split_ifs at h ⊢ with h1 h2
  · exact absurd rfl h
  · exact canonical_leaf rfl _
  · refine .full rfl (fun j hj ↦ ?_) ?_
    · rw [groupSlot, if_pos (groupSlot_ne_nil.mp hj)]
      exact canonical_leaf rfl _
    · -- The first two items of the group.
      have hd := groupDigit_cases g
      refine ⟨groupDigit g, groupDigit g + 1, ?_, ?_, ?_⟩
      · unfold groupDigit; split <;> decide
      · rw [groupSlot_ne_nil]
        unfold groupStart at h1 ⊢
        omega
      · have hv : (groupDigit g + 1).val = (groupDigit g).val + 1 := by
          unfold groupDigit; split <;> rfl
        rw [groupSlot_ne_nil, hv]
        unfold groupStart at h1 h2 ⊢
        omega

theorem canonical_listTree (h : 1 ≤ num) : (listTree num cb).Canonical 3 := by
  unfold listTree
  split
  · exact canonical_leaf rfl _
  · refine .full rfl (fun i hi ↦ ?_) ⟨0, 8, by decide, ?_, ?_⟩
    · unfold listSlot at hi ⊢
      split_ifs at hi ⊢
      · exact canonical_groupTree hi
      · exact canonical_leaf rfl _
      · exact absurd rfl hi
    · have hs : ¬ groupStop num 0 ≤ groupStart 0 := by
        have h0 : groupStart 0 = 1 := rfl
        rw [groupStop, h0]
        omega
      simp only [Fin.val_zero, listSlot, if_pos (show 0 < 8 by omega), groupTree, if_neg hs]
      split <;> simp
    · simp [listSlot]

theorem get_short_leaf {k : List Nibble} :
    (short key (.leaf v)).get k = if k = key then some v else none := by
  split
  · rename_i hk
    rw [hk]
    simpa using get_short_append key [] (leaf v)
  · rename_i hk
    cases hg : (short key (.leaf v)).get k with
    | none => rfl
    | some w =>
      obtain ⟨rest, rfl, hr⟩ := get_short_eq_some hg
      rw [Patricia.Tree.get] at hr
      split at hr
      · simp_all
      · cases hr

theorem get_groupTree (d : Nibble) :
    (groupTree num cb g).get [d, terminator] =
      if groupStart g ≤ 16 * g + d ∧ 16 * g + d < groupStop num g then some (cb (16 * g + d))
      else none := by
  unfold groupTree
  split
  · rw [if_neg (by omega)]
    rfl
  · split
    · have hiff : [d, terminator] = [groupDigit g, terminator] ↔
          groupStart g ≤ 16 * g + d ∧ 16 * g + d < groupStop num g := by
        rw [cons.injEq, and_iff_left rfl, ← Fin.val_inj]
        unfold groupStart at *
        omega
      rw [get_short_leaf, if_congr hiff rfl rfl]
      split
      · rename_i h
        rw [groupStart, (cons.inj (hiff.mpr h)).1]
      · rfl
    · rw [get_full_cons]
      unfold groupSlot
      split
      · rw [get_short_leaf, if_pos rfl]
      · rfl

theorem get_listTree (h1 : 1 ≤ num) (h2 : num ≤ 128) (b : UInt8) :
    treeMap (listTree num cb) [b] =
      if b = 0x80 then some (cb 0)
      else if 0 < b.toNat ∧ b.toNat < num then some (cb b.toNat) else none := by
  have hhi : (highNibble b).val = b.toNat / 16 := rfl
  have hlo : (lowNibble b).val = b.toNat % 16 := rfl
  have h8 : b = 0x80 ↔ b.toNat = 128 := UInt8.toNat_inj.symm
  rw [if_congr h8 rfl rfl]
  change (listTree num cb).get [highNibble b, lowNibble b, terminator] = _
  unfold listTree
  split
  · have hiff : [highNibble b, lowNibble b, terminator] = [8, 0, terminator] ↔ b.toNat = 128 := by
      rw [cons.injEq, cons.injEq, and_iff_left rfl, ← Fin.val_inj, ← Fin.val_inj, hhi, hlo,
        show (8 : Nibble).val = 8 from rfl, show (0 : Nibble).val = 0 from rfl]
      omega
    rw [get_short_leaf, if_congr hiff rfl rfl, if_neg (c := _ ∧ _) (by omega)]
  · rw [get_full_cons, hhi]
    unfold listSlot
    split
    · have hd := groupDigit_cases (b.toNat / 16)
      have hiff : (groupStart (b.toNat / 16) ≤ 16 * (b.toNat / 16) + (lowNibble b).val ∧
          16 * (b.toNat / 16) + (lowNibble b).val < groupStop num (b.toNat / 16)) ↔
          0 < b.toNat ∧ b.toNat < num := by
        rw [hlo, groupStop, div_add_mod]
        unfold groupStart
        omega
      rw [get_groupTree, if_congr hiff rfl rfl, if_neg (c := b.toNat = 128) (by omega), hlo,
        div_add_mod]
    · rw [if_neg (c := _ ∧ _) (by omega)]
      split
      · have hiff : [lowNibble b, terminator] = [0, terminator] ↔ b.toNat = 128 := by
          rw [cons.injEq, and_iff_left rfl, ← Fin.val_inj, hlo, show (0 : Nibble).val = 0 from rfl]
          omega
        rw [get_short_leaf, if_congr hiff rfl rfl]
      · rw [if_neg (by omega)]
        rfl

theorem keyed_leaf (hk : KeyTail key) (v : Bytes) : Keyed (.short key (.leaf v)) := by
  intro k w h
  rw [get_short_leaf] at h
  split at h
  · rename_i he
    rwa [he]
  · cases h

theorem keyed_full {edges : Nibble → Tree} (ht : edges terminator = .nil)
    (hc : ∀ i, edges i ≠ .nil → (edges i).Canonical (n + 1)) (h : ∀ i, Keyed (edges i)) :
    Keyed (.full edges) := by
  intro k v hk
  cases k with
  | nil => cases hk
  | cons i k =>
    rw [get_full_cons] at hk
    have hne : edges i ≠ .nil := by
      intro hn
      rw [hn] at hk
      cases hk
    cases k with
    | nil => cases (hc i hne).length_of_get hk
    | cons j k => exact ⟨fun hi ↦ hne (hi ▸ ht), h i _ v hk⟩

theorem keyed_groupTree (g : ℕ) : Keyed (groupTree num cb g) := by
  have hcanon : groupTree num cb g ≠ .nil → (groupTree num cb g).Canonical 2 :=
    canonical_groupTree
  unfold groupTree at hcanon ⊢
  split_ifs at hcanon ⊢
  · exact fun _ _ h ↦ by cases h
  · refine keyed_leaf ?_ _
    refine ⟨?_, rfl⟩
    unfold groupDigit
    split <;> decide
  · refine keyed_full (n := 0) ?_ (fun j hj ↦ ?_) fun j ↦ ?_
    · by_contra hn
      obtain ⟨-, hlt⟩ := groupSlot_ne_nil.mp hn
      rw [groupStop, show terminator.val = 16 from rfl] at hlt
      omega
    · rw [groupSlot, if_pos (groupSlot_ne_nil.mp hj)]
      exact canonical_leaf rfl _
    · unfold groupSlot
      split
      · exact keyed_leaf (by rfl) _
      · exact fun _ _ h ↦ by cases h

theorem shaped_listTree (h : 1 ≤ num) : Shaped 3 (listTree num cb) := by
  have hcanon : (listTree num cb).Canonical 3 := canonical_listTree h
  refine ⟨fun _ ↦ hcanon, ?_⟩
  unfold listTree at hcanon ⊢
  split_ifs at hcanon ⊢
  · exact keyed_leaf (by exact ⟨by decide, by decide, rfl⟩) _
  · obtain _ | _ | ⟨hm, he, -⟩ := hcanon
    obtain rfl := succ_injective hm
    refine keyed_full (n := 1) rfl he fun i ↦ ?_
    unfold listSlot
    split_ifs
    · exact keyed_groupTree _
    · exact keyed_leaf (by exact ⟨by decide, rfl⟩) _
    · exact fun _ _ h ↦ by cases h

theorem newUint_injective : Injective Rlp.newUint := by
  intro a b h
  rw [← ofBytes_toBytes a, ← ofBytes_toBytes b, Item.bytes.inj h]

variable {K : Keccak}

theorem contents_slowOps (hK : K.Faithful) {key : Bytes} :
    contents noContents (slowOps K num cb) key = some v ↔
      ∃ i < num, K.marshal (Rlp.newUint i) = key ∧ cb i = v := by
  induction num with
  | zero => simp [slowOps, contents, noContents]
  | succ n ih =>
    have hstep : contents noContents (slowOps K (n + 1) cb) =
        update (contents noContents (slowOps K n cb)) (K.marshal (Rlp.newUint n))
          (some (cb n)) := by
      simp only [slowOps, contents, range_succ, map_append, foldl_append,
        map_cons, map_nil, foldl_cons, foldl_nil, Op.apply]
    rw [hstep]
    by_cases hkey : K.marshal (Rlp.newUint n) = key
    · rw [← hkey, update_self]
      constructor
      · intro h
        exact ⟨n, by omega, rfl, Option.some.inj h⟩
      · rintro ⟨i, -, hi, rfl⟩
        rw [newUint_injective (hK.marshal_injective hi)]
    · rw [update_of_ne (Ne.symm hkey), ih]
      constructor
      · rintro ⟨i, hi, h⟩
        exact ⟨i, by omega, h⟩
      · rintro ⟨i, hi, h⟩
        have hne : i ≠ n := fun hin ↦ hkey (hin ▸ h.1)
        exact ⟨i, by omega, h⟩

theorem marshal_newUint (hR : RlpRules K.toFastrlp) {i : ℕ} (hi : i < 128) :
    K.marshal (Rlp.newUint i) = [if i = 0 then 0x80 else ofNat i] := by
  rcases Nat.eq_zero_or_pos i with rfl | hpos
  · rw [Rlp.newUint, hR _ (by decide)]
    rfl
  · have hb : toBytes i = [ofNat i] := by
      rw [toBytes, digits_of_lt 256 i (by omega) (by omega)]
      rfl
    have hlt : ofNat i < 0x80 := by
      rw [show (0x80 : UInt8) = ofNat 128 from rfl, tag_lt_iff (by omega) (by omega)]
      exact hi
    rw [Rlp.newUint, hb, hR _ rfl, if_neg (by omega), encode, encodeBytes, if_pos hlt]

theorem treeMap_listTree (hR : RlpRules K.toFastrlp) (h1 : 1 ≤ num) (h2 : num ≤ 128) {key : Bytes} :
    treeMap (listTree num cb) key = some v ↔
      ∃ i < num, K.marshal (Rlp.newUint i) = key ∧ cb i = v := by
  constructor
  · intro h
    have hlen := (canonical_listTree h1).length_of_get h
    rw [length_bytesToHexNibbles] at hlen
    obtain ⟨b, rfl⟩ := length_eq_one_iff.mp (show key.length = 1 by omega)
    rw [get_listTree h1 h2] at h
    split_ifs at h with h8 hlt
    · exact ⟨0, h1, by rw [marshal_newUint hR (by omega), h8]; rfl, Option.some.inj h⟩
    · refine ⟨b.toNat, hlt.2, ?_, Option.some.inj h⟩
      rw [marshal_newUint hR (by omega), if_neg (by omega), UInt8.ofNat_toNat]
  · rintro ⟨i, hi, rfl, rfl⟩
    rw [marshal_newUint hR (by omega), get_listTree h1 h2]
    split
    · rename_i h0
      rw [if_pos rfl, h0]
    · have ht := toNat_tag (m := i) (by omega)
      have hne : ofNat i ≠ 0x80 := by
        intro he
        rw [he] at ht
        exact absurd ht (by simp only [reduceToNat]; omega)
      rw [if_neg hne, ht, if_pos (by omega)]

theorem deriveSlow_eq (hK : K.Faithful) (hR : RlpRules K.toFastrlp) {fuel : ℕ} (hf : 10 ≤ fuel)
    (h1 : 1 ≤ num) (h2 : num ≤ 128) :
    deriveSlow K num cb fuel = .ok (rootOf K (listTree num cb)) := by
  have hopens : newTrie.txn.Opens K [] (Fresh 1) 1 .nil := ⟨.nil, shaped_nil _, rfl⟩
  have hlen : ∀ op ∈ slowOps K num cb, op.key.length = 1 := by
    intro op hop
    obtain ⟨i, hi, rfl⟩ := mem_map.mp hop
    rw [mem_range] at hi
    rw [Op.key, marshal_newUint hR (by omega), length_singleton]
  obtain ⟨t, tree, hrun, ht, -, hm⟩ := Txn.run_spec hK (label_fresh 1) hopens hlen hf
  obtain ⟨root, t', puts, hhash, -, -, rfl, -⟩ :=
    Txn.hash_spec (Q := fun _ _ ↦ True) (fun _ _ _ ↦ trivial) (fun _ _ _ _ ↦ trivial) ht
  have heq : tree = listTree num cb := by
    refine ht.shaped.eq_of_treeMap (shaped_listTree h1) (funext fun key ↦ ?_)
    rw [hm, treeMap_nil]
    exact Option.ext fun v ↦ (contents_slowOps hK).trans (treeMap_listTree hR h1 h2).symm
  rw [deriveSlow, hrun, Outcome.ok_bind, hhash, heq]
  rfl

end Mainnet.BuildRoot
