import Mainnet.BuildRoot.Basic

namespace Mainnet.BuildRoot

open Types Lib Itrie List Nat BigEndian Lib.Rlp

def RlpRules (R : Fastrlp) : Prop := ∀ v, fits v → R.marshal v = encode v

theorem rlpCodec_rules : RlpRules rlpCodec := fun _ hv ↦ if_pos hv

variable {n : ℕ} {dst p : Bytes}

theorem intsize_eq (h0 : 0 < n) (h : n < 2 ^ 64) : intsize n = (toBytes n).length := by
  have key : ∀ k, 256 ^ k ≤ n → n < 256 ^ (k + 1) → k + 1 = (toBytes n).length :=
    fun k h1 h2 ↦ (length_toBytes_eq h1 h2).symm
  unfold intsize
  split_ifs
  · exact key 0 (by omega) (by omega)
  · exact key 1 (by omega) (by omega)
  · exact key 2 (by omega) (by omega)
  · exact key 3 (by omega) (by omega)
  · exact key 4 (by omega) (by omega)
  · exact key 5 (by omega) (by omega)
  · exact key 6 (by omega) (by omega)
  · exact key 7 (by omega) (by omega)

theorem putUint64_drop (h : (toBytes n).length ≤ 8) :
    (putUint64 n).drop (8 - (toBytes n).length) = toBytes n := by
  apply ext_getElem
  · rw [length_drop, length_putUint64]
    omega
  · intro i h1 h2
    have hlen : (toBytes n).length = (digits 256 n).length := by
      rw [toBytes, length_reverse, length_map]
    have hd := getD_digits n ((digits 256 n).length - 1 - i) (b := 256) (by omega)
    rw [getD_eq_getElem _ _ (by omega)] at hd
    simp only [putUint64, getElem_drop, getElem_map, getElem_range,
      toBytes, getElem_reverse, length_map, hd, length_reverse]
    rw [show 7 - (8 - (digits 256 n).length + i) = (digits 256 n).length - 1 - i by omega]
    apply UInt8.toNat_inj.mp
    simp

theorem marshalRlpSize_eq (list : Bool) (hp : p.length < 2 ^ 64) {short long : UInt8}
    (hs : short = UInt8.ofNat (offset list))
    (hl : long = UInt8.ofNat (offset list + 55)) :
    marshalRlpSize dst p.length short long =
      dst ++ header (offset list) p := by
  unfold marshalRlpSize header
  split
  · rw [hs, ← UInt8.ofNat_add]
  · rename_i hge
    have hsize := intsize_eq (n := p.length) (by omega) hp
    rw [hsize, putUint64_drop (length_toBytes hp), hl, ← UInt8.ofNat_add, append_assoc,
      singleton_append]

theorem marshalListRlpSize_eq (hp : p.length < 2 ^ 64) :
    marshalListRlpSize dst p.length = dst ++ header 0xc0 p :=
  marshalRlpSize_eq true hp rfl rfl

theorem marshalItemRlpSize_eq (hp : p.length < 2 ^ 64) :
    marshalItemRlpSize dst p.length = dst ++ header 0x80 p :=
  marshalRlpSize_eq false hp rfl rfl

theorem getRlpSize_eq (hp : p.length < 2 ^ 64) : getRlpSize p.length = (header 0x80 p).length := by
  unfold getRlpSize header
  split
  · rfl
  · rw [intsize_eq (by omega) hp, length_cons]

section Slots

variable {K : Keccak}

def slot (K : Keccak) (t : Tree) : Bytes := encode (foldItem K (item K t))

structure Large (K : Keccak) (t : Tree) : Prop where
  array : ∃ elems, item K t = .array elems
  le_length : 32 ≤ (K.marshal (item K t)).length

theorem slot_nil : slot K .nil = rlpEmptyValue := rfl

theorem encode_hash (h : Hash) : encode (.bytes h.bytes) = rlpHashPrefix ++ h.bytes := by
  obtain ⟨b, hb⟩ := h
  obtain ⟨x, y, rest, rfl⟩ : ∃ x y rest, b = x :: y :: rest := by
    match b, hb with
    | x :: y :: rest, _ => exact ⟨x, y, rest, rfl⟩
  rw [encode, encodeBytes, header, hb, if_pos (by omega)]
  · rfl
  · simp

variable {t : Tree} {edges : ℕ → Tree}

theorem Large.foldItem_eq (h : Large K t) :
    foldItem K (item K t) = .bytes (K.keccak256Rlp (item K t)).bytes :=
  foldItem_of_le h.array h.le_length

theorem Large.slot_eq (h : Large K t) :
    slot K t = rlpHashPrefix ++ (K.keccak256Rlp (item K t)).bytes := by
  rw [slot, h.foldItem_eq, encode_hash]

structure LeafKey (hex : List Nibble) (key : Bytes) : Prop where
  printed : encodeBytes (encodeCompact hex) = key
  length_le : (encodeCompact hex).length ≤ 2
  printed_length_le : key.length ≤ 3

theorem leafKey_single : LeafKey [8, 0, terminator] singleKey :=
  ⟨by decide, by decide, by decide⟩

theorem leafKey_zero : LeafKey [0, terminator] zeroKey := ⟨by decide, by decide, by decide⟩

theorem leafKey_one : LeafKey [1, terminator] oneKey := ⟨by decide, by decide, by decide⟩

theorem leafKey_val : LeafKey [terminator] leafVal := ⟨by decide, by decide, by decide⟩

section Leaf

variable {hex : List Nibble} {key v : Bytes}

theorem length_header_le (hv : v.length < 2 ^ 63) : (header 0x80 v).length ≤ 9 := by
  rw [← getRlpSize_eq (by omega)]
  unfold getRlpSize intsize
  split_ifs <;> omega

section

variable (hR : RlpRules K.toFastrlp) (hkey : LeafKey hex key) (h32 : 32 ≤ v.length)
  (hv : v.length < 2 ^ 63)
include hR hkey h32 hv

theorem marshal_leaf :
    K.marshal (item K (.short hex (.leaf v))) =
      header 0xc0 (key ++ (header 0x80 v ++ v)) ++
        (key ++ (header 0x80 v ++ v)) := by
  have hbytes : encodeBytes v = header 0x80 v ++ v := by
    unfold encodeBytes
    split
    · exact absurd h32 (by simp)
    · rfl
  have helems : encodeElems [.bytes (encodeCompact hex), .bytes v] =
      key ++ (header 0x80 v ++ v) := by
    simp only [encodeElems, encode, hkey.printed, hbytes, append_nil]
  have hfits : fits (.array [.bytes (encodeCompact hex), .bytes v]) = true := by
    have h1 := hkey.length_le
    have h2 := hkey.printed_length_le
    have h3 := length_header_le hv
    simp only [fits, fitsElems, helems, Bool.and_true, Bool.and_eq_true,
      decide_eq_true_eq, length_append]
    omega
  rw [item, item, foldItem, hR _ hfits, encode, helems]

theorem fast_leaf :
    marshalItemRlpSize (marshalListRlpSize [] (getRlpSize v.length + v.length + key.length) ++ key)
        v.length ++ v = K.marshal (item K (.short hex (.leaf v))) := by
  have hlen : getRlpSize v.length + v.length + key.length =
      (key ++ (header 0x80 v ++ v)).length := by
    rw [length_append, length_append, ← getRlpSize_eq (by omega)]
    omega
  have hp : (key ++ (header 0x80 v ++ v)).length < 2 ^ 64 := by
    have h2 := hkey.printed_length_le
    have h3 := length_header_le hv
    rw [length_append, length_append]
    omega
  rw [marshal_leaf hR hkey h32 hv, marshalItemRlpSize_eq (by omega), hlen, marshalListRlpSize_eq hp]
  simp only [nil_append, append_assoc]

theorem large_leaf : Large K (.short hex (.leaf v)) := by
  refine ⟨⟨_, rfl⟩, ?_⟩
  rw [marshal_leaf hR hkey h32 hv]
  simp only [length_append]
  omega

end

end Leaf

theorem encodeElems_eq_flatten (es : List Rlp.Value) :
    encodeElems es = (es.map encode).flatten := by
  induction es with
  | nil => rfl
  | cons e es ih => rw [encodeElems, ih, map_cons, flatten_cons]

def slots (K : Keccak) (edges : ℕ → Tree) (is : List ℕ) : Bytes :=
  (is.map fun i ↦ slot K (edges i)).flatten

theorem slots_append (edges : ℕ → Tree) (is js : List ℕ) :
    slots K edges (is ++ js) = slots K edges is ++ slots K edges js := by
  rw [slots, map_append, flatten_append, slots, slots]

theorem slots_nil (is : List ℕ) (h : ∀ i ∈ is, edges i = .nil) :
    slots K edges is = (replicate is.length rlpEmptyValue).flatten := by
  rw [slots, map_eq_replicate_iff.mpr fun i hi ↦ by rw [h i hi, slot_nil]]

theorem length_slots_le (is : List ℕ) (h : ∀ i ∈ is, edges i = .nil ∨ Large K (edges i)) :
    (slots K edges is).length ≤ 33 * is.length := by
  induction is with
  | nil => exact le_rfl
  | cons i is ih =>
    have hi : (slot K (edges i)).length ≤ 33 := by
      rcases h i mem_cons_self with hn | hl
      · rw [hn, slot_nil, rlpEmptyValue, length_singleton]
        omega
      · rw [hl.slot_eq, length_append, (K.keccak256Rlp _).length_eq]
        rfl
    have := ih fun j hj ↦ h j (mem_cons_of_mem _ hj)
    simp only [slots, map_cons, flatten_cons, length_append, length_cons] at *
    omega

theorem item_branch (edges : ℕ → Tree) :
    item K (.full fun i ↦ edges i) =
      .array ((range 17).map fun i ↦ foldItem K (item K (edges i))) := by
  rw [item, ← map_coe_finRange_eq_range, map_map]
  rfl

section

variable (hR : RlpRules K.toFastrlp) (h : ∀ i < 17, edges i = .nil ∨ Large K (edges i))
include hR h

theorem marshal_branch :
    K.marshal (item K (.full fun i ↦ edges i)) =
      header 0xc0 (slots K edges (range 17)) ++ slots K edges (range 17) := by
  have helems : encodeElems ((range 17).map fun i ↦ foldItem K (item K (edges i))) =
      slots K edges (range 17) := by
    rw [encodeElems_eq_flatten, map_map]
    rfl
  have hfitsElems : ∀ es : List Rlp.Value, (∀ e ∈ es, fits e = true) →
      fitsElems es = true := by
    intro es hes
    induction es with
    | nil => rfl
    | cons e es ih =>
      rw [fitsElems, hes e mem_cons_self, ih fun x hx ↦ hes x (mem_cons_of_mem _ hx)]
      rfl
  have hlen := length_slots_le (range 17) fun i hi ↦ h i (mem_range.mp hi)
  rw [length_range] at hlen
  have hfits : fits
      (.array ((range 17).map fun i ↦ foldItem K (item K (edges i)))) = true := by
    rw [fits, helems, hfitsElems, Bool.and_true, decide_eq_true_eq]
    · omega
    · intro e he
      obtain ⟨i, hi, rfl⟩ := mem_map.mp he
      rcases h i (mem_range.mp hi) with hn | hl
      · rw [hn]
        rfl
      · rw [hl.foldItem_eq, fits, (K.keccak256Rlp _).length_eq]
        rfl
  rw [item_branch, hR _ hfits, encode, helems]

theorem fast_branch :
    marshalListRlpSize [] (slots K edges (range 17)).length ++ slots K edges (range 17) =
      K.marshal (item K (.full fun i ↦ edges i)) := by
  have hlen := length_slots_le (range 17) fun i hi ↦ h i (mem_range.mp hi)
  rw [length_range] at hlen
  rw [marshalListRlpSize_eq (by omega), marshal_branch hR h, nil_append]

theorem large_branch
    {i : ℕ} (hi : i < 17) (hl : Large K (edges i)) : Large K (.full fun i ↦ edges i) := by
  refine ⟨⟨_, item_branch edges⟩, ?_⟩
  have hmem : slot K (edges i) ∈ (range 17).map fun i ↦ slot K (edges i) :=
    mem_map.mpr ⟨i, mem_range.mpr hi, rfl⟩
  have hle := (sublist_flatten_of_mem hmem).length_le
  rw [hl.slot_eq, length_append, (K.keccak256Rlp _).length_eq] at hle
  rw [marshal_branch hR h, length_append, slots]
  omega

end

theorem slots_segment {a m : ℕ} (ham : a + m ≤ 17) (h : ∀ i, i < a ∨ a + m ≤ i → edges i = .nil) :
    slots K edges (range 17) =
      (replicate a rlpEmptyValue).flatten ++ slots K edges (range' a m) ++
        (replicate (17 - a - m) rlpEmptyValue).flatten := by
  have hsplit : range 17 =
      range' 0 a ++ range' a m ++ range' (a + m) (17 - a - m) := by
    have h1 : range' 0 a ++ range' a m = range' 0 (a + m) := by
      have := range'_append_1 (s := 0) (m := a) (n := m)
      rwa [zero_add] at this
    have h2 := range'_append_1 (s := 0) (m := a + m) (n := 17 - a - m)
    rw [zero_add] at h2
    rw [h1, h2, range_eq_range']
    congr 1
    omega
  rw [hsplit, slots_append, slots_append, slots_nil (range' 0 a),
    slots_nil (range' (a + m) _), length_range', length_range']
  · intro i hi
    exact h i (.inr (mem_range'_1.mp hi).1)
  · intro i hi
    exact h i (.inl (by simpa using (mem_range'_1.mp hi).2))

end Slots

end Mainnet.BuildRoot
