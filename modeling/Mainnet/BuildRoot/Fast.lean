import Mainnet.BuildRoot.ListTree

namespace Mainnet.BuildRoot

open Types Lib Itrie List Nat

variable {K : Keccak} {num : ℕ} {cb : ℕ → Bytes} {f f' : FastHasher} {dst d : Bytes}

theorem getCb_eq_some {i : ℕ} {v : Bytes} (h : getCb num cb i = some v) :
    cb i = v ∧ 32 ≤ v.length := by
  unfold getCb at h
  split_ifs at h with h1 h2
  obtain rfl := Option.some.inj h
  exact ⟨rfl, Nat.le_of_not_lt h2⟩

def Sized (cb : ℕ → Bytes) : Prop := ∀ i, (cb i).length < 2 ^ 63

namespace FastHasher

section

variable (hR : RlpRules K.toFastrlp)
include hR

theorem encodeOneItem_spec (hcb : Sized cb) (hk : f.k = [])
    (hd : f.dst = []) (h : f.encodeOneItem K num cb = (some d, f')) :
    d = (K.keccak256Rlp (item K (.short [8, 0, terminator] (.leaf (cb 0))))).bytes := by
  obtain ⟨k, _, buf, buf2⟩ := f
  obtain rfl : k = [] := hk
  obtain rfl := hd
  unfold encodeOneItem at h
  cases hcb0 : getCb num cb 0 with
  | none => rw [hcb0] at h; cases h
  | some v =>
    obtain ⟨hv, h32⟩ := getCb_eq_some hcb0
    rw [hcb0] at h
    simp only [fast_leaf hR leafKey_single h32 (hv ▸ hcb 0), hash, nil_append] at h
    rw [hv]
    exact (Option.some.inj (Prod.mk.inj h).1).symm

theorem encodeSingle_spec {v : Bytes} (h32 : 32 ≤ v.length)
    (hv : v.length < 2 ^ 63) (hk : f.k = []) (b : Bool) (dst : Bytes) :
    ∃ f', f.encodeSingle K dst v b =
      (dst ++ (K.keccak256Rlp (item K (.short [if b then 1 else 0, terminator] (.leaf v)))).bytes,
        f')
      ∧ f'.k = [] := by
  obtain ⟨k, _, buf, buf2⟩ := f
  obtain rfl : k = [] := hk
  cases b with
  | false =>
    have hleaf := fast_leaf hR leafKey_zero h32 hv
    rw [show zeroKey.length = 1 from rfl] at hleaf
    simp only [encodeSingle, Bool.false_eq_true, if_false, hleaf, hash]
    exact ⟨_, rfl, rfl⟩
  | true =>
    have hleaf := fast_leaf hR leafKey_one h32 hv
    rw [show oneKey.length = 1 from rfl] at hleaf
    simp only [encodeSingle, if_true, hleaf, hash]
    exact ⟨_, rfl, rfl⟩

theorem groupItem_spec (hcb : Sized cb) (hk : f.k = []) {i : ℕ}
    (h : groupItem K num cb f i = (true, f')) :
    f'.k = [] ∧ Large K (.short [terminator] (.leaf (cb i))) ∧
      f'.buf = f.buf ++ slot K (.short [terminator] (.leaf (cb i))) := by
  obtain ⟨k, _, buf, buf2⟩ := f
  obtain rfl : k = [] := hk
  unfold groupItem at h
  cases hcbi : getCb num cb i with
  | none => rw [hcbi] at h; cases h
  | some v =>
    obtain ⟨rfl, h32⟩ := getCb_eq_some hcbi
    have hlarge := large_leaf hR leafKey_val h32 (hcb i)
    have hleaf := fast_leaf hR leafKey_val h32 (hcb i)
    rw [add_right_comm, show leafVal.length = 1 from rfl] at hleaf
    rw [hcbi] at h
    simp only [hleaf, hash, nil_append] at h
    obtain ⟨-, rfl⟩ := Prod.mk.inj h
    exact ⟨rfl, hlarge, by rw [hlarge.slot_eq, ← append_assoc]; rfl⟩

theorem groupItems_spec (hcb : Sized cb) (hk : f.k = []) {is : List ℕ}
    (h : groupItems K num cb f is = (true, f')) :
    f'.k = [] ∧ (∀ i ∈ is, Large K (.short [terminator] (.leaf (cb i)))) ∧
      f'.buf = f.buf ++ slots K (fun i ↦ .short [terminator] (.leaf (cb i))) is := by
  induction is generalizing f with
  | nil =>
    obtain rfl := (Prod.mk.inj h).2
    exact ⟨hk, by simp, by simp [slots]⟩
  | cons i is ih =>
    rw [groupItems] at h
    split at h
    · cases h
    · rename_i f₁ hi
      obtain ⟨hk₁, hl₁, hb₁⟩ := groupItem_spec hR hcb hk hi
      obtain ⟨hk₂, hl₂, hb₂⟩ := ih hk₁ h
      refine ⟨hk₂, forall_mem_cons.mpr ⟨hl₁, hl₂⟩, ?_⟩
      rw [hb₂, hb₁, append_assoc]
      rfl

end

theorem slots_groupSlot (g : ℕ) :
    slots K (groupSlot num cb g)
        (range' (groupDigit g) (groupStop num g - groupStart g)) =
      slots K (fun i ↦ .short [terminator] (.leaf (cb i)))
        (range' (groupStart g) (groupStop num g - groupStart g)) := by
  rw [slots, slots, groupStart, ← map_add_range', map_map]
  congr 1
  refine map_congr_left fun j hj ↦ ?_
  obtain ⟨h1, h2⟩ := mem_range'_1.mp hj
  rw [groupSlot, if_pos (by unfold groupStart; omega)]
  rfl

variable {g : ℕ}

theorem groupStart_eq_one : groupStart g = 1 ↔ g = 0 := by
  have hd := groupDigit_cases g
  unfold groupStart
  omega

theorem groupPadding_eq (hg : groupStart g < groupStop num g) :
    groupPadding (groupStart g) (groupStop num g - groupStart g) + 1 =
      17 - groupDigit g - (groupStop num g - groupStart g) := by
  have hstop : groupStop num g ≤ 16 * g + 16 := min_le_right _ _
  have hd := groupDigit_cases g
  have hstart : groupStart g = 16 * g + groupDigit g := rfl
  unfold groupPadding
  split_ifs <;> omega

theorem slots_group (hg : groupStart g < groupStop num g) :
    (replicate (groupDigit g) rlpEmptyValue).flatten ++
        slots K (fun i ↦ .short [terminator] (.leaf (cb i)))
          (range' (groupStart g) (groupStop num g - groupStart g)) ++
        (replicate (groupPadding (groupStart g) (groupStop num g - groupStart g))
          rlpEmptyValue).flatten ++ rlpEmptyValue =
      slots K (groupSlot num cb g) (range 17) := by
  have hstop : groupStop num g ≤ 16 * g + 16 := min_le_right _ _
  have hstart : groupStart g = 16 * g + groupDigit g := rfl
  rw [slots_segment (a := groupDigit g) (m := groupStop num g - groupStart g) (by omega),
    ← groupPadding_eq hg, replicate_succ', flatten_append, slots_groupSlot]
  · simp only [flatten_cons, flatten_nil, append_nil, append_assoc]
  · intro i hi
    by_contra hn
    have := groupSlot_ne_nil.mp hn
    omega

theorem groupSlot_large
    (hl : ∀ i ∈ range' (groupStart g) (groupStop num g - groupStart g),
      Large K (.short [terminator] (.leaf (cb i)))) (j : ℕ) :
    groupSlot num cb g j = .nil ∨ Large K (groupSlot num cb g j) := by
  unfold groupSlot
  split
  · exact .inr (hl _ (mem_range'_1.mpr (by omega)))
  · exact .inl rfl

theorem deriveGroup_spec (hR : RlpRules K.toFastrlp) (hcb : Sized cb) (hk : f.k = [])
    (hg : groupStart g < groupStop num g)
    (h : f.deriveGroup K num cb dst (groupStart g) (groupStop num g) = (some d, f')) :
    f'.k = [] ∧ Large K (groupTree num cb g) ∧
      d = dst ++ (K.keccak256Rlp (item K (groupTree num cb g))).bytes := by
  unfold deriveGroup at h
  by_cases hone : groupStop num g - groupStart g = 1
  · rw [if_pos hone] at h
    rw [groupTree, if_neg (by omega), if_pos hone]
    cases hcbi : getCb num cb (groupStart g) with
    | none => rw [hcbi] at h; cases h
    | some v =>
      obtain ⟨rfl, h32⟩ := getCb_eq_some hcbi
      obtain ⟨f₁, heq, hk₁⟩ := encodeSingle_spec (f := { f with buf := [] }) hR h32
        (hcb _) hk (groupStart g == 1) dst
      have hdigit : (if (groupStart g == 1) = true then 1 else 0) = groupDigit g :=
        if_congr (beq_iff_eq.trans groupStart_eq_one) rfl rfl
      rw [hdigit] at heq
      simp only [hcbi, heq] at h
      obtain ⟨hdst, rfl⟩ := Prod.mk.inj h
      refine ⟨hk₁, ?_, (Option.some.inj hdst).symm⟩
      unfold groupDigit
      split
      · exact large_leaf hR leafKey_one h32 (hcb _)
      · exact large_leaf hR leafKey_zero h32 (hcb _)
  · rw [if_neg hone] at h
    rw [groupTree, if_neg (by omega), if_neg hone]
    simp only at h
    split at h
    · cases h
    · rename_i f₁ hitems
      obtain ⟨hk₁, hl, hb₁⟩ := groupItems_spec hR hcb (by split <;> exact hk) hitems
      have hbuf : f₁.buf = (replicate (groupDigit g) rlpEmptyValue).flatten ++
          slots K (fun i ↦ .short [terminator] (.leaf (cb i)))
            (range' (groupStart g) (groupStop num g - groupStart g)) := by
        rw [hb₁, groupDigit, if_congr groupStart_eq_one rfl rfl]
        split <;> rfl
      have hlarge := groupSlot_large hl
      obtain ⟨k, _, _, buf2⟩ := f₁
      obtain rfl : k = [] := hk₁
      obtain rfl := hbuf
      simp only [slots_group hg, fast_branch hR fun j _ ↦ hlarge j, hash, nil_append] at h
      obtain ⟨hdst, rfl⟩ := Prod.mk.inj h
      refine ⟨rfl, ?_, (Option.some.inj hdst).symm⟩
      refine large_branch hR (fun j _ ↦ hlarge j) (i := groupDigit g) (by omega) ?_
      rw [groupSlot, if_pos ⟨le_rfl, hg⟩]
      exact hl _ (mem_range'_1.mpr ⟨le_rfl, by unfold groupStart at *; omega⟩)

theorem deriveGroups_spec (hR : RlpRules K.toFastrlp) (hcb : Sized cb) (h2 : 2 ≤ num)
    (hk : f.k = []) {m : ℕ} (hm : ∀ j < m, 16 * (g + j) < num)
    (h : f.deriveGroups K num cb num (range' (16 * g) m 16) = (true, f')) :
    f'.k = [] ∧ (∀ j ∈ range' g m, Large K (groupTree num cb j)) ∧
      f'.dst = f.dst ++ slots K (groupTree num cb) (range' g m) := by
  induction m generalizing f g with
  | zero =>
    obtain rfl := (Prod.mk.inj h).2
    exact ⟨hk, by simp, by simp [slots]⟩
  | succ m ih =>
    have hini : (if 16 * g = 0 then 1 else 16 * g) = groupStart g := by
      have hd := groupDigit_cases g
      unfold groupStart
      split <;> omega
    have hg : groupStart g < groupStop num g := by
      have := hm 0 (by omega)
      have hd := groupDigit_cases g
      rw [groupStop, groupStart, lt_min_iff]
      omega
    rw [range'_succ, deriveGroups] at h
    simp only [hini] at h
    rw [show min num (16 * g + 16) = groupStop num g from rfl] at h
    split at h
    · cases h
    · rename_i d₁ f₁ hgroup
      obtain ⟨hk₁, hl₁, rfl⟩ := deriveGroup_spec hR hcb hk hg hgroup
      rw [show 16 * g + 16 = 16 * (g + 1) by omega] at h
      obtain ⟨hk₂, hl₂, hd₂⟩ := ih (g := g + 1) (by exact hk₁)
        (fun j hj ↦ by have := hm (j + 1) (by omega); omega) h
      rw [range'_succ]
      refine ⟨hk₂, forall_mem_cons.mpr ⟨hl₁, hl₂⟩, ?_⟩
      rw [hd₂, append_assoc, append_assoc, ← append_assoc rlpHashPrefix, ← hl₁.slot_eq]
      rfl

theorem groupTree_nil (hg : num ≤ 16 * g) : groupTree num cb g = .nil := by
  have hle : groupStop num g ≤ groupStart g := by
    unfold groupStop groupStart
    omega
  rw [groupTree, if_pos hle]

theorem slots_list (h2 : num ≤ 128) :
    slots K (groupTree num cb) (range' 0 ((num + 15) / 16)) ++
        (replicate ((128 - num) / 16) rlpEmptyValue).flatten ++
        slot K (.short [0, terminator] (.leaf (cb 0))) ++
        (replicate 8 rlpEmptyValue).flatten =
      slots K (listSlot num cb) (range 17) := by
  have hsplit : range 17 = range' 0 ((num + 15) / 16) ++
      range' ((num + 15) / 16) ((128 - num) / 16) ++ [8] ++ range' 9 8 := by
    have h := range'_append_1 (s := 0) (m := (num + 15) / 16) (n := (128 - num) / 16)
    rw [zero_add, show (num + 15) / 16 + (128 - num) / 16 = 8 by omega] at h
    rw [h]
    rfl
  have hgroups : slots K (listSlot num cb) (range' 0 ((num + 15) / 16)) =
      slots K (groupTree num cb) (range' 0 ((num + 15) / 16)) := by
    rw [slots, slots, map_congr_left]
    intro g hg
    have := (mem_range'_1.mp hg).2
    rw [listSlot, if_pos (by omega)]
  have hempty : ∀ a m, (∀ i, a ≤ i → i < a + m → listSlot num cb i = .nil) →
      slots K (listSlot num cb) (range' a m) = (replicate m rlpEmptyValue).flatten := by
    intro a m h
    rw [slots_nil, length_range']
    exact fun i hi ↦ h i (mem_range'_1.mp hi).1 (mem_range'_1.mp hi).2
  have hzero : slots K (listSlot num cb) [8] = slot K (.short [0, terminator] (.leaf (cb 0))) :=
    append_nil _
  rw [hsplit, slots_append, slots_append, slots_append, hgroups, hzero,
    hempty ((num + 15) / 16) ((128 - num) / 16), hempty 9 8]
  · intro i h9 _
    rw [listSlot, if_neg (by omega), if_neg (by omega)]
  · intro i hlo hhi
    rw [listSlot, if_pos (by omega), groupTree_nil (by omega)]

theorem listSlot_large (hzero : Large K (.short [0, terminator] (.leaf (cb 0))))
    (hgroups : ∀ g ∈ range' 0 ((num + 15) / 16), Large K (groupTree num cb g)) (i : ℕ) :
    listSlot num cb i = .nil ∨ Large K (listSlot num cb i) := by
  unfold listSlot
  split_ifs with h8
  · by_cases hi : num ≤ 16 * i
    · exact .inl (groupTree_nil hi)
    · exact .inr (hgroups i (mem_range'_1.mpr (by omega)))
  · exact .inr hzero
  · exact .inl rfl

theorem Hash_spec (hR : RlpRules K.toFastrlp) (hcb : Sized cb) (h1 : 1 ≤ num) (h2 : num ≤ 128)
    (hk : f.k = []) (hd : f.dst = []) (h : f.Hash K num cb = (some d, f')) :
    d = (rootOf K (listTree num cb)).bytes := by
  rw [rootOf_of_ne K (canonical_listTree h1).ne_nil, listTree]
  unfold Hash at h
  by_cases hone : num = 1
  · rw [if_pos hone] at h ⊢
    exact encodeOneItem_spec hR hcb hk hd h
  · rw [if_neg hone] at h ⊢
    rw [min_eq_left h2] at h
    simp only at h
    split at h
    · cases h
    · rename_i f₁ hgroups
      obtain ⟨hk₁, hl, hd₁⟩ := deriveGroups_spec (g := 0) hR hcb (by omega) hk
        (fun j hj ↦ by omega) hgroups
      cases hcb0 : getCb num cb 0 with
      | none => rw [hcb0] at h; cases h
      | some v =>
        obtain ⟨rfl, h32⟩ := getCb_eq_some hcb0
        have hzero := large_leaf hR leafKey_zero h32 (hcb 0)
        obtain ⟨f₂, heq, hk₂⟩ := encodeSingle_spec hR h32 (hcb 0) hk₁ false
          (f₁.dst ++ (replicate ((128 - num) / 16) rlpEmptyValue).flatten ++ rlpHashPrefix)
        simp only [Bool.false_eq_true, if_false] at heq
        rw [append_assoc _ rlpHashPrefix, ← hzero.slot_eq, hd₁, hd, nil_append] at heq
        have hlarge := listSlot_large hzero hl
        obtain ⟨k, _, buf, buf2⟩ := f₂
        obtain rfl : k = [] := hk₂
        rw [hcb0, hd₁, hd, nil_append] at h
        simp only [heq, slots_list h2, fast_branch hR fun i _ ↦ hlarge i, hash, nil_append] at h
        exact (Option.some.inj (Prod.mk.inj h).1).symm

end FastHasher

/-- The pools that calls of `CalculateRoot` reach: hashers are taken out and, after any use, put
back. Calls of several goroutines interleave. -/
inductive Reachable : Pool → Prop
  | empty : Reachable []
  | acquire {pool : Pool} (h : Reachable pool) (pick : Option ℕ) :
    Reachable (acquireFastHasher pool pick).2
  | release {pool : Pool} (h : Reachable pool) (f : FastHasher) :
    Reachable (releaseFastHasher pool f)

theorem Reachable.clean {pool : Pool} (h : Reachable pool) : ∀ f ∈ pool, f = newFastHasher := by
  induction h with
  | empty => simp
  | acquire h pick ih =>
    intro f hf
    unfold acquireFastHasher at hf
    split at hf
    · exact ih f hf
    · split at hf
      · exact ih f hf
      · exact ih f (mem_of_mem_eraseIdx hf)
  | release h g ih =>
    intro f hf
    obtain rfl | hf := mem_cons.mp hf
    · rfl
    · exact ih f hf

theorem Reachable.acquire_eq {pool : Pool} (h : Reachable pool) (pick : Option ℕ) :
    (acquireFastHasher pool pick).1 = newFastHasher := by
  unfold acquireFastHasher
  split
  · rfl
  · split
    · rfl
    · rename_i hi
      exact h.clean _ (mem_of_getElem? hi)

/-- Whatever hasher the pool hands out, the list root is the root of the trie from the encoded
indices to the items, on the fast and on the slow path. -/
theorem calculateRoot_eq_deriveSlow (hK : K.Faithful) (hR : RlpRules K.toFastrlp) {fuel : ℕ}
    (hf : 10 ≤ fuel) (hcb : Sized cb) (h1 : 1 ≤ num) (h2 : num ≤ 128) {pool : Pool}
    (hpool : Reachable pool) (pick : Option ℕ) :
    ∃ tree, Shaped 3 tree ∧
      (∀ key v, treeMap tree key = some v ↔ ∃ i < num, K.marshal (Rlp.newUint i) = key ∧ cb i = v) ∧
      (calculateRoot K num cb fuel pool pick).1 = .ok (rootOf K tree) ∧
      deriveSlow K num cb fuel = .ok (rootOf K tree) ∧
      (acquireFastHasher pool pick).1.Hash K num cb = newFastHasher.Hash K num cb ∧
      ∀ d f', newFastHasher.Hash K num cb = (some d, f') → d = (rootOf K tree).bytes := by
  have hslow : deriveSlow K num cb fuel = .ok (rootOf K (listTree num cb)) :=
    deriveSlow_eq hK hR hf h1 h2
  have hfast : ∀ d f', newFastHasher.Hash K num cb = (some d, f') →
      d = (rootOf K (listTree num cb)).bytes :=
    fun d f' h ↦ FastHasher.Hash_spec hR hcb h1 h2 rfl rfl h
  refine ⟨listTree num cb, shaped_listTree h1, fun key v ↦ treeMap_listTree hR h1 h2, ?_, hslow,
    by rw [hpool.acquire_eq], hfast⟩
  unfold calculateRoot
  rw [if_neg (by omega), if_pos h2]
  simp only [hpool.acquire_eq]
  cases hhash : newFastHasher.Hash K num cb with
  | mk o f' =>
    cases o with
    | none => exact hslow
    | some d =>
      rw [hfast d f' hhash]
      simp only [bytesToHash, FixedBytes.ofBytes_bytes]

def wordItem (i : ℕ) : Bytes := replicate 32 (UInt8.ofNat i)

def wordRoot : Hash :=
  bytesToHash (BigEndian.toBytes 0x5369c64e2b262259b880114e7ac092e69c673e2671352991989f3a89fbc8f0af)

noncomputable def wordKeccak : Keccak :=
  { rlpCodec with
    keccak256 := fun b ↦
      if b = [0xe2, 0x30, 0xa0] ++ wordItem 0 then
        bytesToHash (BigEndian.toBytes
          0xda5e685fdb6a1b745aa9c6e83bf8a319326d1adbfa9a66a05ee2bec066d9d27d)
      else if b = [0xe2, 0x31, 0xa0] ++ wordItem 1 then
        bytesToHash (BigEndian.toBytes
          0x9dbe9ce985fa4cdda32b83807c866643d7866f7989343f83164755d74d6c85b6)
      else wordRoot }

theorem calculateRoot_eq_deriveSlow_reused :
    (newFastHasher.Hash wordKeccak 2 wordItem).1 = some wordRoot.bytes ∧
    ∃ tree, Shaped 3 tree ∧
      (∀ key v, treeMap tree key = some v ↔
        ∃ i < 2, wordKeccak.marshal (Rlp.newUint i) = key ∧ wordItem i = v) ∧
      (calculateRoot wordKeccak 2 wordItem 10 (releaseFastHasher [] ⟨[1], [2], [3], [4]⟩)
        (some 0)).1 = .ok (rootOf wordKeccak tree) ∧
      deriveSlow wordKeccak 2 wordItem 10 = .ok (rootOf wordKeccak tree) ∧
      (acquireFastHasher (releaseFastHasher [] ⟨[1], [2], [3], [4]⟩) (some 0)).1.Hash wordKeccak 2
        wordItem = newFastHasher.Hash wordKeccak 2 wordItem ∧
      ∀ d f', newFastHasher.Hash wordKeccak 2 wordItem = (some d, f') →
        d = (rootOf wordKeccak tree).bytes :=
  ⟨by decide +kernel, calculateRoot_eq_deriveSlow rlpCodec_faithful rlpCodec_rules (by decide)
    (fun i ↦ by simp [wordItem]) (by decide) (by decide) (.release .empty _) (some 0)⟩

end Mainnet.BuildRoot
