import Mainnet.Lib.Rlp

namespace Mainnet.Lib.Rlp

open List Nat BigEndian UInt8

def payload : Item → List UInt8
  | .bytes b => b
  | .array elems => encodeElems elems

def isList : Item → Bool
  | .bytes _ => false
  | .array _ => true

mutual

def fits : Item → Bool
  | .bytes b => decide (b.length < 2 ^ 64)
  | .array elems => decide ((encodeElems elems).length < 2 ^ 64) && fitsElems elems

def fitsElems : List Item → Bool
  | [] => true
  | e :: es => fits e && fitsElems es

end

variable {n m : ℕ} {p size : List UInt8} {v : Item}

theorem length_toBytes (h : n < 2 ^ 64) : (toBytes n).length ≤ 8 :=
  length_toBytes_le (k := 8) (by omega)

theorem toBytes_ne_nil (h : n ≠ 0) : toBytes n ≠ [] := by
  simpa [toBytes] using digits_ne_nil_iff_ne_zero.mpr h

def offset (list : Bool) : ℕ := if list then 0xc0 else 0x80

theorem toNat_tag (h : m < 256) : (ofNat m).toNat = m := by
  rw [toNat_ofNat', mod_eq_of_lt h]

theorem tag_lt_iff {k : ℕ} (h : m < 256) (hk : k < 256) : ofNat m < ofNat k ↔ m < k := by
  rw [lt_iff_toNat_lt, toNat_tag h, toNat_tag hk]

def shortItem (rest : List UInt8) (list : Bool) (size : ℕ) :
    Option (Bool × List UInt8 × List UInt8) :=
  if size ≤ rest.length then some (list, rest.take size, rest.drop size) else none

def longItem (rest : List UInt8) (list : Bool) (width : ℕ) :
    Option (Bool × List UInt8 × List UInt8) :=
  let size := ofBytes (rest.take width)
  if width + size ≤ rest.length then
    some (list, (rest.drop width).take size, rest.drop (width + size)) else none

theorem split_tag (hm : m < 256) (rest : List UInt8) :
    split (ofNat m :: rest) =
      if m < 0x80 then some (false, [ofNat m], rest)
      else if m < 0xb8 then shortItem rest false (m - 0x80)
      else if m < 0xc0 then longItem rest false (m - 0xb7)
      else if m < 0xf8 then shortItem rest true (m - 0xc0)
      else longItem rest true (m - 0xf7) := by
  have hlt : ∀ k, k < 256 → (ofNat m < ofNat k ↔ m < k) := fun k hk ↦ tag_lt_iff hm hk
  rw [split, toNat_tag hm]
  refine if_congr (hlt 0x80 (by omega)) rfl (if_congr (hlt 0xb8 (by omega)) rfl
    (if_congr (hlt 0xc0 (by omega)) rfl (if_congr (hlt 0xf8 (by omega)) rfl rfl)))

section

variable (list : Bool)

theorem shortItem_append (p rest : List UInt8) :
    shortItem (p ++ rest) list p.length = some (list, p, rest) := by
  rw [shortItem, if_pos (by simp), take_left, drop_left]

theorem longItem_append (hs : ofBytes size = p.length) (rest : List UInt8) :
    longItem (size ++ (p ++ rest)) list size.length = some (list, p, rest) := by
  have hle : size.length + p.length ≤ (size ++ (p ++ rest)).length := by
    rw [length_append, length_append]
    omega
  have hdrop : (size ++ (p ++ rest)).drop (size.length + p.length) = rest := by
    rw [← append_assoc, ← length_append, drop_left]
  simp only [longItem, take_left, hs, if_pos hle, drop_left, hdrop]

theorem split_short (hp : p.length < 56) (rest : List UInt8) :
    split (ofNat (offset list + p.length) :: (p ++ rest)) = some (list, p, rest) := by
  cases list with
  | false =>
    rw [offset, if_neg (by decide), split_tag (by omega), if_neg (by omega), if_pos (by omega),
      Nat.add_sub_cancel_left, shortItem_append]
  | true =>
    rw [offset, if_pos rfl, split_tag (by omega), if_neg (by omega), if_neg (by omega),
      if_neg (by omega), if_pos (by omega), Nat.add_sub_cancel_left, shortItem_append]

theorem split_long (hs : ofBytes size = p.length)
    (h0 : size ≠ []) (h8 : size.length ≤ 8) (rest : List UInt8) :
    split (ofNat (offset list + 55 + size.length) :: (size ++ (p ++ rest))) =
      some (list, p, rest) := by
  have hpos := length_pos_of_ne_nil h0
  cases list with
  | false =>
    rw [offset, if_neg (by decide), split_tag (by omega), if_neg (by omega), if_neg (by omega),
      if_pos (by omega), Nat.add_sub_cancel_left, longItem_append false hs]
  | true =>
    rw [offset, if_pos rfl, split_tag (by omega), if_neg (by omega), if_neg (by omega),
      if_neg (by omega), if_neg (by omega), Nat.add_sub_cancel_left, longItem_append true hs]

theorem split_header (hp : p.length < 2 ^ 64) (rest : List UInt8) :
    split (header (offset list) p ++ (p ++ rest)) = some (list, p, rest) := by
  unfold header
  split
  · rename_i hs
    exact split_short list hs rest
  · rename_i hs
    exact split_long list (ofBytes_toBytes _) (toBytes_ne_nil (by omega)) (length_toBytes hp) rest

end

theorem split_encode (hv : fits v) (rest : List UInt8) :
    split (encode v ++ rest) = some (isList v, payload v, rest) := by
  cases v with
  | bytes b =>
    have hb : b.length < 2 ^ 64 := by simpa [fits] using hv
    have hgen : split (header 0x80 b ++ b ++ rest) = some (false, b, rest) := by
      rw [append_assoc]
      exact split_header false hb rest
    rw [encode, isList, payload]
    unfold encodeBytes
    split
    · split
      · rename_i d hd
        simp [Rlp.split, hd]
      · exact hgen
    · exact hgen
  | array elems =>
    simp only [fits, Bool.and_eq_true, decide_eq_true_eq] at hv
    rw [encode, isList, payload, append_assoc]
    exact split_header true hv.1 rest

theorem encode_ne_nil (v : Item) : encode v ≠ [] := by
  have hh : ∀ off p, header off p ≠ [] := by
    intro off p
    unfold header
    split <;> simp
  cases v with
  | bytes b =>
    rw [encode]
    unfold encodeBytes
    split
    · split <;> simp
    · simp [hh]
  | array elems => simp [encode, hh]

theorem encode_array_tag {elems : List Item} (h : fits (.array elems)) :
    ∃ tag rest, encode (.array elems) = tag :: rest ∧ 0xc0 ≤ tag := by
  simp only [fits, Bool.and_eq_true, decide_eq_true_eq] at h
  rw [encode, header]
  by_cases hshort : (encodeElems elems).length < 56
  · rw [if_pos hshort]
    refine ⟨_, _, rfl, UInt8.not_lt.mp fun hlt ↦ ?_⟩
    have hnat := (tag_lt_iff (by omega) (by decide : 0xc0 < 256)).mp hlt
    omega
  · have hsize := length_toBytes h.1
    rw [if_neg hshort]
    refine ⟨_, _, rfl, UInt8.not_lt.mp fun hlt ↦ ?_⟩
    have hnat := (tag_lt_iff (by omega) (by decide : 0xc0 < 256)).mp hlt
    omega

theorem length_payload_lt (h : isList v) : (payload v).length < (encode v).length := by
  have hh : ∀ off p, 0 < (header off p).length := by
    intro off p
    unfold header
    split <;> simp
  cases v with
  | bytes b => cases h
  | array elems =>
    rw [encode, payload, length_append]
    exact Nat.lt_add_of_pos_left (hh _ _)

theorem decodeElems_encodeElems {fuel : ℕ} {es : List Item} (hf : (encodeElems es).length ≤ fuel)
    (hes : fitsElems es) : decodeElems fuel (encodeElems es) = some es := by
  induction fuel generalizing es with
  | zero =>
    cases es with
    | nil => rfl
    | cons e es =>
      rw [encodeElems, length_append] at hf
      have := length_pos_of_ne_nil (encode_ne_nil e)
      omega
  | succ fuel ih =>
    cases es with
    | nil => rfl
    | cons e es =>
      have hpos := length_pos_of_ne_nil (encode_ne_nil e)
      rw [fitsElems, Bool.and_eq_true] at hes
      rw [encodeElems, length_append] at hf
      obtain ⟨x, xs, hx⟩ := exists_cons_of_ne_nil (l := encode e ++ encodeElems es)
        (by simp [encode_ne_nil])
      have htail := ih (by omega) hes.2
      rw [encodeElems, hx, decodeElems, ← hx, split_encode hes.1]
      · cases e with
        | bytes b => simp [isList, payload, htail]
        | array elems =>
          have hlt := length_payload_lt (v := .array elems) rfl
          rw [payload] at hlt
          have hel := hes.1
          rw [fits, Bool.and_eq_true] at hel
          simp [isList, payload, htail, ih (by omega) hel.2]
      · simp

theorem decode_encode (hv : fits v) : decode (encode v) = some v := by
  have hv' : encode v = encodeElems [v] := by simp [encodeElems]
  rw [decode, hv', decodeElems_encodeElems le_rfl (by simp [fitsElems, hv])]

mutual

/-- A bracket code for the items whose sizes have no RLP header. -/
def tokens : Item → List UInt8
  | .bytes b => 0 :: byteTokens b
  | .array elems => 2 :: elemTokens elems

def byteTokens : List UInt8 → List UInt8
  | [] => [0]
  | d :: b => 1 :: d :: byteTokens b

def elemTokens : List Item → List UInt8
  | [] => [3]
  | e :: es => 1 :: (tokens e ++ elemTokens es)

end

theorem byteTokens_inj {a b r s : List UInt8} (h : byteTokens a ++ r = byteTokens b ++ s) :
    a = b ∧ r = s := by
  induction a generalizing b with
  | nil =>
    cases b with
    | nil => simpa [byteTokens] using h
    | cons y b => simp [byteTokens] at h
  | cons x a ih =>
    cases b with
    | nil => simp [byteTokens] at h
    | cons y b =>
      simp only [byteTokens, cons_append, cons.injEq, true_and] at h
      obtain ⟨rfl, hr⟩ := h
      obtain ⟨rfl, hs⟩ := ih hr
      exact ⟨rfl, hs⟩

mutual

theorem tokens_inj : ∀ (v w : Item) (r s : List UInt8), tokens v ++ r = tokens w ++ s →
    v = w ∧ r = s
  | .bytes a, .bytes b, r, s, h => by
    simp only [tokens, cons_append, cons.injEq, true_and] at h
    obtain ⟨rfl, hr⟩ := byteTokens_inj h
    exact ⟨rfl, hr⟩
  | .bytes a, .array es, r, s, h => by simp [tokens] at h
  | .array es, .bytes b, r, s, h => by simp [tokens] at h
  | .array es, .array fs, r, s, h => by
    simp only [tokens, cons_append, cons.injEq, true_and] at h
    obtain ⟨rfl, hr⟩ := elemTokens_inj es fs r s h
    exact ⟨rfl, hr⟩

theorem elemTokens_inj : ∀ (es fs : List Item) (r s : List UInt8),
    elemTokens es ++ r = elemTokens fs ++ s → es = fs ∧ r = s
  | [], [], r, s, h => ⟨rfl, by simpa [elemTokens] using h⟩
  | [], f :: fs, r, s, h => by simp [elemTokens] at h
  | e :: es, [], r, s, h => by simp [elemTokens] at h
  | e :: es, f :: fs, r, s, h => by
    simp only [elemTokens, cons_append, cons.injEq, true_and, append_assoc] at h
    obtain ⟨rfl, h'⟩ := tokens_inj e f _ _ h
    obtain ⟨rfl, hr⟩ := elemTokens_inj es fs r s h'
    exact ⟨rfl, hr⟩

end

/-- RLP, with items too large for a header written in the bracket code behind an empty list. -/
def print (v : Item) : List UInt8 := if fits v then encode v else 0xc0 :: 0xc0 :: tokens v

open Classical in
noncomputable def parse (b : List UInt8) : Option Item :=
  match b with
  | 0xc0 :: 0xc0 :: _ => if h : ∃ v, print v = b then some h.choose else none
  | _ =>
    match decode b with
    | some v => if print v = b then some v else none
    | none => none

theorem encode_ne_escape (hv : fits v) (r : List UInt8) : encode v ≠ 0xc0 :: 0xc0 :: r := by
  intro h
  have hs := split_encode hv []
  have he : split (0xc0 :: 0xc0 :: r) = some (true, [], 0xc0 :: r) := by simp [split]
  rw [append_nil, h, he] at hs
  simp at hs

theorem print_injective : Function.Injective print := by
  intro v w h
  unfold print at h
  split at h <;> split at h
  · rename_i hv hw
    have := decode_encode hv
    rw [h, decode_encode hw] at this
    exact (Option.some.inj this).symm
  · rename_i hv _
    exact absurd h (encode_ne_escape hv _)
  · rename_i _ hw
    exact absurd h.symm (encode_ne_escape hw _)
  · simp only [cons.injEq, true_and] at h
    exact (tokens_inj v w [] [] (by simpa using h)).1

theorem parse_iff (b : List UInt8) (v : Item) : parse b = some v ↔ print v = b := by
  unfold parse
  split
  · rename_i r
    constructor
    · intro h
      split at h
      · rename_i hex
        rw [← Option.some.inj h]
        exact hex.choose_spec
      · cases h
    · intro h
      have hex : ∃ v, print v = 0xc0 :: 0xc0 :: r := ⟨v, h⟩
      rw [dif_pos hex, print_injective (hex.choose_spec.trans h.symm)]
  · rename_i hb
    constructor
    · intro h
      split at h
      · split at h
        · rename_i hp
          exact Option.some.inj h ▸ hp
        · cases h
      · cases h
    · rintro rfl
      have hfit : fits v := by
        by_contra hv
        exact hb (tokens v) (by rw [print, if_neg hv])
      have hp : print v = encode v := by rw [print, if_pos hfit]
      rw [hp, decode_encode hfit]
      simp [hp]

end Mainnet.Lib.Rlp
