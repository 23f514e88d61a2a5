import Mainnet.Crypto.TxSigner

namespace Mainnet.Crypto

open Types Lib List Nat BigEndian

def curveOrder : ℕ := ofBytes secp256k1N

def compared (x : ℕ) : ℕ := leading 32 (toBytes x)

def Encodes (r s : ℕ) (v : UInt8) (sig : Bytes) : Prop :=
  ∃ rb sb : FixedBytes 32, ofBytes rb.bytes = r ∧ ofBytes sb.bytes = s ∧
    sig = rb.bytes ++ sb.bytes ++ [v]

theorem trimLeftZeros_toBytes (x : ℕ) : trimLeftZeros (toBytes x) = toBytes x := by
  have h := head?_toBytes x
  generalize toBytes x = b at h
  fun_cases trimLeftZeros b with
  | case1 b c bs hb => rfl
  | case2 b c bs hb => exact absurd (congrArg some (not_not.mp hb)) h
  | case3 => rfl

theorem compare_one_iff (x : ℕ) : compare (toBytes x) [1] = .lt ↔ x = 0 := by
  rw [compare_eq_lt_iff (by decide)]
  have h := head?_toBytes x
  have hx := ofBytes_toBytes x
  cases hb : toBytes x with
  | nil =>
    rw [hb] at hx
    exact iff_of_true (by decide) hx.symm
  | cons d b =>
    rw [hb] at h hx
    have hd : d.toNat ≠ 0 := fun h0 ↦ h (congrArg some (UInt8.toNat_inj.mp h0))
    refine iff_of_false ?_ ?_
    · rw [length_singleton, leading_cons, pow_zero, mul_one]
      exact fun hlt ↦ hd (by have : ofBytes [1] = 1 := rfl; omega)
    · rw [ofBytes_cons] at hx
      have := mul_pos (pos_of_ne_zero hd) (pow_pos (n := b.length) (a := 256) (by omega))
      omega

theorem validateSignatureValues_iff (v : UInt8) (r s : ℕ) :
    validateSignatureValues v r s = true ↔
      v ≤ 1 ∧ (1 ≤ r ∧ compared r < curveOrder) ∧ 1 ≤ s ∧ compared s < curveOrder := by
  have hrange (x : ℕ) : (!((compare (toBytes x) secp256k1N).isGE ||
      (compare (toBytes x) [1]).isLT)) = true ↔ 1 ≤ x ∧ compared x < curveOrder := by
    have hN : compare (toBytes x) secp256k1N = .lt ↔ compared x < curveOrder :=
      compare_eq_lt_iff (by decide)
    have hone := compare_one_iff x
    rw [Bool.not_eq_true', Bool.or_eq_false_iff, ← Bool.not_eq_true, ← Bool.not_eq_true,
      Ordering.isGE_iff_ne_lt, not_not, hN, Ordering.isLT_iff_eq_lt, hone, and_comm]
    exact and_congr_left' one_le_iff_ne_zero.symm
  rw [validateSignatureValues]
  simp only [trimLeftZeros_toBytes, Bool.and_eq_true, hrange, and_assoc, Bool.not_eq_true',
    decide_eq_false_iff_not, gt_iff_lt, UInt8.not_lt]

theorem copyAt_append {pre mid post src : Bytes} {i : ℕ} (hi : pre.length = i)
    (h : mid.length = src.length) : copyAt (pre ++ (mid ++ post)) src i = pre ++ (src ++ post) := by
  rw [copyAt, take_left' hi, ← append_assoc pre mid,
    drop_left' (by rw [length_append, hi, h]), append_assoc]

def padded (x : ℕ) : Bytes :=
  replicate (32 - (toBytes x).length) 0 ++ toBytes x

theorem encodeSignature_eq {r s : ℕ} {v : UInt8} (hvalid : validateSignatureValues v r s = true)
    (hr : (toBytes r).length ≤ 32) (hs : (toBytes s).length ≤ 32) :
    encodeSignature r s v = .ok (padded r ++ padded s ++ [v]) := by
  rw [encodeSignature]
  simp only [hvalid, Bool.not_true, Bool.false_eq_true, if_false, padded]
  generalize toBytes r = rb at *
  generalize toBytes s = sb at *
  have hzeros {k m n : ℕ} (h : k + m = n) : replicate n (0 : UInt8) =
      replicate k 0 ++ replicate m 0 := by
    rw [replicate_append_replicate, h]
  rw [if_neg (by omega), hzeros (show 32 - rb.length + (rb.length + 33) = 65 by omega),
    hzeros (rfl : rb.length + 33 = _), copyAt_append (by simp) (by simp), ← append_assoc,
    hzeros (show 32 - sb.length + (sb.length + 1) = 33 by omega),
    hzeros (rfl : sb.length + 1 = _), ← append_assoc,
    copyAt_append (by simp; omega) (by simp), ← append_assoc, ← append_assoc,
    set_append_right _ _ (by simp; omega)]
  have hlast : (64 - (replicate (32 - rb.length) 0 ++ rb ++ replicate (32 - sb.length) 0 ++
      sb).length) = 0 := by
    simp
    omega
  rw [hlast, append_assoc _ _ sb]
  rfl

theorem length_toBytes_of_lt {x : ℕ} (h : x < curveOrder) : (toBytes x).length ≤ 32 :=
  length_toBytes_le (h.trans (ofBytes_lt secp256k1N))

theorem encodes_padded {r s : ℕ} (v : UInt8) (hr : (toBytes r).length ≤ 32)
    (hs : (toBytes s).length ≤ 32) : Encodes r s v (padded r ++ padded s ++ [v]) := by
  have hpadded {x : ℕ} (hx : (toBytes x).length ≤ 32) : (padded x).length = 32 := by
    rw [padded, length_append, length_replicate]
    omega
  have hvalue (x : ℕ) : ofBytes (padded x) = x := by
    rw [padded, ofBytes_append, ofBytes_zeros, zero_mul, zero_add, ofBytes_toBytes]
  exact ⟨⟨padded r, hpadded hr⟩, ⟨padded s, hpadded hs⟩, hvalue r, hvalue s, rfl⟩

/-- A number of 16 to 31 bytes is refused if it is above the first bytes of the order. -/
def Overrated (x : ℕ) : Prop :=
  16 ≤ (toBytes x).length ∧ (toBytes x).length < 32 ∧
    curveOrder / 256 ^ (32 - (toBytes x).length) < x

/-- A number of more than 32 bytes is let through if the first 32 are below the order. -/
def Underrated (x : ℕ) : Prop :=
  32 < (toBytes x).length ∧ ofBytes ((toBytes x).take 32) < curveOrder

/-- The values are rightly refused for another reason, or none is misjudged, or one in each way. -/
def JudgedRight (v : UInt8) (r s : ℕ) : Prop :=
  1 < v ∨ r = 0 ∨ s = 0 ∨ (curveOrder ≤ r ∧ ¬ Underrated r) ∨ (curveOrder ≤ s ∧ ¬ Underrated s) ∨
    (¬ Overrated r ∧ ¬ Underrated r ∧ ¬ Overrated s ∧ ¬ Underrated s) ∨
    (Overrated r ∧ Underrated s) ∨ (Underrated r ∧ Overrated s)

section Misjudged

variable {x : ℕ}

theorem lt_pow_length (x : ℕ) : x < 256 ^ (toBytes x).length := by
  have h := ofBytes_lt (toBytes x)
  rwa [ofBytes_toBytes] at h

theorem compared_short (h : (toBytes x).length < 32) :
    compared x < curveOrder ↔ ¬ curveOrder / 256 ^ (32 - (toBytes x).length) < x := by
  have hdvd : 256 ∣ x * 256 ^ (32 - (toBytes x).length) :=
    (dvd_pow_self 256 (by omega)).mul_left x
  have hne : x * 256 ^ (32 - (toBytes x).length) ≠ curveOrder := by
    intro heq
    rw [heq] at hdvd
    exact absurd hdvd (by decide +kernel)
  rw [compared, leading_of_le h.le, ofBytes_toBytes, Nat.div_lt_iff_lt_mul (by positivity), not_lt]
  exact hne.le_iff_lt.symm

theorem lt_curveOrder_of_short (h : (toBytes x).length < 32) : x < curveOrder :=
  (lt_pow_length x).trans_le ((Nat.pow_le_pow_right (by decide) (le_of_lt_succ h)).trans
    (by decide +kernel))

theorem compared_full (h : (toBytes x).length = 32) : compared x = x := by
  rw [compared, leading_of_ge h.ge, take_of_length_le h.le, ofBytes_toBytes]

theorem overrated_iff : Overrated x ↔ x < curveOrder ∧ ¬ compared x < curveOrder := by
  constructor
  · rintro ⟨-, hshort, hgt⟩
    exact ⟨lt_curveOrder_of_short hshort, fun hlt ↦ (compared_short hshort).mp hlt hgt⟩
  · rintro ⟨hx, hrefused⟩
    have hshort : (toBytes x).length < 32 := by
      refine lt_of_le_of_ne (length_toBytes_of_lt hx) fun hfull ↦ hrefused ?_
      rwa [compared_full hfull]
    rw [compared_short hshort, not_not] at hrefused
    refine ⟨?_, hshort, hrefused⟩
    -- the first fifteen bytes of the order are all ones
    by_contra hlow
    have hones : ∀ n < 16, 256 ^ n ≤ curveOrder / 256 ^ (32 - n) + 1 := by decide +kernel
    have := hones _ (not_le.mp hlow)
    have := lt_pow_length x
    omega

theorem underrated_iff : Underrated x ↔ compared x < curveOrder ∧ ¬ x < curveOrder := by
  constructor
  · rintro ⟨hlong, hlt⟩
    refine ⟨by rwa [compared, leading_of_ge hlong.le], fun hx ↦ ?_⟩
    exact absurd (length_toBytes_of_lt hx) (not_le.mpr hlong)
  · rintro ⟨hlt, hx⟩
    have hlong : 32 < (toBytes x).length := by
      by_contra hle
      rcases (not_lt.mp hle).lt_or_eq with hshort | hfull
      · exact hx (lt_curveOrder_of_short hshort)
      · exact hx (by rwa [compared_full hfull] at hlt)
    exact ⟨hlong, by rwa [compared, leading_of_ge hlong.le] at hlt⟩

theorem judgedRight_iff {v : UInt8} {r s : ℕ} : JudgedRight v r s ↔ (v ≤ 1 → 1 ≤ r → 1 ≤ s →
    (compared r < curveOrder ∧ compared s < curveOrder ↔ r < curveOrder ∧ s < curveOrder)) := by
  simp only [JudgedRight, overrated_iff, underrated_iff, ← UInt8.not_le, ← lt_one_iff, ← not_le]
  grind

end Misjudged

theorem signature_range_iff (v : UInt8) (r s : ℕ) :
    ((validateSignatureValues v r s = true ↔
        v ≤ 1 ∧ (1 ≤ r ∧ r < curveOrder) ∧ 1 ≤ s ∧ s < curveOrder) ∧
      encodeSignature r s v ≠ .panic ∧
      ∀ sig, encodeSignature r s v = .ok sig → Encodes r s v sig) ↔
      JudgedRight v r s := by
  rw [judgedRight_iff]
  have hvalid := validateSignatureValues_iff v r s
  constructor
  · rintro ⟨hrange, -⟩ hv hr hs
    rw [hvalid] at hrange
    simpa only [hv, hr, hs, true_and] using hrange
  · intro hright
    have hrange : validateSignatureValues v r s = true ↔
        v ≤ 1 ∧ (1 ≤ r ∧ r < curveOrder) ∧ 1 ≤ s ∧ s < curveOrder := by
      rw [hvalid]
      constructor
      · rintro ⟨hv, ⟨hr, hr'⟩, hs, hs'⟩
        obtain ⟨hr', hs'⟩ := (hright hv hr hs).mp ⟨hr', hs'⟩
        exact ⟨hv, ⟨hr, hr'⟩, hs, hs'⟩
      · rintro ⟨hv, ⟨hr, hr'⟩, hs, hs'⟩
        obtain ⟨hr', hs'⟩ := (hright hv hr hs).mpr ⟨hr', hs'⟩
        exact ⟨hv, ⟨hr, hr'⟩, hs, hs'⟩
    refine ⟨hrange, ?_⟩
    cases hval : validateSignatureValues v r s with
    | false => simp [encodeSignature, hval]
    | true =>
      obtain ⟨-, ⟨-, hr⟩, -, hs⟩ := hrange.mp hval
      have hr := length_toBytes_of_lt hr
      have hs := length_toBytes_of_lt hs
      rw [encodeSignature_eq hval hr hs]
      refine ⟨by simp, ?_⟩
      rintro sig ⟨⟩
      exact encodes_padded v hr hs

/-- A number of 33 bytes is let through, and one of 16 bytes is not. -/
theorem signature_range_misjudged :
    validateSignatureValues 0 (2 ^ 256) 1 = true ∧ ¬ 2 ^ 256 < curveOrder ∧
      encodeSignature (2 ^ 256) 1 0 = .panic ∧
      validateSignatureValues 0 (2 ^ 128 - 1) 1 = false ∧ 2 ^ 128 - 1 < curveOrder := by
  decide +kernel

end Mainnet.Crypto
