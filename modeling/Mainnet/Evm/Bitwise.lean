import Mainnet.Evm.Arithmetic

namespace Mainnet.Evm

open Types Mainnet.Runtime Lib Prog Nat BitVec Word

theorem wrapInt64_modEq (x : ℤ) : wrapInt64 x ≡ x [ZMOD 2 ^ 64] := by
  have h := (Int.mod_modEq (x + 2 ^ 63) (2 ^ 64)).sub_right (2 ^ 63)
  rwa [add_sub_cancel_right] at h

theorem int64_natCast (n : ℕ) : int64 (n : ℤ) > 31 ↔ 32 ≤ n % 2 ^ 64 ∧ n % 2 ^ 64 < 2 ^ 63 := by
  unfold int64 wrapInt64
  omega

theorem byteShift (n : ℕ) : wrapInt64 (wrapInt64 (31 - int64 n) * 8) % 2 ^ 64 =
    (31 - n) % 2 ^ 61 * 8 := by
  have hmod : wrapInt64 (wrapInt64 (31 - int64 n) * 8) ≡ (31 - n) * 8 [ZMOD 2 ^ 64] :=
    (wrapInt64_modEq _).trans
      (((wrapInt64_modEq _).trans ((wrapInt64_modEq n).sub_left 31)).mul_right 8)
  rw [hmod]
  omega
namespace Word

variable (a b n x : Vec)

theorem and_word : (and (word a) (word b)).2 = word (a &&& b) := by
  have htoNat : word (a &&& b) = (a.toNat &&& b.toNat : ℕ) := congrArg _ (toNat_and a b)
  exact htoNat.symm

theorem or_word : (or (word a) (word b)).2 = word (a ||| b) := by
  have htoNat : word (a ||| b) = (a.toNat ||| b.toNat : ℕ) := congrArg _ (toNat_or a b)
  exact htoNat.symm

theorem xor_word : (xor (word a) (word b)).2 = word (a ^^^ b) := by
  have htoNat : word (a ^^^ b) = (a.toNat ^^^ b.toNat : ℕ) := congrArg _ (toNat_xor a b)
  exact htoNat.symm

theorem not_word : not (word a) = word (~~~a) := by
  have hlnot : Int.lnot (word a) = -(word a + 1) := Int.negSucc_eq _
  have hlt := a.isLt
  rw [not, toU256_eq, word_ofInt, hlnot, word, word, toNat_not]
  omega

theorem overflows_iff : equalOrOverflowsUint256 (word n) = true ↔ 256 ≤ n.toNat := by
  rw [equalOrOverflowsUint256, decide_eq_true_eq, gt_iff_lt, ← not_le, bitLen_le, not_lt]
  rfl

theorem uint64_word (h : n.toNat < 2 ^ 64) : uint64 (word n) = n.toNat := mod_eq_of_lt h

theorem shl_word : (shl (word n) (word x)).2 = word (x <<< n.toNat) := by
  simp only [shl, overflows_iff]
  split_ifs with hbig
  · rw [shiftLeft_eq_zero hbig]
    rfl
  · have hshift : word x <<< n.toNat = ((x.toNat <<< n.toNat : ℕ) : ℤ) :=
      (Int.natCast_shiftLeft _ _).symm
    rw [uint64_word n (by omega), hshift, toU256_eq, word_ofInt, word, toNat_shiftLeft]
    norm_cast

theorem shr_word : (shr (word n) (word x)).2 = word (x >>> n.toNat) := by
  simp only [shr, overflows_iff]
  split_ifs with hbig
  · rw [ushiftRight_eq_zero hbig]
    rfl
  · rw [uint64_word n (by omega), toU256_eq]
    have hshift : word x >>> n.toNat = word (x >>> n.toNat) := by
      rw [word, word, toNat_ushiftRight]
      rfl
    rw [hshift, ofInt_word]

theorem sshiftRight_big {n : ℕ} (h : 256 ≤ n) :
    x.sshiftRight n = .ofInt 256 (if 0 ≤ x.toInt then 0 else -1) := by
  have hpow : (2 ^ 256 : ℤ) ≤ 2 ^ n := pow_le_pow_right₀ (by decide) h
  have hle : -2 ^ 255 ≤ x.toInt := x.le_toInt
  have hlt : x.toInt < 2 ^ 255 := x.toInt_lt
  rw [sshiftRight, Int.shiftRight_eq_div_pow]
  push_cast
  split_ifs with hsign
  · rw [Int.ediv_eq_zero_of_lt hsign (by omega)]
  · have hneg : x.toInt / 2 ^ n < 0 := Int.ediv_neg_of_neg_of_pos (not_le.mp hsign) (by omega)
    have hge : -1 ≤ x.toInt / 2 ^ n := Int.le_ediv_of_mul_le (by omega) (by omega)
    rw [(by omega : x.toInt / 2 ^ n = -1)]

theorem sar_word : (sar (word n) (word x)).2 = word (x.sshiftRight n.toNat) := by
  simp only [sar, overflows_iff, to256_word]
  split_ifs with hbig hsign
  · rw [sshiftRight_big x hbig, if_pos hsign]
    rfl
  · rw [sshiftRight_big x hbig, if_neg hsign]
    rfl
  · rw [uint64_word n (by omega), toU256_eq, sshiftRight]

theorem byteAt_eq {i : ℕ} (h : i < 32) : byteAt i x = (x >>> (8 * (31 - i))) &&& 255 := by
  rw [byteAt, if_pos h, ← toNat_inj, toNat_setWidth, extractLsb'_toNat,
    toNat_and, toNat_ushiftRight]
  change _ = _ &&& 2 ^ 8 - 1
  rw [and_two_pow_sub_one_eq_mod]
  omega

/-- The index that `opByte` takes for `i`: only the low 64 bits of it are looked at, as a signed
number, and the shift that they give is in the low 64 bits again. -/
def byteIndex (i : ℕ) : ℕ := if 32 ≤ i % 2 ^ 64 ∧ i % 2 ^ 64 < 2 ^ 63 then 32 else i % 2 ^ 61

theorem land_255 (s : ℕ) : Int.land (word x >>> (s : ℤ)) 255 = (x.toNat >>> s % 256 : ℕ) := by
  have hland : Int.land (x.toNat >>> s : ℕ) 255 = (x.toNat >>> s &&& 2 ^ 8 - 1 : ℕ) := rfl
  rw [word, Int.shiftRight_natCast, hland, and_two_pow_sub_one_eq_mod]

theorem byte_word (i : Vec) : (byte (word i) (word x)).2 = word (byteAt (byteIndex i.toNat) x) := by
  have hword : word i = (i.toNat : ℤ) := rfl
  rw [byte]
  dsimp only
  rw [apply_ite Prod.snd, hword, byteShift, land_255]
  unfold byteIndex
  by_cases hlow : 32 ≤ i.toNat % 2 ^ 64 ∧ i.toNat % 2 ^ 64 < 2 ^ 63
  · rw [if_pos ((int64_natCast _).mpr hlow), if_pos hlow]
    exact (word_eq_zero.mpr (if_neg (lt_irrefl 32))).symm
  rw [if_neg (mt (int64_natCast _).mp hlow), if_neg hlow]
  generalize hs : ((31 - (i.toNat : ℤ)) % 2 ^ 61 * 8).toNat = s
  by_cases hj : i.toNat % 2 ^ 61 < 32
  · have hbyte : (byteAt (i.toNat % 2 ^ 61) x).toNat =
        x.toNat >>> (8 * (31 - i.toNat % 2 ^ 61)) % 256 := by
      rw [byteAt, if_pos hj, toNat_setWidth, extractLsb'_toNat]
      exact mod_eq_of_lt ((mod_lt _ (by decide)).trans (by decide))
    rw [(by omega : s = 8 * (31 - i.toNat % 2 ^ 61)), ← hbyte]
    rfl
  · have hzero : x.toNat >>> s = 0 := by
      rw [shiftRight_eq_div_pow]
      exact Nat.div_eq_of_lt (x.isLt.trans_le (Nat.pow_le_pow_right (by decide) (by omega)))
    rw [hzero, byteAt, if_neg hj]
    rfl

end Word

variable {σ : Type} {E : Env σ} {c : State σ} {rest : List ℤ}

/-- The index is in range, or its low bits are not taken for one that is, or the byte that is taken
is zero. -/
def byteSafe (i : ℕ) (x : Vec) : Prop :=
  i < 32 ∨ (32 ≤ i % 2 ^ 64 ∧ i % 2 ^ 64 < 2 ^ 63) ∨ byteAt (i % 2 ^ 61) x = 0

theorem byteSafe_iff {i : ℕ} {x : Vec} : byteSafe i x ↔ byteAt (byteIndex i) x = byteAt i x := by
  have hzero : ∀ {j : ℕ}, 32 ≤ j → byteAt j x = 0 := fun h ↦ if_neg (not_lt.mpr h)
  unfold byteSafe byteIndex
  by_cases hi : i < 32
  · rw [if_neg (by omega), mod_eq_of_lt (by omega : i < 2 ^ 61)]
    simp [hi]
  · rw [hzero (not_lt.mp hi)]
    split_ifs with hlow
    · exact iff_of_true (.inr (.inl hlow)) (hzero le_rfl)
    · rw [or_iff_right hi, or_iff_right hlow]

theorem Computes.unique {m : Machine σ Unit} {result result' : ℤ} {rest' : List ℤ}
    (h : Computes m c result rest) (h' : Computes m c result' rest') : result = result' := by
  obtain ⟨_, _, c', heq, hlive, _⟩ := h
  have hlive' := h'.2.ensures _ _ heq
  exact (List.cons.inj (hlive.symm.trans hlive'.1)).1

/-- The opcodes on bits compute what they mean, but `BYTE` only where its index is not taken for
another one. -/
theorem bitwise_computes_iff (E : Env σ) {op : OpCode} {operands : List Vec} {result : Vec}
    (hmeaning : bitwise op operands = some result)
    (hfork : op = .SHL ∨ op = .SHR ∨ op = .SAR → E.config.constantinople = true)
    (c : State σ) (rest : List ℤ) (hstack : c.stack.live = operands.map word ++ rest) :
    (Computes (handler E op).inst c (word result) rest ↔
      ∀ i x, op = .BYTE → operands = [i, x] → byteSafe i.toNat x) ∧
    ∀ (i : ℕ) (x : Vec), i < 32 → byteAt i x = (x >>> (8 * (31 - i))) &&& 255 := by
  refine ⟨?_, fun i x h ↦ byteAt_eq x h⟩
  have hword := isWord_word result
  have hother : op ≠ .BYTE → Computes (handler E op).inst c (word result) rest →
      (Computes (handler E op).inst c (word result) rest ↔
        ∀ i x, op = .BYTE → operands = [i, x] → byteSafe i.toNat x) :=
    fun hne h ↦ iff_of_true h fun _ _ hop ↦ absurd hop hne
  unfold bitwise at hmeaning
  split at hmeaning <;> cases hmeaning
  case h_1.refl a b => exact hother nofun (binary_computes hword hstack (and_word a b))
  case h_2.refl a b => exact hother nofun (binary_computes hword hstack (or_word a b))
  case h_3.refl a b => exact hother nofun (binary_computes hword hstack (xor_word a b))
  case h_4.refl a => exact hother nofun (unary_computes hword hstack (not_word a))
  case h_5.refl i x =>
    have hbyte := binary_computes (isWord_word _) hstack (byte_word x i)
    constructor
    · intro h i' x' _ hoperands
      cases hoperands
      exact byteSafe_iff.mpr (word_inj.mp (hbyte.unique h))
    · intro h
      rw [← byteSafe_iff.mp (h i x rfl rfl)]
      exact hbyte
  case h_6.refl n x =>
    refine hother nofun ?_
    change Computes (sinceFork _ _) c _ rest
    rw [sinceFork, hfork (.inl rfl)]
    exact binary_computes hword hstack (shl_word n x)
  case h_7.refl n x =>
    refine hother nofun ?_
    change Computes (sinceFork _ _) c _ rest
    rw [sinceFork, hfork (.inr (.inl rfl))]
    exact binary_computes hword hstack (shr_word n x)
  case h_8.refl n x =>
    refine hother nofun ?_
    change Computes (sinceFork _ _) c _ rest
    rw [sinceFork, hfork (.inr (.inr rfl))]
    exact binary_computes hword hstack (sar_word n x)

theorem bitwise_computes_bytes :
    Computes (handler idleFrame .BYTE).inst (onStack [3, 42 * 2 ^ 224, 7] 0) 42 [7] ∧
      Computes (handler idleFrame .BYTE).inst (onStack [2 ^ 64 + 32, 2 ^ 256 - 1, 7] 0) 0 [7] := by
  constructor
  · refine (bitwise_computes_iff idleFrame
      (by decide +kernel : bitwise .BYTE [3, .ofNat 256 (42 * 2 ^ 224)] = some 42) (by decide)
      (onStack [3, 42 * 2 ^ 224, 7] 0) [7] (by decide +kernel)).1.mpr fun i x _ hoperands ↦ ?_
    cases hoperands
    exact .inl (by decide)
  · refine (bitwise_computes_iff idleFrame
      (by decide +kernel : bitwise .BYTE [.ofNat 256 (2 ^ 64 + 32), .allOnes 256] = some 0)
      (by decide) (onStack [2 ^ 64 + 32, 2 ^ 256 - 1, 7] 0) [7] (by decide +kernel)).1.mpr
      fun i x _ hoperands ↦ ?_
    cases hoperands
    exact .inr (.inl (by decide +kernel))

/-- Index `2 ^ 64` is beyond the word, but the first byte is found there. -/
theorem byte_of_large_index :
    bitwise .BYTE [.ofNat 256 (2 ^ 64), .allOnes 256] = some 0 ∧
      Computes (handler idleFrame .BYTE).inst (onStack [2 ^ 64, 2 ^ 256 - 1, 7] 0) 255 [7] :=
  ⟨by decide +kernel, binary_computes (by decide) rfl
    (by decide +kernel : (byte (2 ^ 64) (2 ^ 256 - 1)).2 = 255)⟩

end Mainnet.Evm
