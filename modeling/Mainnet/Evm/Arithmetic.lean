import Mainnet.Evm.Meaning
import Mainnet.Evm.NoPanic

namespace Mainnet.Evm

open Types Mainnet.Runtime Lib Prog Nat Word

theorem toU256_modEq (x : ℤ) : toU256 x ≡ x [ZMOD 2 ^ 256] := by
  rw [toU256_eq, word_ofInt]
  exact Int.mod_modEq x _

namespace Word

variable (a b : Vec)

theorem add_word : (add (word a) (word b)).2 = word (a + b) := by
  rw [add, toU256_eq, BitVec.ofInt_add, ofInt_word, ofInt_word]

theorem mul_word : (mul (word a) (word b)).2 = word (a * b) := by
  rw [mul, toU256_eq, BitVec.ofInt_mul, ofInt_word, ofInt_word]

theorem sub_word : (sub (word a) (word b)).2 = word (a - b) := by
  rw [sub, toU256_eq, Int.sub_eq_add_neg, BitVec.ofInt_add, BitVec.ofInt_neg, ofInt_word,
    ofInt_word, BitVec.sub_eq_add_neg]

theorem div_word : (div (word a) (word b)).2 = word (if b = 0 then 0 else a / b) := by
  have hdiv : BitVec.ofInt 256 (word a / word b) = a / b := by
    rw [word, word, ← Int.natCast_ediv, ← BitVec.toNat_udiv]
    exact ofInt_word _
  simp only [div, word_eq_zero, toU256_eq, hdiv]
  split_ifs <;> rfl

theorem mod_word : (mod (word a) (word b)).2 = word (if b = 0 then 0 else a % b) := by
  have hmod : BitVec.ofInt 256 (word a % word b) = a % b := by
    rw [word, word, ← Int.natCast_emod, ← BitVec.toNat_umod]
    exact ofInt_word _
  simp only [mod, word_eq_zero, toU256_eq, hmod]
  split_ifs <;> rfl

theorem tdiv_eq_abs (a b : ℤ) : a.tdiv b = if a.sign ≠ b.sign then -(|a| / |b|) else |a| / |b| := by
  have habs : (|a|).tdiv |b| = |a| / |b| := Int.tdiv_eq_ediv_of_nonneg (abs_nonneg a)
  rw [← habs]
  obtain ha | rfl | ha := lt_trichotomy a 0
  · obtain hb | rfl | hb := lt_trichotomy b 0
    · simp [abs_of_neg ha, abs_of_neg hb, Int.sign_eq_neg_one_of_neg ha,
        Int.sign_eq_neg_one_of_neg hb]
    · simp
    · simp [abs_of_neg ha, abs_of_pos hb, Int.sign_eq_neg_one_of_neg ha, Int.sign_eq_one_of_pos hb]
  · simp
  · obtain hb | rfl | hb := lt_trichotomy b 0
    · simp [abs_of_pos ha, abs_of_neg hb, Int.sign_eq_one_of_pos ha, Int.sign_eq_neg_one_of_neg hb]
    · simp
    · simp [abs_of_pos ha, abs_of_pos hb, Int.sign_eq_one_of_pos ha, Int.sign_eq_one_of_pos hb]

theorem tmod_eq_abs (a b : ℤ) : a.tmod b = if a < 0 then -(|a| % |b|) else |a| % |b| := by
  have habs : a.tmod |b| = a.tmod b := by
    obtain hb | hb := abs_cases b <;> rw [hb.1]
    exact Int.tmod_neg a b
  rw [← habs]
  split_ifs with ha
  · rw [abs_of_neg ha, ← Int.tmod_eq_emod_of_nonneg (by omega), Int.neg_tmod, neg_neg]
  · rw [abs_of_nonneg (not_lt.mp ha), Int.tmod_eq_emod_of_nonneg (not_lt.mp ha)]

theorem sdiv_word : (sdiv (word a) (word b)).2 =
    word (if b = 0 then 0 else .ofInt 256 (a.toInt.tdiv b.toInt)) := by
  simp only [sdiv, to256_word, toInt_eq_zero, ← tdiv_eq_abs, toU256_eq]
  split_ifs <;> rfl

theorem smod_word : (smod (word a) (word b)).2 =
    word (if b = 0 then 0 else .ofInt 256 (a.toInt.tmod b.toInt)) := by
  simp only [smod, to256_word, toInt_eq_zero, ← tmod_eq_abs, toU256_eq]
  split_ifs <;> rfl

theorem lt_word : (lt (word a) (word b)).2 = word (.ofProp (a.toNat < b.toNat)) := by
  rw [← ofBool_decide]
  simp only [lt, word, cast_lt]

theorem gt_word : (gt (word a) (word b)).2 = word (.ofProp (a.toNat > b.toNat)) := by
  rw [← ofBool_decide]
  simp only [gt, word, gt_iff_lt, cast_lt]

theorem slt_word : (slt (word a) (word b)).2 = word (.ofProp (a.toInt < b.toInt)) := by
  rw [← ofBool_decide, slt, to256_word, to256_word]

theorem sgt_word : (sgt (word a) (word b)).2 = word (.ofProp (a.toInt > b.toInt)) := by
  rw [← ofBool_decide, sgt, to256_word, to256_word]

theorem eq_word : (eq (word a) (word b)).2 = word (.ofProp (a = b)) := by
  rw [← ofBool_decide, eq, beq_eq_decide]
  simp only [word_inj]

theorem isZero_word : isZero (word a) = word (.ofProp (a = 0)) := by
  rw [← ofBool_decide, isZero, beq_eq_decide]
  simp only [word_eq_zero]

theorem addMod_word (n : Vec) : (addMod (word a) (word b) (word n)).2 =
    word (if n = 0 then 0 else .ofNat 256 ((a.toNat + b.toNat) % n.toNat)) := by
  have hsum : (word a + word b) % word n = ((a.toNat + b.toNat) % n.toNat : ℕ) := by
    simp only [word, cast_add, Int.natCast_emod]
  simp only [addMod, word_eq_zero]
  split_ifs
  · rfl
  · rw [hsum, toU256_eq, BitVec.ofInt_natCast]

theorem mulMod_word (n : Vec) : (mulMod (word a) (word b) (word n)).2 =
    word (if n = 0 then 0 else .ofNat 256 (a.toNat * b.toNat % n.toNat)) := by
  have hprod : word a * word b % word n = (a.toNat * b.toNat % n.toNat : ℕ) := by
    simp only [word, cast_mul, Int.natCast_emod]
  simp only [mulMod, word_eq_zero]
  split_ifs
  · rfl
  · rw [hprod, toU256_eq, BitVec.ofInt_natCast]

theorem expLoop_modEq (n y : ℕ) (x z : ℤ) (hy : y < 2 ^ n) :
    (expLoop n y x z).2 ≡ z * x ^ y [ZMOD 2 ^ 256] := by
  induction n generalizing y x z with
  | zero =>
    obtain rfl : y = 0 := by omega
    rw [pow_zero, mul_one]
    rfl
  | succ n ih =>
    have hz : (if y % 2 = 1 then toU256 (z * x) else z) ≡ z * x ^ (y % 2) [ZMOD 2 ^ 256] := by
      obtain h | h := mod_two_eq_zero_or_one y <;> simp only [h]
      · simp
      · simpa using toU256_modEq (z * x)
    calc (expLoop (n + 1) y x z).2
      _ ≡ (if y % 2 = 1 then toU256 (z * x) else z) * toU256 (x * x) ^ (y / 2) [ZMOD 2 ^ 256] :=
        ih _ _ _ (by omega)
      _ ≡ z * x ^ (y % 2) * (x * x) ^ (y / 2) [ZMOD 2 ^ 256] :=
        hz.mul ((toU256_modEq _).pow _)
      _ = z * x ^ y := by
        rw [mul_assoc, ← pow_two, ← pow_mul, ← pow_add, mod_add_div]

theorem isWord_expLoop (n y : ℕ) {x z : ℤ} (hz : isWord z) : isWord (expLoop n y x z).2 := by
  induction n generalizing y x z with
  | zero => exact hz
  | succ n ih =>
    unfold expLoop
    apply ih
    split_ifs
    · exact isWord_toU256 _
    · exact hz

theorem isWord_exp (x y : ℤ) : isWord (exp x y).2 := isWord_expLoop _ _ (by decide)

theorem exp_word (a b : Vec) :
    (exp (word a) (word b)).2 = word (.ofNat 256 (a.toNat ^ b.toNat)) := by
  have hb : b.toNat < 2 ^ (64 * ((bitLen (word b) + 63) / 64)) :=
    bitLen_le.mp (by omega : bitLen (word b) ≤ _)
  have hmod := expLoop_modEq _ _ (word a) 1 hb
  have hpow : word (.ofNat 256 (a.toNat ^ b.toNat)) = word a ^ b.toNat % 2 ^ 256 := by
    rw [← BitVec.ofInt_natCast, word_ofInt, cast_pow, word]
  obtain ⟨hpos, hlt⟩ := isWord_exp (word a) (word b)
  rw [hpow, ← Int.emod_eq_of_lt hpos hlt]
  rw [one_mul] at hmod
  exact hmod

theorem land_mask (n b : ℕ) : Int.land n (2 ^ b - 1) = (n % 2 ^ b : ℕ) := by
  have hmask : (2 ^ b - 1 : ℤ) = ((2 ^ b - 1 : ℕ) : ℤ) := by
    rw [Nat.cast_sub Nat.one_le_two_pow]
    norm_cast
  rw [hmask, ← and_two_pow_sub_one_eq_mod]
  rfl

theorem lor_lnot_mask (n b : ℕ) : Int.lor n (Int.lnot (2 ^ b - 1)) = (n % 2 ^ b : ℕ) - 2 ^ b := by
  have hlt : n % 2 ^ b < 2 ^ b := Nat.mod_lt _ (Nat.two_pow_pos b)
  have hmask : (2 ^ b - 1 : ℤ) = ((2 ^ b - 1 : ℕ) : ℤ) := by
    rw [Nat.cast_sub Nat.one_le_two_pow]
    norm_cast
  have hldiff : (2 ^ b - 1).ldiff n = 2 ^ b - (n % 2 ^ b + 1) := by
    apply eq_of_testBit_eq
    intro i
    rw [testBit_ldiff, testBit_two_pow_sub_one, testBit_two_pow_sub_succ hlt, testBit_mod_two_pow]
    cases decide (i < b) <;> simp
  rw [hmask]
  change Int.negSucc ((2 ^ b - 1).ldiff n) = _
  rw [hldiff, Int.negSucc_eq]
  push_cast [cast_sub (succ_le_of_lt hlt)]
  omega

theorem toInt_setWidth_succ (x : Vec) (b : ℕ) : (x.setWidth (b + 1)).toInt =
    if x.toNat.testBit b then ((x.toNat % 2 ^ b : ℕ) : ℤ) - 2 ^ b else (x.toNat % 2 ^ b : ℕ) := by
  have hlt : x.toNat % 2 ^ b < 2 ^ b := Nat.mod_lt _ (Nat.two_pow_pos b)
  have hmod : x.toNat % 2 ^ (b + 1) = x.toNat % 2 ^ b + 2 ^ b * (x.toNat / 2 ^ b % 2) :=
    mod_pow_succ
  rw [BitVec.toInt_eq_toNat_cond, BitVec.toNat_setWidth, hmod, pow_succ,
    testBit_eq_decide_div_mod_eq]
  obtain hbit | hbit := mod_two_eq_zero_or_one (x.toNat / 2 ^ b)
  · simp only [hbit, mul_zero, add_zero, zero_ne_one, decide_false, Bool.false_eq_true, if_false]
    rw [if_pos (by omega)]
  · simp only [hbit, mul_one, decide_true, if_true]
    rw [if_neg (by omega)]
    push_cast
    omega

theorem signExtend_word (b : ℕ) (x : Vec) :
    signExtend b (word x) = word ((x.setWidth (b + 1)).signExtend 256) := by
  have hland : Int.land (word x) (2 ^ b - 1) = (x.toNat % 2 ^ b : ℕ) := land_mask _ _
  have hlor : Int.lor (word x) (Int.lnot (2 ^ b - 1)) = (x.toNat % 2 ^ b : ℕ) - 2 ^ b :=
    lor_lnot_mask _ _
  rw [signExtend, toU256_eq, hland, hlor, BitVec.signExtend, toInt_setWidth_succ]
  rfl

end Word

variable {σ : Type} {E : Env σ} {c : State σ} {rest : List ℤ}

def operandGas (config : ForksInTime) : OpCode → List Vec → ℕ
  | .EXP, [_, y] => (bitLen (word y) + 7) / 8 * if config.eip158 then 50 else 10
  | _, _ => 0

theorem opExp_computes {x y : Vec} (h : c.stack.live = word x :: word y :: rest)
    (hgas : ¬c.gas < operandGas E.config .EXP [x, y]) :
    Computes (opExp E) c (word (.ofNat 256 (x.toNat ^ y.toNat))) rest := by
  refine ⟨isWord_word _, returns_bind.mpr ((returns_pop h).mpr (returns_bind.mpr ?_))⟩
  refine (returns_top rfl).mpr (returns_bind.mpr (returns_consumeGas.mpr ?_))
  refine (if_neg hgas).mpr (returns_bind.mpr (returns_modify.mpr (returns_modify.mpr ?_)))
  exact ⟨congrArg (· :: rest) (exp_word x y), rfl, rfl⟩

theorem opExp_outOfGas {x y : Vec} (h : c.stack.live = word x :: word y :: rest)
    (hgas : c.gas < operandGas E.config .EXP [x, y]) :
    Returns (opExp E) c fun _ c' ↦ c'.stop = true ∧ c'.err = some .outOfGas := by
  refine returns_bind.mpr ((returns_pop h).mpr (returns_bind.mpr ((returns_top rfl).mpr ?_)))
  refine returns_bind.mpr (returns_consumeGas.mpr ((if_pos hgas).mpr ?_))
  exact returns_pure.mpr ⟨rfl, rfl⟩

theorem opSignExtension_computes {k x : Vec} (h : c.stack.live = word k :: word x :: rest) :
    Computes opSignExtension c
      (word (if k.toNat < 31 then (x.setWidth (8 * (k.toNat + 1))).signExtend 256 else x)) rest := by
  refine ⟨isWord_word _, returns_bind.mpr ((returns_pop h).mpr ?_)⟩
  refine returns_bind.mpr (returns_get.mpr ?_)
  have hk : word k = (k.toNat : ℤ) := rfl
  by_cases hbig : word k > 32
  · rw [if_pos (.inl hbig), if_neg (by omega)]
    exact returns_pure.mpr ⟨rfl, rfl, rfl⟩
  rw [if_neg (not_or.mpr ⟨hbig, List.cons_ne_nil _ _⟩)]
  have hbit : (uint64 (word k) * 8 + 7) % 2 ^ 64 = 8 * k.toNat + 7 := by
    unfold uint64
    omega
  dsimp only
  rw [hbit, if_pos (by omega)]
  refine (unary_computes (isWord_word _) rfl ?_).2
  rw [signExtend_word]
  split_ifs with hlt
  · rfl
  · obtain hk | hk : k.toNat = 31 ∨ k.toNat = 32 := by omega
    · rw [hk, BitVec.setWidth_eq, BitVec.signExtend_eq]
    · have hlt : x.toNat < 2 ^ 256 := x.isLt
      have hwidth : (x.setWidth (8 * 32 + 7 + 1)).toNat = x.toNat := by
        rw [BitVec.toNat_setWidth]
        omega
      rw [hk, BitVec.signExtend, BitVec.toInt_eq_toNat_of_lt (by omega), hwidth]
      exact congrArg word (ofInt_word x)

/-- The arithmetic opcodes compute what they mean, in the slot of their last operand. The only one
that can fail is `EXP`, when the price of its exponent is not left. -/
theorem arithmetic_computes (E : Env σ) {op : OpCode} {operands : List Vec} {result : Vec}
    (hmeaning : arithmetic op operands = some result) (c : State σ) (rest : List ℤ)
    (hstack : c.stack.live = operands.map word ++ rest) :
    if c.gas < operandGas E.config op operands then
      Returns (handler E op).inst c fun _ c' ↦ c'.stop = true ∧ c'.err = some .outOfGas
    else Computes (handler E op).inst c (word result) rest := by
  have hword := isWord_word result
  unfold arithmetic at hmeaning
  split at hmeaning <;> cases hmeaning
  case h_10.refl x y =>
    split_ifs with hgas
    · exact opExp_outOfGas hstack hgas
    · exact opExp_computes hstack hgas
  all_goals refine (if_neg (not_lt_zero _)).mpr ?_
  case h_1.refl a b => exact binary_computes hword hstack (add_word a b)
  case h_2.refl a b => exact binary_computes hword hstack (mul_word a b)
  case h_3.refl a b => exact binary_computes hword hstack (sub_word a b)
  case h_4.refl a b => exact binary_computes hword hstack (div_word a b)
  case h_5.refl a b => exact binary_computes hword hstack (mod_word a b)
  case h_6.refl a b => exact binary_computes hword hstack (sdiv_word a b)
  case h_7.refl a b => exact binary_computes hword hstack (smod_word a b)
  case h_8.refl a b n => exact ternary_computes hword hstack (addMod_word a b n)
  case h_9.refl a b n => exact ternary_computes hword hstack (mulMod_word a b n)
  case h_11.refl k x => exact opSignExtension_computes hstack
  case h_12.refl a b => exact binary_computes hword hstack (lt_word a b)
  case h_13.refl a b => exact binary_computes hword hstack (gt_word a b)
  case h_14.refl a b => exact binary_computes hword hstack (slt_word a b)
  case h_15.refl a b => exact binary_computes hword hstack (sgt_word a b)
  case h_16.refl a b => exact binary_computes hword hstack (eq_word a b)
  case h_17.refl a => exact unary_computes hword hstack (isZero_word a)

def idleFrame : Env Unit := frame goLibrary quietHost (topCall []) allForks []

def onStack (live : List ℤ) (gas : ℕ) : State Unit :=
  { State.init ⟨[], []⟩ gas () with stack := ⟨live, []⟩ }

/-- The quotient of the least signed number by minus one does not fit, and is that number again. -/
theorem arithmetic_computes_leastQuotient :
    Computes (handler idleFrame .SDIV).inst (onStack [2 ^ 255, 2 ^ 256 - 1, 7] 0) (2 ^ 255) [7] :=
  (if_neg (not_lt_zero _)).mp (arithmetic_computes idleFrame
    (by decide +kernel : arithmetic .SDIV [.ofInt 256 (-2 ^ 255), .ofInt 256 (-1)] =
      some (.ofInt 256 (-2 ^ 255)))
    (onStack [2 ^ 255, 2 ^ 256 - 1, 7] 0) [7] (by decide +kernel))

end Mainnet.Evm
