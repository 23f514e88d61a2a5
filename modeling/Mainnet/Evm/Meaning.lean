import Mainnet.Evm.Rules

namespace Mainnet.Evm

open Types Mainnet.Runtime Lib Prog BitVec

abbrev Vec := BitVec 256

def word (v : Vec) : ℤ := v.toNat

def isWord (x : ℤ) : Prop := 0 ≤ x ∧ x < 2 ^ 256

instance (x : ℤ) : Decidable (isWord x) := inferInstanceAs (Decidable (_ ∧ _))

def Vec.ofProp (p : Prop) [Decidable p] : Vec := if p then 1 else 0

def arithmetic : OpCode → List Vec → Option Vec
  | .ADD, [a, b] => some (a + b)
  | .MUL, [a, b] => some (a * b)
  | .SUB, [a, b] => some (a - b)
  | .DIV, [a, b] => some (if b = 0 then 0 else a / b)
  | .MOD, [a, b] => some (if b = 0 then 0 else a % b)
  | .SDIV, [a, b] => some (if b = 0 then 0 else .ofInt 256 (a.toInt.tdiv b.toInt))
  | .SMOD, [a, b] => some (if b = 0 then 0 else .ofInt 256 (a.toInt.tmod b.toInt))
  | .ADDMOD, [a, b, n] => some (if n = 0 then 0 else .ofNat 256 ((a.toNat + b.toNat) % n.toNat))
  | .MULMOD, [a, b, n] => some (if n = 0 then 0 else .ofNat 256 (a.toNat * b.toNat % n.toNat))
  | .EXP, [a, b] => some (.ofNat 256 (a.toNat ^ b.toNat))
  | .SIGNEXTEND, [k, x] =>
    some (if k.toNat < 31 then (x.setWidth (8 * (k.toNat + 1))).signExtend 256 else x)
  | .LT, [a, b] => some (.ofProp (a.toNat < b.toNat))
  | .GT, [a, b] => some (.ofProp (a.toNat > b.toNat))
  | .SLT, [a, b] => some (.ofProp (a.toInt < b.toInt))
  | .SGT, [a, b] => some (.ofProp (a.toInt > b.toInt))
  | .EQ, [a, b] => some (.ofProp (a = b))
  | .ISZERO, [a] => some (.ofProp (a = 0))
  | _, _ => none

def byteAt (i : ℕ) (x : Vec) : Vec :=
  if i < 32 then (x.extractLsb' (8 * (31 - i)) 8).setWidth 256 else 0

def bitwise : OpCode → List Vec → Option Vec
  | .AND, [a, b] => some (a &&& b)
  | .OR, [a, b] => some (a ||| b)
  | .XOR, [a, b] => some (a ^^^ b)
  | .NOT, [a] => some (~~~a)
  | .BYTE, [i, x] => some (byteAt i.toNat x)
  | .SHL, [n, x] => some (x <<< n.toNat)
  | .SHR, [n, x] => some (x >>> n.toNat)
  | .SAR, [n, x] => some (x.sshiftRight n.toNat)
  | _, _ => none

variable {σ : Type}

/-- The program takes its operands from the stack and leaves one word, above the slots of `rest`. -/
def Computes (m : Machine σ Unit) (c : State σ) (result : ℤ) (rest : List ℤ) : Prop :=
  isWord result ∧ Returns m c fun _ c' ↦
    c'.stack.live = result :: rest ∧ c'.stop = c.stop ∧ c'.err = c.err

theorem isWord_word (v : Vec) : isWord (word v) := by
  have := v.isLt
  unfold isWord word
  omega

theorem word_ofInt (x : ℤ) : word (.ofInt 256 x) = x % 2 ^ 256 := by
  unfold word
  rw [toNat_ofInt]
  omega

theorem word_inj {a b : Vec} : word a = word b ↔ a = b := by
  unfold word
  rw [Nat.cast_inj, toNat_inj]

theorem ofInt_word (v : Vec) : BitVec.ofInt 256 (word v) = v := by
  unfold word
  rw [ofInt_natCast, ofNat_toNat, setWidth_eq]

theorem bitLen_le {x : ℤ} {n : ℕ} : bitLen x ≤ n ↔ x.natAbs < 2 ^ n := Nat.size_le

theorem toU256_eq (x : ℤ) : toU256 x = word (.ofInt 256 x) := by
  rw [word_ofInt]
  unfold toU256
  split_ifs with h
  · rfl
  · obtain ⟨hpos, hlen⟩ := not_or.mp h
    have := bitLen_le.mp (not_lt.mp hlen)
    omega

theorem isWord_toU256 (x : ℤ) : isWord (toU256 x) := by
  rw [toU256_eq]
  exact isWord_word _

theorem to256_word (v : Vec) : to256 (word v) = v.toInt := by
  have hlen : bitLen (word v) > 255 ↔ 2 ^ 255 ≤ v.toNat := by
    rw [gt_iff_lt, ← not_le, bitLen_le, not_lt]
    rfl
  unfold to256
  rw [toInt_eq_toNat_cond]
  simp only [hlen]
  unfold word
  split_ifs <;> omega

theorem word_eq_zero {v : Vec} : word v = 0 ↔ v = 0 := by
  rw [← word_inj]
  rfl

theorem toInt_eq_zero {v : Vec} : v.toInt = 0 ↔ v = 0 := by
  rw [← toInt_inj]
  rfl

theorem ofBool_decide (p : Prop) [Decidable p] : ofBool (decide p) = word (.ofProp p) := by
  by_cases hp : p
  · simp only [hp, decide_true, Vec.ofProp, if_true]
    rfl
  · simp only [hp, decide_false, Vec.ofProp, if_false]
    rfl

variable {c : State σ} {rest : List ℤ}

theorem unary_computes {f : ℤ → ℤ} {a result : ℤ} (hword : isWord result)
    (h : c.stack.live = a :: rest) (hf : f a = result) : Computes (unary f) c result rest := by
  refine ⟨hword, returns_bind.mpr ((returns_top h).mpr (returns_modify.mpr ⟨?_, rfl, rfl⟩))⟩
  rw [hf, h, List.tail_cons]

theorem binary_computes {f : ℤ → ℤ → ℤ × ℤ} {a b result : ℤ} (hword : isWord result)
    (h : c.stack.live = a :: b :: rest) (hf : (f a b).2 = result) :
    Computes (binary f) c result rest := by
  refine ⟨hword, returns_bind.mpr ((returns_pop h).mpr (returns_bind.mpr ?_))⟩
  refine (returns_top rfl).mpr (returns_bind.mpr (returns_modify.mpr (returns_modify.mpr ?_)))
  rw [hf]
  exact ⟨rfl, rfl, rfl⟩

theorem ternary_computes {f : ℤ → ℤ → ℤ → ℤ × ℤ} {a b z result : ℤ} (hword : isWord result)
    (h : c.stack.live = a :: b :: z :: rest) (hf : (f a b z).2 = result) :
    Computes (ternary f) c result rest := by
  refine ⟨hword, returns_bind.mpr ((returns_pop h).mpr (returns_bind.mpr ?_))⟩
  refine (returns_pop rfl).mpr (returns_bind.mpr ((returns_top rfl).mpr (returns_modify.mpr ?_)))
  rw [hf]
  exact ⟨rfl, rfl, rfl⟩

end Mainnet.Evm
