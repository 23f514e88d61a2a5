import Mathlib.Data.Nat.Size
import Mainnet.Lib.Outcome
import Mainnet.Crypto.Basic

namespace Mainnet.Crypto

open Types Lib List Outcome UInt64 Rlp

inductive SenderError
  /-- "invalid txn signature" -/
  | invalidTxnSignature
  | ecrecover
deriving DecidableEq

section Model

variable (P : Primitives)

def calcTxHash (tx : Transaction) (chainID : UInt64) : Hash :=
  let payload : List Value :=
    [newUint tx.nonce, newUint tx.gasPrice, newUint tx.gas,
      .bytes (match tx.toAddr with | none => [] | some addr => addr.bytes),
      newUint tx.value, .bytes tx.input]
  let suffix : List Value :=
    if chainID ≠ 0 then [newUint chainID.toNat, newUint 0, newUint 0] else []
  P.keccak256 (P.marshal (.array (payload ++ suffix)))

def trimLeftZeros : Bytes → Bytes
  | b :: c :: bs => if b ≠ 0 then b :: c :: bs else trimLeftZeros (c :: bs)
  | bs => bs

def secp256k1N : Bytes :=
  [0xff, 0xff, 0xff, 0xff, 0xff, 0xff, 0xff, 0xff, 0xff, 0xff, 0xff, 0xff, 0xff, 0xff, 0xff, 0xfe,
    0xba, 0xae, 0xdc, 0xe6, 0xaf, 0x48, 0xa0, 0x3b, 0xbf, 0xd2, 0x5e, 0x8c, 0xd0, 0x36, 0x41, 0x41]

/-- The comparisons are those of `bytes.Compare`, from the first byte on. -/
def validateSignatureValues (v : UInt8) (r s : ℕ) : Bool :=
  let inRange (x : ℕ) :=
    let xx := trimLeftZeros (BigEndian.toBytes x)
    !((compare xx secp256k1N).isGE || (compare xx [1]).isLT)
  !(v > 1) && inRange r && inRange s

def copyAt (dst src : Bytes) (i : ℕ) : Bytes := dst.take i ++ src ++ dst.drop (i + src.length)

/-- The slices `sig[32-len(R):32]` and `sig[64-len(S):64]` panic when a bound is negative. -/
def encodeSignature (r s : ℕ) (v : UInt8) : Outcome SenderError Bytes :=
  if !validateSignatureValues v r s then .error .invalidTxnSignature
  else
    let rb := BigEndian.toBytes r
    let sb := BigEndian.toBytes s
    if 32 < rb.length ∨ 64 < sb.length then .panic
    else
      let sig := copyAt (replicate 65 0) rb (32 - rb.length)
      let sig := copyAt sig sb (64 - sb.length)
      .ok (sig.set 64 v)

/-- `big.Int.Int64`: the low bits of the absolute value, with the sign. -/
def bigInt64 (x : ℤ) : Int64 :=
  let v := Int64.ofNat x.natAbs
  if x < 0 then -v else v

def byteOf (v : Int64) : UInt8 := v.toUInt64.toUInt8

def senderOf (tx : Transaction) (hash : Hash) (parity : UInt8) : Outcome SenderError Address := do
  let sig ← encodeSignature tx.r tx.s parity
  match ecrecover P sig hash.bytes with
  | none => .error .ecrecover
  | some addr => .ok addr

def frontierSender (tx : Transaction) : Outcome SenderError Address :=
  let refV : ℤ := (tx.v : ℤ) - 27
  senderOf P tx (calcTxHash P tx 0) (byteOf (bigInt64 refV))

def eip155Sender (chainID : UInt64) (tx : Transaction) : Outcome SenderError Address :=
  let vv := ofNat tx.v
  let isProtected := if Nat.size vv.toNat ≤ 8 then vv != 27 && vv != 28 else true
  if !isProtected then frontierSender P tx
  else
    let mulOperand := chainID.toInt64.toInt * 2
    let bigV : ℤ := (tx.v : ℤ) - mulOperand - 35
    senderOf P tx (calcTxHash P tx chainID) (byteOf (bigInt64 bigV))

end Model

def ExactV (chainID : UInt64) (v : ℕ) : Prop :=
  v = 27 ∨ v = 28 ∨ v = 2 * chainID.toNat + 35 ∨ v = 2 * chainID.toNat + 36

def ResidueV (chainID : UInt64) (v : ℕ) : Prop :=
  v % 2 ^ 64 = 27 ∨ v % 2 ^ 64 = 28 ∨ ((v : ℤ) - (2 * chainID.toNat + 35)) % 256 = 0 ∨
    ((v : ℤ) - (2 * chainID.toNat + 35)) % 256 = 1

instance (chainID : UInt64) (v : ℕ) : Decidable (ExactV chainID v) :=
  inferInstanceAs (Decidable (_ ∨ _ ∨ _ ∨ _))

theorem byteOf_bigInt64 (x : ℤ) : ((byteOf (bigInt64 x)).toNat : ℤ) = x % 256 := by
  unfold byteOf bigInt64
  simp only
  split
  · rw [toNat_toUInt8, Int64.toUInt64_neg, Int64.toUInt64_ofNat', toNat_neg,
      toNat_ofNat', show size = 2 ^ 64 from rfl]
    omega
  · rw [toNat_toUInt8, Int64.toUInt64_ofNat', toNat_ofNat']
    omega

theorem byteOf_bigInt64_le_one (x : ℤ) : ¬ byteOf (bigInt64 x) > 1 ↔ x % 256 = 0 ∨ x % 256 = 1 := by
  have h := byteOf_bigInt64 x
  rw [gt_iff_lt, UInt8.lt_iff_toNat_lt, show (1 : UInt8).toNat = 1 from rfl]
  omega

theorem sub_toInt64_emod (v : ℕ) (chainID : UInt64) :
    ((v : ℤ) - chainID.toInt64.toInt * 2 - 35) % 256 =
      ((v : ℤ) - (2 * chainID.toNat + 35)) % 256 := by
  have h : chainID.toInt64.toInt = Int.bmod chainID.toNat (2 ^ 64) :=
    BitVec.toInt_eq_toNat_bmod chainID.toBitVec
  have hdvd : (2 ^ 64 : ℤ) ∣ Int.bmod chainID.toNat (2 ^ 64) - chainID.toNat :=
    Int.dvd_bmod_sub_self
  rw [h]
  omega

theorem isProtected_eq (v : ℕ) :
    (if Nat.size (ofNat v).toNat ≤ 8 then ofNat v != 27 && ofNat v != 28
      else true) = !decide (v % 2 ^ 64 = 27 ∨ v % 2 ^ 64 = 28) := by
  have h27 : ofNat v = 27 ↔ v % 2 ^ 64 = 27 := by
    rw [← UInt64.toNat_inj, UInt64.toNat_ofNat']
    rfl
  have h28 : ofNat v = 28 ↔ v % 2 ^ 64 = 28 := by
    rw [← UInt64.toNat_inj, UInt64.toNat_ofNat']
    rfl
  rw [toNat_ofNat', if_congr Nat.size_le rfl rfl, Bool.eq_iff_iff]
  split
  · simp only [Bool.and_eq_true, bne_iff_ne, ne_eq, h27, h28, Bool.not_eq_true',
      decide_eq_false_iff_not, not_or]
  · simp only [Bool.not_eq_true', decide_eq_false_iff_not, true_iff]
    omega

variable {P : Primitives} {chainID : UInt64} {tx : Transaction} {a : Address} {hash : Hash}
  {parity : UInt8}

theorem parity_of_senderOf (h : senderOf P tx hash parity = .ok a) : ¬ parity > 1 := by
  unfold senderOf at h
  obtain ⟨sig, hsig, -⟩ := bind_eq_ok.mp h
  unfold encodeSignature at hsig
  intro hgt
  simp [validateSignatureValues, hgt] at hsig

theorem residueV_of_eip155Sender (h : eip155Sender P chainID tx = .ok a) :
    ResidueV chainID tx.v := by
  unfold eip155Sender at h
  simp only [isProtected_eq] at h
  by_cases hv : tx.v % 2 ^ 64 = 27 ∨ tx.v % 2 ^ 64 = 28
  · exact hv.elim .inl fun h28 ↦ .inr (.inl h28)
  · simp only [hv, decide_false, Bool.not_false, Bool.not_true, Bool.false_eq_true, if_false] at h
    have hp := parity_of_senderOf h
    rw [byteOf_bigInt64_le_one, sub_toInt64_emod] at hp
    exact .inr (.inr hp)

theorem encodeSignature_one (hp : ¬ parity > 1) :
    ∃ sig, encodeSignature 1 1 parity = .ok sig ∧ sig ≠ [] := by
  have hvalid : validateSignatureValues parity 1 1 = true := by
    have h1 : validateSignatureValues 0 1 1 = true := by decide
    simpa [validateSignatureValues, hp] using h1
  have hone : BigEndian.toBytes 1 = [1] := by decide
  refine ⟨_, by simp only [encodeSignature, hvalid, hone]; rfl, ?_⟩
  rw [← length_pos_iff_ne_nil, length_set]
  decide

theorem senderOf_one (hr : tx.r = 1) (hs : tx.s = 1)
    (hp : ¬ parity > 1) (hrec : ∀ sig msg, (P.recoverCompact sig msg).isSome) :
    ∃ a, senderOf P tx hash parity = .ok a := by
  obtain ⟨sig, hsig, hne⟩ := encodeSignature_one hp
  obtain ⟨pub, hpub⟩ : ∃ pub, recoverPubkey P sig hash.bytes = some pub := by
    rw [← Option.isSome_iff_exists, recoverPubkey, getLast?_eq_some_getLast hne]
    exact hrec _ _
  refine ⟨pubKeyToAddress P pub, ?_⟩
  rw [senderOf, hr, hs, hsig, ok_bind, ecrecover, hpub]
  rfl

theorem eip155Sender_of_residueV (hr : tx.r = 1) (hs : tx.s = 1)
    (hrec : ∀ sig msg, (P.recoverCompact sig msg).isSome) (h : ResidueV chainID tx.v) :
    ∃ a, eip155Sender P chainID tx = .ok a := by
  unfold eip155Sender
  simp only [isProtected_eq]
  by_cases hv : tx.v % 2 ^ 64 = 27 ∨ tx.v % 2 ^ 64 = 28
  · simp only [hv, decide_true, Bool.not_true, Bool.not_false, if_true]
    refine senderOf_one hr hs ?_ hrec
    rw [byteOf_bigInt64_le_one]
    omega
  · simp only [hv, decide_false, Bool.not_false, Bool.not_true, Bool.false_eq_true, if_false]
    refine senderOf_one hr hs ?_ hrec
    rw [byteOf_bigInt64_le_one, sub_toInt64_emod]
    obtain h | h | h := h
    · exact absurd (.inl h) hv
    · exact absurd (.inr h) hv
    · exact h

def oneTx (v : ℕ) : Transaction := { (default : Transaction) with v := v, r := 1, s := 1 }

noncomputable def keyPrimitives (keccak256 : Bytes → Hash) (pub : Bytes) : Primitives :=
  ecdsaPrimitives rlpCodec keccak256 fun _ _ ↦ some pub

/-- Whatever key recovery does, the accepted values of `V` are the four exact ones just when no other
value is congruent to them modulo the widths of the truncations. -/
theorem eip155Sender_exactV_iff (chainID : UInt64) (v : ℕ) :
    (∀ (P : Primitives) (tx : Transaction) (a : Address), tx.v = v →
      eip155Sender P chainID tx = .ok a → ExactV chainID v) ↔
      (ResidueV chainID v → ExactV chainID v) := by
  constructor
  · intro h hres
    obtain ⟨a, ha⟩ : ∃ a, eip155Sender (keyPrimitives (fun _ ↦ zeroHash) []) chainID (oneTx v) =
        .ok a :=
      eip155Sender_of_residueV rfl rfl (fun _ _ ↦ rfl) hres
    exact h _ (oneTx v) a rfl ha
  · rintro h P tx a rfl hok
    exact h (residueV_of_eip155Sender hok)

def onePub : Bytes := BigEndian.toBytes
  0x04e01ea441b52f222ae10351d54b248f3a6d32ceacc8f05b5cd8ea9f8943577e2b327bd5df649f868facd791eae0980eed21cc23a0cf3b187edc7b816735d46139

def oneKeccak (b : Bytes) : Hash :=
  bytesToHash (BigEndian.toBytes (
    if b = [0xc9, 0x80, 0x80, 0x80, 0x80, 0x80, 0x80, 0x64, 0x80, 0x80] then
      0x64fda483aa70748b6bc087c4a1c4bbfa07f7087e6451ecbfef5d91cd11069e98
    else 0x2807c242d06abca8bd45cb768604f349a28862e2ee0937eb18192e9776091929))

def oneAddr : Address :=
  bytesToAddress (BigEndian.toBytes 0x8604f349a28862e2ee0937eb18192e9776091929)

/-- The transaction with `V = 2·100 + 35` and two copies with other values of `V`. -/
theorem eip155Sender_malleable :
    ExactV 100 235 ∧ eip155Sender (keyPrimitives oneKeccak onePub) 100 (oneTx 235) = .ok oneAddr ∧
    ¬ ExactV 100 (235 + 256) ∧
    eip155Sender (keyPrimitives oneKeccak onePub) 100 (oneTx (235 + 256)) = .ok oneAddr ∧
    ¬ ExactV 100 (235 + 2 ^ 64) ∧
    eip155Sender (keyPrimitives oneKeccak onePub) 100 (oneTx (235 + 2 ^ 64)) = .ok oneAddr := by
  decide +kernel

end Mainnet.Crypto
