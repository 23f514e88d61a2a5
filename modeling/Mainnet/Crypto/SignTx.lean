import Mainnet.Crypto.SignatureRange

namespace Mainnet.Crypto

open Types Lib List Outcome

inductive SignError
  | signCompact
deriving DecidableEq

/-- `btcec.SignCompact` with a private key, and the public key that belongs to it. -/
structure PrivateKey where
  signCompact : Bytes → Option Bytes
  pub : Bytes

def sign (priv : PrivateKey) (hash : Bytes) : Outcome SignError Bytes :=
  match priv.signCompact hash with
  | none => .error .signCompact
  | some [] => .panic
  | some (first :: sig) => .ok (sig ++ [if first = 28 then 1 else 0])

inductive Signer
  | frontier
  | eip155 (chainID : UInt64)
deriving DecidableEq

open Signer

namespace Signer

variable (P : Primitives)

def hash : Signer → Transaction → Hash
  | frontier, tx => calcTxHash P tx 0
  | eip155 chainID, tx => calcTxHash P tx chainID

def sender : Signer → Transaction → Outcome SenderError Address
  | frontier => frontierSender P
  | eip155 chainID => eip155Sender P chainID

def calculateV : Signer → UInt8 → ℕ
  | frontier, parity => parity.toNat + 27
  | eip155 chainID, parity => ((parity.toNat : ℤ) + 35 + chainID.toInt64.toInt * 2).natAbs

def signTx (signer : Signer) (tx : Transaction) (priv : PrivateKey) :
    Outcome SignError Transaction := do
  let sig ← sign priv (signer.hash P tx).bytes
  match sig[64]? with
  | none => .panic
  | some parity =>
    .ok { tx with
      r := BigEndian.ofBytes (sig.take 32)
      s := BigEndian.ofBytes ((sig.drop 32).take 32)
      v := signer.calculateV parity }

end Signer

/-- Signing the hash gives `r`, `s` and the recovery bit, from which the key is recovered. -/
structure Signs (P : Primitives) (priv : PrivateKey) (hash : Hash) (r s : ℕ) (bit : UInt8) :
    Prop where
  bit_le : bit ≤ 1
  r_range : 1 ≤ r ∧ r < curveOrder
  s_range : 1 ≤ s ∧ s < curveOrder
  signCompact : priv.signCompact hash.bytes = some ((27 + bit) :: (padded r ++ padded s))
  recoverCompact :
    P.recoverCompact ((27 + bit) :: (padded r ++ padded s)) hash.bytes = some priv.pub

variable {P : Primitives} {priv : PrivateKey} {hash : Hash} {r s : ℕ} {bit : UInt8}
  {tx : Transaction} {a : Address}

theorem term_eq (h : bit ≤ 1) : (if bit = 1 then 28 else 27 : UInt8) = 27 + bit ∧
    (if 27 + bit = (28 : UInt8) then 1 else 0) = bit := by
  obtain rfl | rfl : bit = 0 ∨ bit = 1 := by
    rw [← UInt8.toNat_inj, ← UInt8.toNat_inj]
    exact Nat.le_one_iff_eq_zero_or_eq_one.mp (UInt8.le_iff_toNat_le.mp h)
  · decide
  · decide

theorem Signs.ecrecover_eq (h : Signs P priv hash r s bit) :
    ecrecover P (padded r ++ padded s ++ [bit]) hash.bytes = some (pubKeyToAddress P priv.pub) := by
  simp only [ecrecover, recoverPubkey, getLast?_concat, dropLast_concat,
    (term_eq h.bit_le).1, h.recoverCompact, Option.map_some]

theorem Signs.signTx_eq {signer : Signer} (h : Signs P priv (signer.hash P tx) r s bit) :
    signer.signTx P tx priv = .ok { tx with r := r, s := s, v := signer.calculateV bit } := by
  obtain ⟨rb, sb, hr, hs, hsig⟩ := encodes_padded bit (length_toBytes_of_lt h.r_range.2)
    (length_toBytes_of_lt h.s_range.2)
  have hsign : sign priv (signer.hash P tx).bytes = .ok (rb.bytes ++ (sb.bytes ++ [bit])) := by
    rw [sign, h.signCompact]
    simp only
    rw [(term_eq h.bit_le).2, hsig, append_assoc]
  rw [signTx, hsign, ok_bind, take_left' rb.length_eq,
    drop_left' rb.length_eq, take_left' sb.length_eq, hr, hs,
    getElem?_append_right (by rw [rb.length_eq]; omega),
    getElem?_append_right (by rw [rb.length_eq, sb.length_eq]), rb.length_eq, sb.length_eq]
  rfl

theorem senderOf_eq_ok_iff (hr : 1 ≤ tx.r ∧ tx.r < curveOrder) (hs : 1 ≤ tx.s ∧ tx.s < curveOrder)
    (hbit : bit ≤ 1) : senderOf P tx hash bit = .ok a ↔
      (compared tx.r < curveOrder ∧ compared tx.s < curveOrder) ∧
        ecrecover P (padded tx.r ++ padded tx.s ++ [bit]) hash.bytes = some a := by
  have hvalid := validateSignatureValues_iff bit tx.r tx.s
  simp only [hbit, hr.1, hs.1, true_and] at hvalid
  rw [senderOf, ← hvalid]
  cases hval : validateSignatureValues bit tx.r tx.s with
  | false => simp [encodeSignature, hval, Bind.bind, Outcome.bind]
  | true =>
    rw [encodeSignature_eq hval (length_toBytes_of_lt hr.2) (length_toBytes_of_lt hs.2), ok_bind]
    cases ecrecover P (padded tx.r ++ padded tx.s ++ [bit]) hash.bytes <;> simp

theorem byteOf_bigInt64_eq {x : ℤ} (h : x % 256 = bit.toNat) : byteOf (bigInt64 x) = bit := by
  rw [← UInt8.toNat_inj]
  have := byteOf_bigInt64 x
  omega

/-- The hash that `Sender` looks at: the one that was signed, unless the chain ID makes `V` look like
one of the earlier standard. -/
def seenHash (P : Primitives) (tx : Transaction) : Signer → Hash
  | .frontier => calcTxHash P tx 0
  | .eip155 chainID => calcTxHash P tx (if chainID.toNat = 2 ^ 63 - 4 then 0 else chainID)

theorem calculateV_eip155 {chainID : UInt64} (h : chainID.toNat < 2 ^ 63) (bit : UInt8) :
    calculateV (.eip155 chainID) bit = bit.toNat + 35 + chainID.toNat * 2 := by
  have hint : chainID.toInt64.toInt = chainID.toNat := by
    rw [show chainID.toInt64.toInt = Int.bmod chainID.toNat (2 ^ 64) from
      BitVec.toInt_eq_toNat_bmod chainID.toBitVec]
    exact Int.bmod_eq_of_le (by omega) (by omega)
  rw [calculateV, hint]
  omega

theorem sender_signed {signer : Signer}
    (hchain : ∀ chainID, signer = .eip155 chainID → chainID.toNat < 2 ^ 63) (hbit : bit ≤ 1)
    (hv : tx.v = signer.calculateV bit) :
    signer.sender P tx = senderOf P tx (seenHash P tx signer) bit := by
  have hbit' : bit.toNat ≤ 1 := UInt8.le_iff_toNat_le.mp hbit
  have hfrontier (h : ((tx.v : ℤ) - 27) % 256 = bit.toNat) :
      frontierSender P tx = senderOf P tx (calcTxHash P tx 0) bit := by
    rw [frontierSender, byteOf_bigInt64_eq h]
  cases signer with
  | frontier =>
    refine hfrontier ?_
    rw [hv, calculateV]
    omega
  | eip155 chainID =>
    have hlt := hchain chainID rfl
    rw [calculateV_eip155 hlt] at hv
    rw [sender, eip155Sender, seenHash]
    simp only [isProtected_eq]
    by_cases hspecial : chainID.toNat = 2 ^ 63 - 4
    · have hlegacy : tx.v % 2 ^ 64 = 27 ∨ tx.v % 2 ^ 64 = 28 := by omega
      simp only [hlegacy, hspecial, decide_true, Bool.not_true, Bool.not_false, if_true]
      exact hfrontier (by omega)
    · have hown : ¬ (tx.v % 2 ^ 64 = 27 ∨ tx.v % 2 ^ 64 = 28) := by omega
      simp only [hown, hspecial, decide_false, Bool.not_false, Bool.not_true, Bool.false_eq_true,
        if_false]
      rw [byteOf_bigInt64_eq ?_]
      rw [sub_toInt64_emod, hv]
      omega

/-- The sender of a signed transaction is found exactly if the comparison lets `r` and `s` through,
and the hash that is looked at recovers the key. -/
theorem sender_signTx_iff {signer : Signer}
    (hchain : ∀ chainID, signer = .eip155 chainID → chainID.toNat < 2 ^ 63)
    (h : Signs P priv (signer.hash P tx) r s bit) :
    (∃ tx', signer.signTx P tx priv = .ok tx' ∧
      signer.sender P tx' = .ok (pubKeyToAddress P priv.pub)) ↔
      (compared r < curveOrder ∧ compared s < curveOrder) ∧
      (∀ chainID, signer = .eip155 chainID → chainID.toNat = 2 ^ 63 - 4 →
        ecrecover P (padded r ++ padded s ++ [bit]) (calcTxHash P tx 0).bytes =
          some (pubKeyToAddress P priv.pub)) := by
  have hsigned : (∃ tx', signer.signTx P tx priv = .ok tx' ∧
      signer.sender P tx' = .ok (pubKeyToAddress P priv.pub)) ↔
      signer.sender P { tx with r := r, s := s, v := signer.calculateV bit } =
        .ok (pubKeyToAddress P priv.pub) := by
    rw [h.signTx_eq]
    simp
  rw [hsigned, sender_signed hchain h.bit_le rfl, senderOf_eq_ok_iff h.r_range h.s_range h.bit_le]
  refine and_congr_right fun _ ↦ ?_
  cases signer with
  | frontier => exact iff_of_true h.ecrecover_eq (by simp)
  | eip155 chainID =>
    by_cases hspecial : chainID.toNat = 2 ^ 63 - 4
    · simp only [seenHash, if_pos hspecial]
      exact ⟨fun hold _ _ _ ↦ hold, fun hall ↦ hall chainID rfl hspecial⟩
    · simp only [seenHash, if_neg hspecial]
      refine iff_of_true h.ecrecover_eq ?_
      rintro _ ⟨⟩ hsame
      exact absurd hsame hspecial

def fixedKey (r : ℕ) : PrivateKey := ⟨fun _ ↦ some (27 :: (padded r ++ padded 1)), []⟩

noncomputable def lengthPrimitives : Primitives :=
  { keyPrimitives (fun b ↦ bytesToHash [UInt8.ofNat b.length]) [] with
    recoverCompact := fun _ msg ↦ if msg = (bytesToHash [7]).bytes then none else some [] }

theorem signs_fixedKey {r : ℕ} (hash : Hash) (hr : 1 ≤ r ∧ r < curveOrder)
    (hhash : hash ≠ bytesToHash [7]) : Signs lengthPrimitives (fixedKey r) hash r 1 0 where
  bit_le := by decide
  r_range := hr
  s_range := by decide +kernel
  signCompact := rfl
  recoverCompact := if_neg fun h ↦ hhash (FixedBytes.ext h)

theorem sender_signTx_iff_hundred :
    ∃ tx', (eip155 100).signTx lengthPrimitives default (fixedKey 1) = .ok tx' ∧
      (eip155 100).sender lengthPrimitives tx' =
        .ok (pubKeyToAddress lengthPrimitives []) := by
  refine (sender_signTx_iff ?_ (signs_fixedKey _ (by decide +kernel) (by decide +kernel))).mpr
    ⟨by decide +kernel, ?_⟩
  · rintro _ ⟨⟩
    decide
  · rintro _ ⟨⟩ h
    exact absurd h (by decide)

/-- With the chain ID `2 ^ 63 - 4` the sender is looked for under the hash of the earlier standard;
an `r` of 16 bytes is refused. -/
theorem sender_signTx_lost :
    Signs lengthPrimitives (fixedKey 1)
        ((eip155 0x7ffffffffffffffc).hash lengthPrimitives default) 1 1 0 ∧
      (∃ tx', (eip155 0x7ffffffffffffffc).signTx lengthPrimitives default (fixedKey 1) =
          .ok tx' ∧
        (eip155 0x7ffffffffffffffc).sender lengthPrimitives tx' = .error .ecrecover) ∧
      Signs lengthPrimitives (fixedKey (2 ^ 128 - 1))
        ((eip155 100).hash lengthPrimitives default) (2 ^ 128 - 1) 1 0 ∧
      ∃ tx', (eip155 100).signTx lengthPrimitives default (fixedKey (2 ^ 128 - 1)) =
          .ok tx' ∧
        (eip155 100).sender lengthPrimitives tx' = .error .invalidTxnSignature := by
  have hshort := signs_fixedKey (r := 2 ^ 128 - 1)
    ((eip155 100).hash lengthPrimitives default) (by decide +kernel) (by decide +kernel)
  have hlast := signs_fixedKey (r := 1)
    ((eip155 0x7ffffffffffffffc).hash lengthPrimitives default) (by decide +kernel)
    (by decide +kernel)
  exact ⟨hlast, ⟨_, hlast.signTx_eq, by decide +kernel⟩, hshort, _, hshort.signTx_eq,
    by decide +kernel⟩

end Mainnet.Crypto
