import Mainnet.Types.Rlp

namespace Mainnet.Crypto

open Types

structure Primitives extends Fastrlp where
  keccak256 : Bytes → Hash
  /-- `btcec.RecoverCompact` followed by `elliptic.Marshal`. -/
  recoverCompact : Bytes → Bytes → Option Bytes
  BlsPublicKey : Type
  MultiPublicKey : Type
  MultiSignature : Type
  unmarshalBLSPublicKey : Bytes → Option BlsPublicKey
  aggregatePublicKeys : List BlsPublicKey → Option MultiPublicKey
  unmarshalMultiSignature : Bytes → Option MultiSignature
  verifyMultiSignature : MultiPublicKey → Bytes → MultiSignature → Option Bool

/-- Primitives that read no key and no signature of BLS. -/
def ecdsaPrimitives (R : Fastrlp) (keccak256 : Bytes → Hash)
    (recoverCompact : Bytes → Bytes → Option Bytes) : Primitives :=
  ⟨R, keccak256, recoverCompact, Unit, Unit, Unit, fun _ ↦ none, fun _ ↦ none, fun _ ↦ none,
    fun _ _ _ ↦ none⟩

variable (P : Primitives)

def recoverPubkey (signature hash : Bytes) : Option Bytes :=
  match signature.getLast? with
  | none => none
  | some last =>
    let term : UInt8 := if last = 1 then 28 else 27
    P.recoverCompact (term :: signature.dropLast) hash

def pubKeyToAddress (pub : Bytes) : Address :=
  bytesToAddress ((P.keccak256 (pub.drop 1)).bytes.drop 12)

def ecrecover (sig msg : Bytes) : Option Address :=
  (recoverPubkey P sig msg).map (pubKeyToAddress P)

def keccakNil : Hash := bytesToHash (Lib.BigEndian.toBytes
  0xc5d2460186f7233c927e7db2dcc703c0e500b653ca82273b7bfad8045d85a470)

end Mainnet.Crypto
