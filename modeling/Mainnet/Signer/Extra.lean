import Mathlib.Data.Nat.Size
import Mainnet.Lib.Outcome
import Mainnet.Crypto.Basic
import Mainnet.Validators.Set

namespace Mainnet.Signer

open Types Validators Lib Rlp Outcome Option

inductive SignerError
  | wrongExtraSize (actual : ℕ)
  | rlp
  | incorrectElements (found : ℕ)
  | mismatchRLPType
  | emptyCommittedSeals
  | emptyParentCommittedSeals
  | invalidCommittedSealType
  | repeatedCommittedSeal
  | nonValidatorCommittedSeal
  | notEnoughCommittedSeals
  | invalidValidators
  | invalidValidator
  | invalidSignature
  | ecrecover
  | bls
  | invalidCommittedSealLength
  | sign
deriving DecidableEq

/-- Committed seals: one signature per validator, or one multi-signature with the bitmap of its
signers. A nil bitmap is `none`. -/
inductive Seals
  | serialized (seals : List Bytes)
  | aggregated (bitmap : Option ℕ) (signature : Bytes)
deriving DecidableEq

namespace Seals

def empty : ValidatorType → Seals
  | .ecdsa => .serialized []
  | .bls => .aggregated none []

def num : Seals → Outcome SignerError ℕ
  | .serialized seals => .ok seals.length
  -- `BitLen` of a nil `*big.Int`
  | .aggregated none _ => .panic
  | .aggregated (some bitmap) _ => .ok bitmap.size

def marshalRLPWith : Seals → Value
  | .serialized seals => .array (seals.map .bytes)
  | .aggregated bitmap signature =>
    .array [.bytes (bitmap.elim [] BigEndian.toBytes), .bytes signature]

def unmarshalRLPFrom (t : ValidatorType) (v : Value) : Outcome SignerError Seals := do
  let vals ← ofOption .mismatchRLPType (getElems v)
  match t with
  | .ecdsa => return .serialized (← ofOption .rlp (vals.mapM getBytes))
  | .bls =>
    match vals with
    | [] => return empty .bls
    | [_] => .error .mismatchRLPType
    | bitmap :: signature :: _ =>
      let rawBitMap ← ofOption .rlp (getBytes bitmap)
      let signature ← ofOption .rlp (getBytes signature)
      return .aggregated (some (BigEndian.ofBytes rawBitMap)) signature

end Seals

theorem mapM_mem {α β : Type} {f : α → Option β} {l : List α} {l' : List β}
    (h : l.mapM f = some l') : ∀ b ∈ l', ∃ a ∈ l, f a = some b := by
  induction l generalizing l' with
  | nil =>
    simp only [List.mapM_nil, pure_def, some.injEq] at h
    simp [← h]
  | cons a l ih =>
    simp only [List.mapM_cons, pure_def, bind_eq_bind, bind_eq_some_iff, some.injEq] at h
    obtain ⟨b, hb, t, ht, rfl⟩ := h
    intro c hc
    rcases List.mem_cons.mp hc with rfl | hc
    · exact ⟨a, List.mem_cons_self, hb⟩
    · obtain ⟨x, hx, hf⟩ := ih ht c hc
      exact ⟨x, List.mem_cons_of_mem _ hx, hf⟩

def marshalValidators (s : ValidatorSet) : Value :=
  .array (s.validators.map Validator.marshalRLPWith)

def unmarshalValidators (t : ValidatorType) (val : Value) : Outcome SignerError ValidatorSet :=
  match getElems val with
  | none => .error .rlp
  | some elems =>
    match h : elems.mapM (Validator.unmarshalRLPFrom t) with
    | none => .error .rlp
    | some vs => .ok ⟨t, vs, fun v hv ↦ by
        obtain ⟨x, _, hx⟩ := mapM_mem h v hv
        exact Validator.unmarshalRLPFrom_type hx⟩

structure IstanbulExtra where
  validators : ValidatorSet
  proposerSeal : Bytes
  committedSeals : Seals
  parentCommittedSeals : Option Seals
deriving DecidableEq

def istanbulExtraVanity : ℕ := 32

namespace IstanbulExtra

def marshalRLPWith (i : IstanbulExtra) : Value :=
  .array ([marshalValidators i.validators, .bytes i.proposerSeal,
    i.committedSeals.marshalRLPWith] ++ i.parentCommittedSeals.toList.map Seals.marshalRLPWith)

/-- The parent seals are read only where the caller provides an empty value of type `parent`. -/
def unmarshalRLPFrom (t : ValidatorType) (parent : Option ValidatorType) (v : Value) :
    Outcome SignerError IstanbulExtra := do
  let elems ← ofOption .rlp (getElems v)
  match elems with
  | vals :: proposer :: committed :: rest =>
    let validators ← unmarshalValidators t vals
    let proposerSeal ← ofOption .rlp (getBytes proposer)
    let committedSeals ← Seals.unmarshalRLPFrom t committed
    match rest, parent with
    | parentCommitted :: _, some p =>
      let parentCommittedSeals ← Seals.unmarshalRLPFrom p parentCommitted
      return ⟨validators, proposerSeal, committedSeals, some parentCommittedSeals⟩
    | _, _ => return ⟨validators, proposerSeal, committedSeals, parent.map Seals.empty⟩
  | elems => .error (.incorrectElements elems.length)

end IstanbulExtra

variable (P : Crypto.Primitives)

/-- Sets the extra data of the header, keeping (or padding) the vanity prefix. -/
def putIbftExtra (h : Header) (extra : IstanbulExtra) : Header :=
  let vanity := if h.extraData.length < istanbulExtraVanity
    then h.extraData ++ List.replicate (istanbulExtraVanity - h.extraData.length) 0
    else h.extraData.take istanbulExtraVanity
  { h with extraData := vanity ++ P.marshal extra.marshalRLPWith }

structure SignerImpl where
  keyManager : ValidatorType
  parentKeyManager : Option ValidatorType
deriving DecidableEq

namespace SignerImpl

variable (s : SignerImpl)

def getIBFTExtra (header : Header) : Outcome SignerError IstanbulExtra :=
  if header.extraData.length < istanbulExtraVanity then
    .error (.wrongExtraSize header.extraData.length)
  else
    let read (parent : Option ValidatorType) := do
      let v ← ofOption .rlp (P.parse (header.extraData.drop istanbulExtraVanity))
      IstanbulExtra.unmarshalRLPFrom s.keyManager parent v
    if header.number > 1 then
      match s.parentKeyManager with
      -- a method call on the nil parent key manager
      | none => .panic
      | some p => read (some p)
    else read none

def initIbftExtra (header : Header) (validators : ValidatorSet)
    (parentCommittedSeals : Option Seals) : Header :=
  putIbftExtra P header ⟨validators, [], Seals.empty s.keyManager, parentCommittedSeals⟩

def filterHeaderForHash (header : Header) : Outcome SignerError Header := do
  let extra ← s.getIBFTExtra P header
  let parentCommittedSeals ← match extra.parentCommittedSeals with
    | none => pure none
    | some seals => do
      let num ← seals.num
      pure (if num = 0 then none else some seals)
  return s.initIbftExtra P header extra.validators parentCommittedSeals

end SignerImpl

def hashedFields (h : Header) : List Value :=
  [.bytes h.parentHash.bytes, .bytes h.sha3Uncles.bytes, .bytes h.miner, .bytes h.stateRoot.bytes,
    .bytes h.txRoot.bytes, .bytes h.receiptsRoot.bytes, .bytes h.logsBloom.bytes,
    newUint h.difficulty, newUint h.number, newUint h.gasLimit,
    newUint h.gasUsed, newUint h.timestamp, .bytes h.extraData]

def calculateHeaderHash (h : Header) : Hash := P.keccak256 (P.marshal (.array (hashedFields h)))

def SignerImpl.calculateHeaderHash (s : SignerImpl) (header : Header) : Outcome SignerError Hash := do
  let filtered ← s.filterHeaderForHash P header
  return Signer.calculateHeaderHash P filtered

end Mainnet.Signer
