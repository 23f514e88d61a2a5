import Mainnet.Signer.CommittedSeals

namespace Mainnet.Signer

open Types Validators Lib List Outcome SignerImpl IstanbulExtra Rlp

/-- What a key manager does with its keys: `crypto.Sign`, and the aggregation of BLS signatures
up to the bytes of the multi-signature. -/
structure Keys where
  sign : Bytes → Option Bytes
  BlsSignature : Type
  unmarshalSignature : Bytes → Option BlsSignature
  aggregateSignatures : List BlsSignature → Option Bytes

variable (P : Crypto.Primitives) (K : Keys)

-- Errors of the callback are dropped, and the new extra data is then an empty list.
def packFieldsIntoExtra (extraBytes : Bytes) (packFn : List Value → List Value) :
    Outcome SignerError Bytes :=
  if extraBytes.length < istanbulExtraVanity then .panic
  else
    let elems := match (P.parse (extraBytes.drop istanbulExtraVanity)).bind getElems with
      | some elems => if elems.length < 3 then [] else packFn elems
      | none => []
    .ok (extraBytes.take istanbulExtraVanity ++ P.marshal (.array elems))

def packProposerSealIntoExtra (extraBytes proposerSeal : Bytes) : Outcome SignerError Bytes :=
  packFieldsIntoExtra P extraBytes fun oldValues ↦
    oldValues.take 1 ++ [.bytes proposerSeal] ++ (oldValues.drop 2).take 2

def packCommittedSealsIntoExtra (extraBytes : Bytes) (committedSeal : Seals) :
    Outcome SignerError Bytes :=
  packFieldsIntoExtra P extraBytes fun oldValues ↦
    oldValues.take 2 ++ [committedSeal.marshalRLPWith] ++ (oldValues.drop 3).take 1

def getBLSSignatures (vals : ValidatorSet) :
    List (Address × Bytes) → Outcome SignerError (List K.BlsSignature × ℕ)
  | [] => .ok ([], 0)
  | (addr, sig) :: sealMap =>
    match vals.index addr with
    | none => .error .nonValidatorCommittedSeal
    | some index => do
      let bsig ← ofOption .bls (K.unmarshalSignature sig)
      let (blsSignatures, bitMap) ← getBLSSignatures vals sealMap
      return (bsig :: blsSignatures, bitMap ||| 1 <<< index)

def istanbulExtraSeal : ℕ := 65

def generateCommittedSeals (t : ValidatorType) (sealMap : List (Address × Bytes))
    (vals : ValidatorSet) : Outcome SignerError Seals :=
  match t with
  | .ecdsa =>
    if sealMap.all fun entry ↦ entry.2.length = istanbulExtraSeal
    then .ok (.serialized (sealMap.map Prod.snd))
    else .error .invalidCommittedSealLength
  | .bls =>
    if vals.validatorType ≠ .bls then .error .invalidValidators
    else do
      let (blsSignatures, bitMap) ← getBLSSignatures K vals sealMap
      let multiSignatureBytes ← ofOption .bls (K.aggregateSignatures blsSignatures)
      return .aggregated (some bitMap) multiSignatureBytes

namespace SignerImpl

variable (s : SignerImpl)

def getValidators (header : Header) : Outcome SignerError ValidatorSet := do
  return (← s.getIBFTExtra P header).validators

def writeProposerSeal (header : Header) : Outcome SignerError Header := do
  let hash ← s.calculateHeaderHash P header
  let proposerSeal ← ofOption .sign (K.sign (P.keccak256 hash.bytes).bytes)
  let extraData ← packProposerSealIntoExtra P header.extraData proposerSeal
  return { header with extraData := extraData }

def writeCommittedSeals (header : Header) (sealMap : List (Address × Bytes)) :
    Outcome SignerError Header :=
  if sealMap = [] then .error .emptyCommittedSeals
  else do
    let validators ← s.getValidators P header
    let committedSeal ← generateCommittedSeals K s.keyManager sealMap validators
    let extraData ← packCommittedSealsIntoExtra P header.extraData committedSeal
    return { header with extraData := extraData }

end SignerImpl

section Reading

variable {P} {s : SignerImpl} {h h' : Header} {extra extra' : IstanbulExtra} {t : ValidatorType}
  {parent : Option ValidatorType} {v : Value}

def SignerImpl.parentSealType (s : SignerImpl) (number : ℕ) :
    Outcome SignerError (Option ValidatorType) :=
  if number > 1 then
    match s.parentKeyManager with
    | none => .panic
    | some p => .ok (some p)
  else .ok none

def readParentSeals (parent : Option ValidatorType) (rest : List Value) :
    Outcome SignerError (Option Seals) :=
  match rest, parent with
  | parentCommitted :: _, some p => do return some (← Seals.unmarshalRLPFrom p parentCommitted)
  | _, _ => .ok (parent.map Seals.empty)

theorem readParentSeals_take (rest : List Value) :
    readParentSeals parent (rest.take 1) = readParentSeals parent rest := by
  cases rest <;> cases parent <;> rfl

theorem getIBFTExtra_eq_ok : s.getIBFTExtra P h = .ok extra ↔
    istanbulExtraVanity ≤ h.extraData.length ∧ ∃ parent v, s.parentSealType h.number = .ok parent ∧
      P.parse (h.extraData.drop istanbulExtraVanity) = some v ∧
      unmarshalRLPFrom s.keyManager parent v = .ok extra := by
  unfold getIBFTExtra parentSealType
  by_cases hlen : h.extraData.length < istanbulExtraVanity
  · simp only [if_pos hlen, reduceCtorEq, false_iff, not_and]
    exact fun hle ↦ absurd hlen (not_lt.mpr hle)
  simp only [if_neg hlen, not_lt.mp hlen, true_and]
  by_cases hnumber : h.number > 1
  · simp only [if_pos hnumber]
    cases s.parentKeyManager with
    | none => simp
    | some p => simp [bind_eq_ok, ofOption_eq_ok]
  · simp [if_neg hnumber, bind_eq_ok, ofOption_eq_ok]

theorem unmarshalRLPFrom_eq_ok : unmarshalRLPFrom t parent v = .ok extra ↔
    ∃ vals proposer committed rest, v = .array (vals :: proposer :: committed :: rest) ∧
      unmarshalValidators t vals = .ok extra.validators ∧
      getBytes proposer = some extra.proposerSeal ∧
      Seals.unmarshalRLPFrom t committed = .ok extra.committedSeals ∧
      readParentSeals parent rest = .ok extra.parentCommittedSeals := by
  cases v with
  | bytes b => simp [unmarshalRLPFrom, getElems, bind_eq_ok, ofOption_eq_ok]
  | array elems =>
    rcases elems with _ | ⟨vals, _ | ⟨proposer, _ | ⟨committed, rest⟩⟩⟩
    iterate 3 · simp [unmarshalRLPFrom, getElems, ofOption]
    · obtain ⟨validators, proposerSeal, committedSeals, parentCommittedSeals⟩ := extra
      cases rest <;> cases parent <;>
        simp [unmarshalRLPFrom, getElems, readParentSeals, bind_eq_ok, ofOption_eq_ok]

end Reading

section Writing

variable {P K} {s : SignerImpl} {h h' header header' : Header} {extra extra' : IstanbulExtra}
  {body : Bytes}

structure Reseals (P : Crypto.Primitives) (s : SignerImpl) (h h' : Header)
    (extra extra' : IstanbulExtra) : Prop where
  before : s.getIBFTExtra P h = .ok extra
  after : s.getIBFTExtra P h' = .ok extra'
  vanity : h'.extraData.take istanbulExtraVanity = h.extraData.take istanbulExtraVanity
  header : h' = { h with extraData := h'.extraData }

theorem packFieldsIntoExtra_eq {elems : List Value} (packFn : List Value → List Value)
    (hlen : istanbulExtraVanity ≤ body.length)
    (hparse : P.parse (body.drop istanbulExtraVanity) = some (.array elems))
    (hthree : 3 ≤ elems.length) : packFieldsIntoExtra P body packFn =
      .ok (body.take istanbulExtraVanity ++ P.marshal (.array (packFn elems))) := by
  unfold packFieldsIntoExtra
  rw [if_neg (not_lt.mpr hlen), hparse]
  simp only [Option.bind_some, getElems, if_neg (not_lt.mpr hthree)]

theorem reseals_of_body (hP : P.Faithful) {parent : Option ValidatorType} {v : Value}
    (hbefore : s.getIBFTExtra P h = .ok extra) (hparent : s.parentSealType h.number = .ok parent)
    (hread : unmarshalRLPFrom s.keyManager parent v = .ok extra') :
    Reseals P s h { h with
      extraData := h.extraData.take istanbulExtraVanity ++ P.marshal v } extra extra' := by
  have hlen : istanbulExtraVanity ≤ h.extraData.length := (getIBFTExtra_eq_ok.mp hbefore).1
  have htake : (h.extraData.take istanbulExtraVanity).length = istanbulExtraVanity :=
    length_take_of_le hlen
  refine ⟨hbefore, getIBFTExtra_eq_ok.mpr ⟨?_, parent, v, hparent, ?_, hread⟩, ?_, rfl⟩
  · rw [length_append, htake]
    exact Nat.le_add_right _ _
  · rw [drop_left' htake]
    exact hP.parse_marshal v
  · exact take_left' htake

theorem writeProposerSeal_reseals (hP : P.Faithful) (hwrite : s.writeProposerSeal P K h = .ok h') :
    ∃ extra proposerSeal, Reseals P s h h' extra { extra with proposerSeal := proposerSeal } := by
  simp only [SignerImpl.writeProposerSeal, SignerImpl.calculateHeaderHash,
    SignerImpl.filterHeaderForHash, bind_eq_ok] at hwrite
  obtain ⟨_, ⟨_, ⟨extra, hextra, _⟩, _⟩, proposerSeal, _, extraData, hpack, heq⟩ := hwrite
  obtain ⟨hlen, parent, v, hparent, hparse, hread⟩ := getIBFTExtra_eq_ok.mp hextra
  obtain ⟨vals, proposer, committed, rest, rfl, hvals, _, hcommitted, hrest⟩ :=
    unmarshalRLPFrom_eq_ok.mp hread
  rw [packProposerSealIntoExtra, packFieldsIntoExtra_eq _ hlen hparse (by simp)] at hpack
  cases hpack
  cases heq
  refine ⟨extra, proposerSeal, reseals_of_body hP hextra hparent (unmarshalRLPFrom_eq_ok.mpr ?_)⟩
  refine ⟨vals, .bytes proposerSeal, committed, rest.take 1, rfl, hvals, rfl, hcommitted, ?_⟩
  rw [readParentSeals_take]
  exact hrest

theorem mapM_getBytes (seals : List Bytes) :
    (seals.map Rlp.Item.bytes).mapM getBytes = some seals := by
  induction seals with
  | nil => rfl
  | cons sig seals ih => simp [getBytes, ih]

variable {sealMap : List (Address × Bytes)} {seals : Seals}

theorem unmarshal_marshal_generated {vals : ValidatorSet}
    {t : ValidatorType} (hgen : generateCommittedSeals K t sealMap vals = .ok seals) :
    Seals.unmarshalRLPFrom t seals.marshalRLPWith = .ok seals := by
  cases t with
  | ecdsa =>
    simp only [generateCommittedSeals] at hgen
    split at hgen
    · cases hgen
      generalize sealMap.map Prod.snd = sigs
      simp only [Seals.unmarshalRLPFrom, Seals.marshalRLPWith, getElems, mapM_getBytes,
        ofOption, ok_bind, pure_eq]
    · cases hgen
  | bls =>
    simp only [generateCommittedSeals] at hgen
    split at hgen
    · cases hgen
    simp only [bind_eq_ok] at hgen
    obtain ⟨⟨signatures, bitMap⟩, _, bytes, _, heq⟩ := hgen
    cases heq
    simp [Seals.unmarshalRLPFrom, Seals.marshalRLPWith, getElems, getBytes,
      ofOption, BigEndian.ofBytes_toBytes]

theorem writeCommittedSeals_of_generated (hP : P.Faithful) (hne : sealMap ≠ [])
    (hextra : s.getIBFTExtra P h = .ok extra)
    (hgen : generateCommittedSeals K s.keyManager sealMap extra.validators = .ok seals) :
    ∃ h', s.writeCommittedSeals P K h sealMap = .ok h' ∧
      Reseals P s h h' extra { extra with committedSeals := seals } := by
  obtain ⟨hlen, parent, v, hparent, hparse, hread⟩ := getIBFTExtra_eq_ok.mp hextra
  obtain ⟨vals, proposer, committed, rest, rfl, hvals, hproposer, _, hrest⟩ :=
    unmarshalRLPFrom_eq_ok.mp hread
  simp only [writeCommittedSeals, if_neg hne, getValidators, hextra,
    ok_bind, pure_eq, hgen, packCommittedSealsIntoExtra,
    packFieldsIntoExtra_eq _ hlen hparse (by simp : 3 ≤ (vals :: proposer :: committed :: rest).length)]
  refine ⟨_, rfl, reseals_of_body hP hextra hparent (unmarshalRLPFrom_eq_ok.mpr ?_)⟩
  refine ⟨vals, proposer, seals.marshalRLPWith, rest.take 1, rfl, hvals, hproposer,
    unmarshal_marshal_generated hgen, ?_⟩
  rw [readParentSeals_take]
  exact hrest

theorem writeCommittedSeals_reseals (hP : P.Faithful)
    (hwrite : s.writeCommittedSeals P K h sealMap = .ok h') :
    ∃ extra seals, Reseals P s h h' extra { extra with committedSeals := seals } := by
  have hne : sealMap ≠ [] := by
    rintro rfl
    cases hwrite
  have hparts := hwrite
  simp only [writeCommittedSeals, if_neg hne, getValidators, bind_eq_ok] at hparts
  obtain ⟨_, ⟨extra, hextra, hvalidators⟩, seals, hgen, _⟩ := hparts
  cases hvalidators
  obtain ⟨h'', hwrite', hreseals⟩ := writeCommittedSeals_of_generated hP hne hextra hgen
  rw [hwrite] at hwrite'
  cases hwrite'
  exact ⟨extra, seals, hreseals⟩

theorem Reseals.putIbftExtra_eq (h : Reseals P s header header' extra extra') (e : IstanbulExtra) :
    putIbftExtra P header' e = putIbftExtra P header e := by
  obtain ⟨hbefore, hafter, hvanity, hheader⟩ := h
  obtain ⟨extraData, rfl⟩ : ∃ extraData, header' = { header with extraData := extraData } :=
    ⟨_, hheader⟩
  have hlen := (getIBFTExtra_eq_ok.mp hbefore).1
  have hlen' := (getIBFTExtra_eq_ok.mp hafter).1
  simp only [putIbftExtra, if_neg (not_lt.mpr hlen), if_neg (not_lt.mpr hlen'), hvanity]

theorem Reseals.calculateHeaderHash_eq (h : Reseals P s header header' extra extra')
    (hvalidators : extra'.validators = extra.validators)
    (hparent : extra'.parentCommittedSeals = extra.parentCommittedSeals) :
    s.calculateHeaderHash P header' = s.calculateHeaderHash P header := by
  simp only [SignerImpl.calculateHeaderHash, SignerImpl.filterHeaderForHash,
    SignerImpl.initIbftExtra, h.before, h.after, ok_bind, hvalidators, hparent,
    h.putIbftExtra_eq]

inductive SignerImpl.WritesSeal (P : Crypto.Primitives) (K : Keys) (s : SignerImpl) :
    Header → Header → Prop
  | proposer {header header' : Header} :
    s.writeProposerSeal P K header = .ok header' → WritesSeal P K s header header'
  | committed {header header' : Header} (sealMap : List (Address × Bytes)) :
    s.writeCommittedSeals P K header sealMap = .ok header' → WritesSeal P K s header header'

theorem SignerImpl.WritesSeal.calculateHeaderHash_eq (hP : P.Faithful)
    (h : s.WritesSeal P K header header') :
    s.calculateHeaderHash P header' = s.calculateHeaderHash P header := by
  cases h with
  | proposer hwrite =>
    obtain ⟨extra, proposerSeal, hreseals⟩ := writeProposerSeal_reseals hP hwrite
    exact hreseals.calculateHeaderHash_eq rfl rfl
  | committed sealMap hwrite =>
    obtain ⟨extra, seals, hreseals⟩ := writeCommittedSeals_reseals hP hwrite
    exact hreseals.calculateHeaderHash_eq rfl rfl

/-- However often and in whatever order the seals are written, the hash stays, and each write
replaces its own field of the extra data and nothing else. -/
theorem sealing_keeps_identity (hP : P.Faithful) {hash : Hash}
    (hhash : s.calculateHeaderHash P header = .ok hash)
    (hseals : Relation.ReflTransGen (s.WritesSeal P K) header header') :
    s.calculateHeaderHash P header' = .ok hash ∧
      (∀ header'', s.writeProposerSeal P K header' = .ok header'' →
        ∃ extra proposerSeal,
          Reseals P s header' header'' extra { extra with proposerSeal := proposerSeal }) ∧
      ∀ sealMap header'', s.writeCommittedSeals P K header' sealMap = .ok header'' →
        ∃ extra seals, Reseals P s header' header'' extra { extra with committedSeals := seals } := by
  refine ⟨?_, fun _ ↦ writeProposerSeal_reseals hP, fun _ _ ↦ writeCommittedSeals_reseals hP⟩
  induction hseals with
  | refl => exact hhash
  | tail _ hseals ih => exact (hseals.calculateHeaderHash_eq hP).trans ih

end Writing

noncomputable def sealingPrimitives : Crypto.Primitives :=
  { soloPrimitives with
    marshal := Rlp.print
    parse := Rlp.parse
    keccak256 := fun b ↦ bytesToHash <| BigEndian.toBytes <|
      if b.length = 492 then 0xc15f2cb0a1127df3f0c12cac6c0fe07c4e5cef4b7e54bf533f63d4e702e3b5de
      else 0xd38d586e3d1835aa513a1e7b005f2f031834c1210faa1fde58ecb9bebe9c898f }

def soloProposerSeal : Bytes := BigEndian.toBytes
  0xba17e7b9087c645ec17c5a91dbd88dfff3fa8c0ea70d64de42fcadc11e36ab436aeacd2dbd69d16f24c908962ec4ecb9a94d7e4f2b35cf9057a19ed458e5fb1200

def sealingKeys : Keys where
  sign _ := some soloProposerSeal
  BlsSignature := Unit
  unmarshalSignature _ := none
  aggregateSignatures _ := none

def unsealedExtra : IstanbulExtra := ⟨soloSet, [], .serialized [], none⟩

def headerOf (extra : IstanbulExtra) : Header :=
  { (default : Header) with
    number := 1
    extraData := List.replicate 32 0 ++ Rlp.print extra.marshalRLPWith }

def unsealedHeader : Header := headerOf unsealedExtra

theorem unsealedHeader_parse :
    sealingPrimitives.parse (unsealedHeader.extraData.drop istanbulExtraVanity) =
      some unsealedExtra.marshalRLPWith :=
  rlpCodec_faithful.parse_marshal unsealedExtra.marshalRLPWith

theorem unsealedHeader_extra :
    soloSigner.getIBFTExtra sealingPrimitives unsealedHeader = .ok unsealedExtra := by
  refine getIBFTExtra_eq_ok.mpr ⟨by decide +kernel, none, unsealedExtra.marshalRLPWith, rfl, ?_⟩
  exact ⟨unsealedHeader_parse, by decide +kernel⟩

theorem unsealedHeader_hash :
    soloSigner.calculateHeaderHash sealingPrimitives unsealedHeader = .ok soloHashA := by
  simp only [SignerImpl.calculateHeaderHash, SignerImpl.filterHeaderForHash, unsealedHeader_extra,
    ok_bind]
  decide +kernel

theorem sealing_keeps_identity_solo :
    soloSigner.writeProposerSeal sealingPrimitives sealingKeys unsealedHeader =
        .ok (headerOf { unsealedExtra with proposerSeal := soloProposerSeal }) ∧
      soloSigner.calculateHeaderHash sealingPrimitives
        (headerOf { unsealedExtra with proposerSeal := soloProposerSeal }) = .ok soloHashA := by
  have hlen : istanbulExtraVanity ≤ unsealedHeader.extraData.length := by decide +kernel
  have hwrite : soloSigner.writeProposerSeal sealingPrimitives sealingKeys unsealedHeader =
      .ok (headerOf { unsealedExtra with proposerSeal := soloProposerSeal }) := by
    simp only [writeProposerSeal, unsealedHeader_hash, ok_bind, sealingKeys,
      ofOption, packProposerSealIntoExtra]
    rw [packFieldsIntoExtra_eq _ hlen unsealedHeader_parse (by decide)]
    decide +kernel
  exact ⟨hwrite, (sealing_keeps_identity rlpCodec_faithful unsealedHeader_hash
    (.single (.proposer hwrite))).1⟩

end Mainnet.Signer
