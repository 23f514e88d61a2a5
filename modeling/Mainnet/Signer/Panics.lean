import Mainnet.Signer.Sealing

namespace Mainnet.Signer

open Types Validators Lib List Outcome Seals IstanbulExtra Rlp SignerImpl

variable (P : Crypto.Primitives)

def IstanbulExtra.unmarshalRLPFromForParentCS (t : ValidatorType) (v : Value) :
    Outcome SignerError Seals := do
  let elems ← ofOption .rlp (getElems v)
  match elems with
  | _ :: _ :: _ :: parentCommitted :: _ => Seals.unmarshalRLPFrom t parentCommitted
  | _ => return Seals.empty t

namespace SignerImpl

variable (s : SignerImpl)

def ecrecoverFromHeader (header : Header) : Outcome SignerError Address := do
  let extra ← s.getIBFTExtra P header
  ofOption .ecrecover (Crypto.ecrecover P extra.proposerSeal (P.keccak256 header.hash.bytes).bytes)

-- The seals are read with the signer's own key manager, whatever the type of the parent's is.
def getParentCommittedSeals (header : Header) : Outcome SignerError Seals :=
  if header.extraData.length < istanbulExtraVanity then
    .error (.wrongExtraSize header.extraData.length)
  else do
    let v ← ofOption .rlp (P.parse (header.extraData.drop istanbulExtraVanity))
    unmarshalRLPFromForParentCS s.keyManager v

def verifyParentCommittedSeals (parent header : Header) (parentValidators : ValidatorSet)
    (quorum : ℕ) (mustExist : Bool) : Outcome SignerError Unit := do
  let parentCommittedSeals ← s.getParentCommittedSeals P header
  let num ← parentCommittedSeals.num
  if num = 0 then
    if mustExist then .error .emptyParentCommittedSeals else return ()
  else
    let numSeals ← keyManagerVerifyCommittedSeals P s.keyManager parentCommittedSeals
      (commitDigest P parent.hash) parentValidators
    if numSeals < quorum then .error .notEnoughCommittedSeals else return ()

end SignerImpl

def OmitsParentSeals : Value → Prop
  | .bytes _ => False
  | .array elems => ∀ parentCommitted ∈ elems[3]?, parentCommitted = .array []

def ValidatorShape : ValidatorType → Value → Prop
  | .ecdsa, v => ∃ addr, addr.length = 20 ∧ v = .bytes addr
  | .bls, v => ∃ addr key rest, addr.length = 20 ∧ v = .array (.bytes addr :: .bytes key :: rest)

def SealsShape : ValidatorType → Value → Prop
  | .ecdsa, v => ∃ sigs : List Bytes, v = .array (sigs.map .bytes)
  | .bls, v => v = .array [] ∨ ∃ bitmap sig rest, v = .array (.bytes bitmap :: .bytes sig :: rest)

def Legible (t : ValidatorType) (v : Value) : Prop :=
  ∃ vals proposer committed rest,
    v = .array (.array vals :: .bytes proposer :: committed :: rest) ∧
      (∀ val ∈ vals, ValidatorShape t val) ∧ SealsShape t committed

/-- No nil is reached: the parent's key manager exists where it is asked, and the parent's seals
are there where a BLS key manager counts them. -/
structure SignerImpl.Spared (s : SignerImpl) (header : Header) : Prop where
  parent : header.number > 1 → s.parentKeyManager ≠ none
  hashed : header.number > 1 → s.parentKeyManager = some .bls →
    ∀ v, P.parse (header.extraData.drop istanbulExtraVanity) = some v →
      Legible s.keyManager v → ¬OmitsParentSeals v
  verified : s.keyManager = .bls →
    ∀ v, P.parse (header.extraData.drop istanbulExtraVanity) = some v → ¬OmitsParentSeals v

section Decoding

variable {t : ValidatorType} {v : Value} {seals : Seals}

theorem unmarshalValidators_ne_panic : unmarshalValidators t v ≠ .panic := by
  unfold unmarshalValidators
  split
  · simp
  · split <;> simp

theorem mapM_isSome {α β : Type} {f : α → Option β} {l : List α} :
    (l.mapM f).isSome ↔ ∀ a ∈ l, (f a).isSome := by
  induction l with
  | nil => simp
  | cons a l ih =>
    simp only [mapM_cons, forall_mem_cons, ← ih]
    cases f a <;> cases l.mapM f <;> simp

theorem getAddr_isSome {addr : Bytes} : (getAddr (.bytes addr)).isSome ↔ addr.length = 20 := by
  simp only [getAddr]
  split_ifs with h <;> simp [h]

theorem unmarshalValidator_isSome :
    (Validator.unmarshalRLPFrom t v).isSome ↔ ValidatorShape t v := by
  cases t with
  | ecdsa =>
    rw [Validator.unmarshalRLPFrom, Option.isSome_map]
    cases v with
    | bytes b => simp [getAddr_isSome, ValidatorShape]
    | array elems => simp [getAddr, ValidatorShape]
  | bls =>
    rcases v with b | _ | ⟨a, _ | ⟨k, rest⟩⟩
    · simp [Validator.unmarshalRLPFrom, getElems, ValidatorShape]
    · simp [Validator.unmarshalRLPFrom, getElems, ValidatorShape]
    · simp [Validator.unmarshalRLPFrom, getElems, ValidatorShape]
    · cases a with
      | array elems => simp [Validator.unmarshalRLPFrom, getElems, getAddr, ValidatorShape]
      | bytes addr =>
        cases k with
        | array elems => simp [Validator.unmarshalRLPFrom, getElems, getBytes, ValidatorShape]
        | bytes key =>
          have hshape : ValidatorShape .bls (.array (.bytes addr :: .bytes key :: rest)) ↔
              addr.length = 20 := by
            simp [ValidatorShape]
          rw [hshape, ← getAddr_isSome]
          cases hget : getAddr (.bytes addr) <;>
            simp [Validator.unmarshalRLPFrom, getElems, getBytes, hget]

theorem unmarshalValidators_ok_iff : (∃ set, unmarshalValidators t v = .ok set) ↔
    ∃ vals, v = .array vals ∧ ∀ val ∈ vals, ValidatorShape t val := by
  cases v with
  | bytes b => simp [unmarshalValidators, getElems]
  | array elems =>
    simp only [← unmarshalValidator_isSome, Lib.Rlp.Item.array.injEq, exists_eq_left', ← mapM_isSome]
    simp only [unmarshalValidators, getElems]
    split
    · rename_i h
      simp [h]
    · rename_i h
      simp [h]

theorem mapM_getBytes_eq_some {elems : List Value} {sigs : List Bytes} :
    elems.mapM getBytes = some sigs ↔ elems = sigs.map .bytes := by
  constructor
  · intro h
    induction elems generalizing sigs with
    | nil =>
      cases h
      rfl
    | cons elem elems ih =>
      simp only [mapM_cons, Option.bind_eq_bind, Option.bind_eq_some_iff, Option.pure_def,
        Option.some.injEq] at h
      obtain ⟨sig, hsig, rest, hrest, rfl⟩ := h
      cases elem with
      | bytes b =>
        cases hsig
        rw [ih hrest]
        rfl
      | array l => cases hsig
  · rintro rfl
    exact mapM_getBytes sigs

theorem Seals.unmarshalRLPFrom_ok_iff : (∃ seals, unmarshalRLPFrom t v = .ok seals) ↔
    SealsShape t v := by
  cases v with
  | bytes b =>
    cases t <;> simp [unmarshalRLPFrom, getElems, SealsShape, bind_eq_ok, ofOption_eq_ok]
  | array elems =>
    simp only [unmarshalRLPFrom, getElems, bind_eq_ok, ofOption_eq_ok]
    cases t with
    | ecdsa =>
      simp [bind_eq_ok, ofOption_eq_ok, mapM_getBytes_eq_some, SealsShape]
    | bls =>
      rcases elems with _ | ⟨bitmap, _ | ⟨signature, rest⟩⟩
      · simp [SealsShape]
      · simp [SealsShape]
      · cases bitmap <;> cases signature <;> simp [getBytes, bind_eq_ok, ofOption_eq_ok, SealsShape]

theorem Seals.unmarshalRLPFrom_ne_panic : unmarshalRLPFrom t v ≠ .panic := by
  intro h
  cases v with
  | bytes b => cases h
  | array elems =>
    simp only [unmarshalRLPFrom, getElems, ofOption, ok_bind] at h
    cases t with
    | ecdsa => simp [bind_eq_panic, ← ofOption.eq_def] at h
    | bls =>
      rcases elems with _ | ⟨bitmap, _ | ⟨signature, rest⟩⟩
      · cases h
      · cases h
      · simp [bind_eq_panic, ← ofOption.eq_def] at h

theorem Seals.num_empty : (empty t).num = .panic ↔ t = .bls := by
  cases t <;> simp [empty, num]

theorem num_unmarshalRLPFrom (h : unmarshalRLPFrom t v = .ok seals) :
    seals.num = .panic ↔ t = .bls ∧ v = .array [] := by
  cases v with
  | bytes b => cases h
  | array elems =>
    simp only [Seals.unmarshalRLPFrom, getElems, ofOption, ok_bind] at h
    cases t with
    | ecdsa =>
      obtain ⟨sigs, -, hseals⟩ := bind_eq_ok.mp h
      cases hseals
      simp [num]
    | bls =>
      rcases elems with _ | ⟨bitmap, _ | ⟨signature, rest⟩⟩
      · cases h
        simp [empty, num]
      · cases h
      · obtain ⟨rawBitMap, -, h⟩ := bind_eq_ok.mp h
        obtain ⟨sig, -, hseals⟩ := bind_eq_ok.mp h
        cases hseals
        simp [num]

theorem IstanbulExtra.unmarshalRLPFrom_ne_panic {parent : Option ValidatorType} :
    unmarshalRLPFrom t parent v ≠ .panic := by
  cases v with
  | bytes b => simp [unmarshalRLPFrom, getElems, bind_eq_panic, ofOption]
  | array elems =>
    rcases elems with _ | ⟨vals, _ | ⟨proposer, _ | ⟨committed, rest⟩⟩⟩
    iterate 3 · simp [unmarshalRLPFrom, getElems, ofOption]
    · cases rest <;> cases parent <;>
        simp [unmarshalRLPFrom, getElems, bind_eq_panic,
          ofOption_eq_ok, unmarshalValidators_ne_panic, unmarshalRLPFrom_ne_panic]

theorem IstanbulExtra.unmarshalRLPFromForParentCS_ne_panic :
    unmarshalRLPFromForParentCS t v ≠ .panic := by
  intro h
  rcases bind_eq_panic.mp h with h | ⟨elems, -, h⟩
  · exact ofOption_ne_panic h
  · split at h
    · exact Seals.unmarshalRLPFrom_ne_panic h
    · cases h

theorem uncounted_iff : (∃ seals, unmarshalRLPFromForParentCS t v = .ok seals ∧
    seals.num = .panic) ↔ t = .bls ∧ OmitsParentSeals v := by
  cases v with
  | bytes b => simp [unmarshalRLPFromForParentCS, getElems, bind_eq_ok,
      ofOption_eq_ok, OmitsParentSeals]
  | array elems =>
    simp only [unmarshalRLPFromForParentCS, getElems, ofOption, ok_bind]
    rcases elems with _ | ⟨vals, _ | ⟨proposer, _ | ⟨committed, _ | ⟨parentCommitted, rest⟩⟩⟩⟩
    iterate 4 · simp [num_empty, OmitsParentSeals]
    · have homits : OmitsParentSeals
          (.array (vals :: proposer :: committed :: parentCommitted :: rest)) ↔
          parentCommitted = .array [] := by
        simp [OmitsParentSeals]
      rw [homits]
      constructor
      · rintro ⟨seals, hread, hnum⟩
        exact (num_unmarshalRLPFrom hread).mp hnum
      · rintro ⟨rfl, rfl⟩
        exact ⟨.aggregated none [], rfl, rfl⟩

theorem readParentSeals_eq_ok {vals proposer committed : Value} {rest : List Value} :
    readParentSeals (some t) rest = .ok (some seals) ↔ unmarshalRLPFromForParentCS t
      (.array (vals :: proposer :: committed :: rest)) = .ok seals := by
  cases rest <;> simp [readParentSeals, unmarshalRLPFromForParentCS, getElems,
    bind_eq_ok, ofOption_eq_ok]

end Decoding

section Panics

variable {P} {s : SignerImpl} {header : Header}

theorem getIBFTExtra_eq_panic : s.getIBFTExtra P header = .panic ↔
    istanbulExtraVanity ≤ header.extraData.length ∧ header.number > 1 ∧
      s.parentKeyManager = none := by
  unfold getIBFTExtra
  by_cases hlen : header.extraData.length < istanbulExtraVanity
  · simp only [if_pos hlen, reduceCtorEq, false_iff, not_and]
    exact fun hle ↦ absurd hlen (not_lt.mpr hle)
  simp only [if_neg hlen, not_lt.mp hlen, true_and]
  by_cases hnumber : header.number > 1
  · simp only [hnumber, true_and]
    cases s.parentKeyManager with
    | none => simp
    | some p => simp [bind_eq_panic, IstanbulExtra.unmarshalRLPFrom_ne_panic]
  · simp [hnumber, bind_eq_panic, IstanbulExtra.unmarshalRLPFrom_ne_panic]

theorem parentSealType_eq_some {number : ℕ} {p : ValidatorType} :
    s.parentSealType number = .ok (some p) ↔ number > 1 ∧ s.parentKeyManager = some p := by
  unfold parentSealType
  by_cases hnumber : number > 1
  · cases s.parentKeyManager <;> simp [hnumber]
  · simp [hnumber]

theorem getIBFTExtra_uncounted : (∃ extra seals, s.getIBFTExtra P header = .ok extra ∧
    extra.parentCommittedSeals = some seals ∧ seals.num = .panic) ↔
      istanbulExtraVanity ≤ header.extraData.length ∧ header.number > 1 ∧
        s.parentKeyManager = some .bls ∧
        ∃ v, P.parse (header.extraData.drop istanbulExtraVanity) = some v ∧
          Legible s.keyManager v ∧ OmitsParentSeals v := by
  constructor
  · rintro ⟨extra, seals, hextra, hseals, hnum⟩
    obtain ⟨hlen, parent, v, hparent, hparse, hread⟩ := getIBFTExtra_eq_ok.mp hextra
    obtain ⟨vals, proposer, committed, rest, rfl, hvals, hproposer, hcommitted, hrest⟩ :=
      unmarshalRLPFrom_eq_ok.mp hread
    rw [hseals] at hrest
    cases parent with
    | none => cases rest <;> simp [readParentSeals] at hrest
    | some p =>
      obtain ⟨hnumber, hkey⟩ := parentSealType_eq_some.mp hparent
      obtain ⟨rfl, homits⟩ := uncounted_iff.mp ⟨seals, readParentSeals_eq_ok.mp hrest, hnum⟩
      refine ⟨hlen, hnumber, hkey, _, hparse, ?_, homits⟩
      cases proposer with
      | array elems => cases hproposer
      | bytes b =>
        obtain ⟨vals', rfl, hshape⟩ := unmarshalValidators_ok_iff.mp ⟨_, hvals⟩
        exact ⟨vals', b, committed, rest, rfl, hshape, unmarshalRLPFrom_ok_iff.mp ⟨_, hcommitted⟩⟩
  · rintro ⟨hlen, hnumber, hkey, v, hparse, hlegible, homits⟩
    obtain ⟨vals, b, committed, rest, rfl, hshape, hseals⟩ := hlegible
    obtain ⟨set, hvals⟩ := unmarshalValidators_ok_iff.mpr ⟨vals, rfl, hshape⟩
    obtain ⟨committedSeals, hcommitted⟩ := unmarshalRLPFrom_ok_iff.mpr hseals
    obtain ⟨seals, hread, hnum⟩ := uncounted_iff.mpr ⟨rfl, homits⟩
    refine ⟨⟨set, b, committedSeals, some seals⟩, seals, getIBFTExtra_eq_ok.mpr ?_, rfl, hnum⟩
    refine ⟨hlen, some .bls, _, parentSealType_eq_some.mpr ⟨hnumber, hkey⟩, hparse, ?_⟩
    exact unmarshalRLPFrom_eq_ok.mpr ⟨.array vals, .bytes b, committed, rest, rfl, hvals, rfl,
      hcommitted, readParentSeals_eq_ok.mpr hread⟩

theorem calculateHeaderHash_eq_panic : s.calculateHeaderHash P header = .panic ↔
    s.getIBFTExtra P header = .panic ∨ ∃ extra seals, s.getIBFTExtra P header = .ok extra ∧
      extra.parentCommittedSeals = some seals ∧ seals.num = .panic := by
  simp only [SignerImpl.calculateHeaderHash, SignerImpl.filterHeaderForHash, bind_eq_panic,
    pure_eq, reduceCtorEq, and_false, exists_false, or_false]
  refine or_congr_right (exists_congr fun extra ↦ ?_)
  cases extra.parentCommittedSeals with
  | none => simp
  | some seals => simp [bind_eq_panic]

variable {digest : Bytes} {vals : ValidatorSet}

theorem recoverSealers_ne_panic {sigs : List Bytes}
    {visited : List Address} : recoverSealers P digest vals sigs visited ≠ .panic := by
  induction sigs generalizing visited with
  | nil => simp [recoverSealers]
  | cons sig sigs ih =>
    rw [recoverSealers]
    split
    · simp
    · split_ifs
      · simp
      · simp
      · exact ih

theorem collectPubkeys_ne_panic {bitmap idx : ℕ} {vs : List Validator} :
    collectPubkeys P bitmap idx vs ≠ .panic := by
  induction vs generalizing idx with
  | nil => simp [collectPubkeys]
  | cons v vs ih =>
    unfold collectPubkeys
    split_ifs
    · cases v with
      | ecdsa a => simp
      | bls a k => simp [bind_eq_panic, ih]
    · exact ih

theorem verifyBLSCommittedSealsImpl_ne_panic {bitmap : Option ℕ} {signature : Bytes} :
    verifyBLSCommittedSealsImpl P bitmap signature digest vals ≠ .panic := by
  cases bitmap with
  | none => simp [verifyBLSCommittedSealsImpl]
  | some bits =>
    simp only [verifyBLSCommittedSealsImpl]
    split_ifs
    · simp
    · simp [bind_eq_panic, createAggregatedBLSPubKeys, collectPubkeys_ne_panic]

theorem keyManagerVerifyCommittedSeals_ne_panic {t : ValidatorType} {seals : Seals} :
    keyManagerVerifyCommittedSeals P t seals digest vals ≠ .panic := by
  cases t <;> cases seals <;> simp only [keyManagerVerifyCommittedSeals]
  · split_ifs
    · simp
    · unfold verifyCommittedSealsImpl
      split_ifs
      · simp
      · simp [bind_eq_panic, recoverSealers_ne_panic]
  · simp
  · simp
  · split_ifs
    · simp
    · exact verifyBLSCommittedSealsImpl_ne_panic

theorem ite_error_ne_panic {c : Prop} [Decidable c] {e : SignerError} :
    (if c then .error e else pure () : Outcome SignerError Unit) ≠ .panic := by
  split_ifs <;> simp

theorem verifyCommittedSeals_eq_panic {quorumSize : ℕ} :
    s.verifyCommittedSeals P header vals quorumSize = .panic ↔
      s.calculateHeaderHash P header = .panic := by
  simp only [verifyCommittedSeals, bind_eq_panic, ite_error_ne_panic,
    keyManagerVerifyCommittedSeals_ne_panic, and_false, exists_false, or_false]
  constructor
  · rintro (h | ⟨extra, -, h⟩)
    · exact calculateHeaderHash_eq_panic.mpr (.inl h)
    · exact h
  · intro h
    rcases calculateHeaderHash_eq_panic.mp h with h' | ⟨extra, seals, hextra, -⟩
    · exact .inl h'
    · exact .inr ⟨extra, hextra, h⟩

theorem getParentCommittedSeals_uncounted :
    (∃ seals, s.getParentCommittedSeals P header = .ok seals ∧ seals.num = .panic) ↔
      istanbulExtraVanity ≤ header.extraData.length ∧ s.keyManager = .bls ∧
        ∃ v, P.parse (header.extraData.drop istanbulExtraVanity) = some v ∧
          OmitsParentSeals v := by
  unfold getParentCommittedSeals
  by_cases hlen : header.extraData.length < istanbulExtraVanity
  · simp [if_pos hlen, not_le.mpr hlen]
  · simp only [if_neg hlen, not_lt.mp hlen, true_and, bind_eq_ok, ofOption_eq_ok]
    constructor
    · rintro ⟨seals, ⟨v, hparse, hread⟩, hnum⟩
      obtain ⟨ht, homits⟩ := uncounted_iff.mp ⟨seals, hread, hnum⟩
      exact ⟨ht, v, hparse, homits⟩
    · rintro ⟨ht, v, hparse, homits⟩
      obtain ⟨seals, hread, hnum⟩ := uncounted_iff.mpr ⟨ht, homits⟩
      exact ⟨seals, ⟨v, hparse, hread⟩, hnum⟩

theorem getParentCommittedSeals_ne_panic : s.getParentCommittedSeals P header ≠ .panic := by
  unfold getParentCommittedSeals
  split_ifs
  · simp
  · simp [bind_eq_panic, unmarshalRLPFromForParentCS_ne_panic]

theorem verifyParentCommittedSeals_eq_panic {parent : Header} {parentValidators : ValidatorSet}
    {quorum : ℕ} {mustExist : Bool} :
    s.verifyParentCommittedSeals P parent header parentValidators quorum mustExist = .panic ↔
      ∃ seals, s.getParentCommittedSeals P header = .ok seals ∧ seals.num = .panic := by
  simp only [verifyParentCommittedSeals, bind_eq_panic, getParentCommittedSeals_ne_panic, false_or]
  refine exists_congr fun seals ↦ and_congr_right fun _ ↦ or_iff_left ?_
  rintro ⟨num, -, h⟩
  split_ifs at h
  rcases bind_eq_panic.mp h with h | ⟨numSeals, -, h⟩
  · exact keyManagerVerifyCommittedSeals_ne_panic h
  · exact ite_error_ne_panic h

/-- The five readers of a header panic on none that is spared, and one of them panics on every
other. -/
theorem header_panics_iff (P : Crypto.Primitives) (s : SignerImpl) (parent header : Header)
    (vals parentVals : ValidatorSet) (quorum parentQuorum : ℕ) (mustExist : Bool) :
    (s.getIBFTExtra P header ≠ .panic ∧ s.calculateHeaderHash P header ≠ .panic ∧
      s.ecrecoverFromHeader P header ≠ .panic ∧
      s.verifyCommittedSeals P header vals quorum ≠ .panic ∧
      s.verifyParentCommittedSeals P parent header parentVals parentQuorum mustExist ≠ .panic) ↔
      (istanbulExtraVanity ≤ header.extraData.length → s.Spared P header) := by
  have hecrecover : s.ecrecoverFromHeader P header = .panic ↔ s.getIBFTExtra P header = .panic := by
    simp [ecrecoverFromHeader, bind_eq_panic]
  rw [ne_eq, ne_eq, ne_eq, ne_eq, ne_eq, hecrecover, verifyCommittedSeals_eq_panic,
    calculateHeaderHash_eq_panic, verifyParentCommittedSeals_eq_panic, getIBFTExtra_uncounted,
    getParentCommittedSeals_uncounted, getIBFTExtra_eq_panic]
  constructor
  · rintro ⟨hextra, hhash, -, -, hparent⟩ hlen
    refine ⟨fun hnumber hkey ↦ hextra ⟨hlen, hnumber, hkey⟩, ?_, ?_⟩
    · intro hnumber hkey v hparse hlegible homits
      exact hhash (.inr ⟨hlen, hnumber, hkey, v, hparse, hlegible, homits⟩)
    · intro hkey v hparse homits
      exact hparent ⟨hlen, hkey, v, hparse, homits⟩
  · intro h
    have hextra : ¬(istanbulExtraVanity ≤ header.extraData.length ∧ header.number > 1 ∧
        s.parentKeyManager = none) := by
      rintro ⟨hlen, hnumber, hkey⟩
      exact (h hlen).parent hnumber hkey
    have hhash : ¬(istanbulExtraVanity ≤ header.extraData.length ∧ header.number > 1 ∧
        s.parentKeyManager = some .bls ∧
        ∃ v, P.parse (header.extraData.drop istanbulExtraVanity) = some v ∧
          Legible s.keyManager v ∧ OmitsParentSeals v) := by
      rintro ⟨hlen, hnumber, hkey, v, hparse, hlegible, homits⟩
      exact (h hlen).hashed hnumber hkey v hparse hlegible homits
    refine ⟨hextra, not_or.mpr ⟨hextra, hhash⟩, hextra, not_or.mpr ⟨hextra, hhash⟩, ?_⟩
    rintro ⟨hlen, hkey, v, hparse, homits⟩
    exact (h hlen).verified hkey v hparse homits

end Panics

def blsSigner : SignerImpl := ⟨.bls, some .bls⟩

def soloBlsSet : ValidatorSet :=
  ⟨.bls, [.bls soloAddress (replicate 48 7)], by simp [Validator.type]⟩

def orphanHeader : Header :=
  { (default : Header) with
    number := 2
    extraData := replicate 32 0 ++ encode (marshalRLPWith
      ⟨soloBlsSet, soloProposerSeal, .aggregated (some 1) [9], none⟩) }

theorem orphanHeader_panics :
    blsSigner.calculateHeaderHash soloPrimitives orphanHeader = .panic ∧
      blsSigner.verifyCommittedSeals soloPrimitives orphanHeader soloBlsSet 1 = .panic ∧
      blsSigner.verifyParentCommittedSeals soloPrimitives default orphanHeader soloBlsSet 1 true =
        .panic := by
  decide +kernel

end Mainnet.Signer
