import Mainnet.Types.Address
import Mainnet.Validators.SnapshotStore

namespace Mainnet.Validators

open Types Lib List

inductive JsonField
  | number | hash | votes | type | set | validator | authorize | candidate | address | blsPublicKey

inductive Json
  | null
  | bool (b : Bool)
  | num (n : ℕ)
  | str (s : String)
  | arr (items : List Json)
  | obj (field : JsonField → Option Json)

inductive JsonError
  | json
  | invalidValidatorType
  /-- "expects ECDSAValidator but got %s" -/
  | expectsECDSAValidator (t : ValidatorType)

/-- `MarshalText` and `UnmarshalText` of a type, the second `none` for an error. -/
structure TextForm (α : Type) where
  text : α → String
  parse : String → Option α
  roundTrip : ∀ a, parse (text a) = some a

namespace Json

def getBool : Json → Option Bool
  | bool b => some b
  | _ => none

def getNum : Json → Option ℕ
  | num n => some n
  | _ => none

def getStr : Json → Option String
  | str s => some s
  | _ => none

def getArr : Json → Option (List Json)
  | arr items => some items
  | _ => none

def getObj : Json → Option (JsonField → Option Json)
  | obj field => some field
  | _ => none

/-- A field that is absent or null keeps its zero value. -/
def decode {α : Type} (zero : α) (get : Json → Option α) : Option Json → Except JsonError α
  | none => .ok zero
  | some null => .ok zero
  | some j => (get j).elim (.error .json) .ok

def fields (j : Json) : Except JsonError (JsonField → Option Json) :=
  decode (fun _ ↦ none) getObj (some j)

end Json

open Json

def TextForm.get {α : Type} (f : TextForm α) (j : Json) : Option α := j.getStr.bind f.parse

def ValidatorType.text : ValidatorType → String
  | .ecdsa => "ecdsa"
  | .bls => "bls"

def parseValidatorType (s : String) : Except JsonError ValidatorType :=
  if s = "ecdsa" then .ok .ecdsa else if s = "bls" then .ok .bls else .error .invalidValidatorType

def newValidatorFromType : ValidatorType → Validator
  | .ecdsa => .ecdsa zeroAddress
  | .bls => .bls zeroAddress []

variable (addr : TextForm Address) (key : TextForm Bytes) (hash : TextForm Hash)

def Validator.marshalJSON : Validator → Json
  | .ecdsa a => .obj fun
    | .address => some (.str (addr.text a))
    | _ => none
  | .bls a k => .obj fun
    | .address => some (.str (addr.text a))
    | .blsPublicKey => some (.str (key.text k))
    | _ => none

def Validator.unmarshalJSON :
    (t : ValidatorType) → Json → Except JsonError {v : Validator // v.type = t}
  | .ecdsa, j => do
    let field ← j.fields
    let a ← decode zeroAddress addr.get (field .address)
    .ok ⟨.ecdsa a, rfl⟩
  | .bls, j => do
    let field ← j.fields
    let a ← decode zeroAddress addr.get (field .address)
    let k ← decode [] key.get (field .blsPublicKey)
    .ok ⟨.bls a k, rfl⟩

def Vote.marshalJSON (v : Vote) : Json := .obj fun
  | .validator => some (.str (addr.text v.validator))
  | .candidate => some (v.candidate.marshalJSON addr key)
  | .authorize => some (.bool v.authorize)
  | _ => none

/-- Into a vote with a new candidate of the type `t`; the legacy format has an address instead. -/
def Vote.unmarshalJSON (t : ValidatorType) (j : Json) : Except JsonError Vote := do
  let field ← j.fields
  let validator ← decode zeroAddress addr.get (field .validator)
  let authorize ← decode false getBool (field .authorize)
  let address ← decode none (fun j ↦ (addr.get j).map some) (field .address)
  match field .candidate, address, t with
  | some candidate, _, t => do
    let candidate ← Validator.unmarshalJSON addr key t candidate
    .ok ⟨validator, candidate, authorize⟩
  | none, none, t => .ok ⟨validator, newValidatorFromType t, authorize⟩
  | none, some a, .ecdsa => .ok ⟨validator, .ecdsa a, authorize⟩
  | none, some _, .bls => .error (.expectsECDSAValidator .bls)

def ValidatorSet.marshalJSON (s : ValidatorSet) : Json :=
  .arr (s.validators.map (Validator.marshalJSON addr key))

def ValidatorSet.unmarshalJSON (t : ValidatorType) (j : Json) : Except JsonError ValidatorSet := do
  let items ← decode [] getArr (some j)
  let validators ← items.mapM (Validator.unmarshalJSON addr key t)
  .ok ⟨t, validators.map Subtype.val, forall_mem_map.mpr fun v _ ↦ v.2⟩

namespace Snapshot

def marshalJSON (s : Snapshot) : Json := .obj fun
  | .number => some (.num s.number)
  | .hash => some (.str (hash.text s.hash))
  | .votes => some (.arr (s.votes.map (Vote.marshalJSON addr key)))
  | .type => some (.str s.set.validatorType.text)
  | .set => some (s.set.marshalJSON addr key)
  | _ => none

/-- In the legacy format the set is a list of addresses. A set that is absent is no JSON text. -/
def unmarshalSetJSON (t : ValidatorType) (isLegacyFormat : Bool) :
    Option Json → Except JsonError ValidatorSet
  | none => .error .json
  | some j =>
    if isLegacyFormat then do
      let items ← decode [] getArr (some j)
      let addrs ← items.mapM fun j ↦ decode zeroAddress addr.get (some j)
      .ok ⟨.ecdsa, addrs.map .ecdsa, forall_mem_map.mpr fun _ _ ↦ rfl⟩
    else ValidatorSet.unmarshalJSON addr key t j

def unmarshalJSON (j : Json) : Except JsonError Snapshot := do
  let field ← j.fields
  let number ← decode 0 getNum (field .number)
  let hash ← decode zeroHash hash.get (field .hash)
  let type ← decode "" getStr (field .type)
  let votes ← decode [] getArr (field .votes)
  let t ← if type == "" then .ok .ecdsa else parseValidatorType type
  let votes ← votes.mapM (Vote.unmarshalJSON addr key t)
  let set ← unmarshalSetJSON addr key t (type == "") (field .set)
  .ok ⟨number, hash, votes, set⟩

end Snapshot

variable {addr key hash}

theorem TextForm.get_text {α : Type} (f : TextForm α) (a : α) : f.get (.str (f.text a)) = some a :=
  f.roundTrip a

theorem Validator.unmarshalJSON_marshalJSON {t : ValidatorType} (v : Validator) (h : v.type = t) :
    unmarshalJSON addr key t (v.marshalJSON addr key) = .ok ⟨v, h⟩ := by
  subst h
  cases v <;> simp [unmarshalJSON, Validator.type, marshalJSON, fields, decode, getObj,
    TextForm.get_text, Bind.bind, Except.bind]

theorem Vote.unmarshalJSON_marshalJSON {t : ValidatorType} (v : Vote) (h : v.candidate.type = t) :
    unmarshalJSON addr key t (v.marshalJSON addr key) = .ok v := by
  simp [unmarshalJSON, marshalJSON, fields, decode, getObj, getBool, TextForm.get_text, Bind.bind,
    Except.bind, v.candidate.unmarshalJSON_marshalJSON h]

theorem ValidatorSet.unmarshalJSON_marshalJSON (s : ValidatorSet) :
    unmarshalJSON addr key s.validatorType (s.marshalJSON addr key) = .ok s := by
  have hmap : (s.validators.map (Validator.marshalJSON addr key)).mapM
      (Validator.unmarshalJSON addr key s.validatorType) =
      .ok (s.validators.attach.map fun v ↦ ⟨v.1, s.typed _ v.2⟩) := by
    rw [← attach_map_val (l := s.validators)]
    exact Outcome.mapM_map_ok fun v _ ↦ v.1.unmarshalJSON_marshalJSON (s.typed _ v.2)
  simp [unmarshalJSON, marshalJSON, decode, getArr, Bind.bind, Except.bind, hmap]

end Mainnet.Validators
