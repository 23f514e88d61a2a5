import Mainnet.Types.Rlp

namespace Mainnet.Validators

open Types List Option

inductive ValidatorType
  | ecdsa
  | bls
deriving DecidableEq, Inhabited

inductive Validator
  | ecdsa (address : Address)
  | bls (address : Address) (blsPublicKey : Bytes)
deriving DecidableEq, Inhabited

namespace Validator

def type : Validator → ValidatorType
  | .ecdsa _ => .ecdsa
  | .bls _ _ => .bls

def addr : Validator → Address
  | .ecdsa a => a
  | .bls a _ => a

def equal : Validator → Validator → Bool
  | .ecdsa a, .ecdsa b => decide (a = b)
  | .bls a j, .bls b k => decide (a = b) && decide (j = k)
  | _, _ => false

theorem equal_iff (v w : Validator) : v.equal w = true ↔ v = w := by
  cases v <;> cases w <;> simp [equal]

theorem equal_eq_false_iff (v w : Validator) : v.equal w = false ↔ v ≠ w := by
  rw [← Bool.not_eq_true, equal_iff]

def marshalRLPWith : Validator → Rlp.Value
  | .ecdsa a => .bytes a.bytes
  | .bls a k => .array [.bytes a.bytes, .bytes k]

def unmarshalRLPFrom (t : ValidatorType) (val : Rlp.Value) : Option Validator :=
  match t with
  | .ecdsa => (Rlp.getAddr val).map .ecdsa
  | .bls => do
    let elems ← Rlp.getElems val
    match elems with
    | a :: k :: _ => return .bls (← Rlp.getAddr a) (← Rlp.getBytes k)
    | _ => none

theorem unmarshalRLPFrom_type {t : ValidatorType} {val : Rlp.Value} {v : Validator}
    (h : unmarshalRLPFrom t val = some v) : v.type = t := by
  cases t with
  | ecdsa =>
    obtain ⟨a, _, rfl⟩ := map_eq_some_iff.mp h
    rfl
  | bls =>
    simp only [unmarshalRLPFrom, bind_eq_bind, bind_eq_some_iff] at h
    obtain ⟨elems, _, h⟩ := h
    split at h
    · simp only [Option.bind_eq_some_iff, Option.pure_def, Option.some.injEq] at h
      obtain ⟨a, _, k, _, rfl⟩ := h
      rfl
    · cases h

end Validator

inductive SetError
  | mismatchValidatorType
  | validatorAlreadyExists
  | validatorNotFound
deriving DecidableEq

structure ValidatorSet where
  validatorType : ValidatorType
  validators : List Validator
  typed : ∀ v ∈ validators, v.type = validatorType
deriving DecidableEq

namespace ValidatorSet

variable (s : ValidatorSet)

def len : ℕ := s.validators.length

def addrs : List Address := s.validators.map Validator.addr

def equal (ss : ValidatorSet) : Bool :=
  decide (s.validatorType = ss.validatorType) && decide (s.len = ss.len) &&
    (s.validators.zip ss.validators).all fun p ↦ p.1.equal p.2

/-- The position of the first member with the address; `none` stands for `-1`. -/
def index (addr : Address) : Option ℕ := s.validators.findIdx? fun v ↦ decide (v.addr = addr)

def includes (addr : Address) : Bool := (s.index addr).isSome

def add (val : Validator) : Except SetError ValidatorSet :=
  if h : s.validatorType ≠ val.type then .error .mismatchValidatorType
  else if s.includes val.addr then .error .validatorAlreadyExists
  else .ok
    { s with
      validators := s.validators ++ [val]
      typed := by
        intro v hv
        rcases mem_append.mp hv with hv | hv
        · exact s.typed v hv
        · rw [mem_singleton.mp hv]
          exact (not_not.mp h).symm }

def del (val : Validator) : Except SetError ValidatorSet :=
  if s.validatorType ≠ val.type then .error .mismatchValidatorType
  else match s.index val.addr with
    | none => .error .validatorNotFound
    | some i => .ok
      { s with
        validators := s.validators.eraseIdx i
        typed := fun v hv ↦ s.typed v (mem_of_mem_eraseIdx hv) }

@[simp] theorem includes_iff (addr : Address) : s.includes addr = true ↔ addr ∈ s.addrs := by
  simp [includes, index, addrs, List.findIdx?_isSome, List.any_eq_true]

theorem equal_iff (ss : ValidatorSet) : s.equal ss = true ↔ s = ss := by
  constructor
  · intro h
    simp only [equal, Bool.and_eq_true, decide_eq_true_eq, List.all_eq_true] at h
    obtain ⟨⟨ht, hl⟩, hv⟩ := h
    have hval : s.validators = ss.validators := by
      apply List.ext_getElem hl
      intro i hi hj
      have hz : (s.validators[i], ss.validators[i]) ∈ s.validators.zip ss.validators := by
        rw [mem_iff_getElem]
        exact ⟨i, by simp [length_zip, hi, hj], by simp⟩
      exact (Validator.equal_iff _ _).mp (hv _ hz)
    cases s; cases ss; simp_all
  · rintro rfl
    simp only [equal, decide_true, Bool.true_and, List.all_eq_true, Validator.equal_iff]
    intro p hp
    obtain ⟨i, hi, rfl⟩ := List.mem_iff_getElem.mp hp
    simp

end ValidatorSet

end Mainnet.Validators
