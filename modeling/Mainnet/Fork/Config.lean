import Mainnet.Lib.Tiling
import Mainnet.Types.JsonNumber
import Mainnet.Validators.Set

namespace Mainnet.Fork

open Lib Tiling Types Validators List Option JSONNumber

inductive IBFTType
  | poA
  | poS
deriving DecidableEq

def parseIBFTType : String → Option IBFTType
  | "PoA" => some .poA
  | "PoS" => some .poS
  | _ => none

def parseValidatorType : String → Option ValidatorType
  | "ecdsa" => some .ecdsa
  | "bls" => some .bls
  | _ => none

structure IBFTFork (V : Type) where
  type : IBFTType
  validatorType : ValidatorType
  deployment : Option ℕ
  fromHeight : ℕ
  toHeight : Option ℕ
  validators : Option V
  maxValidatorCount : Option ℕ
  minValidatorCount : Option ℕ
deriving DecidableEq

open IBFTFork

structure RawFork (J : Type) where
  type : IBFTType
  validatorType : Option ValidatorType
  deployment : Option String
  fromHeight : String
  toHeight : Option String
  validators : Option J
  maxValidatorCount : Option String
  minValidatorCount : Option String

/-- How a validator set is written to JSON and read into a new set of the given type. -/
structure ValidatorsJson (V J : Type) where
  marshal : V → Option J
  unmarshal : ValidatorType → J → Option V

variable {V J : Type} (json : ValidatorsJson V J)

def readOptional {α β : Type} (read : α → Option β) : Option α → Option (Option β)
  | none => some none
  | some a => (read a).map some

namespace IBFTFork

def marshalJSON (f : IBFTFork V) : RawFork J where
  type := f.type
  validatorType := some f.validatorType
  deployment := f.deployment.map JSONNumber.marshalJSON
  fromHeight := JSONNumber.marshalJSON f.fromHeight
  toHeight := f.toHeight.map JSONNumber.marshalJSON
  validators := f.validators.bind json.marshal
  maxValidatorCount := f.maxValidatorCount.map JSONNumber.marshalJSON
  minValidatorCount := f.minValidatorCount.map JSONNumber.marshalJSON

def unmarshalJSON (raw : RawFork J) : Option (IBFTFork V) := do
  let deployment ← readOptional JSONNumber.unmarshalJSON raw.deployment
  let fromHeight ← JSONNumber.unmarshalJSON raw.fromHeight
  let toHeight ← readOptional JSONNumber.unmarshalJSON raw.toHeight
  let maxValidatorCount ← readOptional JSONNumber.unmarshalJSON raw.maxValidatorCount
  let minValidatorCount ← readOptional JSONNumber.unmarshalJSON raw.minValidatorCount
  let validatorType := raw.validatorType.getD .ecdsa
  let validators ← readOptional (json.unmarshal validatorType) raw.validators
  some { type := raw.type, validatorType, deployment, fromHeight, toHeight, validators,
         maxValidatorCount, minValidatorCount }

def period (f : IBFTFork V) : IBFTType × ValidatorType × ℕ × Option ℕ :=
  (f.type, f.validatorType, f.fromHeight, f.toHeight)

/-- The numbers of the fork are written as they are read, and so are its validators. -/
def ReadsBack (f : IBFTFork V) : Prop :=
  (∀ n ∈ f.deployment, n < 2 ^ 63) ∧ f.fromHeight < 2 ^ 63 ∧ (∀ n ∈ f.toHeight, n < 2 ^ 63) ∧
    (∀ n ∈ f.maxValidatorCount, n < 2 ^ 63) ∧ (∀ n ∈ f.minValidatorCount, n < 2 ^ 63) ∧
      ∀ v ∈ f.validators, ∃ j, json.marshal v = some j ∧ json.unmarshal f.validatorType j = some v

end IBFTFork

/-- The value under the key `types`: the forks an append has put there, or a list of JSON. -/
inductive ForkTypes (V J : Type)
  | forks (fs : List (IBFTFork V))
  | json (raws : List (RawFork J))

structure IBFTConfig (V J : Type) where
  type : Option String
  validatorType : Option String
  types : Option (ForkTypes V J)

def IBFTConfig.reload (c : IBFTConfig V J) : IBFTConfig V J :=
  match c.types with
  | some (.forks fs) => { c with types := some (.json (fs.map (marshalJSON json))) }
  | _ => c

inductive ForkError
  | invalidIBFTType (ibftType : String)
  | invalidValidatorType
  | invalidFork
  | undefinedIBFTConfig

def readValidatorType : Option String → Except ForkError ValidatorType
  | none => .ok .ecdsa
  | some rawValType =>
    match parseValidatorType rawValType with
    | some validatorType => .ok validatorType
    | none => .error .invalidValidatorType

def singleFork (type : IBFTType) (validatorType : ValidatorType) : IBFTFork V where
  type
  validatorType
  deployment := none
  fromHeight := 0
  toHeight := none
  validators := none
  maxValidatorCount := none
  minValidatorCount := none

def getIBFTForks (ibftConfig : IBFTConfig V J) : Except ForkError (List (IBFTFork V)) :=
  match ibftConfig.type, ibftConfig.types with
  | some originalType, _ =>
    match parseIBFTType originalType with
    | none => .error (.invalidIBFTType originalType)
    | some typ => do
      let validatorType ← readValidatorType ibftConfig.validatorType
      .ok [singleFork typ validatorType]
  | none, some (.json types) =>
    match types.mapM (unmarshalJSON json) with
    | some forks => .ok forks
    | none => .error .invalidFork
  | none, _ => .error .undefinedIBFTConfig

def getFork (fs : List (IBFTFork V)) (height : ℕ) : Option (IBFTFork V) :=
  fs.reverse.find? fun fork ↦
    decide (fork.fromHeight ≤ height) && fork.toHeight.all (decide <| height ≤ ·)

def filterByType (fs : List (IBFTFork V)) (ibftType : IBFTType) : List (IBFTFork V) :=
  fs.filter (·.type = ibftType)

abbrev Within (f : IBFTFork V) (height : ℕ) : Prop :=
  covers fromHeight toHeight f height = true

abbrev Contiguous (fs : List (IBFTFork V)) : Prop :=
  Tiles fromHeight toHeight 0 fs

section Reading

variable {json} {fs fs' : List (IBFTFork V)} {f g : IBFTFork V}

theorem readOptional_marshal {n m : Option ℕ}
    (h : readOptional unmarshalJSON (n.map marshalJSON) = some m) :
    m = n := by
  cases n with
  | none => exact (some.inj h).symm
  | some n =>
    rw [map_some, readOptional, unmarshalJSON_marshalJSON] at h
    split at h
    · exact (some.inj h).symm
    · cases h

theorem readOptional_marshal_of_lt {n : Option ℕ} (h : ∀ k ∈ n, k < 2 ^ 63) :
    readOptional unmarshalJSON (n.map marshalJSON) = some n := by
  cases n with
  | none => rfl
  | some n =>
    rw [map_some, readOptional, unmarshalJSON_marshalJSON, if_pos (h n rfl)]
    rfl

theorem IBFTFork.period_of_unmarshalJSON (h : unmarshalJSON json (f.marshalJSON json) = some g) :
    g.period = f.period := by
  simp only [unmarshalJSON, bind_eq_bind, bind_eq_some_iff] at h
  obtain ⟨_, _, fromHeight, hfrom, toHeight, hto, _, _, _, _, _, _, hg⟩ := h
  have hfrom : fromHeight = f.fromHeight := by
    rw [marshalJSON, unmarshalJSON_marshalJSON] at hfrom
    split at hfrom
    · exact (some.inj hfrom).symm
    · cases hfrom
  have hto := readOptional_marshal hto
  rw [← some.inj hg, period, period, hfrom, hto]
  rfl

theorem IBFTFork.ReadsBack.unmarshalJSON (h : f.ReadsBack json) :
    IBFTFork.unmarshalJSON json (f.marshalJSON json) = some f := by
  obtain ⟨hdeployment, hfrom, hto, hmax, hmin, hvalidators⟩ := h
  have hset : readOptional (json.unmarshal f.validatorType) (f.validators.bind json.marshal) =
      some f.validators := by
    cases hv : f.validators with
    | none => rfl
    | some v =>
      obtain ⟨j, hj, hread⟩ := hvalidators v hv
      rw [bind_some, hj, readOptional, hread]
      rfl
  simp only [IBFTFork.unmarshalJSON, marshalJSON, readOptional_marshal_of_lt hdeployment,
    readOptional_marshal_of_lt hto, readOptional_marshal_of_lt hmax,
    readOptional_marshal_of_lt hmin, unmarshalJSON_marshalJSON, if_pos hfrom,
    getD_some, hset, bind_eq_bind, bind_some]

theorem period_of_mapM_unmarshalJSON
    (h : (fs.map (marshalJSON json)).mapM (unmarshalJSON json) = some fs') :
    fs'.map period = fs.map period := by
  induction fs generalizing fs' with
  | nil =>
    cases h
    rfl
  | cons f fs ih =>
    simp only [map_cons, mapM_cons, bind_eq_bind, bind_eq_some_iff] at h
    obtain ⟨g, hg, gs, hgs, heq⟩ := h
    cases heq
    rw [map_cons, map_cons, ih hgs, period_of_unmarshalJSON hg]

theorem mapM_unmarshalJSON_of_readsBack (h : ∀ f ∈ fs, f.ReadsBack json) :
    (fs.map (marshalJSON json)).mapM (unmarshalJSON json) = some fs := by
  induction fs with
  | nil => rfl
  | cons f fs ih =>
    have hf := (h f mem_cons_self).unmarshalJSON
    have htail := ih fun g hg ↦ h g (mem_cons_of_mem f hg)
    rw [map_cons, mapM_cons, hf, htail]
    rfl

theorem contiguous_congr (h : fs'.map period = fs.map period)
    (hfs : Contiguous fs) : Contiguous fs' := by
  have hmap (l : List (IBFTFork V)) : Tiles _ _ 0 (l.map period) ↔ Contiguous l :=
    tiles_map (fun p ↦ p.2.2.1) (fun p ↦ p.2.2.2) period
  rw [← hmap, h, hmap]
  exact hfs

theorem getFork_congr (h : fs'.map period = fs.map period) (height : ℕ) :
    (getFork fs' height).map period = (getFork fs height).map period := by
  have hmap (l : List (IBFTFork V)) :=
    lastCovering_map (fun p ↦ p.2.2.1) (fun p ↦ p.2.2.2) period l height
  calc (getFork fs' height).map period
      = lastCovering (fun p ↦ p.2.2.1) (fun p ↦ p.2.2.2) (fs'.map period) height :=
        (hmap fs').symm
    _ = lastCovering (fun p ↦ p.2.2.1) (fun p ↦ p.2.2.2) (fs.map period) height := by
        rw [h]
    _ = (getFork fs height).map period := hmap fs

end Reading

section Cover

variable {fs : List (IBFTFork V)} {f : IBFTFork V} {height : ℕ}

theorem Contiguous.getFork (h : Contiguous fs) (height : ℕ) :
    ∃ f, getFork fs height = some f ∧ ∀ g ∈ fs, Within g height ↔ g = f := by
  obtain ⟨f, hf⟩ := isSome_iff_exists.mp (h.lastCovering_isSome (Nat.zero_le height))
  obtain ⟨hmem, hcover⟩ := lastCovering_eq_some hf
  refine ⟨f, hf, fun g hg ↦ ⟨fun hcover' ↦ h.eq_of_covers hg hmem hcover' hcover, ?_⟩⟩
  intro heq
  exact heq ▸ hcover

theorem getFork_filterByType (h : Contiguous fs) (hf : getFork fs height = some f)
    (ibftType : IBFTType) :
    getFork (filterByType fs ibftType) height = if f.type = ibftType then some f else none := by
  obtain ⟨f', hf', hunique⟩ := h.getFork height
  obtain rfl := some.inj (hf.symm.trans hf')
  obtain ⟨hmem, hcover⟩ := lastCovering_eq_some hf
  have hfilter (g) : g ∈ filterByType fs ibftType ↔ g ∈ fs ∧ g.type = ibftType := by
    rw [filterByType, mem_filter, decide_eq_true_eq]
  cases hg : Fork.getFork (filterByType fs ibftType) height with
  | some g =>
    obtain ⟨hgmem, hgcover⟩ := lastCovering_eq_some hg
    obtain ⟨hgmem, htype⟩ := (hfilter g).mp hgmem
    obtain rfl := (hunique g hgmem).mp hgcover
    rw [if_pos htype]
  | none =>
    rw [if_neg]
    intro htype
    have hsome := lastCovering_isSome.mpr ⟨f, (hfilter f).mpr ⟨hmem, htype⟩, hcover⟩
    cases (congrArg Option.isSome hg).symm.trans hsome

end Cover

end Mainnet.Fork
