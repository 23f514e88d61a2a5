import Mainnet.Fork.Config

namespace Mainnet.Fork

open Lib Tiling Validators List

inductive SourceType
  | snapshot
  | contract
deriving DecidableEq

def ibftTypesToSourceType : IBFTType → SourceType
  | .poA => .snapshot
  | .poS => .contract

/-- Whether the store has the methods of `HeaderModifier`, and those of `Updatable`. -/
def SourceType.modifiesHeaders : SourceType → Bool
  | .snapshot => true
  | .contract => false

structure Hooks (V : Type) where
  shouldWriteTransactionFunc : Option ℕ := none
  modifyHeaderFunc : Option SourceType := none
  verifyHeaderFunc : Option SourceType := none
  verifyBlockFunc : Option ℕ := none
  processHeaderFunc : Option SourceType := none
  preCommitStateFunc : Option (IBFTFork V) := none
  postInsertBlockFunc : Option (SourceType × V × ℕ) := none

variable {V : Type}

namespace Hooks

variable (hooks : Hooks V)

def registerHeaderModifierHooks (validatorStore : Option SourceType) : Hooks V :=
  match validatorStore.filter (·.modifiesHeaders) with
  | some modifier =>
    { hooks with
      modifyHeaderFunc := some modifier
      verifyHeaderFunc := some modifier
      processHeaderFunc := some modifier }
  | none => hooks

def registerUpdateValidatorsHooks (validatorStore : Option SourceType) (validators : V)
    (fromHeight : ℕ) : Hooks V :=
  match validatorStore.filter (·.modifiesHeaders) with
  | some us => { hooks with postInsertBlockFunc := some (us, validators, fromHeight) }
  | none => hooks

def registerTxInclusionGuardHooks (epochSize : ℕ) : Hooks V :=
  { hooks with
    shouldWriteTransactionFunc := some epochSize
    verifyBlockFunc := some epochSize }

def registerStakingContractDeploymentHooks (fork : IBFTFork V) : Hooks V :=
  { hooks with preCommitStateFunc := some fork }

end Hooks

structure ForkManager (V : Type) where
  forks : List (IBFTFork V)
  epochSize : ℕ

namespace ForkManager

variable (m : ForkManager V)

def validatorStores : List SourceType := (m.forks.map (ibftTypesToSourceType ·.type)).dedup

def hooksRegisters : List IBFTType := (m.forks.map (·.type)).dedup

def getValidatorStoreByIBFTFork (fork : IBFTFork V) : Option SourceType :=
  if ibftTypesToSourceType fork.type ∈ m.validatorStores then
    some (ibftTypesToSourceType fork.type)
  else none

/-- The entry of `updateValidatorsForks`; a later fork overwrites an earlier one. -/
def updateValidatorsFork (height : ℕ) : Option (IBFTFork V) :=
  (filterByType m.forks .poA).reverse.find? fun fork ↦
    fork.validators.isSome && fork.fromHeight == height

def deployContractFork (height : ℕ) : Option (IBFTFork V) :=
  (filterByType m.forks .poS).reverse.find? (·.deployment == some height)

variable (hooks : Hooks V) (height : ℕ)

def registerCurrentPoA : Hooks V :=
  match getFork (filterByType m.forks .poA) height with
  | some currentFork =>
    hooks.registerHeaderModifierHooks (m.getValidatorStoreByIBFTFork currentFork)
  | none => hooks

def registerUpdatePoA : Hooks V :=
  match m.updateValidatorsFork ((height + 1) % 2 ^ 64) with
  | some fork =>
    match fork.validators with
    | some validators =>
      hooks.registerUpdateValidatorsHooks (m.getValidatorStoreByIBFTFork fork) validators
        fork.fromHeight
    | none => hooks
  | none => hooks

def registerCurrentPoS : Hooks V :=
  match getFork (filterByType m.forks .poS) height with
  | some _ => hooks.registerTxInclusionGuardHooks m.epochSize
  | none => hooks

def registerDeploymentPoS : Hooks V :=
  match m.deployContractFork height with
  | some fork => hooks.registerStakingContractDeploymentHooks fork
  | none => hooks

def registerHooks : IBFTType → Hooks V
  | .poA => m.registerUpdatePoA (m.registerCurrentPoA hooks height) height
  | .poS => m.registerDeploymentPoS (m.registerCurrentPoS hooks height) height

/-- `GetHooks`, with the registers in the order in which the loop over the map meets them. -/
def getHooks (registers : List IBFTType) (height : ℕ) : Hooks V :=
  registers.foldl (fun hooks ↦ m.registerHooks hooks height) {}

variable {m hooks height}

theorem getValidatorStoreByIBFTFork_eq {fork : IBFTFork V} (h : fork ∈ m.forks) :
    m.getValidatorStoreByIBFTFork fork = some (ibftTypesToSourceType fork.type) := by
  have hmem : ibftTypesToSourceType fork.type ∈ m.validatorStores :=
    mem_dedup.mpr (mem_map.mpr ⟨fork, h, rfl⟩)
  rw [getValidatorStoreByIBFTFork, if_pos hmem]

theorem registerCurrentPoA_eq :
    m.registerCurrentPoA hooks height =
      if (getFork (filterByType m.forks .poA) height).isSome then
        { hooks with
          modifyHeaderFunc := some .snapshot
          verifyHeaderFunc := some .snapshot
          processHeaderFunc := some .snapshot }
      else hooks := by
  rw [registerCurrentPoA]
  cases h : getFork (filterByType m.forks .poA) height with
  | none => rfl
  | some fork =>
    obtain ⟨hmem, htype⟩ := mem_filter.mp (lastCovering_eq_some h).1
    rw [decide_eq_true_eq] at htype
    simp only [getValidatorStoreByIBFTFork_eq hmem, htype]
    rfl

theorem registerCurrentPoS_eq :
    m.registerCurrentPoS hooks height =
      if (getFork (filterByType m.forks .poS) height).isSome then
        hooks.registerTxInclusionGuardHooks m.epochSize
      else hooks := by
  rw [registerCurrentPoS]
  cases getFork (filterByType m.forks .poS) height <;> rfl

theorem registerUpdatePoA_eq (m : ForkManager V) (hooks : Hooks V) (height : ℕ) :
    ∃ post, m.registerUpdatePoA hooks height = { hooks with postInsertBlockFunc := post } := by
  rw [registerUpdatePoA]
  split
  · split
    · rw [Hooks.registerUpdateValidatorsHooks]
      split
      · exact ⟨_, rfl⟩
      · exact ⟨hooks.postInsertBlockFunc, rfl⟩
    · exact ⟨hooks.postInsertBlockFunc, rfl⟩
  · exact ⟨hooks.postInsertBlockFunc, rfl⟩

theorem registerDeploymentPoS_eq (m : ForkManager V) (hooks : Hooks V) (height : ℕ) :
    ∃ pre, m.registerDeploymentPoS hooks height = { hooks with preCommitStateFunc := pre } := by
  rw [registerDeploymentPoS]
  split
  · exact ⟨_, rfl⟩
  · exact ⟨hooks.preCommitStateFunc, rfl⟩

end ForkManager

structure ModeHooks where
  modifyHeaderFunc : Option SourceType := none
  verifyHeaderFunc : Option SourceType := none
  processHeaderFunc : Option SourceType := none
  shouldWriteTransactionFunc : Option ℕ := none
  verifyBlockFunc : Option ℕ := none
deriving DecidableEq

def Hooks.mode (hooks : Hooks V) : ModeHooks where
  modifyHeaderFunc := hooks.modifyHeaderFunc
  verifyHeaderFunc := hooks.verifyHeaderFunc
  processHeaderFunc := hooks.processHeaderFunc
  shouldWriteTransactionFunc := hooks.shouldWriteTransactionFunc
  verifyBlockFunc := hooks.verifyBlockFunc

def ModeHooks.enter (mode : ModeHooks) (epochSize : ℕ) : IBFTType → ModeHooks
  | .poA =>
    { mode with
      modifyHeaderFunc := some .snapshot
      verifyHeaderFunc := some .snapshot
      processHeaderFunc := some .snapshot }
  | .poS =>
    { mode with
      shouldWriteTransactionFunc := some epochSize
      verifyBlockFunc := some epochSize }

theorem ModeHooks.enter_enter (mode : ModeHooks) (epochSize : ℕ) (t : IBFTType) :
    (mode.enter epochSize t).enter epochSize t = mode.enter epochSize t := by
  cases t <;> rfl

namespace ForkManager

variable {m : ForkManager V} {hooks : Hooks V} {height : ℕ} {registers : List IBFTType}

theorem mode_registerHooks (m : ForkManager V) (hooks : Hooks V) (height : ℕ) (t : IBFTType) :
    (m.registerHooks hooks height t).mode =
      if (getFork (filterByType m.forks t) height).isSome then hooks.mode.enter m.epochSize t
      else hooks.mode := by
  cases t with
  | poA =>
    obtain ⟨post, hpost⟩ := m.registerUpdatePoA_eq (m.registerCurrentPoA hooks height) height
    rw [registerHooks, hpost, registerCurrentPoA_eq]
    split <;> rfl
  | poS =>
    obtain ⟨pre, hpre⟩ := m.registerDeploymentPoS_eq (m.registerCurrentPoS hooks height) height
    rw [registerHooks, hpre, registerCurrentPoS_eq]
    split <;> rfl

theorem mode_foldl_registerHooks {f : IBFTFork V} (hfs : Contiguous m.forks)
    (hf : getFork m.forks height = some f) :
    (registers.foldl (fun hooks ↦ m.registerHooks hooks height) hooks).mode =
      if f.type ∈ registers then hooks.mode.enter m.epochSize f.type else hooks.mode := by
  induction registers generalizing hooks with
  | nil => rfl
  | cons t registers ih =>
    have hstep := mode_registerHooks m hooks height t
    rw [getFork_filterByType hfs hf] at hstep
    rw [foldl_cons, ih, hstep]
    by_cases ht : f.type = t
    · subst ht
      simp [ModeHooks.enter_enter]
    · simp [ht]

theorem mode_getHooks {f : IBFTFork V} (hfs : Contiguous m.forks)
    (hf : getFork m.forks height = some f) (hregisters : registers.Perm m.hooksRegisters) :
    (m.getHooks registers height).mode = ModeHooks.enter {} m.epochSize f.type := by
  have hmem : f.type ∈ registers := by
    rw [hregisters.mem_iff, hooksRegisters, mem_dedup]
    exact mem_map_of_mem (lastCovering_eq_some hf).1
  rw [getHooks, mode_foldl_registerHooks hfs hf, if_pos hmem]
  rfl

end ForkManager

end Mainnet.Fork
