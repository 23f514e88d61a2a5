import Mainnet.Fork.Hooks
import Mainnet.Lib.Outcome

namespace Mainnet.Fork

open Lib Tiling Validators IBFTFork

inductive SwitchError
  | ibftConfigNotFound
  | fork (e : ForkError)
  | sameIBFTAndValidatorType
  | lessFromThanLastFrom
  | invalidValidatorsUpdateHeight

structure SwitchArgs (V : Type) where
  ibftType : IBFTType
  validatorType : ValidatorType
  fromHeight : ℕ
  deployment : Option ℕ
  validators : Option V
  maxValidatorCount : Option ℕ
  minValidatorCount : Option ℕ

variable {V J : Type}

def SwitchArgs.newFork (a : SwitchArgs V) : IBFTFork V where
  type := a.ibftType
  validatorType := a.validatorType
  fromHeight := a.fromHeight
  toHeight := none
  deployment := if a.ibftType = .poS then a.deployment else none
  validators := if a.ibftType = .poA then a.validators else none
  maxValidatorCount := if a.ibftType = .poS then a.maxValidatorCount else none
  minValidatorCount := if a.ibftType = .poS then a.minValidatorCount else none

variable (json : ValidatorsJson V J)

/-- `appendIBFTForks` on the value under the engine's key `ibft`, with the value it leaves there;
the last fork of an empty list is an index out of range. -/
def appendIBFTForks (cc : Option (IBFTConfig V J)) (a : SwitchArgs V) :
    Outcome SwitchError Unit × Option (IBFTConfig V J) :=
  match cc with
  | none => (.error .ibftConfigNotFound, cc)
  | some ibftConfig =>
    match getIBFTForks json ibftConfig with
    | .error e => (.error (.fork e), cc)
    | .ok ibftForks =>
      match ibftForks.getLast? with
      | none => (.panic, cc)
      | some lastFork =>
        if a.ibftType = lastFork.type ∧ a.validatorType = lastFork.validatorType then
          (.error .sameIBFTAndValidatorType, cc)
        else if a.fromHeight ≤ lastFork.fromHeight then (.error .lessFromThanLastFrom, cc)
        else if a.ibftType = .poA ∧ a.validators.isSome ∧ a.fromHeight ≤ 1 then
          (.error .invalidValidatorsUpdateHeight, cc)
        else
          let lastFork := { lastFork with toHeight := some (a.fromHeight - 1) }
          let ibftForks := ibftForks.dropLast ++ [lastFork, a.newFork]
          (.ok (), some { ibftConfig with type := none, types := some (.forks ibftForks) })

/-- The configurations that switches make of one with a single type, with the genesis file
written and read again at any time. -/
inductive Configured : IBFTConfig V J → Prop
  | single {c : IBFTConfig V J} {fs : List (IBFTFork V)} :
      c.types = none → getIBFTForks json c = .ok fs → Configured c
  | append {c c' : IBFTConfig V J} {a : SwitchArgs V} :
      Configured c → a.fromHeight < 2 ^ 63 →
      appendIBFTForks json (some c) a = (.ok (), some c') → Configured c'
  | reload {c : IBFTConfig V J} : Configured c → Configured (c.reload json)

/-- The forks of a configuration: those in memory, or those that are read from it. -/
def IBFTConfig.Describes (c : IBFTConfig V J) (fs : List (IBFTFork V)) : Prop :=
  c.types = some (.forks fs) ∨ getIBFTForks json c = .ok fs

variable {json} {c c' : IBFTConfig V J} {cc cc' : Option (IBFTConfig V J)} {a : SwitchArgs V}
  {fs fs' : List (IBFTFork V)}

theorem appendIBFTForks_unchanged (h : (appendIBFTForks json cc a).1 ≠ .ok ()) :
    (appendIBFTForks json cc a).2 = cc := by
  revert h
  fun_cases appendIBFTForks json cc a with
  | case7 => exact fun h ↦ absurd rfl h
  | _ => exact fun _ ↦ rfl

theorem appendIBFTForks_ok (h : appendIBFTForks json (some c) a = (.ok (), cc')) :
    ∃ init lastFork, getIBFTForks json c = .ok (init ++ [lastFork]) ∧
      lastFork.fromHeight < a.fromHeight ∧
      cc' = some { c with
        type := none
        types := some (.forks (init ++
          [{ lastFork with toHeight := some (a.fromHeight - 1) }, a.newFork])) } := by
  rw [appendIBFTForks] at h
  dsimp only at h
  split at h
  · cases h
  · rename_i forks hforks
    split at h
    · cases h
    · rename_i lastFork hlast
      split at h
      · cases h
      split at h
      · cases h
      · rename_i hfrom
        split at h
        · cases h
        · refine ⟨forks.dropLast, lastFork, ?_, Nat.lt_of_not_le hfrom, (Prod.mk.inj h).2.symm⟩
          rw [hforks, List.dropLast_append_getLast? lastFork hlast]

theorem getIBFTForks_single {text : String} (htype : c.type = some text)
    (h : getIBFTForks json c = .ok fs) : ∃ t v, fs = [singleFork t v] := by
  rw [getIBFTForks, htype] at h
  dsimp only at h
  split at h
  · cases h
  · rename_i typ _
    cases hv : readValidatorType c.validatorType with
    | error e =>
      rw [hv] at h
      cases h
    | ok v =>
      rw [hv] at h
      exact ⟨typ, v, (Except.ok.inj h).symm⟩

inductive IBFTConfig.Holds (json : ValidatorsJson V J) (c : IBFTConfig V J) :
    List (IBFTFork V) → Prop
  | single {t : IBFTType} {v : ValidatorType} : c.types = none →
      getIBFTForks json c = .ok [singleFork t v] → Holds json c [singleFork t v]
  | memory {fs : List (IBFTFork V)} : c.type = none → c.types = some (.forks fs) →
      Holds json c fs
  | written {fs : List (IBFTFork V)} : c.type = none →
      c.types = some (.json (fs.map (marshalJSON json))) → Holds json c fs

theorem IBFTConfig.Holds.period (h : c.Holds json fs) (hfs' : c.Describes json fs') :
    fs'.map period = fs.map period := by
  cases h with
  | single htypes hget =>
    rcases hfs' with hmem | hget'
    · rw [htypes] at hmem
      cases hmem
    · rw [Except.ok.inj (hget'.symm.trans hget)]
  | memory htype htypes =>
    rcases hfs' with hmem | hget'
    · rw [htypes] at hmem
      cases hmem
      rfl
    · rw [getIBFTForks, htype, htypes] at hget'
      cases hget'
  | written htype htypes =>
    rcases hfs' with hmem | hget'
    · rw [htypes] at hmem
      cases hmem
    · rw [getIBFTForks, htype, htypes] at hget'
      dsimp only at hget'
      split at hget'
      · rename_i forks hforks
        cases hget'
        exact period_of_mapM_unmarshalJSON hforks
      · cases hget'

theorem IBFTConfig.Holds.reload (h : c.Holds json fs) : (c.reload json).Holds json fs := by
  cases h with
  | single htypes hget =>
    have hsame : c.reload json = c := by rw [IBFTConfig.reload, htypes]
    rw [hsame]
    exact .single htypes hget
  | memory htype htypes =>
    rw [IBFTConfig.reload, htypes]
    exact .written htype rfl
  | written htype htypes =>
    have hsame : c.reload json = c := by rw [IBFTConfig.reload, htypes]
    rw [hsame]
    exact .written htype htypes

theorem IBFTConfig.Holds.getIBFTForks_reload (h : c.Holds json fs') (hfs : c.Describes json fs)
    (hback : ∀ f ∈ fs, f.ReadsBack json) : getIBFTForks json (c.reload json) = .ok fs := by
  cases h with
  | single htypes _ | written _ htypes =>
    rcases hfs with hmem | hget
    · rw [htypes] at hmem
      cases hmem
    · rwa [IBFTConfig.reload, htypes]
  | memory htype htypes =>
    rcases hfs with hmem | hget
    · rw [IBFTConfig.reload, hmem]
      dsimp only
      rw [getIBFTForks, htype]
      dsimp only
      rw [mapM_unmarshalJSON_of_readsBack hback]
    · rw [getIBFTForks, htype, htypes] at hget
      cases hget

theorem Contiguous.append {init : List (IBFTFork V)} {lastFork : IBFTFork V}
    (h : Contiguous (init ++ [lastFork])) (hlt : lastFork.fromHeight < a.fromHeight) :
    Contiguous (init ++ [{ lastFork with toHeight := some (a.fromHeight - 1) }, a.newFork]) :=
  h.split_last rfl hlt rfl rfl rfl

theorem Configured.holds (h : Configured json c) : ∃ fs, c.Holds json fs ∧ Contiguous fs := by
  induction h with
  | @single c fs htypes hget =>
    cases htype : c.type with
    | none =>
      rw [getIBFTForks, htype, htypes] at hget
      cases hget
    | some text =>
      obtain ⟨t, v, rfl⟩ := getIBFTForks_single htype hget
      exact ⟨_, .single htypes hget, .last rfl rfl⟩
  | append _ _ happend ih =>
    obtain ⟨fs, hholds, hfs⟩ := ih
    obtain ⟨init, lastFork, hget, hlt, hc'⟩ := appendIBFTForks_ok happend
    have hread := contiguous_congr (hholds.period (.inr hget)) hfs
    cases hc'
    exact ⟨_, .memory rfl rfl, hread.append hlt⟩
  | reload _ ih =>
    obtain ⟨fs, hholds, hfs⟩ := ih
    exact ⟨fs, hholds.reload, hfs⟩

theorem Configured.contiguous (h : Configured json c) (hfs : c.Describes json fs) :
    Contiguous fs := by
  obtain ⟨held, hholds, hheld⟩ := h.holds
  exact contiguous_congr (hholds.period hfs) hheld

def IBFTFork.mode (f : IBFTFork V) : IBFTType × ValidatorType := (f.type, f.validatorType)

theorem mode_getFork_congr (h : fs'.map period = fs.map period) (height : ℕ) :
    (getFork fs' height).map mode = (getFork fs height).map mode := by
  have hmode (f : Option (IBFTFork V)) :
      f.map mode = (f.map period).map fun p ↦ (p.1, p.2.1) := by
    rw [Option.map_map]
    rfl
  rw [hmode, hmode, getFork_congr h]

theorem Configured.getFork_append (h : Configured json c)
    (happend : appendIBFTForks json (some c) a = (.ok (), some c')) (hfs : c.Describes json fs)
    (hfs' : c'.Describes json fs' ∨ (c'.reload json).Describes json fs') {height : ℕ}
    (hlt : height < a.fromHeight) :
    (getFork fs' height).map mode = (getFork fs height).map mode := by
  obtain ⟨init, lastFork, hget, hfrom, hc'⟩ := appendIBFTForks_ok happend
  have hread : Contiguous (init ++ [lastFork]) := h.contiguous (.inr hget)
  have hafter : c'.Holds json
      (init ++ [{ lastFork with toHeight := some (a.fromHeight - 1) }, a.newFork]) := by
    cases hc'
    exact .memory rfl rfl
  obtain ⟨held, hholds, _⟩ := h.holds
  calc (getFork fs' height).map mode
      = (getFork (init ++ [{ lastFork with toHeight := some (a.fromHeight - 1) }, a.newFork])
          height).map mode :=
        mode_getFork_congr (hfs'.elim hafter.period hafter.reload.period) height
    _ = (getFork (init ++ [lastFork]) height).map mode :=
        lastCovering_split mode rfl hread.last_open rfl rfl rfl hlt
    _ = (getFork fs height).map mode :=
        mode_getFork_congr ((hholds.period (.inr hget)).trans (hholds.period hfs).symm) height

/-- The forks of a configuration that switches have made cover every height once, and each height
has the hooks of its fork; a switch keeps the mode of the heights below it, and one that fails
changes nothing. -/
theorem switches_keep_forks (json : ValidatorsJson V J) :
    (∀ c fs, Configured json c → c.Describes json fs →
      Contiguous fs ∧
      fs.Pairwise (fun f g ↦ ∀ height, Within f height → ¬ Within g height) ∧
      (∀ height, ∃ f, getFork fs height = some f ∧ Within f height ∧
        ∀ epochSize registers,
          registers.Perm (ForkManager.mk fs epochSize).hooksRegisters →
          let hooks := (ForkManager.mk fs epochSize).getHooks registers height
          (hooks.modifyHeaderFunc.isSome ↔ f.type = .poA) ∧
          (hooks.verifyHeaderFunc.isSome ↔ f.type = .poA) ∧
          (hooks.processHeaderFunc.isSome ↔ f.type = .poA) ∧
          (hooks.shouldWriteTransactionFunc.isSome ↔ f.type = .poS) ∧
          (hooks.verifyBlockFunc.isSome ↔ f.type = .poS)) ∧
      ((∀ f ∈ fs, f.ReadsBack json) → getIBFTForks json (c.reload json) = .ok fs)) ∧
    (∀ c a c', Configured json c → appendIBFTForks json (some c) a = (.ok (), some c') →
      (∃ fs', c'.Describes json fs') ∧
      ∀ fs fs', c.Describes json fs → c'.Describes json fs' ∨ (c'.reload json).Describes json fs' →
        ∀ height < a.fromHeight, (getFork fs' height).map mode = (getFork fs height).map mode) ∧
    ∀ cc a, (appendIBFTForks json cc a).1 ≠ .ok () → (appendIBFTForks json cc a).2 = cc := by
  refine ⟨fun c fs h hfs ↦ ?_, fun c a c' h happend ↦ ⟨?_, ?_⟩, fun _ _ ↦ appendIBFTForks_unchanged⟩
  · have hcontiguous := h.contiguous hfs
    refine ⟨hcontiguous, ?_, fun height ↦ ?_, ?_⟩
    · apply hcontiguous.pairwise.imp
      intro f g hdisjoint height hf hg
      exact absurd hg (Bool.not_eq_true _ ▸ hdisjoint height hf)
    · obtain ⟨f, hf, _⟩ := hcontiguous.getFork height
      refine ⟨f, hf, (lastCovering_eq_some hf).2, fun epochSize registers hperm ↦ ?_⟩
      have hmode := ForkManager.mode_getHooks (m := ⟨fs, epochSize⟩) hcontiguous hf hperm
      obtain ⟨hmodify, hverify, hprocess, hwrite, hblock⟩ := ModeHooks.mk.inj hmode
      intro hooks
      rw [hmodify, hverify, hprocess, hwrite, hblock]
      cases f.type <;> simp
    · obtain ⟨held, hholds, _⟩ := h.holds
      exact hholds.getIBFTForks_reload hfs
  · obtain ⟨init, lastFork, _, _, hc'⟩ := appendIBFTForks_ok happend
    cases hc'
    exact ⟨_, .inl rfl⟩
  · intro fs fs' hfs hfs' height hlt
    exact h.getFork_append happend hfs hfs' hlt

def addressesJson : ValidatorsJson (List Types.Address) (List String) where
  marshal addresses := some (addresses.map (Types.encodeToHex ·.bytes))
  unmarshal _ texts := some (texts.map fun text ↦ Types.bytesToAddress (Types.stringToBytes text))

def poAConfig : IBFTConfig (List Types.Address) (List String) := ⟨some "PoA", none, none⟩

def switchToPoS : SwitchArgs (List Types.Address) :=
  ⟨.poS, .ecdsa, 100, some 100, none, some 10, some 1⟩

theorem switches_keep_forks_toPoS :
    ∃ c' fs', appendIBFTForks addressesJson (some poAConfig) switchToPoS = (.ok (), some c') ∧
      c'.Describes addressesJson fs' ∧ Contiguous fs' ∧
      (getFork fs' 99).map mode = some (.poA, .ecdsa) := by
  have hsingle : Configured addressesJson poAConfig := .single rfl rfl
  obtain ⟨hforks, happend, _⟩ := switches_keep_forks addressesJson
  obtain ⟨⟨fs', hfs'⟩, hkeep⟩ := happend poAConfig switchToPoS _ hsingle rfl
  have hconfigured := hsingle.append (by decide) (a := switchToPoS) rfl
  refine ⟨_, fs', rfl, hfs', (hforks _ fs' hconfigured hfs').1, ?_⟩
  rw [hkeep _ fs' (.inr rfl) (.inl hfs') 99 (by decide)]
  rfl

end Mainnet.Fork
