import Mainnet.Signer.Extra
import Mainnet.Validators.SnapshotVoting

namespace Mainnet.Validators

open Types Lib List Outcome SnapshotStore Snapshot Signer ValidatorSet Validator Lib.Rlp

def Snapshot.forgetHash (s : Snapshot) : Snapshot := { s with hash := zeroHash }

namespace SnapshotStore

variable (s : SnapshotStore)

def forgetHash : SnapshotStore := { s with list := s.list.map Snapshot.forgetHash }

theorem find_forgetHash (num : ℕ) : s.forgetHash.find num = (s.find num).map Snapshot.forgetHash := by
  rw [find_lookup, find_lookup]
  exact Timeline.lookup_map Snapshot.number Snapshot.forgetHash s.list num

theorem add_forgetHash (snap : Snapshot) :
    (s.add snap).forgetHash = s.forgetHash.add snap.forgetHash := by
  simp only [forgetHash, add, mk.injEq, true_and]
  rw [map_insertionSort (fun a b : Snapshot ↦ a.number ≤ b.number)
    (fun a b : Snapshot ↦ a.number ≤ b.number) Snapshot.forgetHash _ (fun _ _ _ _ ↦ Iff.rfl),
    map_append, map_singleton]

theorem removeLowerSnapshots_forgetHash (C : SnapshotConfig) (height : ℕ) :
    (s.removeLowerSnapshots C height).map forgetHash = s.forgetHash.removeLowerSnapshots C height := by
  simp only [removeLowerSnapshots, deleteLower, forgetHash, findClosestSnapshotIndex_map Snapshot.forgetHash (fun _ ↦ rfl)]
  split
  · cases findClosestSnapshotIndex s.list _ with
    | none => rfl
    | some k => simp [Outcome.map, forgetHash, map_drop]
  · rfl

theorem saveSnapshotIfChanged_forgetHash {h₁ h₂ : Header} (hn : h₁.number = h₂.number)
    (parent snap : Snapshot) : (s.saveSnapshotIfChanged parent snap h₁).forgetHash =
      (s.saveSnapshotIfChanged parent snap h₂).forgetHash := by
  rw [saveSnapshotIfChanged, saveSnapshotIfChanged]
  split
  · rfl
  · simp only [add_forgetHash, Snapshot.forgetHash, hn]

variable (C : SnapshotConfig) {h₁ h₂ : Header} {t : ValidatorType} {p : Address}

theorem processSigned_forgetHash (hn : h₁.number = h₂.number) (hm : h₁.miner = h₂.miner)
    (hvote : C.epochSize ≠ 0 → h₁.number % C.epochSize ≠ 0 → h₁.miner ≠ zeroAddress.bytes →
      ∀ snap, processVote C snap h₁ t p = processVote C snap h₂ t p) :
    (s.processSigned C h₁ t p).map forgetHash = (s.processSigned C h₂ t p).map forgetHash := by
  simp only [processSigned, ← hn, ← hm]
  cases s.find ((h₁.number + 2 ^ 64 - 1) % 2 ^ 64) with
  | none => rfl
  | some parent =>
    dsimp only
    by_cases hin : (!parent.set.includes p) = true
    · rw [if_pos hin, if_pos hin]
    rw [if_neg hin, if_neg hin]
    by_cases h0 : C.epochSize = 0
    · rw [if_pos h0, if_pos h0]
    rw [if_neg h0, if_neg h0]
    by_cases hepoch : h₁.number % C.epochSize = 0
    · rw [if_pos hepoch, if_pos hepoch]
      have hremove : ((s.resetSnapshot parent parent.copy h₁).removeLowerSnapshots C h₁.number).map
            forgetHash =
          ((s.resetSnapshot parent parent.copy h₂).removeLowerSnapshots C h₁.number).map forgetHash := by
        simp only [removeLowerSnapshots_forgetHash, resetSnapshot,
          s.saveSnapshotIfChanged_forgetHash hn]
      revert hremove
      generalize (s.resetSnapshot parent parent.copy h₁).removeLowerSnapshots C h₁.number = o₁
      generalize (s.resetSnapshot parent parent.copy h₂).removeLowerSnapshots C h₁.number = o₂
      intro hremove
      cases o₁ <;> cases o₂ <;> simp_all [Outcome.map, Bind.bind, Outcome.bind, forgetHash,
        updateLastBlock, Pure.pure]
    rw [if_neg hepoch, if_neg hepoch]
    by_cases hminer : h₁.miner = zeroAddress.bytes
    · rw [if_pos hminer, if_pos hminer]
    rw [if_neg hminer, if_neg hminer, hvote h0 hepoch hminer parent.copy]
    cases processVote C parent.copy h₂ t p with
    | error e => rfl
    | ok snap =>
      exact congrArg Outcome.ok ((s.updateLastBlock h₁.number).saveSnapshotIfChanged_forgetHash hn _ _)

def after (header : Header) : SnapshotStore :=
  match s.processHeader C header with
  | .ok s' => s'
  | _ => s

def SameBoards (s₁ s₂ : SnapshotStore) : Prop :=
  ∀ height, s₁.getValidatorsByHeight height = s₂.getValidatorsByHeight height ∧
    s₁.votes height = s₂.votes height

theorem sameBoards_of_forgetHash {s₁ s₂ : SnapshotStore} (h : s₁.forgetHash = s₂.forgetHash) :
    SameBoards s₁ s₂ := by
  intro height
  have hfind : (s₁.find height).map Snapshot.forgetHash = (s₂.find height).map Snapshot.forgetHash := by
    rw [← find_forgetHash, ← find_forgetHash, h]
  rw [getValidatorsByHeight, getValidatorsByHeight, votes, votes]
  cases h₁ : s₁.find height <;> cases h₂ : s₂.find height <;> simp_all [Snapshot.forgetHash]

theorem sameBoards_after (hs₁ : signerOf C h₁ = .ok (t, p)) (hs₂ : signerOf C h₂ = .ok (t, p))
    (h : (s.processSigned C h₁ t p).map forgetHash = (s.processSigned C h₂ t p).map forgetHash) :
    SameBoards (s.after C h₁) (s.after C h₂) := by
  apply sameBoards_of_forgetHash
  simp only [after, processHeader, hs₁, hs₂]
  revert h
  cases s.processSigned C h₁ t p <;> cases s.processSigned C h₂ t p <;> simp [Outcome.map]

end SnapshotStore

section Solo

def Validator.ofType (t : ValidatorType) (a : Address) : Validator :=
  match t with
  | .ecdsa => .ecdsa a
  | .bls => .bls a []

def soloSet (t : ValidatorType) (p : Address) : ValidatorSet where
  validatorType := t
  validators := [.ofType t p]
  typed := by cases t <;> simp [ofType, type]

def soloSnapshot (t : ValidatorType) (p : Address) : Snapshot := ⟨0, zeroHash, [], soloSet t p⟩

variable {C : SnapshotConfig} {t : ValidatorType} {p : Address} {header : Header} {c : Validator}
  {b : Bool}

theorem soloSet_addrs (t : ValidatorType) (p : Address) : (soloSet t p).addrs = [p] := by
  cases t <;> rfl

theorem minerToValidator_type {miner : Bytes} (h : minerToValidator C t miner = .ok c) :
    c.type = t := by
  cases t with
  | ecdsa =>
    cases h
    rfl
  | bls =>
    simp only [minerToValidator] at h
    split at h
    · cases h
    · rename_i v hv
      cases h
      obtain ⟨val, -, hval⟩ := Option.bind_eq_some_iff.mp hv
      exact unmarshalRLPFrom_type hval

theorem ofType_addr (t : ValidatorType) (p : Address) : (ofType t p).addr = p := by
  cases t <;> rfl

theorem addsOrDelsCandidate_solo (hc : c.type = t) (hb : b = !(soloSet t p).includes c.addr) :
    ∃ set, addsOrDelsCandidate (soloSet t p) c b = .ok set ∧ set.includes c.addr = b := by
  have htype : ¬ (soloSet t p).validatorType ≠ c.type := not_not.mpr hc.symm
  cases b with
  | true =>
    have hnot : (soloSet t p).includes c.addr = false := by simpa using hb
    rw [addsOrDelsCandidate, if_pos rfl, ValidatorSet.add, dif_neg htype, hnot, if_neg (by decide)]
    refine ⟨_, rfl, ?_⟩
    rw [includes_iff]
    simp [addrs]
  | false =>
    have hin : c.addr = p := by
      have hmem : (soloSet t p).includes c.addr = true := by simpa using hb
      rwa [includes_iff, soloSet_addrs, mem_singleton] at hmem
    have hidx : (soloSet t p).index c.addr = some 0 := by
      simp [index, soloSet, ofType_addr, hin]
    rw [addsOrDelsCandidate, if_neg (by decide), del, if_neg htype, hidx]
    exact ⟨_, rfl, rfl⟩

theorem solo_processVote (ha : isAuthorize header.nonce = .ok b)
    (hc : minerToValidator C t header.miner = .ok c) :
    ∃ snap, processVote C (soloSnapshot t p).copy header t p = .ok snap ∧
      snap.set.includes c.addr = b := by
  have hvote : processVote C (soloSnapshot t p).copy header t p =
      if !shouldProcessVote (soloSet t p) c.addr b then .ok (soloSnapshot t p).copy
      else ((soloSnapshot t p).copy.addVote p c b).applyTally c b := by
    rw [processVote, ha, hc]
    rfl
  rw [hvote]
  by_cases hs : b = !(soloSet t p).includes c.addr
  · have hshould : ¬ (!shouldProcessVote (soloSet t p) c.addr b) = true := by
      simpa [shouldProcessVote] using Bool.eq_not.mp hs
    have hcount : ((soloSnapshot t p).copy.addVote p c b).countByCandidate c = 1 := by
      simp [Snapshot.countByCandidate, Snapshot.count, Snapshot.addVote, Snapshot.copy, soloSnapshot,
        (equal_iff c c).mpr rfl]
    obtain ⟨set, hset, hin⟩ := addsOrDelsCandidate_solo (minerToValidator_type hc) hs
    have hset' : addsOrDelsCandidate ((soloSnapshot t p).copy.addVote p c b).set c b = .ok set := hset
    rw [if_neg hshould, applyTally, hcount, if_pos (by simp [addVote, copy,
      soloSnapshot, soloSet, len]), hset']
    refine ⟨_, rfl, ?_⟩
    cases b <;> exact hin
  · have hshould : (!shouldProcessVote (soloSet t p) c.addr b) = true := by
      simpa [shouldProcessVote, Bool.eq_not] using hs
    rw [if_pos hshould]
    refine ⟨_, rfl, ?_⟩
    rw [Bool.eq_not, not_not] at hs
    exact hs.symm

def soloStore (t : ValidatorType) (p : Address) : SnapshotStore := ⟨0, [soloSnapshot t p]⟩

theorem soloStore_current (t : ValidatorType) (p : Address) :
    (soloStore t p).Current (soloStore t p).lastNumber (soloSnapshot t p) :=
  ⟨pairwise_singleton _ _, by simp [soloStore, soloSnapshot], _, rfl, rfl⟩

theorem solo_after (hepoch : C.epochSize ≠ 0) (hnum : header.number % C.epochSize ≠ 0)
    (hlt : header.number < 2 ^ 64) (hminer : header.miner ≠ zeroAddress.bytes)
    (hs : SnapshotStore.signerOf C header = .ok (t, p)) (ha : isAuthorize header.nonce = .ok b)
    (hc : minerToValidator C t header.miner = .ok c) :
    ∃ set, ((soloStore t p).after C header).getValidatorsByHeight header.number = .ok set ∧
      set.includes c.addr = b := by
  obtain ⟨snap, hvote, hin⟩ := solo_processVote (p := p) ha hc
  have hpos : (soloStore t p).lastNumber < header.number := by
    rcases Nat.eq_zero_or_pos header.number with h0 | h0
    · rw [h0, Nat.zero_mod] at hnum
      exact absurd rfl hnum
    · exact h0
  have hadv : (soloSnapshot t p).advance C header t p = .ok snap := by
    have hmem : ¬ (!(soloSnapshot t p).set.includes p) = true := by
      have hself : (soloSet t p).includes p = true := by simp [soloSet_addrs]
      simp [soloSnapshot, hself]
    rw [advance, if_neg hmem, if_neg hnum, if_neg hminer, hvote]
  have hps := (soloStore_current t p).processSigned C hepoch hpos hlt t p
  rw [hadv] at hps
  obtain ⟨s', hs', -, hcur⟩ := hps
  obtain ⟨cur, hfind, hcopy⟩ := hcur.find _ le_rfl
  have hset : cur.set = snap.set := (mk.inj hcopy).2.2.2
  refine ⟨cur.set, ?_, hset ▸ hin⟩
  simp only [SnapshotStore.after, SnapshotStore.processHeader, hs, hs',
    SnapshotStore.getValidatorsByHeight, hfind]

end Solo

section Seals

variable {P : Crypto.Primitives} {S : SignerImpl} {h₁ h₂ : Header} {h f₁ f₂ : Header}

theorem filterHeaderForHash_fields {f : Header} (hf : S.filterHeaderForHash P h = .ok f) :
    f.number = h.number ∧ f.miner = h.miner := by
  simp only [SignerImpl.filterHeaderForHash, bind_eq_ok] at hf
  obtain ⟨extra, -, hf⟩ := hf
  split at hf <;> simp only [bind_eq_ok] at hf
  · obtain ⟨parent, -, hf⟩ := hf
    cases hf
    exact ⟨rfl, rfl⟩
  · obtain ⟨num, -, parent, -, hf⟩ := hf
    cases hf
    exact ⟨rfl, rfl⟩

theorem number_miner_of_hashedFields (h : hashedFields f₁ = hashedFields f₂) :
    f₁.number = f₂.number ∧ f₁.miner = f₂.miner := by
  simp only [hashedFields, Rlp.newUint, cons.injEq, Item.bytes.injEq] at h
  obtain ⟨-, -, hminer, -, -, -, -, -, hnumber, -⟩ := h
  exact ⟨BigEndian.toBytes_injective hnumber, hminer⟩

theorem isAuthorize_of_verifyHeader (hv : verifyHeader h = .ok ()) :
    ∃ b, isAuthorize h.nonce = .ok b := by
  by_cases hauth : h.nonce = nonceAuthVote
  · exact ⟨true, if_pos hauth⟩
  by_cases hdrop : h.nonce = nonceDropVote
  · exact ⟨false, (if_neg hauth).trans (if_pos hdrop)⟩
  · rw [verifyHeader, if_pos ⟨hauth, hdrop⟩] at hv
    cases hv

theorem nonce_eq_of_isAuthorize {n₁ n₂ : Nonce} {b : Bool} (h₁ : isAuthorize n₁ = .ok b)
    (h₂ : isAuthorize n₂ = .ok b) : n₁ = n₂ := by
  rw [isAuthorize] at h₁ h₂
  split_ifs at h₁ h₂ <;> simp_all

/-- Two accepted headers with the same IBFT hash act alike on every store exactly when they have
the same nonce or carry no vote: the hash does not cover the direction of the vote. -/
theorem sealed_vote_iff (P : Crypto.Primitives) (S : SignerImpl) (C : SnapshotConfig)
    (h₁ h₂ : Header) {x : Hash} {t : ValidatorType} {p : Address}
    (hx₁ : S.calculateHeaderHash P h₁ = .ok x) (hx₂ : S.calculateHeaderHash P h₂ = .ok x)
    (hinj : ∀ f₁ f₂, S.filterHeaderForHash P h₁ = .ok f₁ → S.filterHeaderForHash P h₂ = .ok f₂ →
      calculateHeaderHash P f₁ = calculateHeaderHash P f₂ → hashedFields f₁ = hashedFields f₂)
    (hv₁ : verifyHeader h₁ = .ok ()) (hv₂ : verifyHeader h₂ = .ok ())
    (hs₁ : signerOf C h₁ = .ok (t, p))
    (hs₂ : signerOf C h₂ = .ok (t, p)) (hlt : h₁.number < 2 ^ 64) :
    (∀ s : SnapshotStore, SameBoards (s.after C h₁) (s.after C h₂)) ↔
      h₁.nonce = h₂.nonce ∨ C.epochSize = 0 ∨ h₁.number % C.epochSize = 0 ∨
        h₁.miner = zeroAddress.bytes ∨ ∀ c, minerToValidator C t h₁.miner ≠ .ok c := by
  obtain ⟨f₁, hf₁, hx₁⟩ := bind_eq_ok.mp hx₁
  obtain ⟨f₂, hf₂, hx₂⟩ := bind_eq_ok.mp hx₂
  obtain ⟨hn₁, hm₁⟩ := filterHeaderForHash_fields hf₁
  obtain ⟨hn₂, hm₂⟩ := filterHeaderForHash_fields hf₂
  have hhash : calculateHeaderHash P f₁ = calculateHeaderHash P f₂ :=
    (ok.inj hx₁).trans (ok.inj hx₂).symm
  obtain ⟨hn, hm⟩ := number_miner_of_hashedFields (hinj f₁ f₂ hf₁ hf₂ hhash)
  rw [hn₁, hn₂] at hn
  rw [hm₁, hm₂] at hm
  obtain ⟨b₁, hb₁⟩ := isAuthorize_of_verifyHeader hv₁
  obtain ⟨b₂, hb₂⟩ := isAuthorize_of_verifyHeader hv₂
  constructor
  · intro hsame
    by_contra hcond
    simp only [not_or, not_forall, not_not] at hcond
    obtain ⟨hnonce, h0, hepoch, hminer, c, hc⟩ := hcond
    -- the store with the proposer as its only validator tells the two directions apart
    obtain ⟨set₁, hset₁, hin₁⟩ := solo_after h0 hepoch hlt hminer hs₁ hb₁ hc
    obtain ⟨set₂, hset₂, hin₂⟩ := solo_after h0 (hn ▸ hepoch) (hn ▸ hlt) (hm ▸ hminer) hs₂ hb₂
      (hm ▸ hc)
    have heq := (hsame (soloStore t p) h₁.number).1
    rw [hset₁, hn, hset₂, Except.ok.injEq] at heq
    have hb : b₁ = b₂ := by rw [← hin₁, ← hin₂, heq]
    exact hnonce (nonce_eq_of_isAuthorize hb₁ (hb ▸ hb₂))
  · intro hcond s
    refine s.sameBoards_after C hs₁ hs₂ ?_
    refine s.processSigned_forgetHash C hn hm fun h0 hepoch hminer snap ↦ ?_
    simp only [processVote, ← hm]
    rcases hcond with hnonce | h | h | h | hparse
    · rw [hnonce]
    · exact absurd h h0
    · exact absurd h hepoch
    · exact absurd h hminer
    · rw [hb₁, hb₂]
      cases hc : minerToValidator C t h₁.miner with
      | error e => rfl
      | ok c => exact absurd hc (hparse c)

def proposerAddress : Address :=
  bytesToAddress (BigEndian.toBytes 0x7e5f4552091a69125d5dfcb7b8c2659029395bdf)

def headerDigest : Hash := bytesToHash <| BigEndian.toBytes
  0x65a731907a52bffc2f475a049ae1a7d8ac79a1e81e8506946ce556039a79d651

def headerPrimitives : Crypto.Primitives :=
  Crypto.ecdsaPrimitives ⟨encode, decode⟩ (fun _ ↦ headerDigest) fun _ _ ↦ none

def headerConfig : SnapshotConfig where
  marshal := encode
  parse := decode
  getSigner _ := .ok (some ⟨.ecdsa, fun _ ↦ some proposerAddress⟩)
  epochSize := 100

def headerSigner : SignerImpl := ⟨.ecdsa, none⟩

def headerWithNonce (nonce : Nonce) : Header :=
  { (default : Header) with
    number := 1
    miner := (bytesToAddress [9]).bytes
    nonce := nonce
    extraData := replicate 32 0 ++ encode
      (.array [.array [.bytes proposerAddress.bytes], .bytes [], .array []]) }

theorem headerWithNonce_fields
    (hf₁ : headerSigner.filterHeaderForHash headerPrimitives (headerWithNonce nonceAuthVote) = .ok f₁)
    (hf₂ : headerSigner.filterHeaderForHash headerPrimitives (headerWithNonce nonceDropVote) = .ok f₂) :
    hashedFields f₁ = hashedFields f₂ := by
  have hself : ∀ n, n = nonceAuthVote ∨ n = nonceDropVote →
      headerSigner.filterHeaderForHash headerPrimitives (headerWithNonce n) =
        .ok (headerWithNonce n) := by
    rintro n (rfl | rfl) <;> decide +kernel
  cases (hself _ (.inl rfl)).symm.trans hf₁
  cases (hself _ (.inr rfl)).symm.trans hf₂
  rfl

theorem sealed_vote_iff_nonces :
    ¬ ∀ s : SnapshotStore, SameBoards (s.after headerConfig (headerWithNonce nonceAuthVote))
      (s.after headerConfig (headerWithNonce nonceDropVote)) := by
  have hiff := sealed_vote_iff headerPrimitives headerSigner headerConfig
    (headerWithNonce nonceAuthVote) (headerWithNonce nonceDropVote)
    (x := headerDigest) (t := .ecdsa) (p := proposerAddress) (by decide +kernel) (by decide +kernel)
    (fun f₁ f₂ hf₁ hf₂ _ ↦ headerWithNonce_fields hf₁ hf₂) (by decide +kernel) (by decide +kernel)
    rfl rfl (by decide +kernel)
  rw [hiff]
  rintro (h | h | h | h | h)
  · exact absurd h (by decide +kernel)
  · exact absurd h (by decide +kernel)
  · exact absurd h (by decide +kernel)
  · exact absurd h (by decide +kernel)
  · exact h _ rfl

/-- The same seals are valid for the vote to add and for the vote to drop address 9, and the store
with the proposer as its only validator follows either. -/
theorem sealed_vote_not_authenticated :
    ¬ ∀ (P : Crypto.Primitives) (S : SignerImpl) (C : SnapshotConfig) (h₁ h₂ : Header)
      (x : Hash) (t : ValidatorType) (p : Address),
      S.calculateHeaderHash P h₁ = .ok x → S.calculateHeaderHash P h₂ = .ok x →
      (∀ f₁ f₂, S.filterHeaderForHash P h₁ = .ok f₁ → S.filterHeaderForHash P h₂ = .ok f₂ →
        calculateHeaderHash P f₁ = calculateHeaderHash P f₂ → hashedFields f₁ = hashedFields f₂) →
      verifyHeader h₁ = .ok () → verifyHeader h₂ = .ok () →
      signerOf C h₁ = .ok (t, p) → signerOf C h₂ = .ok (t, p) →
      ∀ s : SnapshotStore, SameBoards (s.after C h₁) (s.after C h₂) := by
  intro hall
  have hsame := hall headerPrimitives headerSigner headerConfig (headerWithNonce nonceAuthVote)
    (headerWithNonce nonceDropVote) headerDigest .ecdsa proposerAddress (by decide +kernel)
    (by decide +kernel) (fun f₁ f₂ hf₁ hf₂ _ ↦ headerWithNonce_fields hf₁ hf₂) (by decide +kernel)
    (by decide +kernel) rfl rfl (soloStore .ecdsa proposerAddress) 1
  exact absurd hsame.1 (by decide +kernel)

end Seals

end Mainnet.Validators
