import Mainnet.Validators.SnapshotInvariants

namespace Mainnet.Validators

open Types Lib List Option Outcome Tracked Snapshot Validator SnapshotStore

structure Candidate where
  validator : Validator
  authorize : Bool
deriving DecidableEq

inductive ProposeError
  | alreadyCandidate
  | snapshotNotFound
  | candidateIsValidator
  | candidateNotExistInSet
  | alreadyVoted
deriving DecidableEq

def validatorToMiner (R : Fastrlp) (validator : Validator) : Bytes :=
  match validator with
  | .ecdsa address => address.bytes
  | .bls _ _ => R.marshal validator.marshalRLPWith

structure SnapshotValidatorStore where
  store : SnapshotStore
  candidates : List Candidate
deriving DecidableEq

open SnapshotValidatorStore

namespace SnapshotValidatorStore

variable (st : SnapshotValidatorStore)

/-- For a removal the validator is taken from the set; the index is one of its positions. -/
def addCandidate (validators : ValidatorSet) (candidate : Validator) (authorize : Bool) :
    Except ProposeError SnapshotValidatorStore :=
  if authorize then .ok { st with candidates := st.candidates ++ [⟨candidate, authorize⟩] }
  else
    match (validators.index candidate.addr).bind fun i ↦ validators.validators[i]? with
    | none => .error .candidateNotExistInSet
    | some validator => .ok { st with candidates := st.candidates ++ [⟨validator, authorize⟩] }

def propose (candidate : Validator) (auth : Bool) (proposer : Address) :
    Except ProposeError SnapshotValidatorStore :=
  if st.candidates.any fun c ↦ decide (c.validator.addr = candidate.addr) then
    .error .alreadyCandidate
  else
    match st.store.getLatestSnapshot with
    | none => .error .snapshotNotFound
    | some snap =>
      let included := snap.set.includes candidate.addr
      if auth && included then .error .candidateIsValidator
      else if !auth && !included then .error .candidateNotExistInSet
      else if snap.countByVoterAndCandidate proposer candidate = 1 then .error .alreadyVoted
      else st.addCandidate snap.set candidate auth

def cleanObsoleteCandidates (set : ValidatorSet) : SnapshotValidatorStore :=
  { st with
    candidates := st.candidates.filter fun c ↦ c.authorize != set.includes c.validator.addr }

/-- The first candidate whose address the proposer has not voted on. -/
def pickOneCandidate (snap : Snapshot) (proposer : Address) : Option Candidate :=
  st.candidates.find? fun c ↦ decide
    (snap.count (fun v ↦ decide (v.candidate.addr = c.validator.addr) &&
      decide (v.validator = proposer)) = 0)

def getNextCandidate (snap : Snapshot) (proposer : Address) :
    Option Candidate × SnapshotValidatorStore :=
  let cleaned := st.cleanObsoleteCandidates snap.set
  (cleaned.pickOneCandidate snap proposer, cleaned)

def vote (R : Fastrlp) (header : Header) (candidate : Candidate) : Header :=
  { header with
    miner := validatorToMiner R candidate.validator
    nonce := if candidate.authorize then nonceAuthVote else nonceDropVote }

def modifyHeader (R : Fastrlp) (header : Header) (proposer : Address) :
    Except StoreError (Header × SnapshotValidatorStore) :=
  match st.store.find header.number with
  | none => .error .snapshotNotFound
  | some snapshot =>
    let (next, st') := st.getNextCandidate snapshot proposer
    match next with
    | none => .ok (header, st')
    | some candidate => .ok (vote R header candidate, st')

def processHeader (C : SnapshotConfig) (header : Header) : Outcome StoreError SnapshotValidatorStore :=
  (st.store.processHeader C header).map fun s ↦ { st with store := s }

end SnapshotValidatorStore

inductive StoreCall
  | propose (candidate : Validator) (auth : Bool) (proposer : Address)
  | modifyHeader (header : Header) (proposer : Address)
  | processHeader (header : Header)

namespace StoreCall

variable (C : SnapshotConfig) (t : ValidatorType)

def step (st : SnapshotValidatorStore) : StoreCall → SnapshotValidatorStore
  | .propose candidate auth proposer =>
    match st.propose candidate auth proposer with
    | .error _ => st
    | .ok st' => st'
  | .modifyHeader header proposer =>
    match st.modifyHeader C.toFastrlp header proposer with
    | .error _ => st
    | .ok (_, st') => st'
  | .processHeader header =>
    match st.processHeader C header with
    | .ok st' => st'
    | _ => st

/-- Candidates are proposed with the type of the signer, and headers come in the order of the
chain. -/
def Regular (st : SnapshotValidatorStore) : StoreCall → Prop
  | .propose candidate _ _ => candidate.type = t
  | .modifyHeader _ _ => True
  | .processHeader header => st.store.lastNumber < header.number ∧ header.number < 2 ^ 64

end StoreCall

variable {C : SnapshotConfig} {t : ValidatorType}

theorem addsOrDelsCandidate_succeeds {set : ValidatorSet} {c : Validator} {b : Bool}
    (hc : c.type = set.validatorType) (hb : b = !set.includes c.addr) :
    ∃ set', addsOrDelsCandidate set c b = .ok set' := by
  have htype : ¬ set.validatorType ≠ c.type := not_not.mpr hc.symm
  cases b with
  | true =>
    have hnot : set.includes c.addr = false := by simpa using hb
    rw [addsOrDelsCandidate, if_pos rfl, ValidatorSet.add, dif_neg htype, hnot, if_neg (by decide)]
    exact ⟨_, rfl⟩
  | false =>
    have hin : set.includes c.addr = true := by simpa using hb
    obtain ⟨i, hi⟩ := isSome_iff_exists.mp hin
    rw [addsOrDelsCandidate, if_neg (by decide), ValidatorSet.del, if_neg htype, hi]
    exact ⟨_, rfl⟩

namespace Snapshot

variable {s s' : Snapshot} {candidate : Validator} {authorize : Bool} {header : Header}
  {proposer : Address}

theorem applyTally_succeeds (hc : candidate.type = s.set.validatorType)
    (hb : authorize = !s.set.includes candidate.addr) :
    ∃ s', s.applyTally candidate authorize = .ok s' := by
  rw [applyTally]
  by_cases hmaj : s.countByCandidate candidate > s.set.len / 2
  · obtain ⟨set', hset⟩ := addsOrDelsCandidate_succeeds hc hb
    rw [if_pos hmaj, hset]
    exact ⟨_, rfl⟩
  · rw [if_neg hmaj]
    exact ⟨s, rfl⟩

theorem castVote_fresh (h : ∀ v ∈ s.votes, v.validator = proposer → v.candidate ≠ candidate) :
    s.castVote proposer candidate authorize = .ok (s.addVote proposer candidate authorize) := by
  have hcount : s.countByVoterAndCandidate proposer candidate = 0 := by
    rw [countByVoterAndCandidate, count, countP_eq_zero]
    intro v hv hboth
    rw [Bool.and_eq_true, decide_eq_true_eq, Validator.equal_iff] at hboth
    exact h v hv hboth.1 hboth.2
  simp [castVote, hcount]

theorem advance_type (h : s.advance C header t proposer = .ok s') :
    s'.set.validatorType = s.set.validatorType := by
  rw [advance] at h
  split_ifs at h
  · cases h
    rfl
  · cases h
    rfl
  · obtain ⟨authorize, candidate, -, -, hcase⟩ := processVote_ok h
    rcases hcase with rfl | ⟨-, voted, hvoted, htally⟩
    · rfl
    · have hset : voted.set = s.set := by
        rcases castVote_ok hvoted with rfl | ⟨rfl, -⟩ <;> rfl
      rcases applyTally_ok htally with rfl | ⟨-, hadds, -, -⟩
      · rw [hset]
      · rw [(addsOrDelsCandidate_ok hadds).1, hset]

end Snapshot

theorem minerToValidator_validatorToMiner (hC : C.toFastrlp.Faithful) (v : Validator) :
    minerToValidator C v.type (validatorToMiner C.toFastrlp v) = .ok v := by
  cases v with
  | ecdsa a => exact congrArg (fun a ↦ Except.ok (ecdsa a)) (FixedBytes.ofBytes_bytes a)
  | bls a k =>
    simp [minerToValidator, validatorToMiner, type, hC.parse_marshal,
      marshalRLPWith, unmarshalRLPFrom, Rlp.getElems, Rlp.getAddr, Rlp.getBytes, a.length_eq]

variable {v : Validator} {header signed : Header} {proposer : Address} {parent : Snapshot}

theorem validatorToMiner_ne_zero (hC : C.toFastrlp.TagsLists)
    (hv : v.addr ≠ zeroAddress) : validatorToMiner C.toFastrlp v ≠ zeroAddress.bytes := by
  cases v with
  | ecdsa a => exact fun h ↦ hv (FixedBytes.ext h)
  | bls a k =>
    intro h
    obtain ⟨tag, rest, hmarshal, htag⟩ := hC [.bytes a.bytes, .bytes k]
    have hzero : tag :: rest = zeroAddress.bytes := hmarshal.symm.trans h
    rw [(cons.inj hzero).1] at htag
    exact absurd htag (by decide)

structure Ready (t : ValidatorType) (calls : List StoreCall) (st : SnapshotValidatorStore) : Prop where
  current : ∃ board, st.store.Current st.store.lastNumber board ∧ board.set.validatorType = t
  distinct : (st.candidates.map fun c ↦ c.validator.addr).Nodup
  typed : ∀ c ∈ st.candidates, c.validator.type = t
  proposed : ∀ c ∈ st.candidates, ∃ v proposer,
    StoreCall.propose v c.authorize proposer ∈ calls ∧ v.addr = c.validator.addr

namespace SnapshotValidatorStore

variable {st st' : SnapshotValidatorStore} {validators : ValidatorSet} {candidate : Validator}
  {authorize : Bool} {proposer : Address}

theorem addCandidate_ok (h : st.addCandidate validators candidate authorize = .ok st') :
    ∃ v, st' = { st with candidates := st.candidates ++ [⟨v, authorize⟩] } ∧
      v.addr = candidate.addr ∧ (v = candidate ∨ v ∈ validators.validators) := by
  rw [addCandidate] at h
  cases authorize with
  | true =>
    exact ⟨candidate, (Except.ok.inj h).symm, rfl, .inl rfl⟩
  | false =>
    rw [if_neg (by decide)] at h
    split at h
    · cases h
    · rename_i v hv
      obtain ⟨i, hi, hat⟩ := bind_eq_some_iff.mp hv
      obtain ⟨hlt, haddr, -⟩ := findIdx?_eq_some_iff_getElem.mp hi
      obtain ⟨hlt', rfl⟩ := List.getElem?_eq_some_iff.mp hat
      exact ⟨_, (Except.ok.inj h).symm, of_decide_eq_true haddr, .inr (getElem_mem hlt)⟩

theorem propose_ok (h : st.propose candidate authorize proposer = .ok st') :
    (∀ c ∈ st.candidates, c.validator.addr ≠ candidate.addr) ∧ ∃ snap,
      st.store.getLatestSnapshot = some snap ∧
      st.addCandidate snap.set candidate authorize = .ok st' := by
  rw [propose] at h
  split_ifs at h with hany
  split at h
  · cases h
  · rename_i snap hsnap
    dsimp only at h
    split_ifs at h
    refine ⟨fun c hc heq ↦ hany ?_, snap, hsnap, h⟩
    exact any_eq_true.mpr ⟨c, hc, decide_eq_true heq⟩

theorem modifyHeader_ok {R : Fastrlp} {header header' : Header}
    (h : st.modifyHeader R header proposer = .ok (header', st')) :
    ∃ snap, st.store.find header.number = some snap ∧ st' = st.cleanObsoleteCandidates snap.set := by
  rw [modifyHeader] at h
  split at h
  · cases h
  · rename_i snap hsnap
    refine ⟨snap, hsnap, ?_⟩
    dsimp only [getNextCandidate] at h
    split at h <;> exact (Prod.mk.inj (Except.ok.inj h)).2.symm

theorem getNextCandidate_some {snap : Snapshot} {c : Candidate}
    (hpick : (st.getNextCandidate snap proposer).1 = some c) :
    c ∈ st.candidates ∧ c.authorize = (!snap.set.includes c.validator.addr) ∧
      ∀ v ∈ snap.votes, v.validator = proposer → v.candidate.addr ≠ c.validator.addr := by
  obtain ⟨hin, hdir⟩ := mem_filter.mp (mem_of_find?_eq_some hpick)
  refine ⟨hin, Bool.eq_not.mpr (by simpa using hdir), fun v hv hp hc ↦ ?_⟩
  have hcount := find?_some hpick
  rw [decide_eq_true_eq, Snapshot.count, countP_eq_zero] at hcount
  exact hcount v hv (by simp [hp, hc])

end SnapshotValidatorStore

namespace Ready

variable {calls : List StoreCall} {st st' : SnapshotValidatorStore} {candidate : Validator}
  {auth : Bool} {proposer : Address} {header : Header}

section

variable (h : Ready t calls st)
include h

theorem propose (ht : candidate.type = t)
    (hcall : StoreCall.propose candidate auth proposer ∈ calls)
    (hok : st.propose candidate auth proposer = .ok st') : Ready t calls st' := by
  obtain ⟨hfresh, snap, hsnap, hadd⟩ := propose_ok hok
  obtain ⟨v, rfl, haddr, hv⟩ := addCandidate_ok hadd
  obtain ⟨board, hcur, hboard⟩ := h.current
  have htype : v.type = t := by
    rcases hv with rfl | hv
    · exact ht
    · obtain ⟨cur, hlatest, hcopy⟩ := hcur.latest
      obtain rfl : cur = snap := some.inj (hlatest.symm.trans hsnap)
      rw [cur.set.typed v hv, (mk.inj hcopy).2.2.2, hboard]
  refine ⟨⟨board, hcur, hboard⟩, ?_, fun c hc ↦ ?_, fun c hc ↦ ?_⟩
  · rw [map_append, map_singleton, ← concat_eq_append, nodup_concat]
    refine ⟨fun hmem ↦ ?_, h.distinct⟩
    obtain ⟨c, hc, heq⟩ := mem_map.mp hmem
    exact hfresh c hc (heq.trans haddr)
  · rcases mem_append.mp hc with hc | hc
    · exact h.typed c hc
    · rw [mem_singleton.mp hc]
      exact htype
  · rcases mem_append.mp hc with hc | hc
    · exact h.proposed c hc
    · rw [mem_singleton.mp hc]
      exact ⟨candidate, proposer, hcall, haddr.symm⟩

theorem cleanObsoleteCandidates (set : ValidatorSet) :
    Ready t calls (st.cleanObsoleteCandidates set) := by
  have hsub : (st.cleanObsoleteCandidates set).candidates.Sublist st.candidates :=
    filter_sublist
  exact ⟨h.current, h.distinct.sublist (hsub.map _), fun c hc ↦ h.typed c (hsub.subset hc),
    fun c hc ↦ h.proposed c (hsub.subset hc)⟩

theorem processHeader (hn : st.store.lastNumber < header.number)
    (hlt : header.number < 2 ^ 64) (hok : st.processHeader C header = .ok st') :
    Ready t calls st' := by
  obtain ⟨s', hs', rfl⟩ := map_eq_ok.mp hok
  obtain ⟨board, hcur, hboard⟩ := h.current
  obtain ⟨_, snap, -, hadv, hlast, hcur'⟩ := hcur.processHeader hn hlt hs'
  refine ⟨⟨snap, ?_, ?_⟩, h.distinct, h.typed, h.proposed⟩
  · show s'.Current s'.lastNumber snap
    rwa [hlast]
  · rw [advance_type hadv, hboard]

theorem step (call : StoreCall) (hcall : call ∈ calls)
    (hreg : call.Regular t st) : Ready t calls (call.step C st) := by
  cases call with
  | propose candidate auth proposer =>
    rw [StoreCall.step]
    split
    · exact h
    · rename_i st' hok
      exact h.propose hreg hcall hok
  | modifyHeader header proposer =>
    rw [StoreCall.step]
    split
    · exact h
    · rename_i header' st' hok
      obtain ⟨snap, -, rfl⟩ := modifyHeader_ok hok
      exact h.cleanObsoleteCandidates snap.set
  | processHeader header =>
    rw [StoreCall.step]
    split
    · rename_i st' hok
      exact h.processHeader hreg.1 hreg.2 hok
    · exact h

end

end Ready

theorem processVote_fresh {s : Snapshot} {authorize : Bool}
    (ha : isAuthorize header.nonce = .ok authorize) (hv : minerToValidator C t header.miner = .ok v)
    (hdir : authorize = !s.set.includes v.addr)
    (hfresh : ∀ w ∈ s.votes, w.validator = proposer → w.candidate ≠ v) :
    processVote C s header t proposer = (s.addVote proposer v authorize).applyTally v authorize := by
  have hshould : ¬ (!shouldProcessVote s.set v.addr authorize) = true := by
    simpa [shouldProcessVote] using Bool.eq_not.mp hdir
  have hcast : s.castVote proposer v authorize = .ok (s.addVote proposer v authorize) :=
    castVote_fresh hfresh
  rw [processVote, ha, hv]
  refine (if_neg hshould).trans ?_
  rw [hcast]
  rfl

theorem Snapshot.advance_vote (hfaithful : C.toFastrlp.Faithful) (htags : C.toFastrlp.TagsLists)
    {candidate : Candidate}
    (hminer : signed.miner = (vote C.toFastrlp header candidate).miner)
    (hnonce : signed.nonce = (vote C.toFastrlp header candidate).nonce)
    (hepoch : signed.number % C.epochSize ≠ 0) (hin : parent.set.includes proposer = true)
    (hzero : candidate.validator.addr ≠ zeroAddress)
    (hdir : candidate.authorize = !parent.set.includes candidate.validator.addr)
    (hfresh : ∀ v ∈ parent.votes, v.validator = proposer → v.candidate ≠ candidate.validator) :
    parent.advance C signed candidate.validator.type proposer =
      (parent.copy.addVote proposer candidate.validator candidate.authorize).applyTally
        candidate.validator candidate.authorize := by
  have hno : ¬ signed.miner = zeroAddress.bytes := by
    rw [hminer]
    exact validatorToMiner_ne_zero htags hzero
  rw [advance, if_neg (by simp [hin]), if_neg hepoch, if_neg hno]
  apply processVote_fresh
  · rw [hnonce, vote]
    cases candidate.authorize <;> rfl
  · rw [hminer]
    exact minerToValidator_validatorToMiner hfaithful candidate.validator
  · exact hdir
  · exact hfresh

theorem SnapshotStore.Current.processed {s : SnapshotStore} {board tallied : Snapshot}
    (hcur : s.Current s.lastNumber board) (hC : C.epochSize ≠ 0)
    (hlater : s.lastNumber < signed.number) (hlt : signed.number < 2 ^ 64)
    (hsigner : signerOf C signed = .ok (t, proposer))
    (hcopy : parent.copy = board.copy) (hadv : parent.advance C signed t proposer = .ok tallied) :
    ∃ s' after, s.processHeader C signed = .ok s' ∧ s'.find signed.number = some after ∧
      after.copy = tallied.copy := by
  have hprocessed := hcur.processSigned C hC hlater hlt t proposer
  rw [← advance_congr C hcopy, hadv] at hprocessed
  obtain ⟨s', hs', -, hcur'⟩ := hprocessed
  obtain ⟨after, hafter, hsame⟩ := hcur'.find signed.number le_rfl
  refine ⟨s', after, ?_, hafter, hsame⟩
  rw [SnapshotStore.processHeader, hsigner]
  exact hs'

/-- The candidate addresses are distinct in every state, and a vote that `ModifyHeader` writes into
the next header is one new vote of its proposer when the signed header is processed. -/
theorem modifyHeader_vote_counts (C : SnapshotConfig) (hfaithful : C.toFastrlp.Faithful)
    (htags : C.toFastrlp.TagsLists) (t : ValidatorType) (s₀ : SnapshotStore) (board : Snapshot)
    (hstart : s₀.Current s₀.lastNumber board) (htype : board.set.validatorType = t)
    (calls : List StoreCall) (st : SnapshotValidatorStore)
    (hrun : Run.Admits (fun st call ↦ call.step C st) (fun st call ↦ call.Regular t st)
      ⟨s₀, []⟩ calls)
    (hst : st = Run.exec (fun st call ↦ call.step C st) ⟨s₀, []⟩ calls) :
    (st.candidates.map fun c ↦ c.validator.addr).Nodup ∧
    ∀ (header : Header) (proposer : Address) (snap : Snapshot) (candidate : Candidate),
      header.number = st.store.lastNumber + 1 → header.number < 2 ^ 64 → C.epochSize ≠ 0 →
      header.number % C.epochSize ≠ 0 → st.store.find header.number = some snap →
      snap.set.includes proposer = true →
      (st.getNextCandidate snap proposer).1 = some candidate →
      candidate.validator.addr ≠ zeroAddress →
      (∃ v p, StoreCall.propose v candidate.authorize p ∈ calls ∧
        v.addr = candidate.validator.addr) ∧
      ∃ header' st', st.modifyHeader C.toFastrlp header proposer = .ok (header', st') ∧
        ∀ signed : Header, signed.number = header'.number → signed.miner = header'.miner →
          signed.nonce = header'.nonce → signerOf C signed = .ok (t, proposer) →
          ∃ parent voted tallied s' after, st'.store.find (signed.number - 1) = some parent ∧
            (∀ v ∈ parent.votes, v.validator = proposer → v.candidate ≠ candidate.validator) ∧
            parent.copy.castVote proposer candidate.validator candidate.authorize = .ok voted ∧
            voted.set = parent.set ∧ voted.votes =
              parent.votes ++ [⟨proposer, candidate.validator, candidate.authorize⟩] ∧
            voted.applyTally candidate.validator candidate.authorize = .ok tallied ∧
            st'.processHeader C signed = .ok { st' with store := s' } ∧
            s'.find signed.number = some after ∧ after.copy = tallied.copy ∧
            (after.set = parent.set ∧ after.votes =
                parent.votes ++ [⟨proposer, candidate.validator, candidate.authorize⟩] ∨
              addsOrDelsCandidate parent.set candidate.validator candidate.authorize =
                .ok after.set) := by
  have hinit : Ready t calls ⟨s₀, []⟩ := ⟨⟨board, hstart, htype⟩, by simp, by simp, by simp⟩
  have hready : Ready t calls st := by
    rw [hst]
    exact (hrun.and_mem fun call hcall ↦ hcall).invariant hinit fun st call h hok ↦
      h.step call hok.2 hok.1
  refine ⟨hready.distinct, ?_⟩
  intro header proposer snap candidate hn hlt hC hepoch hsnap hin hpick hzero
  obtain ⟨hmem, hdir, hfresh⟩ := getNextCandidate_some hpick
  have hcandidate := hready.typed candidate hmem
  refine ⟨hready.proposed candidate hmem, vote C.toFastrlp header candidate,
    st.cleanObsoleteCandidates snap.set, ?_, ?_⟩
  · rw [modifyHeader, hsnap]
    dsimp only
    rw [hpick]
    rfl
  intro signed hnum hminer hnonce hsigner
  replace hnum : signed.number = header.number := hnum
  obtain ⟨board', hcur, htype'⟩ := hready.current
  -- the snapshot that the header was made for and its parent have the same votes and set
  obtain ⟨snap', hfind, hcopy⟩ := hcur.find header.number (by omega)
  obtain rfl : snap' = snap := some.inj (hfind.symm.trans hsnap)
  obtain ⟨parent, hparent, hcopy'⟩ := hcur.find (signed.number - 1) (by omega)
  obtain ⟨-, -, hvotes, hset⟩ := mk.inj (hcopy'.trans hcopy.symm)
  rw [← hset] at hdir hin
  rw [← hvotes] at hfresh
  have hfresh' : ∀ v ∈ parent.votes, v.validator = proposer → v.candidate ≠ candidate.validator :=
    fun v hv hp heq ↦ hfresh v hv hp (congrArg addr heq)
  have hset' : parent.set.validatorType = t := by
    rw [(mk.inj hcopy').2.2.2, htype']
  obtain ⟨tallied, htally⟩ := applyTally_succeeds
    (s := parent.copy.addVote proposer candidate.validator candidate.authorize)
    (hcandidate.trans hset'.symm : candidate.validator.type = parent.set.validatorType) hdir
  have hadv : parent.advance C signed t proposer = .ok tallied := by
    rw [← hcandidate, ← htally]
    exact advance_vote hfaithful htags hminer hnonce (by rwa [hnum]) hin hzero hdir hfresh'
  obtain ⟨s', after, hheader, hafter, hsame⟩ :=
    hcur.processed hC (by omega) (by omega) hsigner hcopy' hadv
  refine ⟨parent, _, tallied, s', after, hparent, hfresh', castVote_fresh hfresh', rfl, rfl, htally,
    map_eq_ok.mpr ⟨s', hheader, rfl⟩, hafter, hsame, ?_⟩
  obtain ⟨-, -, hvotes', hset''⟩ := mk.inj hsame
  rcases applyTally_ok htally with rfl | ⟨-, hadds, -, -⟩
  · exact .inl ⟨hset'', hvotes'⟩
  · exact .inr (hadds.trans (congrArg _ hset''.symm))

noncomputable def blsConfig : SnapshotConfig :=
  { rlpCodec with
    getSigner := fun _ ↦ .ok (some ⟨.bls, fun header ↦ some (bytesToAddress header.extraData)⟩)
    epochSize := 100 }

def proposeNine : List StoreCall :=
  [.propose (.bls (addressOf 9) [7]) true (addressOf 1),
    .processHeader (voteHeader 1 1 zeroAddress.bytes nonceDropVote)]

def nineProposed : SnapshotValidatorStore :=
  ⟨⟨1, [blsPair]⟩, [⟨.bls (addressOf 9) [7], true⟩]⟩

theorem modifyHeader_vote_counts_bls :
    ∃ header' st' s' after, nineProposed.modifyHeader rlpCodec (voteHeader 2 2 [] nonceDropVote)
        (addressOf 2) = .ok (header', st') ∧
      st'.processHeader blsConfig header' = .ok { st' with store := s' } ∧
      s'.find 2 = some after ∧ after.votes = [⟨addressOf 2, .bls (addressOf 9) [7], true⟩] := by
  have hcounts := (modifyHeader_vote_counts blsConfig rlpCodec_faithful rlpCodec_tagsLists .bls
    ⟨0, [blsPair]⟩ blsPair (current_single _ rfl) rfl proposeNine nineProposed
    ⟨rfl, ⟨by decide +kernel, by decide⟩, trivial⟩ (by decide +kernel)).2
  obtain ⟨-, header', st', hmodify, hsigned⟩ :=
    hcounts (voteHeader 2 2 [] nonceDropVote) (addressOf 2) blsPair
      ⟨.bls (addressOf 9) [7], true⟩ rfl (by decide) (by decide) (by decide)
      (by decide +kernel) (by decide +kernel) (by decide +kernel) (by decide)
  obtain ⟨rfl, rfl⟩ : vote rlpCodec (voteHeader 2 2 [] nonceDropVote) ⟨.bls (addressOf 9) [7], true⟩ =
      header' ∧ nineProposed = st' := by
    have hvote : nineProposed.modifyHeader rlpCodec (voteHeader 2 2 [] nonceDropVote)
        (addressOf 2) = .ok (vote rlpCodec (voteHeader 2 2 [] nonceDropVote)
          ⟨.bls (addressOf 9) [7], true⟩, nineProposed) := by
      decide +kernel
    exact Prod.mk.inj (Except.ok.inj (hvote.symm.trans hmodify))
  obtain ⟨parent, voted, tallied, s', after, hparent, -, hcast, -, -, htally, hprocess, hafter,
    hsame, -⟩ := hsigned _ rfl rfl rfl rfl
  obtain rfl : blsPair = parent :=
    some.inj ((by decide +kernel : _ = some blsPair).symm.trans hparent)
  have hvoted : (blsPair.copy.castVote (addressOf 2) (.bls (addressOf 9) [7]) true >>= fun voted ↦
      voted.applyTally (.bls (addressOf 9) [7]) true) =
      .ok ⟨0, zeroHash, [⟨addressOf 2, .bls (addressOf 9) [7], true⟩], blsPair.set⟩ := by
    decide +kernel
  rw [hcast] at hvoted
  obtain rfl := Except.ok.inj (htally.symm.trans hvoted)
  exact ⟨_, _, s', after, hmodify, hprocess, hafter, (mk.inj hsame).2.2.1⟩

end Mainnet.Validators
