import Mainnet.Lib.Run
import Mainnet.Validators.SnapshotStore

namespace Mainnet.Validators

open Types Lib List Nat Snapshot Timeline

def nonceAuthVote : Nonce := ⟨replicate 8 0xff, by simp⟩

def nonceDropVote : Nonce := FixedBytes.zero 8

def isAuthorize (nonce : Nonce) : Except StoreError Bool :=
  if nonce = nonceAuthVote then .ok true
  else if nonce = nonceDropVote then .ok false
  else .error .incorrectNonce

def shouldProcessVote (validators : ValidatorSet) (candidate : Address) (voteAction : Bool) : Bool :=
  voteAction != validators.includes candidate

def addsOrDelsCandidate (validators : ValidatorSet) (candidate : Validator) (updateAction : Bool) :
    Except StoreError ValidatorSet :=
  (if updateAction then validators.add candidate else validators.del candidate).mapError .set

structure SignerInterface where
  type : ValidatorType
  ecrecoverFromHeader : Header → Option Address

structure SnapshotConfig extends Fastrlp where
  /-- An error, or a signer that may be nil. -/
  getSigner : ℕ → Except Unit (Option SignerInterface)
  epochSize : ℕ

variable (C : SnapshotConfig)

def minerToValidator (validatorType : ValidatorType) (miner : Bytes) : Except StoreError Validator :=
  match validatorType with
  | .ecdsa => .ok (.ecdsa (bytesToAddress miner))
  | .bls =>
    match (C.parse miner).bind (Validator.unmarshalRLPFrom .bls) with
    | none => .error .candidate
    | some v => .ok v

namespace Snapshot

variable (s : Snapshot)

/-- Casts the vote unless the proposer has already voted for this very candidate. -/
def castVote (proposer : Address) (candidate : Validator) (authorize : Bool) :
    Except StoreError Snapshot :=
  let voteCount := s.countByVoterAndCandidate proposer candidate
  if voteCount > 1 then .error .multipleVotesBySameValidator
  else if voteCount = 0 then .ok (s.addVote proposer candidate authorize)
  else .ok s

def applyTally (candidate : Validator) (authorize : Bool) : Except StoreError Snapshot :=
  if s.countByCandidate candidate > s.set.len / 2 then do
    let set ← addsOrDelsCandidate s.set candidate authorize
    let changed := { s with set := set }
    let changed := if !authorize then changed.removeVotesByVoter candidate.addr else changed
    return changed.removeVotesByCandidate candidate
  else .ok s

end Snapshot

def processVote (snapshot : Snapshot) (header : Header) (candidateType : ValidatorType)
    (proposer : Address) : Except StoreError Snapshot := do
  let authorize ← isAuthorize header.nonce
  let candidate ← minerToValidator C candidateType header.miner
  if !shouldProcessVote snapshot.set candidate.addr authorize then return snapshot
  let voted ← snapshot.castVote proposer candidate authorize
  voted.applyTally candidate authorize

namespace SnapshotStore

variable (s : SnapshotStore)

def saveSnapshotIfChanged (parentSnapshot snapshot : Snapshot) (header : Header) : SnapshotStore :=
  if snapshot.equal parentSnapshot then s
  else s.add { snapshot with number := header.number, hash := header.hash }

def resetSnapshot (parentSnapshot snapshot : Snapshot) (header : Header) : SnapshotStore :=
  s.saveSnapshotIfChanged parentSnapshot { snapshot with votes := [] } header

/-- `lowerEpoch` is a signed 64-bit difference and must be positive. -/
def removeLowerSnapshots (currentHeight : ℕ) : Outcome StoreError SnapshotStore :=
  let lowerEpoch := (currentHeight / C.epochSize + 2 ^ 64 - 2) % 2 ^ 64
  if 0 < lowerEpoch ∧ lowerEpoch < 2 ^ 63 then
    match s.deleteLower (lowerEpoch * C.epochSize % 2 ^ 64) with
    | none => .panic
    | some s' => .ok s'
  else .ok s

def verifyHeader (header : Header) : Except StoreError Unit :=
  if header.nonce ≠ nonceAuthVote ∧ header.nonce ≠ nonceDropVote then .error .invalidNonce
  else .ok ()

def signerOf (header : Header) : Except StoreError (ValidatorType × Address) :=
  match C.getSigner header.number with
  | .error _ => .error .signer
  | .ok none => .error (.signerNotFound header.number)
  | .ok (some signer) =>
    match signer.ecrecoverFromHeader header with
    | none => .error .signer
    | some proposer => .ok (signer.type, proposer)

def processSigned (header : Header) (signerType : ValidatorType) (proposer : Address) :
    Outcome StoreError SnapshotStore :=
  -- the height of the parent is an unsigned difference
  match s.find ((header.number + 2 ^ 64 - 1) % 2 ^ 64) with
  | none => .error .snapshotNotFound
  | some parentSnap =>
    if !parentSnap.set.includes proposer then .error .unauthorizedProposer
    else if C.epochSize = 0 then .panic
    else if header.number % C.epochSize = 0 then do
      let s' ← (s.resetSnapshot parentSnap parentSnap.copy header).removeLowerSnapshots C header.number
      return s'.updateLastBlock header.number
    else if header.miner = zeroAddress.bytes then .ok (s.updateLastBlock header.number)
    else
      match processVote C parentSnap.copy header signerType proposer with
      | .error e => .error e
      | .ok snap => .ok ((s.updateLastBlock header.number).saveSnapshotIfChanged parentSnap snap header)

def processHeader (header : Header) : Outcome StoreError SnapshotStore :=
  match signerOf C header with
  | .error e => .error e
  | .ok (signerType, proposer) => s.processSigned C header signerType proposer

def getLatestSnapshot : Option Snapshot := s.find s.lastNumber

end SnapshotStore

def Snapshot.advance (parent : Snapshot) (header : Header) (signerType : ValidatorType)
    (proposer : Address) : Except StoreError Snapshot :=
  if !parent.set.includes proposer then .error .unauthorizedProposer
  else if header.number % C.epochSize = 0 then .ok { parent.copy with votes := [] }
  else if header.miner = zeroAddress.bytes then .ok parent.copy
  else processVote C parent.copy header signerType proposer

theorem Snapshot.advance_congr {p q : Snapshot} (h : p.copy = q.copy) {header : Header}
    {t : ValidatorType} {proposer : Address} :
    p.advance C header t proposer = q.advance C header t proposer := by
  have hset : p.set = q.set := (mk.inj h).2.2.2
  rw [advance, advance, h, hset]

theorem Snapshot.equal_iff (s ss : Snapshot) : s.equal ss = true ↔ s.copy = ss.copy := by
  have hvotes : (s.votes.length = ss.votes.length ∧
      ∀ p ∈ s.votes.zip ss.votes, p.1.equal p.2 = true) ↔ s.votes = ss.votes := by
    constructor
    · rintro ⟨hl, hv⟩
      apply ext_getElem hl
      intro i hi hj
      have hz : (s.votes[i], ss.votes[i]) ∈ s.votes.zip ss.votes :=
        mem_iff_getElem.mpr ⟨i, by simp [length_zip, hi, hj], by simp⟩
      exact (Vote.equal_iff _ _).mp (hv _ hz)
    · intro h
      rw [h]
      refine ⟨rfl, fun p hp ↦ ?_⟩
      obtain ⟨i, hi, rfl⟩ := mem_iff_getElem.mp hp
      simp [Vote.equal_iff]
  simp only [equal, Bool.and_eq_true, decide_eq_true_eq, all_eq_true, hvotes,
    ValidatorSet.equal_iff, copy, mk.injEq, true_and]

theorem findClosestSnapshotIndex_lt {l : List Snapshot}
    (h : Ascending number l) (hl : 0 < l.length) (num : ℕ) :
    ∃ k < l.length, findClosestSnapshotIndex l num = some k := by
  classical
  by_cases hlow : num < l[0].number
  · refine ⟨0, hl, ?_⟩
    rw [findClosestSnapshotIndex, head?_eq_getElem?, getElem?_eq_getElem hl,
      getLast?_eq_getElem?, getElem?_eq_getElem (sub_one_lt_of_lt hl)]
    exact if_pos hlow
  · obtain ⟨i, hi, hle, hnext⟩ :=
      exists_position h ⟨l[0], getElem_mem hl, not_lt.mp hlow⟩
    refine ⟨_, ?_, findClosestSnapshotIndex_eq h hi hle hnext⟩
    split
    · rename_i hd
      exact ((dropsInForce_iff h hi hle hnext).mp hd).1
    · exact hi

namespace SnapshotStore

structure Current (s : SnapshotStore) (n : ℕ) (board : Snapshot) : Prop where
  ascending : Ascending number s.list
  bounded : ∀ snap ∈ s.list, snap.number ≤ n
  last : ∃ cur, s.list.getLast? = some cur ∧ cur.copy = board.copy

variable {s : SnapshotStore} {n m : ℕ} {board snap : Snapshot}

theorem Current.find (h : s.Current n board) (num : ℕ) (hn : n ≤ num) :
    ∃ cur, s.find num = some cur ∧ cur.copy = board.copy := by
  obtain ⟨cur, hcur, hcopy⟩ := h.last
  refine ⟨cur, ?_, hcopy⟩
  have hl : 0 < s.list.length := length_pos_of_mem (mem_of_getLast? hcur)
  have hlast : s.list.length - 1 < s.list.length := sub_one_lt_of_lt hl
  rw [getLast?_eq_getElem?, getElem?_eq_getElem hlast] at hcur
  rw [← hcur]
  have hle := (h.bounded _ (getElem_mem hlast)).trans hn
  exact find_of_inForce h.ascending (inForce_eq h.ascending hlast hle fun hj ↦ by omega)

theorem Current.updateLastBlock (h : s.Current n board) : (s.updateLastBlock m).Current n board :=
  ⟨h.ascending, h.bounded, h.last⟩

variable {parent : Snapshot} {header : Header}

theorem saveSnapshotIfChanged_lastNumber {snap : Snapshot} :
    (s.saveSnapshotIfChanged parent snap header).lastNumber = s.lastNumber := by
  rw [saveSnapshotIfChanged]
  split <;> rfl

theorem add_list (hs : s.list.Pairwise fun a b ↦ a.number ≤ b.number)
    (hle : ∀ x ∈ s.list, x.number ≤ snap.number) : (s.add snap).list = s.list ++ [snap] := by
  refine Pairwise.insertionSort_eq (pairwise_append.mpr ⟨hs, pairwise_singleton _ _, ?_⟩)
  intro a ha b hb
  rw [mem_singleton.mp hb]
  exact hle a ha

theorem Current.save (h : s.Current n board) (snap : Snapshot)
    (hp : parent.copy = board.copy) (hn : n < header.number) :
    (s.saveSnapshotIfChanged parent snap header).Current header.number snap := by
  rw [saveSnapshotIfChanged]
  by_cases heq : snap.equal parent = true
  · obtain ⟨cur, hcur, hcopy⟩ := h.last
    rw [if_pos heq]
    refine ⟨h.ascending, fun x hx ↦ (h.bounded x hx).trans hn.le, cur, hcur, ?_⟩
    rw [hcopy, ← hp, (equal_iff _ _).mp heq]
  · rw [if_neg heq]
    set new : Snapshot := { snap with number := header.number, hash := header.hash }
    have hasc : Ascending number (s.list ++ [new]) := by
      refine pairwise_append.mpr ⟨h.ascending, pairwise_singleton _ _, ?_⟩
      intro a ha b hb
      rw [mem_singleton.mp hb]
      exact (h.bounded a ha).trans_lt hn
    have hsort : (s.add new).list = s.list ++ [new] :=
      add_list (h.ascending.imp fun hab ↦ hab.le) fun x hx ↦ (h.bounded x hx).trans hn.le
    refine ⟨hsort ▸ hasc, ?_, new, ?_, rfl⟩
    · intro x hx
      rw [hsort] at hx
      rcases mem_append.mp hx with hx | hx
      · exact (h.bounded x hx).trans hn.le
      · rw [mem_singleton.mp hx]
    · rw [hsort, getLast?_append, getLast?_singleton, Option.some_or]

theorem Current.removeLowerSnapshots (h : s.Current n board) (height : ℕ) :
    ∃ s', s.removeLowerSnapshots C height = .ok s' ∧ s'.Current n board := by
  rw [SnapshotStore.removeLowerSnapshots]
  split
  · obtain ⟨cur, hcur, hcopy⟩ := h.last
    have hl : 0 < s.list.length := length_pos_of_mem (mem_of_getLast? hcur)
    obtain ⟨k, hk, hidx⟩ := findClosestSnapshotIndex_lt h.ascending hl
      ((height / C.epochSize + 2 ^ 64 - 2) % 2 ^ 64 * C.epochSize % 2 ^ 64)
    rw [deleteLower, hidx]
    refine ⟨_, rfl, h.ascending.drop, fun x hx ↦ h.bounded x (mem_of_mem_drop hx), cur, ?_, hcopy⟩
    rw [getLast?_drop, if_neg (by omega), hcur]
  · exact ⟨s, rfl, h⟩

theorem processSigned_inEpoch {cur : Snapshot} (hpos : 0 < header.number)
    (hlt : header.number < 2 ^ 64) (hcur : s.find (header.number - 1) = some cur)
    (hC : C.epochSize ≠ 0) (hepoch : header.number % C.epochSize ≠ 0) (t : ValidatorType)
    (proposer : Address) :
    s.processSigned C header t proposer =
      match cur.advance C header t proposer with
      | .error e => .error e
      | .ok snap => .ok ((s.updateLastBlock header.number).saveSnapshotIfChanged cur snap header) := by
  have hsub : (header.number + 2 ^ 64 - 1) % 2 ^ 64 = header.number - 1 := by omega
  rw [SnapshotStore.processSigned, hsub, hcur, advance]
  dsimp only
  by_cases hin : (!cur.set.includes proposer) = true
  · rw [if_pos hin, if_pos hin]
  rw [if_neg hin, if_neg hin, if_neg hC, if_neg hepoch, if_neg hepoch]
  by_cases hminer : header.miner = zeroAddress.bytes
  · rw [if_pos hminer, if_pos hminer]
    dsimp only
    rw [saveSnapshotIfChanged, if_pos ((equal_iff cur.copy cur).mpr rfl)]
  · rw [if_neg hminer, if_neg hminer]

theorem Current.processSigned (h : s.Current s.lastNumber board) (hC : C.epochSize ≠ 0)
    (hn : s.lastNumber < header.number) (hlt : header.number < 2 ^ 64) (t : ValidatorType)
    (proposer : Address) :
    match board.advance C header t proposer with
    | .error e => s.processSigned C header t proposer = .error e
    | .ok snap => ∃ s', s.processSigned C header t proposer = .ok s' ∧
        s'.lastNumber = header.number ∧ s'.Current header.number snap := by
  obtain ⟨cur, hcur, hcopy⟩ := h.find (header.number - 1) (by omega)
  rw [← advance_congr C hcopy]
  by_cases hepoch : header.number % C.epochSize = 0
  · have hsub : (header.number + 2 ^ 64 - 1) % 2 ^ 64 = header.number - 1 := by omega
    rw [SnapshotStore.processSigned, hsub, hcur, advance]
    dsimp only
    by_cases hin : (!cur.set.includes proposer) = true
    · rw [if_pos hin, if_pos hin]
    rw [if_neg hin, if_neg hin, if_neg hC, if_pos hepoch, if_pos hepoch]
    have hreset := h.save { cur.copy with votes := [] } hcopy hn
    obtain ⟨s', hs', hcurrent⟩ := hreset.removeLowerSnapshots C header.number
    rw [resetSnapshot, hs']
    exact ⟨_, rfl, rfl, hcurrent.updateLastBlock⟩
  · rw [processSigned_inEpoch C (by omega) hlt hcur hC hepoch]
    cases cur.advance C header t proposer with
    | error e => rfl
    | ok snap =>
      exact ⟨_, rfl, saveSnapshotIfChanged_lastNumber, h.updateLastBlock.save snap hcopy hn⟩

end SnapshotStore

end Mainnet.Validators
