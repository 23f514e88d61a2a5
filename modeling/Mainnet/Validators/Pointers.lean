import Mainnet.Lib.Store
import Mainnet.Validators.SnapshotRestart

namespace Mainnet.Validators.Pointers

open Types Lib

abbrev Ref := ℕ

structure VoteCell where
  validator : Address
  candidate : Ref
  authorize : Bool

structure SetCell where
  validatorType : ValidatorType
  validators : Window

structure SnapshotCell where
  number : ℕ
  hash : Hash
  votes : Window
  set : Ref

/-- What the pointers of the snapshot store point to: validators, votes, sets and snapshots, and the
arrays of pointers behind the slices of a set and of a snapshot. Nothing writes to a validator. -/
structure Heap where
  validators : Store Validator
  votes : Store VoteCell
  members : Store (ℕ → Ref)
  ballots : Store (ℕ → Ref)
  sets : Store SetCell
  snapshots : Store SnapshotCell

structure View where
  number : ℕ
  hash : Hash
  votes : List Vote
  validatorType : ValidatorType
  validators : List Validator
deriving DecidableEq

namespace View

variable (v : View)

def equal (w : View) : Bool :=
  decide (v.votes.length = w.votes.length) && (v.votes.zip w.votes).all (fun p ↦ p.1.equal p.2) &&
    (decide (v.validatorType = w.validatorType) &&
      decide (v.validators.length = w.validators.length) &&
      (v.validators.zip w.validators).all fun p ↦ p.1.equal p.2)

def index (addr : Address) : Option ℕ := v.validators.findIdx? fun x ↦ decide (x.addr = addr)

def includes (addr : Address) : Bool := (v.index addr).isSome

def countByVoterAndCandidate (voter : Address) (candidate : Validator) : ℕ :=
  v.votes.countP fun x ↦ decide (x.validator = voter) && x.candidate.equal candidate

def countByCandidate (candidate : Validator) : ℕ :=
  v.votes.countP fun x ↦ x.candidate.equal candidate

end View

namespace Heap

variable (grow : ℕ → ℕ) (h : Heap) (p : Ref)

def vote (r : Ref) : Vote :=
  let cell := h.votes.get r
  ⟨cell.validator, h.validators.get cell.candidate, cell.authorize⟩

def ballotsOf : List Ref := (h.snapshots.get p).votes.items h.ballots

def setOf : SetCell := h.sets.get (h.snapshots.get p).set

def membersOf : List Ref := (h.setOf p).validators.items h.members

def view : View where
  number := (h.snapshots.get p).number
  hash := (h.snapshots.get p).hash
  votes := (h.ballotsOf p).map h.vote
  validatorType := (h.setOf p).validatorType
  validators := (h.membersOf p).map h.validators.get

def copyValidators : List Ref → Heap → List Ref × Heap
  | [], h => ([], h)
  | r :: rs, h =>
    let copied := copyValidators rs { h with validators := h.validators.alloc (h.validators.get r) }
    (h.validators.next :: copied.1, copied.2)

def copyVotes : List Ref → Heap → List Ref × Heap
  | [], h => ([], h)
  | r :: rs, h =>
    let cell := h.votes.get r
    let copied := copyVotes rs
      { h with
        validators := h.validators.alloc (h.validators.get cell.candidate)
        votes := h.votes.alloc { cell with candidate := h.validators.next } }
    (h.votes.next :: copied.1, copied.2)

/-- `Set.Copy`; the copy is at `h.sets.next`. -/
def copySet (r : Ref) : Heap :=
  let cell := h.sets.get r
  let copied := copyValidators (cell.validators.items h.members) h
  let made := Window.ofList copied.2.members copied.1
  { copied.2 with
    members := made.2
    sets := copied.2.sets.alloc ⟨cell.validatorType, made.1⟩ }

/-- `Snapshot.Copy`; the copy is at `h.snapshots.next`. -/
def copy : Heap :=
  let cell := h.snapshots.get p
  let copied := copyVotes (cell.votes.items h.ballots) (h.copySet cell.set)
  let made := Window.ofList copied.2.ballots copied.1
  { copied.2 with
    ballots := made.2
    snapshots := copied.2.snapshots.alloc ⟨0, zeroHash, made.1, h.sets.next⟩ }

def modifySnapshot (f : SnapshotCell → SnapshotCell) : Heap :=
  { h with snapshots := h.snapshots.set p (f (h.snapshots.get p)) }

def setVotes (votes : Store VoteCell) (made : Window × Store (ℕ → Ref)) : Heap :=
  { h with
    votes := votes
    ballots := made.2
    snapshots := h.snapshots.set p { h.snapshots.get p with votes := made.1 } }

def addVote (voter : Address) (candidate : Ref) (authorize : Bool) : Heap :=
  h.setVotes p (h.votes.alloc ⟨voter, candidate, authorize⟩)
    ((h.snapshots.get p).votes.append grow h.ballots h.votes.next)

def removeVotes (shouldRemoveFn : Vote → Bool) : Heap :=
  h.setVotes p h.votes
    (Window.ofList h.ballots ((h.ballotsOf p).filter fun r ↦ !shouldRemoveFn (h.vote r)))

def setMembers (made : Window × Store (ℕ → Ref)) : Heap :=
  { h with
    members := made.2
    sets := h.sets.set (h.snapshots.get p).set { h.setOf p with validators := made.1 } }

def add (candidate : Ref) : Except SetError Heap :=
  let val := h.validators.get candidate
  if (h.setOf p).validatorType ≠ val.type then .error .mismatchValidatorType
  else if (h.view p).includes val.addr then .error .validatorAlreadyExists
  else .ok (h.setMembers p ((h.setOf p).validators.append grow h.members candidate))

def del (candidate : Ref) : Except SetError Heap :=
  let val := h.validators.get candidate
  if (h.setOf p).validatorType ≠ val.type then .error .mismatchValidatorType
  else
    match (h.view p).index val.addr with
    | none => .error .validatorNotFound
    | some i => .ok (h.setMembers p ((h.setOf p).validators.erase h.members i))

def addsOrDelsCandidate (candidate : Ref) (updateAction : Bool) : Except StoreError Heap :=
  (if updateAction then h.add grow p candidate else h.del p candidate).mapError .set

def castVote (proposer : Address) (candidate : Ref) (authorize : Bool) : Except StoreError Heap :=
  let voteCount := (h.view p).countByVoterAndCandidate proposer (h.validators.get candidate)
  if voteCount > 1 then .error .multipleVotesBySameValidator
  else if voteCount = 0 then .ok (h.addVote grow p proposer candidate authorize)
  else .ok h

def applyTally (candidate : Ref) (authorize : Bool) : Except StoreError Heap :=
  let val := h.validators.get candidate
  if (h.view p).countByCandidate val > (h.view p).validators.length / 2 then
    match h.addsOrDelsCandidate grow p candidate authorize with
    | .error e => .error e
    | .ok changed =>
      let changed :=
        if !authorize then changed.removeVotes p fun v ↦ decide (v.validator = val.addr) else changed
      .ok (changed.removeVotes p fun v ↦ v.candidate.equal val)
  else .ok h

/-- The memory after `processVote`, with an error if there is one: what was written before the error
stays written. -/
def processVote (C : SnapshotConfig) (header : Header) (candidateType : ValidatorType)
    (proposer : Address) : Option StoreError × Heap :=
  match isAuthorize header.nonce with
  | .error e => (some e, h)
  | .ok authorize =>
    match minerToValidator C candidateType header.miner with
    | .error e => (some e, h)
    | .ok candidate =>
      let r := h.validators.next
      let h := { h with validators := h.validators.alloc candidate }
      if authorize == (h.view p).includes candidate.addr then (none, h)
      else
        match h.castVote grow p proposer r authorize with
        | .error e => (some e, h)
        | .ok voted =>
          match voted.applyTally grow p r authorize with
          | .error e => (some e, voted)
          | .ok tallied => (none, tallied)

end Heap

structure PointerStore where
  heap : Heap
  lastNumber : ℕ
  list : List Ref

namespace PointerStore

variable (grow : ℕ → ℕ) (C : SnapshotConfig) (st : PointerStore)

def number (r : Ref) : ℕ := (st.heap.snapshots.get r).number

def find (num : ℕ) : Option Ref := Timeline.lookup st.number st.list num

def updateLastBlock (num : ℕ) : PointerStore := { st with lastNumber := num }

def add (snap : Ref) : PointerStore :=
  { st with list := (st.list ++ [snap]).insertionSort fun a b ↦ st.number a ≤ st.number b }

def deleteLower (num : ℕ) : Option PointerStore :=
  (findClosestSnapshotIndex
      (st.list.map fun r ↦ ⟨st.number r, zeroHash, [], SnapshotStore.emptySet⟩) num).map
    fun pruneIndex ↦ { st with list := st.list.drop pruneIndex }

def saveSnapshotIfChanged (parentSnapshot snapshot : Ref) (header : Header) : PointerStore :=
  if (st.heap.view snapshot).equal (st.heap.view parentSnapshot) then st
  else
    let heap := st.heap.modifySnapshot snapshot fun cell ↦
      { cell with number := header.number, hash := header.hash }
    { st with heap := heap }.add snapshot

/-- The empty slice has the array that every memory starts with. -/
def resetSnapshot (parentSnapshot snapshot : Ref) (header : Header) : PointerStore :=
  let heap := st.heap.modifySnapshot snapshot fun cell ↦ { cell with votes := ⟨0, 0, 0⟩ }
  { st with heap := heap }.saveSnapshotIfChanged parentSnapshot snapshot header

def removeLowerSnapshots (currentHeight : ℕ) : Option PointerStore :=
  let lowerEpoch := (currentHeight / C.epochSize + 2 ^ 64 - 2) % 2 ^ 64
  if 0 < lowerEpoch ∧ lowerEpoch < 2 ^ 63 then
    st.deleteLower (lowerEpoch * C.epochSize % 2 ^ 64)
  else some st

def processEpoch (parentSnap snap : Ref) (header : Header) : Outcome StoreError Unit × PointerStore :=
  ((st.resetSnapshot parentSnap snap header).removeLowerSnapshots C header.number).elim
    (.panic, st.resetSnapshot parentSnap snap header)
    fun st' ↦ (.ok (), st'.updateLastBlock header.number)

/-- The rest of `ProcessHeader` once the copy of the parent's snapshot is at `snap`. -/
def processCopy (parentSnap snap : Ref) (header : Header) (signerType : ValidatorType)
    (proposer : Address) : Outcome StoreError Unit × PointerStore :=
  if C.epochSize = 0 then (.panic, st)
  else if header.number % C.epochSize = 0 then st.processEpoch C parentSnap snap header
  else if header.miner = zeroAddress.bytes then (.ok (), st.updateLastBlock header.number)
  else
    match st.heap.processVote grow snap C header signerType proposer with
    | (some e, heap) => (.error e, { st with heap := heap })
    | (none, heap) =>
      (.ok (), ({ st with heap := heap }.updateLastBlock header.number).saveSnapshotIfChanged
        parentSnap snap header)

def processSigned (header : Header) (signerType : ValidatorType) (proposer : Address) :
    Outcome StoreError Unit × PointerStore :=
  match st.find ((header.number + 2 ^ 64 - 1) % 2 ^ 64) with
  | none => (.error .snapshotNotFound, st)
  | some parentSnap =>
    if !(st.heap.view parentSnap).includes proposer then (.error .unauthorizedProposer, st)
    else
      { st with heap := st.heap.copy parentSnap }.processCopy grow C parentSnap st.heap.snapshots.next
        header signerType proposer

def processHeader (header : Header) : Outcome StoreError Unit × PointerStore :=
  match SnapshotStore.signerOf C header with
  | .error e => (.error e, st)
  | .ok (signerType, proposer) => st.processSigned grow C header signerType proposer

def processNumber (chain : List Header) (i : ℕ) : Outcome InitError Unit × PointerStore :=
  if i = 0 then (.ok (), st)
  else
    match chain[i]? with
    | none => (.error (.headerNotFound i), st)
    | some header =>
      let (res, st') := st.processHeader grow C header
      (res.mapError .store, st')

def processNumbers (chain : List Header) : List ℕ → PointerStore → Outcome InitError Unit × PointerStore
  | [], st => (.ok (), st)
  | i :: is, st =>
    match st.processNumber grow C chain i with
    | (.ok _, st') => processNumbers chain is st'
    | failed => failed

def processHeadersInRange (chain : List Header) (first last : ℕ) :
    Outcome InitError Unit × PointerStore :=
  st.processNumbers grow C chain (List.range' first (last + 1 - first))

end PointerStore

end Mainnet.Validators.Pointers
