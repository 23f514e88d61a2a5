import Mainnet.Archive.Stream
import Mainnet.Server.Export
import Mainnet.Types.Address

namespace Mainnet.Archive

open Types Lib Server List Option Nat Export Lib.Rlp

inductive BackupError
  | openFile
  | getStatus
  | startExport
  | stream
  /-- "couldn't get any blocks" -/
  | noBlocks
  | write
  | close
  /-- The stream has neither an event nor an end yet. -/
  | waiting
deriving DecidableEq

/-- How a stream can break off before the server ends it. -/
inductive Interruption
  | canceled
  | failed
deriving DecidableEq

/-- What a run of `CreateBackup` meets. The stream may break off after some events. -/
structure Session where
  opens : Bool
  status : Option ℕ
  blockByNumber : Option ℕ
  exports : Bool
  views : List View
  interrupted : Option (ℕ × Interruption)
  written : ℕ → Bool
  closes : Bool
  removes : Bool

inductive StreamEnd
  | eof
  | canceled
  | failed
  | waiting

section Client

variable {C : Codec} (chain : NodeChain C) (session : Session)

/-- Number and hash from which the metadata are made. A block that cannot be had is replaced by the
latest one. -/
def determineTo (target : Option ℕ) : Except BackupError Metadata :=
  match session.status with
  | none => .error .getStatus
  | some current =>
    let hash := (chain.blocks[current]?.map (·.header.hash)).getD zeroHash
    let latest : Metadata := ⟨current, stringToHash (encodeToHex hash.bytes)⟩
    match target, session.blockByNumber with
    | some number, some head =>
      if number < current then
        match chain.getBlockByNumber head number with
        | none => .ok latest
        | some block =>
          match Block.unmarshalRLP C (Block.marshalRLP C.toFastrlp block) with
          | .ok block => .ok ⟨block.header.number, block.header.hash⟩
          | .error _ => .ok latest
      else .ok latest
    | _, _ => .ok latest

def received (run : Export) : List ExportEvent × StreamEnd :=
  match session.interrupted with
  | some (n, .canceled) => (run.writer.sent.take n, .canceled)
  | some (n, .failed) => (run.writer.sent.take n, .failed)
  | none =>
    (run.writer.sent,
      match run.status with
      | .finished => .eof
      | .failed _ => .failed
      | .running => .waiting)

def getResult (first last : Option ℕ) : Except BackupError (ℕ × ℕ) :=
  match first, last with
  | some f, some t => .ok (f, t)
  | _, _ => .error .noBlocks

def processExportStream (written : ℕ → Bool) (ending : StreamEnd) (file : Bytes)
    (first last : Option ℕ) : List ExportEvent → Except BackupError (ℕ × ℕ) × Bytes
  | [] =>
    match ending with
    | .eof => (getResult first last, file)
    | .canceled => (getResult first last, file)
    | .failed => (.error .stream, file)
    | .waiting => (.error .waiting, file)
  | event :: events =>
    if written 0 then
      processExportStream (fun n ↦ written (n + 1)) ending (file ++ event.data)
        (first.or (some event.fromNumber)) (some event.toNumber) events
    else (.error .write, file)

def closeAndRemoveFile (e : BackupError) (file : Bytes) :
    Except BackupError (ℕ × ℕ) × Option Bytes :=
  (.error e, if session.closes && session.removes then none else some file)

def exportTo (fromNumber : ℕ) (metadata : Metadata) : Except BackupError (ℕ × ℕ) × Option Bytes :=
  if !session.exports then closeAndRemoveFile session .startExport []
  else if !session.written 0 then closeAndRemoveFile session .write []
  else
    let run := run chain fromNumber metadata.latest session.views
    let (events, ending) := received session run
    match processExportStream (fun n ↦ session.written (n + 1)) ending
        (metadata.marshalRLP C.toFastrlp) none none events with
    | (.error e, file) => closeAndRemoveFile session e file
    | (.ok result, file) =>
      if session.closes then (.ok result, some file)
      else (.error .close, if session.removes then none else some file)

def createBackup (fromNumber : ℕ) (target : Option ℕ) : Except BackupError (ℕ × ℕ) × Option Bytes :=
  if !session.opens then (.error .openFile, none)
  else
    match determineTo chain session target with
    | .error e => closeAndRemoveFile session e []
    | .ok metadata => exportTo chain session fromNumber metadata

def Session.AppendOnly (session : Session) : Prop :=
  ∀ head, session.status = some head →
    head < chain.blocks.length ∧ (∀ h, session.blockByNumber = some h → head ≤ h) ∧
      ∀ v ∈ session.views, head ≤ v.stored ∧ v.stored < chain.blocks.length

structure CompleteBackup (fromNumber : ℕ) (target : Option ℕ) (f t : ℕ) (file : Bytes) : Prop where
  first : f = fromNumber
  content : ∃ block, chain.blocks[t]? = some block ∧
    file = Metadata.marshalRLP C.toFastrlp ⟨t, C.headerHash block.header⟩ ++
      chain.rlpBlocks f (t + 1)
  last : ∀ number head, target = some number → session.status = some head → number ≤ head →
    t = number

def requested (target : Option ℕ) (head : ℕ) : ℕ := target.elim head fun number ↦ min number head

def Answered (target : Option ℕ) (head : ℕ) : Prop :=
  ∀ number, target = some number → number < head → session.blockByNumber ≠ none

/-- The request for the target block is answered. If the range has an end, the export finishes and
all its events come in. Otherwise the export starts at the first block and no other comes in. -/
def Undisturbed (fromNumber : ℕ) (target : Option ℕ) : Prop :=
  ∀ head, session.status = some head →
    Answered session target head ∧
      let run := run chain fromNumber (requested target head) session.views
      if requested target head = 0 then
        fromNumber = 0 ∧ (received session run).1.map ExportEvent.toNumber = [0]
      else run.status = .finished ∧ (received session run).1 = run.writer.sent

end Client

section Backup

variable {C : Codec} {chain : NodeChain C} {session : Session} {target : Option ℕ}
  {head f t fromNumber : ℕ} {first last : Option ℕ} {file : Bytes}

theorem requested_of_le {number : ℕ} (h : number ≤ head) :
    requested (some number) head = number := min_eq_left h

theorem getResult_ok (h : getResult first last = .ok (f, t)) : first = some f ∧ last = some t := by
  cases first with
  | none => cases h
  | some f' =>
    cases last with
    | none => cases h
    | some t' =>
      cases h
      exact ⟨rfl, rfl⟩

theorem processExportStream_ok {written : ℕ → Bool} {ending : StreamEnd} {file' : Bytes}
    {events : List ExportEvent}
    (h : processExportStream written ending file first last events = (.ok (f, t), file')) :
    file' = file ++ events.flatMap ExportEvent.data ∧
      first.or (events.head?.map ExportEvent.fromNumber) = some f ∧
      (events.getLast?.map ExportEvent.toNumber).or last = some t := by
  induction events generalizing written file first last with
  | nil =>
    have hresult : (getResult first last, file) = (.ok (f, t), file') := by
      cases ending with
      | eof | canceled => exact h
      | failed | waiting => cases h
    obtain ⟨hget, rfl⟩ := Prod.mk.inj hresult
    obtain ⟨rfl, rfl⟩ := getResult_ok hget
    simp
  | cons event events ih =>
    rw [processExportStream] at h
    split at h
    · obtain ⟨hfile, hfirst, hlast⟩ := ih h
      refine ⟨by rw [hfile, flatMap_cons, append_assoc], ?_, ?_⟩
      · cases first with
        | none | some f' => simpa using hfirst
      · cases hevents : events.getLast? with
        | none =>
          obtain rfl := getLast?_eq_none_iff.mp hevents
          exact hlast
        | some e =>
          rw [getLast?_cons, hevents]
          rwa [hevents] at hlast
    · cases h

theorem determineTo_eq (hC : C.Faithful) (happ : session.AppendOnly chain) (target : Option ℕ)
    (hstatus : session.status = some head) :
    ∃ (last : ℕ) (block : Block), chain.blocks[last]? = some block ∧
      determineTo chain session target = .ok ⟨last, C.headerHash block.header⟩ ∧ last ≤ head ∧
      (Answered session target head → last = requested target head) ∧
      (¬ Answered session target head → last = head) := by
  obtain ⟨hhead, hnumber, -⟩ := happ head hstatus
  obtain ⟨current, hcurrent⟩ : ∃ block, chain.blocks[head]? = some block :=
    ⟨_, getElem?_eq_getElem hhead⟩
  have hlatest : (⟨head, stringToHash (encodeToHex
      ((chain.blocks[head]?.map (·.header.hash)).getD zeroHash).bytes)⟩ : Metadata) =
      ⟨head, C.headerHash current.header⟩ := by
    rw [stringToHash_encodeToHex, hcurrent, map_some, getD_some,
      chain.hash_eq current (mem_of_getElem? hcurrent)]
  rw [determineTo, hstatus]
  dsimp only
  rw [hlatest]
  cases target with
  | none => exact ⟨head, current, hcurrent, rfl, le_refl _, fun _ ↦ rfl, fun _ ↦ rfl⟩
  | some number =>
    rcases lt_or_ge number head with hlt | hge
    · cases hby : session.blockByNumber with
      | none =>
        exact ⟨head, current, hcurrent, rfl, le_refl _,
          fun hanswered ↦ absurd hby (hanswered number rfl hlt), fun _ ↦ rfl⟩
      | some h =>
        have hle := hnumber h hby
        obtain ⟨block, hblock⟩ : ∃ block, chain.blocks[number]? = some block :=
          ⟨_, getElem?_eq_getElem (by omega)⟩
        have hmem := mem_of_getElem? hblock
        have hget : chain.getBlockByNumber h number = some block := by
          rw [NodeChain.getBlockByNumber, if_pos (by omega), hblock]
        have hread : Block.unmarshalRLP C (Block.marshalRLP C.toFastrlp block) = _ :=
          (unmarshalRlp_marshal hC _ _).trans
            (Block.unmarshalRLPFrom_marshalRLPWith (chain.typed block hmem))
        refine ⟨number, block, hblock, ?_, le_of_lt hlt, fun _ ↦ ?_, fun hnot ↦ ?_⟩
        · simp only [if_pos hlt, hget, hread]
          rw [Header.computeHash, chain.number_eq number block hblock]
        · rw [requested_of_le (le_of_lt hlt)]
        · refine absurd (fun _ _ _ hnone ↦ ?_) hnot
          rw [hby] at hnone
          cases hnone
    · refine ⟨head, current, hcurrent, ?_, le_refl _, fun _ ↦ ?_, fun _ ↦ rfl⟩
      · cases session.blockByNumber with
        | none => rfl
        | some h => simp only [if_neg (not_lt.mpr hge)]
      · rw [requested, elim_some, min_eq_right hge]

theorem received_sent (session : Session) (run : Export) :
    ∃ rest, run.writer.sent = (received session run).1 ++ rest := by
  rw [received]
  split
  · exact ⟨_, (take_append_drop _ _).symm⟩
  · exact ⟨_, (take_append_drop _ _).symm⟩
  · exact ⟨[], (append_nil _).symm⟩

structure Succeeded (chain : NodeChain C) (session : Session) (fromNumber : ℕ) (target : Option ℕ)
    (f t : ℕ) (file : Bytes) (head last : ℕ) : Prop where
  status : session.status = some head
  answered : Answered session target head → last = requested target head
  unanswered : ¬ Answered session target head → last = head
  first : f = fromNumber
  file : ∃ block, chain.blocks[last]? = some block ∧
    file = Metadata.marshalRLP C.toFastrlp ⟨last, C.headerHash block.header⟩ ++
      chain.rlpBlocks fromNumber (t + 1)
  inRange : InRange chain fromNumber last (run chain fromNumber last session.views)
  received_ne : (received session (run chain fromNumber last session.views)).1 ≠ []
  contiguous : Contiguous chain fromNumber
    (received session (run chain fromNumber last session.views)).1 (t + 1)

theorem createBackup_ok (hC : C.Faithful) (hR : ∀ v, C.marshal v ≠ [])
    (happ : session.AppendOnly chain)
    (h : createBackup chain session fromNumber target = (.ok (f, t), some file)) :
    ∃ head last, Succeeded chain session fromNumber target f t file head last := by
  rw [createBackup] at h
  split at h
  · cases h
  cases hstatus : session.status with
  | none =>
    simp only [determineTo, hstatus, closeAndRemoveFile] at h
    cases h
  | some head =>
    obtain ⟨last, block, hblock, hdet, hle, hlast, hlast'⟩ :=
      determineTo_eq hC happ target hstatus
    obtain ⟨-, -, hviews⟩ := happ head hstatus
    have hrange := inRange_run hR fromNumber fun v hv ↦ ⟨hle.trans (hviews v hv).1, (hviews v hv).2⟩
    simp only [hdet, exportTo] at h
    split at h
    · cases h
    split at h
    · cases h
    split at h
    · cases h
    · rename_i result file' hprocess
      split at h
      · obtain ⟨hres, hfile⟩ := Prod.mk.inj h
        obtain rfl := Except.ok.inj hres
        obtain rfl := some.inj hfile
        obtain ⟨hfile, hfirst, hto⟩ := processExportStream_ok hprocess
        obtain ⟨p, hp⟩ := hrange.contiguous
        obtain ⟨rest, hsent⟩ := received_sent session (run chain fromNumber last session.views)
        rw [hsent] at hp
        obtain ⟨c, hc, -⟩ := hp.split
        rw [none_or, map_eq_some_iff] at hfirst
        rw [or_none, map_eq_some_iff] at hto
        obtain ⟨e, he, hf⟩ := hfirst
        obtain ⟨e', he', ht⟩ := hto
        obtain rfl : c = t + 1 := by rw [hc.last_eq he', ht]
        refine ⟨head, last, hstatus, hlast, hlast', ?_, ⟨block, hblock, ?_⟩, hrange, ?_, hc⟩
        · rw [← hf, hc.head_eq he]
        · rw [hfile, hc.data_eq]
        · intro hnil
          rw [hnil] at he
          cases he
      · cases h

theorem Metadata.marshalRLP_inj {R : Fastrlp} (hR : R.Faithful) {m m' : Metadata}
    (h : m.marshalRLP R = m'.marshalRLP R) : m.latest = m'.latest := by
  have hitems := Item.array.inj (hR.marshal_injective h)
  exact BigEndian.toBytes_injective (Item.bytes.inj (cons.inj hitems).1)

section Succeeded

variable {fromNumber f t head last : ℕ} {file : Bytes}

theorem Succeeded.undisturbed (hC : C.Faithful)
    (h : Succeeded chain session fromNumber target f t file head last)
    (hcomplete : CompleteBackup chain session fromNumber target f t file) :
    Undisturbed chain session fromNumber target := by
  obtain ⟨block, -, hfile⟩ := h.file
  obtain ⟨rest, hsent⟩ := received_sent session (run chain fromNumber last session.views)
  obtain ⟨block', -, hcontent⟩ := hcomplete.content
  obtain rfl : last = t := by
    rw [hfile, h.first] at hcontent
    exact Metadata.marshalRLP_inj hC (append_cancel_right hcontent)
  intro head' hhead'
  obtain rfl : head = head' := some.inj (h.status.symm.trans hhead')
  have hanswered : Answered session target head := by
    by_contra hnot
    obtain rfl := h.unanswered hnot
    refine hnot fun number hnumber hlt ↦ ?_
    rw [hcomplete.last number last hnumber h.status (le_of_lt hlt)] at hlt
    exact absurd hlt (lt_irrefl _)
  refine ⟨hanswered, ?_⟩
  rw [← h.answered hanswered]
  split
  · rename_i hzero
    subst hzero
    exact h.contiguous.only_first h.received_ne
  · rename_i hzero
    exact h.inRange.complete hzero hsent h.received_ne h.contiguous

theorem Succeeded.complete (h : Succeeded chain session fromNumber target f t file head last)
    (hundisturbed : Undisturbed chain session fromNumber target) :
    CompleteBackup chain session fromNumber target f t file := by
  obtain ⟨block, hblock, hfile⟩ := h.file
  obtain ⟨hanswered, hrun⟩ := hundisturbed head h.status
  have hreq := h.answered hanswered
  rw [← hreq] at hrun
  have ht : t = last := by
    split at hrun
    · rename_i hzero
      obtain ⟨e, he, hto⟩ := map_eq_singleton_iff.mp hrun.2
      have hlast := h.contiguous.last_eq (e := e) (by rw [he]; rfl)
      omega
    · rename_i hzero
      obtain ⟨hi, hend⟩ := h.inRange.finished hrun.1
      have hsent := hi.sent
      rw [hend hzero, ← hrun.2] at hsent
      exact Nat.succ.inj (h.contiguous.unique hsent)
  subst ht
  refine ⟨h.first, ⟨block, hblock, h.first ▸ hfile⟩, fun number head' hnumber hhead' hle ↦ ?_⟩
  obtain rfl : head = head' := some.inj (h.status.symm.trans hhead')
  rw [hreq, hnumber, requested_of_le hle]

end Succeeded

/-- Whenever a backup is reported as a success, it is complete exactly if nothing has disturbed it. -/
theorem backup_complete_iff (hC : C.Faithful) (hR : ∀ v, C.marshal v ≠ [])
    (happ : session.AppendOnly chain) {fromNumber f t : ℕ} {file : Bytes}
    (h : createBackup chain session fromNumber target = (.ok (f, t), some file)) :
    CompleteBackup chain session fromNumber target f t file ↔
      Undisturbed chain session fromNumber target := by
  obtain ⟨head, last, hsucceeded⟩ := createBackup_ok hC hR happ h
  exact ⟨hsucceeded.undisturbed hC, hsucceeded.complete⟩

end Backup

def genesisHeader : Header := { (default : Header) with
  hash := bytesToHash (BigEndian.toBytes
    0x688791f81afbd650ca58238bea20c370ed98108ecdaa8792ed08112361462486) }

def firstHeader : Header := { (default : Header) with
  number := 1
  parentHash := genesisHeader.hash
  hash := bytesToHash (BigEndian.toBytes
    0x83770eb2d89b324915d8de187d2eeb2590d84b226e697d1d9899e46d3807b78d) }

noncomputable def pairCodec : Codec :=
  Keccak.codec { rlpCodec with
    keccak256 := fun b ↦
      if b = rlpCodec.marshal firstHeader.marshalRLPWith then firstHeader.hash
      else genesisHeader.hash }

noncomputable def pairChain : NodeChain pairCodec where
  blocks := [⟨genesisHeader, [], []⟩, ⟨firstHeader, [], []⟩]
  number_eq i b h := by
    match i with
    | 0 => rw [← some.inj h]; rfl
    | 1 => rw [← some.inj h]; rfl
    | _ + 2 => cases h
  hash_eq := by decide +kernel
  typed b hb := by
    rcases mem_cons.mp hb with rfl | hb
    · exact ⟨by decide, nofun, nofun⟩
    · rw [mem_singleton.mp hb]
      exact ⟨by decide, nofun, nofun⟩
  length_lt := by decide

def calmSession : Session where
  opens := true
  status := some 1
  blockByNumber := some 1
  exports := true
  views := replicate 3 ⟨1, 1, 1⟩
  interrupted := none
  written _ := true
  closes := true
  removes := true

theorem marshal_ne_nil (v : Rlp.Value) : pairCodec.marshal v ≠ [] := by
  have hprint : pairCodec.marshal v = print v := rfl
  rw [hprint, print]
  split
  · exact encode_ne_nil v
  · exact cons_ne_nil _ _

theorem calmSession_appendOnly : calmSession.AppendOnly pairChain := by
  intro head hhead
  obtain rfl := some.inj hhead
  refine ⟨by decide, fun h hh ↦ ?_, fun v hv ↦ ?_⟩
  · exact le_of_eq (some.inj hh)
  · rw [eq_of_mem_replicate hv]
    exact ⟨le_refl 1, by decide⟩

noncomputable def pairFile (metadata : Metadata) : Bytes :=
  metadata.marshalRLP rlpCodec ++ pairChain.rlpBlocks 0 2

theorem createBackup_pair (target : Option ℕ) (last : ℕ) (block : Block)
    (hreq : requested target 1 = last) (hblock : pairChain.blocks[last]? = some block) :
    createBackup pairChain calmSession 0 target =
      exportTo pairChain calmSession 0 ⟨last, block.header.hash⟩ := by
  obtain ⟨last', block', hblock', hdet, -, hlast, -⟩ := determineTo_eq rlpCodec_faithful
    calmSession_appendOnly target rfl
  obtain rfl : last' = last := (hlast fun _ _ _ ↦ nofun).trans hreq
  obtain rfl : block = block' := some.inj (hblock.symm.trans hblock')
  rw [← pairChain.hash_eq block (mem_of_getElem? hblock)] at hdet
  rw [createBackup, if_neg (by decide), hdet]

theorem backup_complete_iff_pair :
    createBackup pairChain calmSession 0 none =
        (.ok (0, 1), some (pairFile ⟨1, firstHeader.hash⟩)) ∧
      CompleteBackup pairChain calmSession 0 none 0 1 (pairFile ⟨1, firstHeader.hash⟩) := by
  have hrun : createBackup pairChain calmSession 0 none =
      (.ok (0, 1), some (pairFile ⟨1, firstHeader.hash⟩)) := by
    rw [createBackup_pair none 1 ⟨firstHeader, [], []⟩ rfl rfl]
    decide +kernel
  refine ⟨hrun, (backup_complete_iff rlpCodec_faithful marshal_ne_nil calmSession_appendOnly
    hrun).mpr ?_⟩
  intro head hhead
  obtain rfl := some.inj hhead
  refine ⟨nofun, ?_⟩
  decide +kernel

/-- To block 0, which the server takes for an open end: metadata of the first block, then the whole
chain. -/
theorem backup_to_zero_not_complete :
    createBackup pairChain calmSession 0 (some 0) =
        (.ok (0, 1), some (pairFile ⟨0, genesisHeader.hash⟩)) ∧
      ¬ CompleteBackup pairChain calmSession 0 (some 0) 0 1 (pairFile ⟨0, genesisHeader.hash⟩) := by
  refine ⟨?_, fun h ↦ absurd (h.last 0 1 rfl rfl (by decide)) (by decide)⟩
  rw [createBackup_pair (some 0) 0 ⟨genesisHeader, [], []⟩ rfl rfl]
  decide +kernel

end Mainnet.Archive
