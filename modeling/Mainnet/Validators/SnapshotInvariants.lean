import Mainnet.Validators.VotingLaw

namespace Mainnet.Validators

open Types Lib List Snapshot Tracked

def OneApart (V W : List Validator) : Prop := W = V ∨ ∃ v, W.Perm (v :: V) ∨ V.Perm (v :: W)

/-- The validators have distinct addresses; the votes are theirs, at most one for each candidate. -/
structure Orderly (board : Snapshot) : Prop where
  distinct : board.set.addrs.Nodup
  voters : ∀ v ∈ board.votes, v.validator ∈ board.set.addrs
  once : board.votes.Pairwise fun v w ↦ v.validator = w.validator → v.candidate ≠ w.candidate

variable {set set' : ValidatorSet} {c : Validator} {b : Bool}

theorem addsOrDelsCandidate_oneApart
    (h : addsOrDelsCandidate set c b = .ok set') : OneApart set.validators set'.validators := by
  right
  obtain ⟨-, ⟨-, -, hval⟩ | ⟨-, i, hi, -, hval⟩⟩ := addsOrDelsCandidate_ok h
  · refine ⟨c, .inl ?_⟩
    rw [hval]
    exact perm_append_singleton c set.validators
  · refine ⟨set.validators[i], .inr ?_⟩
    rw [hval]
    exact (getElem_cons_eraseIdx_perm hi).symm

theorem addsOrDelsCandidate_distinct
    (hd : set.addrs.Nodup) (h : addsOrDelsCandidate set c b = .ok set') : set'.addrs.Nodup := by
  obtain ⟨-, ⟨-, hnot, hval⟩ | ⟨-, i, hi, -, hval⟩⟩ := addsOrDelsCandidate_ok h
  · rw [ValidatorSet.addrs, hval, map_append, map_singleton, ← concat_eq_append, nodup_concat]
    exact ⟨hnot, hd⟩
  · rw [ValidatorSet.addrs, hval]
    exact hd.sublist ((eraseIdx_sublist _ _).map _)

variable {C : SnapshotConfig} {board snap : Snapshot} {header : Header} {t : ValidatorType}
  {proposer : Address} {candidate : Validator} {authorize : Bool}

namespace Orderly

theorem of_copy (h : Orderly snap) (heq : board.copy = snap.copy) : Orderly board := by
  obtain ⟨-, -, hv, hs⟩ := mk.inj heq
  exact ⟨hs ▸ h.distinct, hs ▸ hv ▸ h.voters, hv ▸ h.once⟩

theorem castVote (h : Orderly board) (hp : proposer ∈ board.set.addrs)
    (hc : board.castVote proposer candidate authorize = .ok snap) :
    Orderly snap ∧ snap.set = board.set := by
  rcases castVote_ok hc with rfl | ⟨rfl, hfresh⟩
  · exact ⟨h, rfl⟩
  · exact ⟨⟨h.distinct, voters_addVote h.voters hp, once_addVote h.once hfresh⟩, rfl⟩

theorem applyTally (h : Orderly board) (ha : authorize = !board.set.includes candidate.addr)
    (ht : board.applyTally candidate authorize = .ok snap) :
    Orderly snap ∧ OneApart board.set.validators snap.set.validators := by
  rcases applyTally_ok ht with rfl | ⟨-, hset, hsub, hrest⟩
  · exact ⟨h, .inl rfl⟩
  · refine ⟨⟨addsOrDelsCandidate_distinct h.distinct hset, ?_, h.once.sublist hsub⟩,
      addsOrDelsCandidate_oneApart hset⟩
    exact voters_tally h.voters ha hset hsub fun v hv ↦ (hrest v hv).2

theorem processVote (h : Orderly board) (hp : proposer ∈ board.set.addrs)
    (hvote : Validators.processVote C board header t proposer = .ok snap) :
    Orderly snap ∧ OneApart board.set.validators snap.set.validators := by
  obtain ⟨authorize, candidate, -, -, hcase⟩ := processVote_ok hvote
  rcases hcase with rfl | ⟨ha, voted, hvoted, htally⟩
  · exact ⟨h, .inl rfl⟩
  · obtain ⟨hcast, hset⟩ := h.castVote hp hvoted
    have htallied := hcast.applyTally (hset.symm ▸ ha) htally
    rwa [hset] at htallied

theorem advance (h : Orderly board) (hadv : board.advance C header t proposer = .ok snap) :
    Orderly snap ∧ OneApart board.set.validators snap.set.validators ∧
      (header.number % C.epochSize = 0 → snap.votes = []) := by
  have hcopy : Orderly board.copy := h.of_copy rfl
  rw [Snapshot.advance] at hadv
  split_ifs at hadv with hin hepoch hminer
  · cases hadv
    exact ⟨⟨h.distinct, by simp, by simp⟩, .inl rfl, fun _ ↦ rfl⟩
  · cases hadv
    exact ⟨hcopy, .inl rfl, fun h0 ↦ absurd h0 hepoch⟩
  · have hmem : proposer ∈ board.set.addrs := by simpa using hin
    obtain ⟨hord, hone⟩ := hcopy.processVote hmem hadv
    exact ⟨hord, hone, fun h0 ↦ absurd h0 hepoch⟩

end Orderly

namespace SnapshotStore

/-- The headers continue the chain of the store one by one, and each is accepted. -/
inductive Accepts (C : SnapshotConfig) : SnapshotStore → List Header → SnapshotStore → Prop
  | nil (s : SnapshotStore) : Accepts C s [] s
  | cons {s s₁ s' : SnapshotStore} {header : Header} {headers : List Header} :
      header.number = s.lastNumber + 1 → header.number < 2 ^ 64 →
      s.processHeader C header = .ok s₁ → Accepts C s₁ headers s' → Accepts C s (header :: headers) s'

theorem Accepts.orderly {s s' : SnapshotStore} {headers : List Header} (h : Accepts C s headers s')
    (hcur : s.Current s.lastNumber board) (hord : Orderly board) :
    ∃ board', s'.Current s'.lastNumber board' ∧ Orderly board' := by
  induction h generalizing board with
  | nil s => exact ⟨board, hcur, hord⟩
  | cons hn hlt hok h ih =>
    obtain ⟨_, snap, -, hadv, hlast, hcur'⟩ := hcur.processHeader (by omega) hlt hok
    exact ih (hlast.symm ▸ hcur') (hord.advance hadv).1

/-- Along every sequence of accepted headers, the snapshot in force after a header is in order and
one member at most from the snapshot before; an epoch block clears the votes. -/
theorem accepted_snapshot_orderly (C : SnapshotConfig) (s₀ : SnapshotStore) (board : Snapshot)
    (hstart : s₀.Current s₀.lastNumber board) (hdistinct : board.set.addrs.Nodup)
    (hvotes : board.votes = []) (past : List Header) (s : SnapshotStore)
    (hpast : Accepts C s₀ past s) (header : Header) (hn : header.number = s.lastNumber + 1)
    (hlt : header.number < 2 ^ 64) (s' : SnapshotStore) (hok : s.processHeader C header = .ok s') :
    ∃ before after, s.find s.lastNumber = some before ∧ s'.find header.number = some after ∧
      Orderly after ∧ OneApart before.set.validators after.set.validators ∧
      (header.number % C.epochSize = 0 → after.votes = []) := by
  have hinit : Orderly board := ⟨hdistinct, by simp [hvotes], by simp [hvotes]⟩
  obtain ⟨board₁, hcur, hord⟩ := hpast.orderly hstart hinit
  obtain ⟨_, snap, -, hadv, -, hcur'⟩ := hcur.processHeader (by omega) hlt hok
  obtain ⟨before, hbefore, hsame⟩ := hcur.find s.lastNumber le_rfl
  obtain ⟨after, hafter, hsame'⟩ := hcur'.find header.number le_rfl
  obtain ⟨hsnap, hone, hepoch⟩ := hord.advance hadv
  obtain ⟨-, -, -, hset⟩ := Snapshot.mk.inj hsame
  obtain ⟨-, -, hvotes', hset'⟩ := Snapshot.mk.inj hsame'
  refine ⟨before, after, hbefore, hafter, hsnap.of_copy hsame', ?_, fun h0 ↦ ?_⟩
  · rwa [hset, hset']
  · rw [hvotes', hepoch h0]

def oneVote : Snapshot :=
  ⟨1, zeroHash, [⟨addressOf 1, .ecdsa (addressOf 9), true⟩], ecdsaPair.set⟩

def votedIn : Snapshot :=
  ⟨2, zeroHash, [], ⟨.ecdsa, ecdsaPair.set.validators ++ [.ecdsa (addressOf 9)],
    by simp [ecdsaPair, Validator.type]⟩⟩

theorem accepted_snapshot_orderly_pair :
    ∃ before after, (⟨1, [ecdsaPair, oneVote]⟩ : SnapshotStore).find 1 = some before ∧
      (⟨2, [ecdsaPair, oneVote, votedIn]⟩ : SnapshotStore).find 2 = some after ∧
      Orderly after ∧ OneApart before.set.validators after.set.validators ∧
      (2 % 100 = 0 → after.votes = []) := by
  refine accepted_snapshot_orderly (plainConfig .ecdsa) ⟨0, [ecdsaPair]⟩
    ecdsaPair (current_single _ rfl) (by decide +kernel) rfl
    [voteHeader 1 1 (addressOf 9).bytes nonceAuthVote] ⟨1, [ecdsaPair, oneVote]⟩
    (.cons rfl (by decide) (by decide +kernel) (.nil _))
    (voteHeader 2 2 (addressOf 9).bytes nonceAuthVote) rfl (by decide)
    ⟨2, [ecdsaPair, oneVote, votedIn]⟩ (by decide +kernel)

end SnapshotStore

end Mainnet.Validators
