import Mainnet.Validators.SnapshotVoting

namespace Mainnet.Validators

open Types Lib List Option Outcome ValidatorSet Bool Validator Snapshot Run Except

/-- A vote that a header carried: who cast it, for which address and in which direction. -/
structure Cast where
  voter : Address
  target : Address
  authorize : Bool
deriving DecidableEq

def Majority (set : ValidatorSet) (casts : List Cast) (target : Address) (authorize : Bool) : Prop :=
  ∃ voters : Finset Address,
    (∀ v ∈ voters, v ∈ set.addrs ∧ ⟨v, target, authorize⟩ ∈ casts) ∧ set.len < 2 * voters.card

variable {set set' : ValidatorSet} {c : Validator} {b : Bool}

theorem addsOrDelsCandidate_ok (h : addsOrDelsCandidate set c b = .ok set') :
    set'.validatorType = set.validatorType ∧
      ((b = true ∧ c.addr ∉ set.addrs ∧ set'.validators = set.validators ++ [c]) ∨
        (b = false ∧ ∃ i, ∃ hi : i < set.validators.length, set.validators[i].addr = c.addr ∧
          set'.validators = set.validators.eraseIdx i)) := by
  cases b with
  | true =>
    simp only [addsOrDelsCandidate, if_true, add] at h
    split_ifs at h with htype hin <;>
      simp only [Except.mapError, reduceCtorEq, Except.ok.injEq] at h
    subst h
    exact ⟨rfl, .inl ⟨rfl, by rwa [← includes_iff], rfl⟩⟩
  | false =>
    simp only [addsOrDelsCandidate, false_eq_true, if_false, del] at h
    split_ifs at h
    · cases h
    · split at h
      · cases h
      · rename_i i hi
        cases h
        obtain ⟨hlt, hat, -⟩ := List.findIdx?_eq_some_iff_getElem.mp hi
        exact ⟨rfl, .inr ⟨rfl, i, hlt, of_decide_eq_true hat, rfl⟩⟩

theorem addsOrDelsCandidate_addrs
    (h : addsOrDelsCandidate set c b = .ok set') {a : Address} (ha : a ≠ c.addr) :
    a ∈ set'.addrs ↔ a ∈ set.addrs := by
  obtain ⟨-, ⟨-, -, hval⟩ | ⟨-, i, hi, hat, hval⟩⟩ := addsOrDelsCandidate_ok h
  · simp [addrs, hval, ha]
  · have hmem := ((getElem_cons_eraseIdx_perm hi).map addr).mem_iff (a := a)
    rw [map_cons, mem_cons, hat, or_iff_right ha] at hmem
    rw [addrs, addrs, hval]
    exact hmem

namespace Snapshot

variable {s s' : Snapshot} {proposer : Address} {candidate : Validator} {authorize : Bool}

theorem castVote_ok (h : s.castVote proposer candidate authorize = .ok s') :
    s' = s ∨ (s' = s.addVote proposer candidate authorize ∧
      ∀ v ∈ s.votes, v.validator = proposer → v.candidate ≠ candidate) := by
  rw [castVote] at h
  split_ifs at h with hmany hnone
  · right
    refine ⟨(ok.inj h).symm, fun v hv hp hc ↦ ?_⟩
    have hcount := countP_eq_zero.mp hnone v hv
    exact hcount (by simp [hp, Validator.equal_iff, hc])
  · left
    exact (ok.inj h).symm

theorem mem_addVote {v : Vote} (hv : v ∈ (s.addVote proposer candidate authorize).votes) :
    v ∈ s.votes ∨ v = ⟨proposer, candidate, authorize⟩ := by
  simpa [addVote] using hv

theorem once_addVote
    (h : s.votes.Pairwise fun v w ↦ v.validator = w.validator → v.candidate ≠ w.candidate)
    (hfresh : ∀ v ∈ s.votes, v.validator = proposer → v.candidate ≠ candidate) :
    (s.addVote proposer candidate authorize).votes.Pairwise fun v w ↦
      v.validator = w.validator → v.candidate ≠ w.candidate := by
  refine pairwise_append.mpr ⟨h, pairwise_singleton _ _, ?_⟩
  intro v hv w hw heq
  obtain rfl := mem_singleton.mp hw
  exact hfresh v hv heq

theorem voters_addVote (h : ∀ v ∈ s.votes, v.validator ∈ s.set.addrs)
    (hp : proposer ∈ s.set.addrs) :
    ∀ v ∈ (s.addVote proposer candidate authorize).votes, v.validator ∈ s.set.addrs := by
  intro v hv
  rcases mem_addVote hv with hv | rfl
  · exact h v hv
  · exact hp

theorem applyTally_ok (h : s.applyTally candidate authorize = .ok s') :
    s' = s ∨ (s.set.len < 2 * s.countByCandidate candidate ∧
      addsOrDelsCandidate s.set candidate authorize = .ok s'.set ∧ s'.votes.Sublist s.votes ∧
      ∀ v ∈ s'.votes, v.candidate ≠ candidate ∧
        (authorize = false → v.validator ≠ candidate.addr)) := by
  rw [applyTally] at h
  by_cases hmaj : s.countByCandidate candidate > s.set.len / 2
  · rw [if_pos hmaj] at h
    right
    obtain ⟨set, hset, hs'⟩ := except_bind_eq_ok.mp h
    have hmaj' : s.set.len < 2 * s.countByCandidate candidate := by omega
    cases hs'
    cases authorize with
    | true =>
      refine ⟨hmaj', hset, filter_sublist, fun v hv ↦ ⟨?_, by simp⟩⟩
      have hv' := (mem_filter.mp hv).2
      simpa [equal_eq_false_iff] using hv'
    | false =>
      refine ⟨hmaj', hset, filter_sublist.trans filter_sublist, fun v hv ↦ ?_⟩
      obtain ⟨hin, hc⟩ := mem_filter.mp hv
      have hvoter := (mem_filter.mp hin).2
      exact ⟨by simpa [equal_eq_false_iff] using hc, fun _ ↦ by simpa using hvoter⟩
  · rw [if_neg hmaj] at h
    left
    exact (ok.inj h).symm

theorem voters_tally (h : ∀ v ∈ s.votes, v.validator ∈ s.set.addrs)
    (ha : authorize = !s.set.includes candidate.addr)
    (hset : addsOrDelsCandidate s.set candidate authorize = .ok s'.set)
    (hsub : s'.votes.Sublist s.votes)
    (hrest : ∀ v ∈ s'.votes, authorize = false → v.validator ≠ candidate.addr) :
    ∀ v ∈ s'.votes, v.validator ∈ s'.set.addrs := by
  intro v hv
  have hin := h v (hsub.subset hv)
  have hne : v.validator ≠ candidate.addr := by
    intro heq
    cases authorize with
    | true =>
      have hnot : candidate.addr ∉ s.set.addrs := by
        rw [← includes_iff, not_eq_true]
        simpa using ha.symm
      exact hnot (heq ▸ hin)
    | false => exact hrest v hv rfl heq
  exact (addsOrDelsCandidate_addrs hset hne).mpr hin

end Snapshot

theorem processVote_ok {C : SnapshotConfig} {s s' : Snapshot} {header : Header} {t : ValidatorType}
    {proposer : Address} (h : processVote C s header t proposer = .ok s') :
    ∃ authorize candidate, isAuthorize header.nonce = .ok authorize ∧
      minerToValidator C t header.miner = .ok candidate ∧
      (s' = s ∨ (authorize = !s.set.includes candidate.addr ∧
        ∃ voted, s.castVote proposer candidate authorize = .ok voted ∧
          voted.applyTally candidate authorize = .ok s')) := by
  simp only [processVote, except_bind_eq_ok] at h
  obtain ⟨authorize, ha, candidate, hc, h⟩ := h
  refine ⟨authorize, candidate, ha, hc, ?_⟩
  split_ifs at h with hs
  · left
    exact (ok.inj h).symm
  · right
    refine ⟨?_, except_bind_eq_ok.mp h⟩
    exact eq_not.mpr (by simpa [shouldProcessVote] using hs)

structure Sound (board : Snapshot) (casts : List Cast) : Prop where
  recorded : ∀ v ∈ board.votes, ⟨v.validator, v.candidate.addr, v.authorize⟩ ∈ casts
  directed : ∀ v ∈ board.votes, v.authorize = !board.set.includes v.candidate.addr
  voters : ∀ v ∈ board.votes, v.validator ∈ board.set.addrs
  once : board.votes.Pairwise fun v w ↦ v.validator = w.validator → v.candidate ≠ w.candidate

section Step

variable {s s' : Snapshot} {casts : List Cast} {proposer : Address} {candidate : Validator}
  {authorize : Bool}

theorem Sound.mono {casts' : List Cast} (h : Sound s casts) (hsub : casts ⊆ casts') :
    Sound s casts' :=
  ⟨fun v hv ↦ hsub (h.recorded v hv), h.directed, h.voters, h.once⟩

theorem Sound.castVote (h : Sound s casts) (hp : proposer ∈ s.set.addrs)
    (ha : authorize = !s.set.includes candidate.addr)
    (hc : s.castVote proposer candidate authorize = .ok s') :
    Sound s' (casts ++ [⟨proposer, candidate.addr, authorize⟩]) ∧ s'.set = s.set ∧
      ∀ v ∈ s'.votes, v ∈ s.votes ∨ v.candidate = candidate := by
  rcases castVote_ok hc with rfl | ⟨rfl, hfresh⟩
  · exact ⟨h.mono (subset_append_left _ _), rfl, fun v hv ↦ .inl hv⟩
  · refine ⟨⟨fun v hv ↦ ?_, fun v hv ↦ ?_, voters_addVote h.voters hp,
      once_addVote h.once hfresh⟩, rfl, fun v hv ↦ ?_⟩
    · rcases mem_addVote hv with hv | rfl
      · exact mem_append_left _ (h.recorded v hv)
      · exact mem_append_right _ (mem_singleton_self _)
    · rcases mem_addVote hv with hv | rfl
      · exact h.directed v hv
      · exact ha
    · rcases mem_addVote hv with hv | rfl
      · exact .inl hv
      · exact .inr rfl

theorem Sound.majority (h : Sound s casts)
    (hmaj : s.set.len < 2 * s.countByCandidate candidate) :
    Majority s.set casts candidate.addr (!s.set.includes candidate.addr) := by
  set votes := s.votes.filter fun v ↦ v.candidate.equal candidate with hvotes
  have hfor : ∀ v ∈ votes, v ∈ s.votes ∧ v.candidate = candidate := by
    intro v hv
    obtain ⟨hin, hc⟩ := mem_filter.mp hv
    exact ⟨hin, (Validator.equal_iff _ _).mp hc⟩
  have hnodup : (votes.map Vote.validator).Nodup := by
    refine pairwise_map.mpr ((h.once.filter _).imp_of_mem fun {v w} hv hw hvw heq ↦ ?_)
    exact hvw heq ((hfor v hv).2.trans (hfor w hw).2.symm)
  refine ⟨(votes.map Vote.validator).toFinset, fun a ha ↦ ?_, ?_⟩
  · obtain ⟨v, hv, rfl⟩ := mem_map.mp (mem_toFinset.mp ha)
    obtain ⟨hin, rfl⟩ := hfor v hv
    exact ⟨h.voters v hin, h.directed v hin ▸ h.recorded v hin⟩
  · rwa [toFinset_card_of_nodup hnodup, length_map, hvotes, ← countP_eq_length_filter]

theorem Sound.applyTally (h : Sound s casts) (ha : authorize = !s.set.includes candidate.addr)
    (hkeys : ∀ v ∈ s.votes, v.candidate.addr = candidate.addr → v.candidate = candidate)
    (ht : s.applyTally candidate authorize = .ok s') :
    Sound s' (casts.filter fun c ↦ s'.set.includes c.target == s.set.includes c.target) ∧
      ∀ a, s'.set.includes a ≠ s.set.includes a → Majority s.set casts a (s'.set.includes a) := by
  rcases applyTally_ok ht with rfl | ⟨hmaj, hset, hsub, hrest⟩
  · refine ⟨?_, fun a hne ↦ absurd rfl hne⟩
    simpa using h
  have hsame : ∀ {a}, a ≠ candidate.addr → s'.set.includes a = s.set.includes a := by
    intro a hne
    rw [Bool.eq_iff_iff, includes_iff, includes_iff]
    exact addsOrDelsCandidate_addrs hset hne
  -- the tally removes every vote on the address that changes
  have htarget : ∀ v ∈ s'.votes, v.candidate.addr ≠ candidate.addr := fun v hv heq ↦
    (hrest v hv).1 (hkeys v (hsub.subset hv) heq)
  refine ⟨⟨fun v hv ↦ ?_, fun v hv ↦ ?_,
    voters_tally h.voters ha hset hsub fun v hv ↦ (hrest v hv).2, h.once.sublist hsub⟩,
    fun a hne ↦ ?_⟩
  · exact mem_filter.mpr ⟨h.recorded v (hsub.subset hv), by simp [hsame (htarget v hv)]⟩
  · rw [hsame (htarget v hv)]
    exact h.directed v (hsub.subset hv)
  · obtain rfl : a = candidate.addr := by
      by_contra hna
      exact hne (hsame hna)
    rw [eq_not.mpr hne]
    exact h.majority hmaj

end Step

section Law

variable (C : SnapshotConfig)

def candidateOf (header : Header) : Option (Address × Validator) :=
  match SnapshotStore.signerOf C header with
  | .error _ => none
  | .ok (t, proposer) =>
    match minerToValidator C t header.miner with
    | .error _ => none
    | .ok candidate => some (proposer, candidate)

def castOf (header : Header) : Option Cast :=
  if header.miner = zeroAddress.bytes then none
  else match candidateOf C header, isAuthorize header.nonce with
    | some (proposer, candidate), .ok authorize => some ⟨proposer, candidate.addr, authorize⟩
    | _, _ => none

def SnapshotStore.member (s : SnapshotStore) (a : Address) : Bool :=
  s.getLatestSnapshot.any fun snap ↦ snap.set.includes a

/-- The store with the record of the votes cast on each address since the last epoch block or the
last change of its membership. -/
structure Tracked where
  store : SnapshotStore
  casts : List Cast

namespace Tracked

def castsWith (t : Tracked) (header : Header) : List Cast := t.casts ++ (castOf C header).toList

def step (t : Tracked) (header : Header) : Tracked :=
  match t.store.processHeader C header with
  | .ok s' =>
    { store := s'
      casts := if header.number % C.epochSize = 0 then []
        else (t.castsWith C header).filter fun c ↦ s'.member c.target == t.store.member c.target }
  | _ => t

def InOrder (t : Tracked) (header : Header) : Prop :=
  t.store.lastNumber < header.number ∧ header.number < 2 ^ 64

/-- The header's candidate is the one that the stored votes on its address name. -/
def KeysAgree (t : Tracked) (header : Header) : Prop :=
  ∀ pc ∈ candidateOf C header, ∀ snap ∈ t.store.getLatestSnapshot, ∀ v ∈ snap.votes,
    v.candidate.addr = pc.2.addr → v.candidate = pc.2

def Directed (t : Tracked) : Prop :=
  ∀ snap, t.store.getLatestSnapshot = some snap →
    ∀ v ∈ snap.votes, v.authorize = !snap.set.includes v.candidate.addr

/-- An address enters (leaves) the set only by a majority of authorize (drop) votes for it. -/
def Lawful (t : Tracked) (header : Header) : Prop :=
  ∀ snap, t.store.getLatestSnapshot = some snap → ∀ a,
    (t.store.member a = false → (t.step C header).store.member a = true →
      Majority snap.set (t.castsWith C header) a true) ∧
    (t.store.member a = true → (t.step C header).store.member a = false →
      Majority snap.set (t.castsWith C header) a false)

end Tracked

variable {C} {board snap : Snapshot} {casts : List Cast} {header : Header} {t : ValidatorType}
  {proposer : Address}

theorem Sound.copy (h : Sound board casts) : Sound board.copy casts :=
  ⟨h.recorded, h.directed, h.voters, h.once⟩

theorem Sound.of_copy (h : Sound snap casts) (heq : board.copy = snap.copy) : Sound board casts := by
  obtain ⟨-, -, hv, hs⟩ := mk.inj heq
  exact ⟨hv ▸ h.recorded, hs ▸ hv ▸ h.directed, hs ▸ hv ▸ h.voters, hv ▸ h.once⟩

theorem Sound.filter_same (h : Sound board casts) {set : ValidatorSet} (heq : set = board.set) :
    Sound board (casts.filter fun c ↦ set.includes c.target == board.set.includes c.target) := by
  subst heq
  simpa using h

theorem Sound.processVote (h : Sound board casts) (hp : proposer ∈ board.set.addrs)
    (hsig : SnapshotStore.signerOf C header = .ok (t, proposer))
    (hminer : header.miner ≠ zeroAddress.bytes)
    (hkeys : ∀ pc ∈ candidateOf C header, ∀ v ∈ board.votes,
      v.candidate.addr = pc.2.addr → v.candidate = pc.2)
    (hvote : Validators.processVote C board header t proposer = .ok snap) :
    Sound snap ((casts ++ (castOf C header).toList).filter fun c ↦
        snap.set.includes c.target == board.set.includes c.target) ∧
      ∀ a, snap.set.includes a ≠ board.set.includes a →
        Majority board.set (casts ++ (castOf C header).toList) a (snap.set.includes a) := by
  obtain ⟨authorize, candidate, hauth, hcand, hcase⟩ := processVote_ok hvote
  have hpc : candidateOf C header = some (proposer, candidate) := by
    simp only [candidateOf, hsig, hcand]
  have hcast : castOf C header = some ⟨proposer, candidate.addr, authorize⟩ := by
    rw [castOf, if_neg hminer, hpc, hauth]
  rw [hcast, toList_some]
  rcases hcase with rfl | ⟨ha, voted, hvoted, htally⟩
  · exact ⟨(h.mono (subset_append_left _ _)).filter_same rfl, fun a hne ↦ absurd rfl hne⟩
  · obtain ⟨hsound, hset, hvotes⟩ := h.castVote hp ha hvoted
    have hkeys' : ∀ v ∈ voted.votes, v.candidate.addr = candidate.addr → v.candidate = candidate := by
      intro v hv heq
      rcases hvotes v hv with hold | hnew
      · exact hkeys _ hpc v hold heq
      · exact hnew
    have hres := hsound.applyTally (hset.symm ▸ ha) hkeys' htally
    rwa [hset] at hres

theorem Sound.advance (h : Sound board casts)
    (hsig : SnapshotStore.signerOf C header = .ok (t, proposer))
    (hkeys : ∀ pc ∈ candidateOf C header, ∀ v ∈ board.votes,
      v.candidate.addr = pc.2.addr → v.candidate = pc.2)
    (hadv : board.advance C header t proposer = .ok snap) :
    Sound snap (if header.number % C.epochSize = 0 then []
        else (casts ++ (castOf C header).toList).filter fun c ↦
          snap.set.includes c.target == board.set.includes c.target) ∧
      ∀ a, snap.set.includes a ≠ board.set.includes a →
        Majority board.set (casts ++ (castOf C header).toList) a (snap.set.includes a) := by
  rw [Snapshot.advance] at hadv
  split_ifs at hadv with hin hepoch hminer
  · cases hadv
    rw [if_pos hepoch]
    exact ⟨⟨by simp, by simp, by simp, by simp⟩, fun a hne ↦ absurd rfl hne⟩
  · cases hadv
    rw [if_neg hepoch]
    refine ⟨?_, fun a hne ↦ absurd rfl hne⟩
    exact (h.copy.mono (subset_append_left _ _)).filter_same rfl
  · rw [if_neg hepoch]
    have hmem : proposer ∈ board.set.addrs := by simpa using hin
    exact h.copy.processVote hmem hsig hminer hkeys hadv

namespace Tracked

def Accounted (t : Tracked) : Prop :=
  ∃ board, t.store.Current t.store.lastNumber board ∧ Sound board t.casts

end Tracked

theorem SnapshotStore.Current.latest {s : SnapshotStore} (h : s.Current s.lastNumber board) :
    ∃ cur, s.getLatestSnapshot = some cur ∧ cur.copy = board.copy := h.find _ le_rfl

theorem SnapshotStore.Current.member {s : SnapshotStore} (h : s.Current s.lastNumber board)
    (a : Address) : s.member a = board.set.includes a := by
  obtain ⟨cur, hcur, hcopy⟩ := h.latest
  have hset : cur.set = board.set := (Snapshot.mk.inj hcopy).2.2.2
  rw [SnapshotStore.member, hcur, any_some, hset]

theorem SnapshotStore.processSigned_zero_epoch (s : SnapshotStore) (hC : C.epochSize = 0)
    (s' : SnapshotStore) : s.processSigned C header t proposer ≠ .ok s' := by
  rw [processSigned]
  split
  · simp
  · split_ifs <;> simp

theorem SnapshotStore.Current.processHeader {s s' : SnapshotStore}
    (h : s.Current s.lastNumber board) (hn : s.lastNumber < header.number)
    (hlt : header.number < 2 ^ 64) (hok : s.processHeader C header = .ok s') :
    ∃ signer snap, signerOf C header = .ok signer ∧
      board.advance C header signer.1 signer.2 = .ok snap ∧
      s'.lastNumber = header.number ∧ s'.Current header.number snap := by
  rw [SnapshotStore.processHeader] at hok
  cases hsig : signerOf C header with
  | error e =>
    rw [hsig] at hok
    cases hok
  | ok signer =>
    rw [hsig] at hok
    replace hok : s.processSigned C header signer.1 signer.2 = .ok s' := hok
    have hC : C.epochSize ≠ 0 := fun h0 ↦ processSigned_zero_epoch _ h0 _ hok
    have hps := h.processSigned C hC hn hlt signer.1 signer.2
    cases hadv : board.advance C header signer.1 signer.2 with
    | error e =>
      rw [hadv, hok] at hps
      cases hps
    | ok snap =>
      rw [hadv, hok] at hps
      obtain ⟨s'', heq, hlast, hcur⟩ := hps
      cases heq
      exact ⟨signer, snap, rfl, hadv, hlast, hcur⟩

namespace Tracked

variable {tr : Tracked}

theorem lawful_of_step_eq (h : tr.step C header = tr) : tr.Lawful C header := by
  intro snap _ a
  rw [h]
  exact ⟨fun hf ht ↦ absurd (hf.symm.trans ht) (by decide),
    fun ht hf ↦ absurd (hf.symm.trans ht) (by decide)⟩

theorem Accounted.step (h : tr.Accounted) (hord : tr.InOrder header) (hkeys : tr.KeysAgree C header) :
    (tr.step C header).Accounted ∧ tr.Lawful C header := by
  by_cases hok : ∀ s', tr.store.processHeader C header ≠ .ok s'
  · have heq : tr.step C header = tr := by
      rw [Tracked.step]
      split
      · exact absurd ‹_› (hok _)
      · rfl
    exact ⟨heq.symm ▸ h, lawful_of_step_eq heq⟩
  obtain ⟨s', hs'⟩ := not_forall_not.mp hok
  have hstep : tr.step C header = ⟨s', if header.number % C.epochSize = 0 then []
      else (tr.castsWith C header).filter fun c ↦ s'.member c.target == tr.store.member c.target⟩ := by
    rw [Tracked.step, hs']
  obtain ⟨board, hcur, hsound⟩ := h
  obtain ⟨⟨t, proposer⟩, snap, hsig, hadv, hlast, hcur'⟩ := hcur.processHeader hord.1 hord.2 hs'
  rw [← hlast] at hcur'
  obtain ⟨cur, hlatest, hcopy⟩ := hcur.latest
  obtain ⟨-, -, hvotes, hset⟩ := Snapshot.mk.inj hcopy
  obtain ⟨hsound', hlaw⟩ := hsound.advance hsig
    (fun pc hpc v hv ↦ hkeys pc hpc cur hlatest v (hvotes ▸ hv)) hadv
  constructor
  · rw [hstep]
    refine ⟨snap, hcur', ?_⟩
    simpa only [hcur'.member, hcur.member, castsWith] using hsound'
  · intro cur' hlatest' a
    obtain rfl : cur = cur' := some.inj (hlatest.symm.trans hlatest')
    rw [hstep, hcur.member, hcur'.member, hset]
    constructor
    · intro hf ht
      have hmaj := hlaw a (by rw [hf, ht]; decide)
      rwa [ht] at hmaj
    · intro ht hf
      have hmaj := hlaw a (by rw [hf, ht]; decide)
      rwa [hf] at hmaj

theorem Accounted.directed (h : tr.Accounted) : tr.Directed := by
  obtain ⟨board, hcur, hsound⟩ := h
  obtain ⟨cur, hlatest, hcopy⟩ := hcur.latest
  intro snap hsnap
  obtain rfl : cur = snap := some.inj (hlatest.symm.trans hsnap)
  exact (hsound.of_copy hcopy).directed

/-- In every run that meets the condition on keys, stored votes ask for a change, and the set
changes only by majorities of votes for that change, cast since the last epoch block or the last
change of the address. -/
theorem voting_law (C : SnapshotConfig) (s₀ : SnapshotStore) (board : Snapshot)
    (hstart : s₀.Current s₀.lastNumber board) (hvotes : board.votes = []) (headers : List Header)
    (hrun : Admits (step C) (fun t header ↦ t.InOrder header ∧ t.KeysAgree C header)
      ⟨s₀, []⟩ headers) :
    (exec (step C) ⟨s₀, []⟩ headers).Directed ∧
      ∀ header, (exec (step C) ⟨s₀, []⟩ headers).InOrder header →
        (exec (step C) ⟨s₀, []⟩ headers).KeysAgree C header →
        (exec (step C) ⟨s₀, []⟩ headers).Lawful C header := by
  have hinit : Accounted ⟨s₀, []⟩ :=
    ⟨board, hstart, ⟨by simp [hvotes], by simp [hvotes], by simp [hvotes], by simp [hvotes]⟩⟩
  have hall := hrun.invariant hinit fun t header ht hok ↦ (ht.step hok.1 hok.2).1
  exact ⟨hall.directed, fun header hord hkeys ↦ (hall.step hord hkeys).2⟩

def addressOf (i : UInt8) : Address := bytesToAddress [i]

def plainConfig (t : ValidatorType) : SnapshotConfig where
  marshal := Rlp.encode
  parse := Rlp.decode
  getSigner _ := .ok (some ⟨t, fun header ↦ some (bytesToAddress header.extraData)⟩)
  epochSize := 100

def voteHeader (number : ℕ) (proposer : UInt8) (miner : Bytes) (nonce : Nonce) : Header :=
  { (default : Header) with
    number := number
    miner := miner
    nonce := nonce
    extraData := [proposer] }

def ecdsaPair : Snapshot :=
  ⟨0, zeroHash, [], ⟨.ecdsa, [.ecdsa (addressOf 1), .ecdsa (addressOf 2)], by simp [type]⟩⟩

def ecdsaVotes : List Header :=
  [voteHeader 1 1 (addressOf 9).bytes nonceAuthVote, voteHeader 2 2 (addressOf 9).bytes nonceAuthVote]

instance (t : Tracked) (header : Header) : Decidable (t.InOrder header) :=
  inferInstanceAs (Decidable (_ ∧ _))

instance (C : SnapshotConfig) (t : Tracked) (header : Header) : Decidable (t.KeysAgree C header) :=
  inferInstanceAs (Decidable (∀ pc ∈ candidateOf C header, ∀ snap ∈ t.store.getLatestSnapshot,
    ∀ v ∈ snap.votes, v.candidate.addr = pc.2.addr → v.candidate = pc.2))

theorem current_single (snap : Snapshot) (h : snap.number = 0) :
    (⟨0, [snap]⟩ : SnapshotStore).Current 0 snap :=
  ⟨pairwise_singleton _ _, by simp [h], snap, rfl, rfl⟩

theorem voting_law_ecdsa :
    (exec (step (plainConfig .ecdsa)) ⟨⟨0, [ecdsaPair]⟩, []⟩ ecdsaVotes).store.member
        (addressOf 9) = true ∧
    (exec (step (plainConfig .ecdsa)) ⟨⟨0, [ecdsaPair]⟩, []⟩ ecdsaVotes).Directed ∧
    (exec (step (plainConfig .ecdsa)) ⟨⟨0, [ecdsaPair]⟩, []⟩ ecdsaVotes).Lawful
      (plainConfig .ecdsa) (voteHeader 3 1 (addressOf 9).bytes nonceDropVote) := by
  obtain ⟨hdir, hlaw⟩ := voting_law (plainConfig .ecdsa) ⟨0, [ecdsaPair]⟩ ecdsaPair
    (current_single ecdsaPair rfl) rfl ecdsaVotes (by decide +kernel)
  exact ⟨by decide +kernel, hdir, hlaw _ (by decide +kernel) (by decide +kernel)⟩

def blsPair : Snapshot :=
  ⟨0, zeroHash, [], ⟨.bls, [.bls (addressOf 1) [1], .bls (addressOf 2) [2]], by simp [type]⟩⟩

def blsMiner (key : UInt8) : Bytes :=
  Rlp.encode (bls (addressOf 9) [key]).marshalRLPWith

def blsVotes : List Header :=
  [voteHeader 1 1 (blsMiner 7) nonceAuthVote, voteHeader 2 1 (blsMiner 8) nonceAuthVote,
    voteHeader 3 2 (blsMiner 8) nonceAuthVote]

/-- Address 9 is voted in with one key while an authorize vote for another key stays behind. That
vote then counts against it: a single drop vote of the three validators removes it. -/
theorem voting_law_fails_across_keys :
    ¬ ∀ (C : SnapshotConfig) (s₀ : SnapshotStore) (board : Snapshot),
      s₀.Current s₀.lastNumber board → board.votes = [] → ∀ headers : List Header,
      Admits (step C) (fun t header ↦ t.InOrder header) ⟨s₀, []⟩ headers →
      ∀ header, (exec (step C) ⟨s₀, []⟩ headers).InOrder header →
        (exec (step C) ⟨s₀, []⟩ headers).Lawful C header := by
  intro hall
  set t := exec (step (plainConfig .bls)) ⟨⟨0, [blsPair]⟩, []⟩ blsVotes with ht
  have hlaw : t.Lawful (plainConfig .bls) (voteHeader 4 2 (blsMiner 7) nonceDropVote) :=
    hall (plainConfig .bls) ⟨0, [blsPair]⟩ blsPair (current_single blsPair rfl) rfl blsVotes
      (by decide +kernel) _ (by decide +kernel)
  have hcasts : t.castsWith (plainConfig .bls) (voteHeader 4 2 (blsMiner 7) nonceDropVote) =
      [⟨addressOf 2, addressOf 9, false⟩] := by decide +kernel
  obtain ⟨snap, hsnap, hlen⟩ : ∃ snap, t.store.getLatestSnapshot = some snap ∧ snap.set.len = 3 :=
    ⟨⟨3, zeroHash, [⟨addressOf 1, .bls (addressOf 9) [7], true⟩],
      ⟨.bls, [.bls (addressOf 1) [1], .bls (addressOf 2) [2], .bls (addressOf 9) [8]],
        by simp [type]⟩⟩, by decide +kernel, rfl⟩
  obtain ⟨voters, hvoters, hmaj⟩ :=
    (hlaw snap hsnap (addressOf 9)).2 (by decide +kernel) (by decide +kernel)
  rw [hcasts] at hvoters
  have hsub : voters ⊆ {addressOf 2} := by
    intro v hv
    obtain ⟨-, hcast⟩ := hvoters v hv
    rw [mem_singleton] at hcast
    exact Finset.mem_singleton.mpr (Cast.mk.inj hcast).1
  have hcard := Finset.card_le_card hsub
  rw [Finset.card_singleton] at hcard
  omega

end Tracked

end Law

end Mainnet.Validators
