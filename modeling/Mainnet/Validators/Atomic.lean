import Mainnet.Validators.Pointers

namespace Mainnet.Validators.Pointers

open Types Lib List Nat Store Window Heap Store.Retains Tracked

namespace Heap

structure Retains (h h' : Heap) : Prop where
  validators : h.validators.Retains h'.validators
  votes : h.votes.Retains h'.votes
  members : h.members.Retains h'.members
  ballots : h.ballots.Retains h'.ballots
  sets : h.sets.Retains h'.sets
  snapshots : h.snapshots.Retains h'.snapshots

structure Valid (h : Heap) (p : Ref) : Prop where
  snapshot : p < h.snapshots.next
  set : (h.snapshots.get p).set < h.sets.next
  ballots : (h.snapshots.get p).votes.array < h.ballots.next
  members : (h.setOf p).validators.array < h.members.next
  vote : ∀ r ∈ h.ballotsOf p, r < h.votes.next ∧ (h.votes.get r).candidate < h.validators.next
  validator : ∀ r ∈ h.membersOf p, r < h.validators.next

variable {h h' h'' : Heap} {p : Ref}

namespace Retains

theorem refl (h : Heap) : h.Retains h :=
  ⟨.refl _, .refl _, .refl _, .refl _, .refl _, .refl _⟩

theorem trans (hr : h.Retains h') (hr' : h'.Retains h'') : h.Retains h'' :=
  ⟨hr.validators.trans hr'.validators, hr.votes.trans hr'.votes, hr.members.trans hr'.members,
    hr.ballots.trans hr'.ballots, hr.sets.trans hr'.sets, hr.snapshots.trans hr'.snapshots⟩

theorem vote (hr : h.Retains h') {r : Ref} (hv : r < h.votes.next)
    (hc : (h.votes.get r).candidate < h.validators.next) : h'.vote r = h.vote r := by
  rw [Heap.vote, Heap.vote, hr.votes.get r hv, hr.validators.get _ hc]

section

variable (hr : h.Retains h') (hp : h.Valid p)
include hr hp

theorem cell : h'.snapshots.get p = h.snapshots.get p :=
  hr.snapshots.get p hp.snapshot

theorem setOf : h'.setOf p = h.setOf p := by
  rw [Heap.setOf, Heap.setOf, hr.cell hp, hr.sets.get _ hp.set]

theorem ballotsOf : h'.ballotsOf p = h.ballotsOf p := by
  rw [Heap.ballotsOf, Heap.ballotsOf, hr.cell hp, items, items, hr.ballots.get _ hp.ballots]

theorem membersOf : h'.membersOf p = h.membersOf p := by
  rw [Heap.membersOf, Heap.membersOf, hr.setOf hp, items, items, hr.members.get _ hp.members]

theorem valid : h'.Valid p where
  snapshot := hp.snapshot.trans_le hr.snapshots.le
  set := by
    rw [hr.cell hp]
    exact hp.set.trans_le hr.sets.le
  ballots := by
    rw [hr.cell hp]
    exact hp.ballots.trans_le hr.ballots.le
  members := by
    rw [hr.setOf hp]
    exact hp.members.trans_le hr.members.le
  vote r hm := by
    rw [hr.ballotsOf hp] at hm
    obtain ⟨hv, hc⟩ := hp.vote r hm
    rw [hr.votes.get r hv]
    exact ⟨hv.trans_le hr.votes.le, hc.trans_le hr.validators.le⟩
  validator r hm := by
    rw [hr.membersOf hp] at hm
    exact (hp.validator r hm).trans_le hr.validators.le

theorem view : h'.view p = h.view p := by
  have hvotes : (h'.ballotsOf p).map h'.vote = (h.ballotsOf p).map h.vote := by
    rw [hr.ballotsOf hp]
    refine map_congr_left fun r hm ↦ ?_
    obtain ⟨hv, hc⟩ := hp.vote r hm
    exact hr.vote hv hc
  have hvals : (h'.membersOf p).map h'.validators.get = (h.membersOf p).map h.validators.get := by
    rw [hr.membersOf hp]
    exact map_congr_left fun r hm ↦ hr.validators.get r (hp.validator r hm)
  rw [Heap.view, Heap.view, hvotes, hvals, hr.cell hp, hr.setOf hp]

end

end Retains

structure Made (base h : Heap) (p : Ref) : Prop where
  retains : base.Retains h
  valid : h.Valid p
  snapshot : base.snapshots.next ≤ p

structure Draft (base h : Heap) (p : Ref) : Prop extends Made base h p where
  set : base.sets.next ≤ (h.snapshots.get p).set
  ballots : base.ballots.next ≤ (h.snapshots.get p).votes.array
  members : base.members.next ≤ (h.setOf p).validators.array

variable {base : Heap}

theorem Draft.mono (hd : Draft base h p) (hr : h.Retains h') : Draft base h' p where
  retains := hd.retains.trans hr
  valid := hr.valid hd.valid
  snapshot := hd.snapshot
  set := by
    rw [hr.cell hd.valid]
    exact hd.set
  ballots := by
    rw [hr.cell hd.valid]
    exact hd.ballots
  members := by
    rw [hr.setOf hd.valid]
    exact hd.members

theorem copyValidators_spec (rs : List Ref) (h : Heap) :
    ∃ validators, (copyValidators rs h).2 = { h with validators := validators } ∧
      h.validators.Retains validators ∧ ∀ r ∈ (copyValidators rs h).1, r < validators.next := by
  induction rs generalizing h with
  | nil => exact ⟨h.validators, rfl, .refl _, by simp [copyValidators]⟩
  | cons r rs ih =>
    have hstep := (refl h.validators).alloc (h.validators.get r)
    obtain ⟨validators, heq, hr, hlt⟩ :=
      ih { h with validators := h.validators.alloc (h.validators.get r) }
    refine ⟨validators, heq, hstep.trans hr, ?_⟩
    intro r' hr'
    rcases mem_cons.mp hr' with rfl | hr'
    · exact (lt_succ_self _).trans_le hr.le
    · exact hlt r' hr'

theorem copyVotes_spec (rs : List Ref) (h : Heap) :
    ∃ validators votes, (copyVotes rs h).2 = { h with validators := validators, votes := votes } ∧
      h.validators.Retains validators ∧ h.votes.Retains votes ∧
      ∀ r ∈ (copyVotes rs h).1, r < votes.next ∧ (votes.get r).candidate < validators.next := by
  induction rs generalizing h with
  | nil => exact ⟨h.validators, h.votes, rfl, .refl _, .refl _, by simp [copyVotes]⟩
  | cons r rs ih =>
    obtain ⟨validators, votes, heq, hvals, hvotes, hlt⟩ := ih { h with
      validators := h.validators.alloc (h.validators.get (h.votes.get r).candidate)
      votes := h.votes.alloc { h.votes.get r with candidate := h.validators.next } }
    refine ⟨validators, votes, heq, ((refl _).alloc _).trans hvals,
      ((refl _).alloc _).trans hvotes, ?_⟩
    intro r' hr'
    rcases mem_cons.mp hr' with rfl | hr'
    · rw [hvotes.get _ (lt_succ_self _), alloc_get_next]
      exact ⟨(lt_succ_self _).trans_le hvotes.le, (lt_succ_self _).trans_le hvals.le⟩
    · exact hlt r' hr'

theorem copySet_spec (h : Heap) (p : Ref) :
    ∃ validators members w,
      h.copySet (h.snapshots.get p).set =
        { h with
          validators := validators
          members := members
          sets := h.sets.alloc ⟨(h.setOf p).validatorType, w⟩ } ∧
      h.validators.Retains validators ∧ h.members.Retains members ∧
      w.array = h.members.next ∧ w.array < members.next ∧
      ∀ r ∈ w.items members, r < validators.next := by
  obtain ⟨validators, heq, hr, hlt⟩ := copyValidators_spec (h.membersOf p) h
  set made := ofList h.members (copyValidators (h.membersOf p) h).1 with hmade
  have hcopy : h.copySet (h.snapshots.get p).set =
      { h with
        validators := validators
        members := made.2
        sets := h.sets.alloc ⟨(h.setOf p).validatorType, made.1⟩ } := by
    rw [copySet, ← setOf, ← membersOf, heq]
  refine ⟨validators, made.2, made.1, hcopy, hr, (refl _).alloc _, rfl,
    lt_succ_self h.members.next, ?_⟩
  rw [hmade, items_ofList]
  exact hlt

theorem copy_spec (h : Heap) (p : Ref) :
    ∃ validators votes members w refs,
      h.copy p = ⟨validators, votes, members, (ofList h.ballots refs).2,
        h.sets.alloc ⟨(h.setOf p).validatorType, w⟩,
        h.snapshots.alloc ⟨0, zeroHash, (ofList h.ballots refs).1, h.sets.next⟩⟩ ∧
      h.Retains (h.copy p) ∧ w.array = h.members.next ∧ w.array < members.next ∧
      (∀ r ∈ w.items members, r < validators.next) ∧
      ∀ r ∈ refs, r < votes.next ∧ (votes.get r).candidate < validators.next := by
  obtain ⟨validators, members, w, hset, hvals, hmembers, harray, hlt, hitems⟩ := copySet_spec h p
  obtain ⟨validators', votes, heq, hvals', hvotes, hrefs⟩ := copyVotes_spec (h.ballotsOf p)
    { h with
      validators := validators
      members := members
      sets := h.sets.alloc ⟨(h.setOf p).validatorType, w⟩ }
  have hcopy := copy.eq_def h p
  dsimp only at hcopy
  rw [hset, ← ballotsOf, heq] at hcopy
  refine ⟨validators', votes, members, w, _, hcopy, ?_, harray, hlt,
    fun r hm ↦ (hitems r hm).trans_le hvals'.le, hrefs⟩
  rw [hcopy]
  exact ⟨hvals.trans hvals', hvotes, hmembers, (refl _).alloc _, (refl _).alloc _, (refl _).alloc _⟩

theorem copy_draft (h : Heap) (p : Ref) : Draft h (h.copy p) h.snapshots.next := by
  obtain ⟨validators, votes, members, w, refs, hcopy, hr, harray, hlt, hitems, hrefs⟩ :=
    copy_spec h p
  have hcell : (h.copy p).snapshots.get h.snapshots.next =
      ⟨0, zeroHash, (ofList h.ballots refs).1, h.sets.next⟩ := by
    rw [hcopy]
    exact alloc_get_next _ _
  have hsetOf : (h.copy p).setOf h.snapshots.next = ⟨(h.setOf p).validatorType, w⟩ := by
    rw [setOf, hcell, hcopy]
    exact alloc_get_next _ _
  have hballotsOf : (h.copy p).ballotsOf h.snapshots.next = refs := by
    rw [ballotsOf, hcell, hcopy]
    exact items_ofList _ _
  have hvalid : (h.copy p).Valid h.snapshots.next := by
    constructor
    · rw [hcopy]
      exact lt_succ_self _
    · rw [hcell, hcopy]
      exact lt_succ_self _
    · rw [hcell, hcopy]
      exact lt_succ_self h.ballots.next
    · rw [hsetOf, hcopy]
      exact hlt
    · rw [hballotsOf, hcopy]
      exact hrefs
    · rw [membersOf, hsetOf, hcopy]
      exact hitems
  refine ⟨⟨hr, hvalid, le_rfl⟩, ?_, ?_, ?_⟩
  · rw [hcell]
  · rw [hcell]
    exact le_rfl
  · rw [hsetOf]
    exact harray.ge

namespace Draft

variable {grow : ℕ → ℕ}

theorem setVotes (hd : Draft base h p) {votes : Store VoteCell} {made : Window × Store (ℕ → Ref)}
    (hvotes : h.votes.Retains votes) (hballots : base.ballots.Retains made.2)
    (hlt : made.1.array < made.2.next) (hown : base.ballots.next ≤ made.1.array)
    (hitems : ∀ r ∈ made.1.items made.2,
      r < votes.next ∧ (votes.get r).candidate < h.validators.next) :
    Draft base (h.setVotes p votes made) p := by
  have hr := hd.retains
  refine ⟨⟨⟨hr.validators, hr.votes.trans hvotes, hr.members, hballots, hr.sets,
    hr.snapshots.set hd.snapshot _⟩, ⟨hd.valid.snapshot, ?_, ?_, ?_, ?_, ?_⟩, hd.snapshot⟩,
    ?_, ?_, ?_⟩
  · simpa only [Heap.setVotes, set_get_self] using hd.valid.set
  · simpa only [Heap.setVotes, set_get_self] using hlt
  · simpa only [Heap.setVotes, setOf, set_get_self] using hd.valid.members
  · simpa only [Heap.setVotes, ballotsOf, set_get_self] using hitems
  · simpa only [Heap.setVotes, membersOf, setOf, set_get_self] using hd.valid.validator
  · simpa only [Heap.setVotes, set_get_self] using hd.set
  · simpa only [Heap.setVotes, set_get_self] using hown
  · simpa only [Heap.setVotes, setOf, set_get_self] using hd.members

end Draft

theorem index_lt {addr : Address} {i : ℕ} (hi : (h.view p).index addr = some i) :
    i < (h.setOf p).validators.len := by
  obtain ⟨hlt, -⟩ := findIdx?_eq_some_iff_getElem.mp hi
  simpa [view, membersOf, items] using hlt

namespace Draft

variable {candidate : Ref} {authorize : Bool}

section

variable (hd : Draft base h p)
include hd

theorem addVote {voter : Address} (hc : candidate < h.validators.next) :
    Draft base (h.addVote grow p voter candidate authorize) p := by
  have hvotes := (refl h.votes).alloc ⟨voter, candidate, authorize⟩
  refine hd.setVotes hvotes (retains_append hd.retains.ballots hd.ballots h.votes.next)
    (append_array_lt hd.valid.ballots h.votes.next) ?_ ?_
  · rcases append_array grow h.ballots (h.snapshots.get p).votes h.votes.next
      with ⟨-, hsame⟩ | hnext
    · exact hsame.symm ▸ hd.ballots
    · exact hnext.symm ▸ hd.retains.ballots.le
  · intro r hr
    rw [items_append] at hr
    rcases mem_append.mp hr with hr | hr
    · obtain ⟨hv, hcand⟩ := hd.valid.vote r hr
      rw [hvotes.get r hv]
      exact ⟨hv.trans_le hvotes.le, hcand⟩
    · rw [mem_singleton.mp hr, alloc_get_next]
      exact ⟨lt_succ_self _, hc⟩

theorem removeVotes (f : Vote → Bool) : Draft base (h.removeVotes p f) p := by
  refine hd.setVotes (.refl h.votes) (hd.retains.ballots.alloc _) (lt_succ_self h.ballots.next)
    hd.retains.ballots.le ?_
  intro r hr
  rw [items_ofList] at hr
  exact hd.valid.vote r (mem_of_mem_filter hr)

theorem setMembers {made : Window × Store (ℕ → Ref)}
    (hmembers : base.members.Retains made.2) (hlt : made.1.array < made.2.next)
    (hown : base.members.next ≤ made.1.array)
    (hitems : ∀ r ∈ made.1.items made.2, r < h.validators.next) :
    Draft base (h.setMembers p made) p := by
  have hr := hd.retains
  refine ⟨⟨⟨hr.validators, hr.votes, hmembers, hr.ballots, hr.sets.set hd.set _, hr.snapshots⟩,
    ⟨hd.valid.snapshot, hd.valid.set, hd.valid.ballots, ?_, hd.valid.vote, ?_⟩, hd.snapshot⟩, hd.set,
    hd.ballots, ?_⟩
  · simpa only [Heap.setMembers, setOf, set_get_self] using hlt
  · simpa only [Heap.setMembers, membersOf, setOf, set_get_self] using hitems
  · simpa only [Heap.setMembers, setOf, set_get_self] using hown

theorem addsOrDelsCandidate {b : Bool} (hc : candidate < h.validators.next)
    (hok : h.addsOrDelsCandidate grow p candidate b = .ok h') :
    Draft base h' p := by
  cases b with
  | true =>
    simp only [Heap.addsOrDelsCandidate, if_true, Heap.add] at hok
    split_ifs at hok <;> simp only [Except.mapError, reduceCtorEq, Except.ok.injEq] at hok
    subst hok
    refine hd.setMembers (retains_append hd.retains.members hd.members _)
      (append_array_lt hd.valid.members _) ?_ ?_
    · rcases append_array grow h.members (h.setOf p).validators candidate with ⟨-, hsame⟩ | hnext
      · exact hsame.symm ▸ hd.members
      · exact hnext.symm ▸ hd.retains.members.le
    · intro r hr
      rw [items_append] at hr
      rcases mem_append.mp hr with hr | hr
      · exact hd.valid.validator r hr
      · rw [mem_singleton.mp hr]
        exact hc
  | false =>
    simp only [Heap.addsOrDelsCandidate, Bool.false_eq_true, if_false, Heap.del] at hok
    split_ifs at hok
    · cases hok
    · split at hok
      · cases hok
      · rename_i i hi
        cases hok
        have hlt := index_lt hi
        refine hd.setMembers (hd.retains.members.set hd.members _) hd.valid.members hd.members ?_
        intro r hr
        rw [items_erase hlt] at hr
        exact hd.valid.validator r (mem_of_mem_eraseIdx hr)

theorem castVote {proposer : Address} (hc : candidate < h.validators.next)
    (hok : h.castVote grow p proposer candidate authorize = .ok h') :
    Draft base h' p ∧ h'.validators = h.validators := by
  rw [Heap.castVote] at hok
  split_ifs at hok
  · cases hok
    exact ⟨hd.addVote hc, rfl⟩
  · cases hok
    exact ⟨hd, rfl⟩

theorem applyTally (hc : candidate < h.validators.next)
    (hok : h.applyTally grow p candidate authorize = .ok h') : Draft base h' p := by
  rw [Heap.applyTally] at hok
  by_cases hmaj : (h.view p).countByCandidate (h.validators.get candidate) >
      (h.view p).validators.length / 2
  · rw [if_pos hmaj] at hok
    split at hok
    · cases hok
    · rename_i changed hchanged
      cases hok
      have hd' := hd.addsOrDelsCandidate hc hchanged
      refine removeVotes ?_ _
      split_ifs
      · exact hd'.removeVotes _
      · exact hd'
  · rw [if_neg hmaj] at hok
    cases hok
    exact hd

theorem processVote (grow : ℕ → ℕ) (C : SnapshotConfig) (header : Header)
    (t : ValidatorType) (proposer : Address) : Draft base (h.processVote grow p C header t proposer).2 p := by
  rw [Heap.processVote]
  split
  · exact hd
  · split
    · exact hd
    · rename_i candidate _
      have hd' := hd.mono (show h.Retains { h with validators := h.validators.alloc candidate } from
        ⟨(refl _).alloc _, .refl _, .refl _, .refl _, .refl _, .refl _⟩)
      have hc : h.validators.next < (h.validators.alloc candidate).next := lt_succ_self _
      dsimp only
      split_ifs
      · exact hd'
      · split
        · exact hd'
        · rename_i voted hvoted
          obtain ⟨hvoted', hvals⟩ := hd'.castVote hc hvoted
          split
          · exact hvoted'
          · rename_i tallied htallied
            exact hvoted'.applyTally (hvals.symm ▸ hc) htallied

end

end Draft

end Heap

namespace Heap

variable {base h : Heap} {p : Ref}

theorem Made.modifySnapshot (hm : Made base h p) {f : SnapshotCell → SnapshotCell}
    (hset : (f (h.snapshots.get p)).set = (h.snapshots.get p).set)
    (hvotes : (f (h.snapshots.get p)).votes = (h.snapshots.get p).votes ∨
      (f (h.snapshots.get p)).votes = ⟨0, 0, 0⟩) : Made base (h.modifySnapshot p f) p := by
  have hr := hm.retains
  refine ⟨⟨hr.validators, hr.votes, hr.members, hr.ballots, hr.sets, hr.snapshots.set hm.snapshot _⟩,
    ⟨hm.valid.snapshot, ?_, ?_, ?_, ?_, ?_⟩, hm.snapshot⟩
  · simpa only [Heap.modifySnapshot, set_get_self, hset] using hm.valid.set
  · simp only [Heap.modifySnapshot, set_get_self]
    rcases hvotes with heq | heq
    · rw [heq]
      exact hm.valid.ballots
    · rw [heq]
      exact (zero_le _).trans_lt hm.valid.ballots
  · simpa only [Heap.modifySnapshot, setOf, set_get_self, hset] using hm.valid.members
  · simp only [Heap.modifySnapshot, ballotsOf, set_get_self]
    rcases hvotes with heq | heq
    · rw [heq]
      exact hm.valid.vote
    · rw [heq]
      simp [items]
  · simpa only [Heap.modifySnapshot, membersOf, setOf, set_get_self, hset] using hm.valid.validator

end Heap

namespace PointerStore

variable {grow : ℕ → ℕ} {C : SnapshotConfig} {st st' st'' : PointerStore} {base : Heap}

def Valid (st : PointerStore) : Prop := ∀ r ∈ st.list, st.heap.Valid r

structure Same (st st' : PointerStore) : Prop where
  lastNumber : st'.lastNumber = st.lastNumber
  list : st'.list = st.list
  view : ∀ r ∈ st.list, st'.heap.view r = st.heap.view r

theorem same_of_retains (hst : st.Valid) (hlast : st'.lastNumber = st.lastNumber)
    (hlist : st'.list = st.list) (hr : st.heap.Retains st'.heap) : st.Same st' :=
  ⟨hlast, hlist, fun r hm ↦ hr.view (hst r hm)⟩

theorem Valid.retains (hst : st.Valid) (hr : st.heap.Retains st'.heap)
    (hlist : ∀ r ∈ st'.list, r ∈ st.list ∨ st'.heap.Valid r) : st'.Valid := by
  intro r hm
  rcases hlist r hm with hold | hnew
  · exact hr.valid (hst r hold)
  · exact hnew

theorem saveSnapshotIfChanged_keeps (st : PointerStore) (parent : Ref) {snap : Ref}
    (header : Header) (hm : Made base st.heap snap) :
    base.Retains (st.saveSnapshotIfChanged parent snap header).heap ∧
      ∀ r ∈ (st.saveSnapshotIfChanged parent snap header).list,
        r ∈ st.list ∨ (st.saveSnapshotIfChanged parent snap header).heap.Valid r := by
  rw [saveSnapshotIfChanged]
  split_ifs
  · exact ⟨hm.retains, fun r hr ↦ .inl hr⟩
  · have hm' := hm.modifySnapshot
      (f := fun cell ↦ { cell with number := header.number, hash := header.hash }) rfl (.inl rfl)
    refine ⟨hm'.retains, fun r hr ↦ ?_⟩
    rw [add, mem_insertionSort, mem_append, mem_singleton] at hr
    rcases hr with hr | rfl
    · exact .inl hr
    · exact .inr hm'.valid

theorem resetSnapshot_keeps (parent : Ref) {snap : Ref} (header : Header)
    (hm : Made base st.heap snap) :
    base.Retains (st.resetSnapshot parent snap header).heap ∧
      ∀ r ∈ (st.resetSnapshot parent snap header).list,
        r ∈ st.list ∨ (st.resetSnapshot parent snap header).heap.Valid r := by
  have hm' := hm.modifySnapshot (f := fun cell ↦ { cell with votes := ⟨0, 0, 0⟩ }) rfl (.inr rfl)
  exact saveSnapshotIfChanged_keeps ⟨_, st.lastNumber, st.list⟩ parent header hm'

theorem removeLowerSnapshots_keeps {height : ℕ} (h : st.removeLowerSnapshots C height = some st') :
    st'.heap = st.heap ∧ st'.list ⊆ st.list := by
  rw [removeLowerSnapshots] at h
  split_ifs at h
  · obtain ⟨k, -, rfl⟩ := Option.map_eq_some_iff.mp h
    exact ⟨rfl, drop_subset _ _⟩
  · cases h
    exact ⟨rfl, Subset.refl _⟩

variable {parent snap : Ref} {header : Header} {t : ValidatorType} {proposer : Address}
  {o : Outcome StoreError Unit}

theorem processEpoch_keeps (hm : Made base st.heap snap)
    (h : st.processEpoch C parent snap header = (o, st')) :
    (∀ e, o ≠ .error e) ∧ base.Retains st'.heap ∧ ∀ r ∈ st'.list, r ∈ st.list ∨ st'.heap.Valid r := by
  have hsaved := resetSnapshot_keeps parent header hm
  rw [processEpoch] at h
  generalize hlower : (st.resetSnapshot parent snap header).removeLowerSnapshots C header.number = res
    at h
  cases res with
  | none =>
    cases h
    exact ⟨by simp, hsaved⟩
  | some pruned =>
    obtain ⟨hheap, hlist⟩ := removeLowerSnapshots_keeps hlower
    cases h
    refine ⟨by simp, ?_⟩
    rw [updateLastBlock, hheap]
    exact ⟨hsaved.1, fun r hr ↦ hsaved.2 r (hlist hr)⟩

theorem processCopy_keeps (hd : Draft base st.heap snap)
    (h : st.processCopy grow C parent snap header t proposer = (o, st')) :
    base.Retains st'.heap ∧ (∀ r ∈ st'.list, r ∈ st.list ∨ st'.heap.Valid r) ∧
      (∀ e, o = .error e → st'.lastNumber = st.lastNumber ∧ st'.list = st.list) := by
  rw [processCopy] at h
  by_cases h0 : C.epochSize = 0
  · rw [if_pos h0] at h
    cases h
    exact ⟨hd.retains, fun r hr ↦ .inl hr, fun e _ ↦ ⟨rfl, rfl⟩⟩
  by_cases hepoch : header.number % C.epochSize = 0
  · rw [if_neg h0, if_pos hepoch] at h
    obtain ⟨hno, hr, hlist⟩ := processEpoch_keeps hd.toMade h
    exact ⟨hr, hlist, fun e he ↦ absurd he (hno e)⟩
  by_cases hminer : header.miner = zeroAddress.bytes
  · rw [if_neg h0, if_neg hepoch, if_pos hminer] at h
    cases h
    exact ⟨hd.retains, fun r hr ↦ .inl hr, fun e he ↦ by cases he⟩
  rw [if_neg h0, if_neg hepoch, if_neg hminer] at h
  have hvote := hd.processVote grow C header t proposer
  generalize st.heap.processVote grow snap C header t proposer = voted at h hvote
  obtain ⟨err, heap⟩ := voted
  cases err with
  | some e =>
    cases h
    exact ⟨hvote.retains, fun r hr ↦ .inl hr, fun e _ ↦ ⟨rfl, rfl⟩⟩
  | none =>
    cases h
    obtain ⟨hr, hlist⟩ := saveSnapshotIfChanged_keeps ⟨heap, header.number, st.list⟩ parent header
      hvote.toMade
    exact ⟨hr, hlist, fun e he ↦ by cases he⟩

theorem processSigned_keeps (hst : st.Valid)
    (h : st.processSigned grow C header t proposer = (o, st')) :
    st.heap.Retains st'.heap ∧ st'.Valid ∧
      (∀ e, o = .error e → st'.lastNumber = st.lastNumber ∧ st'.list = st.list) := by
  rw [processSigned] at h
  generalize st.find ((header.number + 2 ^ 64 - 1) % 2 ^ 64) = found at h
  cases found with
  | none =>
    cases h
    exact ⟨.refl _, hst, fun e _ ↦ ⟨rfl, rfl⟩⟩
  | some parent =>
    dsimp only at h
    by_cases hin : (!(st.heap.view parent).includes proposer) = true
    · rw [if_pos hin] at h
      cases h
      exact ⟨.refl _, hst, fun e _ ↦ ⟨rfl, rfl⟩⟩
    · rw [if_neg hin] at h
      have hd := copy_draft st.heap parent
      obtain ⟨hr, hlist, herr⟩ := processCopy_keeps hd h
      exact ⟨hr, hst.retains hr hlist, herr⟩

theorem processHeader_keeps (hst : st.Valid) (h : st.processHeader grow C header = (o, st')) :
    st'.Valid ∧ ∀ e, o = .error e → st.Same st' := by
  rw [processHeader] at h
  generalize SnapshotStore.signerOf C header = sig at h
  cases sig with
  | error e =>
    cases h
    exact ⟨hst, fun e _ ↦ same_of_retains hst rfl rfl (.refl _)⟩
  | ok sp =>
    obtain ⟨hr, hvalid, herr⟩ := processSigned_keeps hst h
    exact ⟨hvalid, fun e he ↦ same_of_retains hst (herr e he).1 (herr e he).2 hr⟩

variable {chain : List Header} {o' : Outcome InitError Unit}

theorem processNumber_keeps {i : ℕ} (hst : st.Valid)
    (h : st.processNumber grow C chain i = (o', st')) :
    st'.Valid ∧ ∀ e, o' = .error e → i ≠ 0 ∧ st.Same st' := by
  rw [processNumber] at h
  by_cases hi : i = 0
  · rw [if_pos hi] at h
    cases h
    exact ⟨hst, fun e he ↦ by cases he⟩
  rw [if_neg hi] at h
  cases hat : chain[i]? with
  | none =>
    rw [hat] at h
    cases h
    exact ⟨hst, fun e _ ↦ ⟨hi, same_of_retains hst rfl rfl (.refl _)⟩⟩
  | some header =>
    rw [hat] at h
    rcases hres : st.processHeader grow C header with ⟨o, st₁⟩
    obtain ⟨hvalid, herr⟩ := processHeader_keeps hst hres
    replace h : (o.mapError InitError.store, st₁) = (o', st') := by
      rw [← h]
      dsimp only
      rw [hres]
    cases h
    refine ⟨hvalid, fun e he ↦ ⟨hi, ?_⟩⟩
    cases o with
    | error e' => exact herr e' rfl
    | ok _ | panic => cases he

theorem processNumbers_error {is : List ℕ} {e : InitError} (hst : st.Valid)
    (h : st.processNumbers grow C chain is = (.error e, st')) :
    ∃ past k rest st₁, is = past ++ k :: rest ∧ k ≠ 0 ∧
      st.processNumbers grow C chain past = (.ok (), st₁) ∧
      st₁.processNumber grow C chain k = (.error e, st') ∧ st₁.Same st' := by
  induction is generalizing st with
  | nil => cases h
  | cons i is ih =>
    rw [processNumbers] at h
    generalize hres : st.processNumber grow C chain i = res at h
    obtain ⟨o, st₁⟩ := res
    obtain ⟨hvalid, herr⟩ := processNumber_keeps hst hres
    cases o with
    | error e' =>
      cases h
      obtain ⟨hi, hsame⟩ := herr e rfl
      exact ⟨[], i, is, st, rfl, hi, rfl, hres, hsame⟩
    | panic => cases h
    | ok u =>
      obtain ⟨past, k, rest, st₂, rfl, hk, hpast, hfail, hsame⟩ := ih hvalid h
      refine ⟨i :: past, k, rest, st₂, rfl, hk, ?_, hfail, hsame⟩
      rw [processNumbers, hres]
      exact hpast

/-- A header that fails leaves every stored snapshot and the last block as they are, and a range that
fails at `k` leaves what the numbers before `k` alone would leave. -/
theorem processHeader_atomic (grow : ℕ → ℕ) (C : SnapshotConfig) (st : PointerStore)
    (hst : st.Valid) :
    (∀ header e st', st.processHeader grow C header = (.error e, st') → st.Same st') ∧
    ∀ chain first last e st',
      st.processHeadersInRange grow C chain first last = (.error e, st') →
      ∃ k st₁, first ≤ k ∧ k ≤ last ∧
        st.processHeadersInRange grow C chain first (k - 1) = (.ok (), st₁) ∧
        st₁.processNumber grow C chain k = (.error e, st') ∧ st₁.Same st' := by
  constructor
  · intro header e st' h
    exact (processHeader_keeps hst h).2 e rfl
  · intro chain first last e st' h
    obtain ⟨past, k, rest, st₁, his, hk, hpast, hfail, hsame⟩ := processNumbers_error hst h
    obtain ⟨m, hm, rfl, hrest⟩ := range'_eq_append_iff.mp his
    obtain ⟨hat, hpos, -⟩ := range'_eq_cons_iff.mp hrest.symm
    have hlen : k - 1 + 1 - first = m := by omega
    refine ⟨k, st₁, by omega, by omega, ?_, hfail, hsame⟩
    rw [processHeadersInRange, hlen]
    exact hpast

def oneSnapshot : PointerStore where
  heap :=
    { validators := ⟨1, fun _ ↦ .ecdsa (addressOf 1)⟩
      votes := ⟨0, fun _ ↦ ⟨zeroAddress, 0, false⟩⟩
      members := ⟨1, fun _ _ ↦ 0⟩
      ballots := ⟨1, fun _ _ ↦ 0⟩
      sets := ⟨1, fun _ ↦ ⟨.ecdsa, ⟨0, 1, 1⟩⟩⟩
      snapshots := ⟨1, fun _ ↦ ⟨0, zeroHash, ⟨0, 0, 0⟩, 0⟩⟩ }
  lastNumber := 0
  list := [0]

theorem oneSnapshot_valid : oneSnapshot.Valid := by
  intro r hr
  rw [mem_singleton.mp hr]
  exact ⟨by decide, by decide, by decide, by decide, by decide, by decide⟩

theorem processHeader_atomic_mismatch :
    ∃ st', oneSnapshot.processHeader (· * 2) (plainConfig .bls)
        (voteHeader 1 1 (blsMiner 7) nonceAuthVote) =
          (.error (.set .mismatchValidatorType), st') ∧ oneSnapshot.Same st' := by
  rcases h : oneSnapshot.processHeader (· * 2) (plainConfig .bls)
    (voteHeader 1 1 (blsMiner 7) nonceAuthVote) with ⟨o, st'⟩
  have ho : (oneSnapshot.processHeader (· * 2) (plainConfig .bls)
      (voteHeader 1 1 (blsMiner 7) nonceAuthVote)).1 =
        .error (.set .mismatchValidatorType) := by decide +kernel
  rw [h] at ho
  obtain rfl : o = .error (.set .mismatchValidatorType) := ho
  exact ⟨st', rfl, (processHeader_atomic (· * 2) (plainConfig .bls) oneSnapshot
    oneSnapshot_valid).1 _ _ st' h⟩

end PointerStore

end Mainnet.Validators.Pointers
