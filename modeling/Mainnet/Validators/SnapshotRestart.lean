import Mainnet.Validators.VotingLaw

namespace Mainnet.Validators

open Types Lib List Option Nat Outcome SnapshotStore Run

structure StoreConfig extends SnapshotConfig where
  /-- `GetValidators` of the signer in charge of a height: the set in the extra data of a header. -/
  getValidators : ℕ → Header → Option ValidatorSet

inductive InitError
  | store (e : StoreError)
  | noSigner (number : ℕ)
  | validators
  | headerAtNotFound (number : ℕ)
  | headerNotFound (number : ℕ)
deriving DecidableEq

namespace SnapshotStore

/-- `newSnapshotStore`: the metadata may be missing, the snapshots are added one by one. -/
def newSnapshotStore (metadata : Option ℕ) (snapshots : List Snapshot) : SnapshotStore :=
  snapshots.foldl add ⟨metadata.getD 0, []⟩

variable (C : StoreConfig) (chain : List Header) (s : SnapshotStore)

def addHeaderSnap (header : Header) : Outcome InitError SnapshotStore :=
  match C.getSigner header.number with
  | .error _ => .error (.store .signer)
  | .ok none => .error (.noSigner header.number)
  | .ok (some _) =>
    match C.getValidators header.number header with
    | none => .error .validators
    | some validators => .ok (s.add ⟨header.number, header.hash, [], validators⟩)

def processNumber (i : ℕ) : Outcome InitError SnapshotStore :=
  if i = 0 then .ok s
  else
    match chain[i]? with
    | none => .error (.headerNotFound i)
    | some header => (s.processHeader C.toSnapshotConfig header).mapError .store

def processHeadersInRange (first last : ℕ) : Outcome InitError SnapshotStore :=
  (range' first (last + 1 - first)).foldlM (processNumber C chain) s

def setGenesis (header : Header) : Outcome InitError SnapshotStore :=
  if header.number = 0 then s.addHeaderSnap C header else .ok s

/-- The snapshot at the beginning of the epoch of `header`, unless the saved ones are of this
epoch. -/
def restoreEpoch (header : Header) : Outcome InitError SnapshotStore :=
  if C.epochSize = 0 then .panic
  else
    let currentEpoch := header.number / C.epochSize
    let metaEpoch := s.lastNumber / C.epochSize
    if (s.find header.number).isNone || decide (metaEpoch < currentEpoch) then
      let beginHeight := currentEpoch * C.epochSize
      match chain[beginHeight]? with
      | none => .error (.headerAtNotFound beginHeight)
      | some beginHeader => do
        let s ← s.addHeaderSnap C beginHeader
        return s.updateLastBlock beginHeight
    else .ok s

def catchUp (header : Header) : Outcome InitError SnapshotStore :=
  if header.number > s.lastNumber then
    s.processHeadersInRange C chain (s.lastNumber + 1) header.number
  else .ok s

def initializeStore : Outcome InitError SnapshotStore :=
  match chain.getLast? with
  | none => .panic
  | some header => do
    let s ← s.setGenesis C header
    let s ← s.restoreEpoch C chain header
    s.catchUp C chain header

end SnapshotStore

def newSnapshotValidatorStore (C : StoreConfig) (chain : List Header) (metadata : Option ℕ)
    (snapshots : List Snapshot) : Outcome InitError SnapshotStore :=
  (newSnapshotStore metadata snapshots).initializeStore C chain

/-- The store that was made at genesis and has processed every header up to `n`. -/
def uninterrupted (C : StoreConfig) (chain : List Header) : ℕ → Outcome InitError SnapshotStore
  | 0 => newSnapshotValidatorStore C (chain.take 1) none []
  | n + 1 => do
    let s ← uninterrupted C chain n
    s.processNumber C chain (n + 1)

def Numbered (chain : List Header) : Prop :=
  ∀ i (header : Header), chain[i]? = some header → header.number = i

/-- The extra data of the header that opens an epoch lists the set at the previous height. -/
def EpochHeadersList (C : StoreConfig) (chain : List Header) : Prop :=
  ∀ n header s, chain[n + 1]? = some header → (n + 1) % C.epochSize = 0 →
    uninterrupted C chain n = .ok s →
      ∃ validators, C.getValidators (n + 1) header = some validators ∧
        s.getValidatorsByHeight n = .ok validators

/-- Nothing, or what the run had saved after some block up to `h`. -/
def SavedBy (C : StoreConfig) (chain : List Header) (h : ℕ) (metadata : Option ℕ)
    (snapshots : List Snapshot) : Prop :=
  (metadata = none ∧ snapshots = []) ∨
    ∃ k ≤ h, ∃ s, uninterrupted C chain k = .ok s ∧ metadata = some s.lastNumber ∧
      snapshots = s.list

namespace SnapshotStore

def SameBoard (s s' : SnapshotStore) (height : ℕ) : Prop :=
  ∃ set votes, s.getValidatorsByHeight height = .ok set ∧
    s'.getValidatorsByHeight height = .ok set ∧
    s.votes height = .ok votes ∧ s'.votes height = .ok votes

def SameOutcome (height : ℕ) :
    Outcome StoreError SnapshotStore → Outcome StoreError SnapshotStore → Prop
  | .ok s, .ok s' => SameBoard s s' height
  | .error e, .error e' => e = e'
  | .panic, .panic => True
  | _, _ => False

def feed (C : SnapshotConfig) (s : SnapshotStore) (header : Header) : SnapshotStore :=
  match s.processHeader C header with
  | .ok s' => s'
  | _ => s

def Follows (C : SnapshotConfig) (h : ℕ) (s : SnapshotStore) (header : Header) : Prop :=
  header.number = s.lastNumber + 1 ∧ header.number / C.epochSize = h / C.epochSize ∧
    header.number < 2 ^ 64

/-- What `Current` leaves when two snapshots may share a number: lookups from block `n` on answer
the votes and the set of `board`. -/
structure Tip (s : SnapshotStore) (n : ℕ) (board : Snapshot) : Prop where
  sorted : s.list.Pairwise fun a b ↦ a.number ≤ b.number
  bounded : ∀ snap ∈ s.list, snap.number ≤ n
  answers : ∀ num ≥ n, ∃ cur, s.find num = some cur ∧ cur.copy = board.copy

variable {s s' : SnapshotStore} {n m : ℕ} {board snap : Snapshot}

theorem Current.tip (h : s.Current n board) : s.Tip n board :=
  ⟨h.ascending.imp fun hab ↦ hab.le, h.bounded, h.find⟩

theorem tip_add (snap : Snapshot) (hs : s.list.Pairwise fun a b ↦ a.number ≤ b.number)
    (hlt : ∀ x ∈ s.list, x.number < snap.number ∨ x = snap) :
    (s.add snap).Tip snap.number snap := by
  have hle : ∀ x ∈ s.list, x.number ≤ snap.number := by
    intro x hx
    rcases hlt x hx with h | rfl
    · exact h.le
    · exact le_rfl
  have hlist := add_list hs hle
  have hsorted : (s.add snap).list.Pairwise fun a b ↦ a.number ≤ b.number :=
    pairwise_insertionSort _ _
  refine ⟨hsorted, ?_, fun num hnum ↦ ⟨snap, ?_, rfl⟩⟩
  · intro x hx
    rw [hlist] at hx
    rcases mem_append.mp hx with hx | hx
    · exact hle x hx
    · rw [mem_singleton.mp hx]
  · rw [hlist] at hsorted
    rw [find, hlist, getLast?_concat]
    dsimp only
    by_cases hafter : snap.number < num
    · rw [if_pos hafter]
    rw [if_neg hafter]
    generalize hi : Search.search (s.list ++ [snap]).length
      (fun i ↦ ((s.list ++ [snap])[i]?).all fun x ↦ num ≤ x.number) = i
    obtain ⟨hin, hge, -⟩ := search_position hsorted (by simp) (by simpa using hafter) hi
    have hat : (s.list ++ [snap])[i] = snap := by
      rcases mem_append.mp (getElem_mem hin) with hx | hx
      · rcases hlt _ hx with h | h
        · omega
        · exact h
      · exact mem_singleton.mp hx
    have heq : snap.number = num := le_antisymm hnum (not_lt.mp hafter)
    simp only [getElem?_eq_getElem hin, hat, heq, if_true, ite_self]

theorem Tip.processHeader {C : SnapshotConfig} (h : s.Tip s.lastNumber board)
    (hC : C.epochSize ≠ 0) {header : Header} (hn : header.number = s.lastNumber + 1)
    (hlt : header.number < 2 ^ 64) (hepoch : header.number % C.epochSize ≠ 0) {t : ValidatorType}
    {proposer : Address} (hsigner : signerOf C header = .ok (t, proposer)) :
    match board.advance C header t proposer with
    | .error e => s.processHeader C header = .error e
    | .ok snap => ∃ s', s.processHeader C header = .ok s' ∧ s'.lastNumber = header.number ∧
        s'.Tip header.number snap := by
  obtain ⟨cur, hcur, hcopy⟩ := h.answers (header.number - 1) (by omega)
  rw [SnapshotStore.processHeader, hsigner, ← Snapshot.advance_congr C hcopy]
  dsimp only
  rw [processSigned_inEpoch C (by omega) hlt hcur hC hepoch]
  cases cur.advance C header t proposer with
  | error e => rfl
  | ok snap =>
    refine ⟨_, rfl, saveSnapshotIfChanged_lastNumber, ?_⟩
    rw [saveSnapshotIfChanged]
    by_cases heq : snap.equal cur = true
    · rw [if_pos heq]
      refine ⟨h.sorted, fun x hx ↦ (h.bounded x hx).trans (by omega), fun num hnum ↦ ?_⟩
      obtain ⟨cur', hcur', hcopy'⟩ := h.answers num (by omega)
      refine ⟨cur', hcur', ?_⟩
      rw [hcopy', ← hcopy, (Snapshot.equal_iff _ _).mp heq]
    · rw [if_neg heq]
      have htip := tip_add
        { snap with number := header.number, hash := header.hash } h.sorted
        fun x hx ↦ .inl ((h.bounded x hx).trans_lt (by simp only; omega))
      exact ⟨htip.sorted, htip.bounded, htip.answers⟩

def Agree (n : ℕ) (s s' : SnapshotStore) : Prop :=
  s.lastNumber = n ∧ s'.lastNumber = n ∧ ∃ board, s.Tip n board ∧ s'.Tip n board

theorem Agree.sameBoard (h : Agree n s s') : SameBoard s s' n := by
  obtain ⟨-, -, board, htip, htip'⟩ := h
  obtain ⟨cur, hcur, hcopy⟩ := htip.answers n le_rfl
  obtain ⟨cur', hcur', hcopy'⟩ := htip'.answers n le_rfl
  obtain ⟨-, -, hvotes, hset⟩ := Snapshot.mk.inj hcopy
  obtain ⟨-, -, hvotes', hset'⟩ := Snapshot.mk.inj hcopy'
  refine ⟨board.set, board.votes, ?_, ?_, ?_, ?_⟩
  · rw [getValidatorsByHeight, hcur, ← hset]
  · rw [getValidatorsByHeight, hcur', ← hset']
  · rw [votes, hcur, ← hvotes]
  · rw [votes, hcur', ← hvotes']

theorem mod_ne_zero_of_div_eq {a b e : ℕ} (hlt : a < b) (hdiv : b / e = a / e) : b % e ≠ 0 := by
  have ha := div_add_mod a e
  have hb := div_add_mod b e
  rw [hdiv] at hb
  omega

variable {C : SnapshotConfig} {h : ℕ} {header : Header}

theorem Agree.processHeader (hag : Agree n s s') (hC : C.epochSize ≠ 0) (hn : h ≤ n)
    (hf : Follows C h s header) :
    (∃ t t', s.processHeader C header = .ok t ∧ s'.processHeader C header = .ok t' ∧
      Agree header.number t t') ∨
    ∃ e, s.processHeader C header = .error e ∧ s'.processHeader C header = .error e := by
  obtain ⟨hlast, hlast', board, htip, htip'⟩ := hag
  obtain ⟨hnum, hdiv, hlt⟩ := hf
  have hepoch := mod_ne_zero_of_div_eq (show h < header.number by omega) hdiv
  cases hsigner : signerOf C header with
  | error e =>
    right
    refine ⟨e, ?_, ?_⟩ <;> rw [SnapshotStore.processHeader, hsigner]
  | ok signer =>
    have hstep := (hlast.symm ▸ htip).processHeader hC hnum hlt hepoch hsigner
    have hstep' := (hlast'.symm ▸ htip').processHeader hC (by omega) hlt hepoch hsigner
    cases hadv : board.advance C header signer.1 signer.2 with
    | error e =>
      rw [hadv] at hstep hstep'
      exact .inr ⟨e, hstep, hstep'⟩
    | ok snap =>
      rw [hadv] at hstep hstep'
      obtain ⟨t, ht, htn, htt⟩ := hstep
      obtain ⟨t', ht', htn', htt'⟩ := hstep'
      exact .inl ⟨t, t', ht, ht', htn, htn', snap, htt, htt'⟩

theorem Agree.follow (hag : Agree n s s') (hC : C.epochSize ≠ 0) (hn : h ≤ n) (next : List Header)
    (hadm : Admits (feed C) (Follows C h) s (next ++ [header])) :
    SameOutcome header.number ((exec (feed C) s next).processHeader C header)
      ((exec (feed C) s' next).processHeader C header) := by
  induction next generalizing n s s' with
  | nil =>
    rcases hag.processHeader hC hn hadm.1 with ⟨t, t', ht, ht', hag'⟩ | ⟨e, he, he'⟩
    · simp only [exec, foldl_nil, ht, ht']
      exact hag'.sameBoard
    · simp only [exec, foldl_nil, he, he', SameOutcome]
  | cons a next ih =>
    have hnum : a.number = n + 1 := hag.1 ▸ hadm.1.1
    have hrest := hadm.2
    simp only [exec, foldl_cons]
    rcases hag.processHeader hC hn hadm.1 with ⟨t, t', ht, ht', hag'⟩ | ⟨e, he, he'⟩
    · have hfeed : feed C s a = t := by rw [feed, ht]
      have hfeed' : feed C s' a = t' := by rw [feed, ht']
      rw [hfeed] at hrest
      rw [hfeed, hfeed']
      exact ih hag' (by omega) hrest
    · have hfeed : feed C s a = s := by rw [feed, he]
      have hfeed' : feed C s' a = s' := by rw [feed, he']
      rw [hfeed] at hrest
      rw [hfeed, hfeed']
      exact ih hag hn hrest

end SnapshotStore

section Run

open SnapshotStore

variable {C : StoreConfig} {chain : List Header} {n : ℕ} {s t : SnapshotStore}

theorem addHeaderSnap_eq_ok {header : Header} :
    s.addHeaderSnap C header = .ok t ↔ ∃ signer validators,
      C.getSigner header.number = .ok (some signer) ∧
      C.getValidators header.number header = some validators ∧
      t = s.add ⟨header.number, header.hash, [], validators⟩ := by
  rw [addHeaderSnap]
  cases C.getSigner header.number with
  | error e => simp
  | ok signer =>
    cases signer with
    | none => simp
    | some signer => cases C.getValidators header.number header <;> simp [eq_comm]

theorem uninterrupted_zero (hnum : Numbered chain) (h : uninterrupted C chain 0 = .ok s) :
    C.epochSize ≠ 0 ∧ ∃ header signer validators, chain[0]? = some header ∧
      C.getSigner 0 = .ok (some signer) ∧ C.getValidators 0 header = some validators ∧
      s = ⟨0, [⟨0, header.hash, [], validators⟩]⟩ := by
  cases chain with
  | nil => cases h
  | cons header rest =>
    have hzero : header.number = 0 := hnum 0 header rfl
    simp only [uninterrupted, newSnapshotValidatorStore, initializeStore, take_one,
      head?_cons, toList_some, getLast?_singleton, setGenesis, hzero, if_true, bind_eq_ok] at h
    obtain ⟨s₁, h₁, s₂, h₂, h₃⟩ := h
    obtain ⟨signer, validators, hs, hv, rfl⟩ := addHeaderSnap_eq_ok.mp h₁
    rw [hzero] at hs hv
    have hadd : (newSnapshotStore none []).add ⟨header.number, header.hash, [], validators⟩ =
        ⟨0, [⟨0, header.hash, [], validators⟩]⟩ := by rw [hzero]; rfl
    rw [hadd] at h₂
    by_cases hC : C.epochSize = 0
    · rw [restoreEpoch, if_pos hC] at h₂
      cases h₂
    refine ⟨hC, header, signer, validators, rfl, hs, hv, ?_⟩
    have hfind : (⟨0, [⟨0, header.hash, [], validators⟩]⟩ : SnapshotStore).find 0 =
        some ⟨0, header.hash, [], validators⟩ := by simp [find, Search.search, Search.loop]
    simp only [restoreEpoch, if_neg hC, hzero, hfind, isNone_some, lt_irrefl,
      decide_false, Bool.or_self, Bool.false_eq_true, if_false, ok.injEq] at h₂
    subst h₂
    simp only [catchUp, hzero, gt_iff_lt, lt_irrefl, if_false, ok.injEq] at h₃
    exact h₃.symm

theorem uninterrupted_succ (h : uninterrupted C chain (n + 1) = .ok t) :
    ∃ s header, uninterrupted C chain n = .ok s ∧ chain[n + 1]? = some header ∧
      s.processHeader C.toSnapshotConfig header = .ok t := by
  obtain ⟨s, hs, ht⟩ := bind_eq_ok.mp h
  rw [processNumber, if_neg (by omega)] at ht
  cases hheader : chain[n + 1]? with
  | none =>
    rw [hheader] at ht
    cases ht
  | some header =>
    rw [hheader] at ht
    exact ⟨s, header, hs, rfl, mapError_eq_ok.mp ht⟩

theorem exists_uninterrupted (h : uninterrupted C chain n = .ok s) {k : ℕ} (hk : k ≤ n) :
    ∃ s', uninterrupted C chain k = .ok s' := by
  induction n generalizing s with
  | zero => exact ⟨s, le_zero.mp hk ▸ h⟩
  | succ n ih =>
    rcases le_succ_iff.mp hk with hk | rfl
    · obtain ⟨s', -, hs', -⟩ := uninterrupted_succ h
      exact ih hs' hk
    · exact ⟨s, h⟩

variable {board : Snapshot} {h : ℕ} {metadata : Option ℕ} {snapshots : List Snapshot}

theorem step_current (hnum : Numbered chain) (hlt : n + 1 < 2 ^ 64)
    (hcur : s.Current n board) (hlast : s.lastNumber = n) (hs : uninterrupted C chain n = .ok s)
    (h : uninterrupted C chain (n + 1) = .ok t) :
    ∃ header signer snap, chain[n + 1]? = some header ∧
      s.processHeader C.toSnapshotConfig header = .ok t ∧
      signerOf C.toSnapshotConfig header = .ok signer ∧
      board.advance C.toSnapshotConfig header signer.1 signer.2 = .ok snap ∧
      t.lastNumber = n + 1 ∧ t.Current (n + 1) snap := by
  obtain ⟨s', header, hs', hheader, ht⟩ := uninterrupted_succ h
  obtain rfl : s = s' := ok.inj (hs.symm.trans hs')
  have hn := hnum _ _ hheader
  obtain ⟨signer, snap, hsigner, hadv, hlast', hcur'⟩ :=
    (hlast.symm ▸ hcur).processHeader (by omega) (by omega) ht
  exact ⟨header, signer, snap, hheader, ht, hsigner, hadv, hlast'.trans hn, hn ▸ hcur'⟩

theorem uninterrupted_current (hnum : Numbered chain) (hlt : n < 2 ^ 64)
    (h : uninterrupted C chain n = .ok s) :
    C.epochSize ≠ 0 ∧ s.lastNumber = n ∧ ∃ board, s.Current n board := by
  induction n generalizing s with
  | zero =>
    obtain ⟨hC, header, signer, validators, -, -, -, rfl⟩ := uninterrupted_zero hnum h
    exact ⟨hC, rfl, _, pairwise_singleton _ _, by simp, _, rfl, rfl⟩
  | succ n ih =>
    obtain ⟨s₀, -, hs₀, -⟩ := uninterrupted_succ h
    obtain ⟨hC, hlast, board, hcur⟩ := ih (by omega) hs₀
    obtain ⟨-, -, snap, -, -, -, -, hlast', hcur'⟩ := step_current hnum hlt hcur hlast hs₀ h
    exact ⟨hC, hlast', snap, hcur'⟩

theorem catchUp_uninterrupted (hs : uninterrupted C chain n = .ok s) (m : ℕ)
    (ht : uninterrupted C chain (n + m) = .ok t) :
    (range' (n + 1) m).foldlM (processNumber C chain) s = .ok t := by
  induction m generalizing n s with
  | zero => exact hs.symm.trans ht
  | succ m ih =>
    rw [← add_assoc, add_right_comm] at ht
    obtain ⟨s', hs'⟩ := exists_uninterrupted ht (le_add_right (n + 1) m)
    have hstep : s.processNumber C chain (n + 1) = .ok s' := by
      rw [uninterrupted, hs] at hs'
      exact hs'
    rw [range'_succ, foldlM_cons, hstep, ok_bind]
    exact ih hs' ht

theorem catchUp_agree (hnum : Numbered chain) {s' : SnapshotStore} (hh : h ≤ n) (hag : Agree n s s')
    (hcur : s.Current n board) (hs : uninterrupted C chain n = .ok s) (m : ℕ) (hlt : n + m < 2 ^ 64)
    (hdiv : (n + m) / C.epochSize = h / C.epochSize) (ht : uninterrupted C chain (n + m) = .ok t) :
    ∃ t', (range' (n + 1) m).foldlM (processNumber C chain) s' = .ok t' ∧
      Agree (n + m) t t' := by
  induction m generalizing n s s' board with
  | zero => exact ⟨s', rfl, ok.inj (hs.symm.trans ht) ▸ hag⟩
  | succ m ih =>
    rw [← add_assoc, add_right_comm] at ht hlt hdiv
    rw [← add_assoc, add_right_comm]
    obtain ⟨s₁, hs₁⟩ := exists_uninterrupted ht (le_add_right (n + 1) m)
    obtain ⟨hC, hlast, -⟩ := uninterrupted_current hnum (by omega) hs
    obtain ⟨header, signer, snap, hheader, hproc, -, -, -, hcur₁⟩ :=
      step_current hnum (by omega) hcur hlast hs hs₁
    have hn := hnum _ _ hheader
    have hdiv' : (n + 1) / C.epochSize = h / C.epochSize := by
      refine le_antisymm ?_ (Nat.div_le_div_right (by omega))
      rw [← hdiv]
      exact Nat.div_le_div_right (by omega)
    rcases hag.processHeader hC hh ⟨hn.trans (by omega), hn ▸ hdiv', by omega⟩ with
      ⟨t₁, t₁', hok, hok', hag₁⟩ | ⟨e, he, -⟩
    · obtain rfl : s₁ = t₁ := ok.inj (hproc.symm.trans hok)
      have hstep : s'.processNumber C chain (n + 1) = .ok t₁' := by
        rw [processNumber, if_neg (by omega), hheader]
        exact mapError_eq_ok.mpr hok'
      rw [range'_succ, foldlM_cons, hstep, ok_bind]
      exact ih (by omega) (hn ▸ hag₁) hcur₁ hs₁ hlt hdiv ht
    · cases hproc.symm.trans he

theorem epochHeader_current (hnum : Numbered chain) (hlist : EpochHeadersList C chain)
    (hlt : n < 2 ^ 64) (hepoch : n % C.epochSize = 0) (h : uninterrupted C chain n = .ok t) :
    ∃ header signer validators, chain[n]? = some header ∧ C.getSigner n = .ok (some signer) ∧
      C.getValidators n header = some validators ∧ t.Current n ⟨n, header.hash, [], validators⟩ := by
  cases n with
  | zero =>
    obtain ⟨-, header, signer, validators, hheader, hs, hv, rfl⟩ := uninterrupted_zero hnum h
    exact ⟨header, signer, validators, hheader, hs, hv, pairwise_singleton _ _, by simp, _,
      rfl, rfl⟩
  | succ n =>
    obtain ⟨s, -, hs, -⟩ := uninterrupted_succ h
    obtain ⟨-, hlast, board, hcur⟩ := uninterrupted_current hnum (by omega) hs
    obtain ⟨header, signer, snap, hheader, -, hsigner, hadv, -, hcur'⟩ :=
      step_current hnum hlt hcur hlast hs h
    have hn := hnum _ _ hheader
    obtain ⟨validators, hv, hset⟩ := hlist n header s hheader hepoch hs
    obtain ⟨cur, hfind, hcopy⟩ := hcur.find n le_rfl
    rw [getValidatorsByHeight, hfind] at hset
    have hboard : board.set = validators := by
      rw [← (Snapshot.mk.inj hcopy).2.2.2]
      exact Except.ok.inj hset
    rw [Snapshot.advance, hn, if_pos hepoch] at hadv
    split at hadv
    · cases hadv
    obtain ⟨sig, hsig⟩ : ∃ sig, C.getSigner (n + 1) = .ok (some sig) := by
      rw [signerOf, hn] at hsigner
      cases hsig : C.getSigner (n + 1) with
      | error err => simp [hsig] at hsigner
      | ok sig =>
        cases sig with
        | none => simp [hsig] at hsigner
        | some sig => exact ⟨sig, rfl⟩
    refine ⟨header, sig, validators, hheader, hsig, hv, hcur'.ascending, hcur'.bounded, ?_⟩
    obtain ⟨last, hl, hlcopy⟩ := hcur'.last
    refine ⟨last, hl, hlcopy.trans ?_⟩
    rw [← Except.ok.inj hadv, ← hboard]
    rfl

theorem newSnapshotStore_eq (h : snapshots.Pairwise fun a b ↦ a.number ≤ b.number) :
    newSnapshotStore metadata snapshots = ⟨metadata.getD 0, snapshots⟩ := by
  have hfold : ∀ xs acc : List Snapshot, (acc ++ xs).Pairwise (fun a b ↦ a.number ≤ b.number) →
      xs.foldl add ⟨metadata.getD 0, acc⟩ = ⟨metadata.getD 0, acc ++ xs⟩ := by
    intro xs
    induction xs with
    | nil => simp
    | cons x xs ih =>
      intro acc hacc
      obtain ⟨hleft, -, hcross⟩ := pairwise_append.mp hacc
      have hadd : (⟨metadata.getD 0, acc⟩ : SnapshotStore).add x = ⟨metadata.getD 0, acc ++ [x]⟩ :=
        congrArg (mk _) (add_list hleft fun y hy ↦ hcross y hy x mem_cons_self)
      rw [foldl_cons, hadd, ih _ (by simpa using hacc), append_assoc, singleton_append]
  exact hfold snapshots [] h

theorem newSnapshotStore_saved (hnum : Numbered chain) (hlt : h < 2 ^ 64)
    (hsaved : SavedBy C chain h metadata snapshots) :
    newSnapshotStore metadata snapshots = ⟨0, []⟩ ∨
      ∃ k ≤ h, uninterrupted C chain k = .ok (newSnapshotStore metadata snapshots) := by
  rcases hsaved with ⟨rfl, rfl⟩ | ⟨k, hk, s, hs, rfl, rfl⟩
  · exact .inl rfl
  · obtain ⟨-, -, board, hcur⟩ := uninterrupted_current hnum (by omega) hs
    rw [newSnapshotStore_eq hcur.tip.sorted]
    exact .inr ⟨k, hk, hs⟩

section Restart

variable {h : ℕ} {head : Header} {loaded : SnapshotStore}

theorem setGenesis_agree (hnum : Numbered chain) (hhead : chain[0]? = some head)
    (hs : uninterrupted C chain 0 = .ok s)
    (hloaded : loaded = ⟨0, []⟩ ∨ uninterrupted C chain 0 = .ok loaded) :
    ∃ s', loaded.setGenesis C head = .ok s' ∧ Agree 0 s s' := by
  obtain ⟨-, header, signer, validators, hheader, hsig, hv, rfl⟩ := uninterrupted_zero hnum hs
  obtain rfl : head = header := Option.some.inj (hhead.symm.trans hheader)
  have hzero := hnum _ _ hhead
  have hlist : loaded.lastNumber = 0 ∧ ∀ x ∈ loaded.list, x = ⟨0, head.hash, [], validators⟩ := by
    rcases hloaded with rfl | hloaded
    · exact ⟨rfl, by simp⟩
    · obtain rfl := ok.inj (hs.symm.trans hloaded)
      exact ⟨rfl, by simp⟩
  have hsorted : loaded.list.Pairwise fun a b ↦ a.number ≤ b.number :=
    pairwise_of_forall_mem_list fun a ha b hb ↦ by rw [hlist.2 a ha, hlist.2 b hb]
  refine ⟨loaded.add ⟨0, head.hash, [], validators⟩, ?_, rfl, hlist.1,
    ⟨0, head.hash, [], validators⟩, ?_, tip_add _ hsorted fun x hx ↦ .inr (hlist.2 x hx)⟩
  · rw [setGenesis, if_pos hzero, addHeaderSnap_eq_ok, hzero]
    exact ⟨signer, validators, hsig, hv, rfl⟩
  · exact Current.tip ⟨pairwise_singleton _ _, by simp, _, rfl, rfl⟩

theorem catchUp_eq (hle : s.lastNumber ≤ head.number) :
    s.catchUp C chain head =
      (range' (s.lastNumber + 1) (head.number - s.lastNumber)).foldlM
        (processNumber C chain) s := by
  rw [catchUp]
  by_cases hlt : head.number > s.lastNumber
  · rw [if_pos hlt, processHeadersInRange, Nat.add_sub_add_right]
  · obtain hsub : head.number - s.lastNumber = 0 := by omega
    rw [if_neg hlt, hsub]
    rfl

theorem restoreEpoch_agree (hnum : Numbered chain) (hlist : EpochHeadersList C chain)
    (hC : C.epochSize ≠ 0) (hlt : h < 2 ^ 64) (hhead : head.number = h)
    (hsorted : loaded.list.Pairwise fun a b ↦ a.number ≤ b.number)
    (hbelow : ∀ x ∈ loaded.list, x.number < h / C.epochSize * C.epochSize)
    (hre : ((loaded.find h).isNone || decide (loaded.lastNumber / C.epochSize < h / C.epochSize)) =
      true) (hs : uninterrupted C chain (h / C.epochSize * C.epochSize) = .ok s) :
    ∃ s', loaded.restoreEpoch C chain head = .ok s' ∧ Agree (h / C.epochSize * C.epochSize) s s' ∧
      ∃ board, s.Current (h / C.epochSize * C.epochSize) board := by
  have hle : h / C.epochSize * C.epochSize ≤ h := div_mul_le_self _ _
  obtain ⟨header, signer, validators, hheader, hsig, hv, hcur⟩ :=
    epochHeader_current hnum hlist (by omega) (mul_mod_left _ _) hs
  obtain ⟨-, hlast, -⟩ := uninterrupted_current hnum (by omega) hs
  have hn := hnum _ _ hheader
  simp only [restoreEpoch, if_neg hC, hhead, hre, if_true, hheader]
  rw [addHeaderSnap_eq_ok.mpr ⟨signer, validators, hn ▸ hsig, hn ▸ hv, rfl⟩, hn]
  have htip := tip_add ⟨_, header.hash, [], validators⟩ hsorted fun x hx ↦ .inl (hbelow x hx)
  exact ⟨_, rfl, ⟨hlast, rfl, _, hcur.tip, htip.sorted, htip.bounded, htip.answers⟩, _, hcur⟩

theorem newSnapshotValidatorStore_agree (hnum : Numbered chain) (hlist : EpochHeadersList C chain)
    (hlen : chain.length = h + 1) (hlt : h < 2 ^ 64) (hs : uninterrupted C chain h = .ok s)
    {metadata : Option ℕ} {snapshots : List Snapshot}
    (hsaved : SavedBy C chain h metadata snapshots) :
    ∃ s', newSnapshotValidatorStore C chain metadata snapshots = .ok s' ∧ Agree h s s' := by
  obtain ⟨hC, hlast, board, hcur⟩ := uninterrupted_current hnum hlt hs
  obtain ⟨head, hhead⟩ : ∃ head, chain[h]? = some head :=
    ⟨_, getElem?_eq_getElem (by omega)⟩
  have hheadn := hnum _ _ hhead
  have hgetLast : chain.getLast? = some head := by
    rw [getLast?_eq_getElem?, hlen, Nat.add_sub_cancel, hhead]
  have hloaded := newSnapshotStore_saved hnum hlt hsaved
  rw [newSnapshotValidatorStore, initializeStore, hgetLast]
  generalize newSnapshotStore metadata snapshots = loaded at hloaded
  dsimp only
  rcases Nat.eq_zero_or_pos h with rfl | hpos
  · -- a store saved at genesis gets the genesis snapshot a second time
    obtain ⟨s', hs', hag⟩ := setGenesis_agree hnum hhead hs <|
      hloaded.imp_right fun ⟨k, hk, hk'⟩ ↦ Nat.le_zero.mp hk ▸ hk'
    have ⟨_, hlast', _, _, htip⟩ := hag
    obtain ⟨cur, hfind, -⟩ := htip.answers 0 le_rfl
    have hrestore : s'.restoreEpoch C chain head = .ok s' := by
      simp only [restoreEpoch, if_neg hC, hheadn, hlast', hfind, isNone_some, lt_irrefl,
        decide_false, Bool.or_self, Bool.false_eq_true, if_false]
    rw [hs', ok_bind, hrestore, ok_bind, catchUp_eq (by omega), hheadn, hlast']
    exact ⟨s', rfl, hag⟩
  have hgenesis : loaded.setGenesis C head = .ok loaded := by rw [setGenesis, if_neg (by omega)]
  rw [hgenesis, ok_bind]
  by_cases hre : ((loaded.find h).isNone ||
      decide (loaded.lastNumber / C.epochSize < h / C.epochSize)) = true
  · set b := h / C.epochSize * C.epochSize
    have hle : b ≤ h := div_mul_le_self _ _
    obtain ⟨sb, hsb⟩ := exists_uninterrupted hs hle
    have hbelow : loaded.list.Pairwise (fun a b ↦ a.number ≤ b.number) ∧
        ∀ x ∈ loaded.list, x.number < b := by
      rcases hloaded with rfl | ⟨k, hk, hk'⟩
      · exact ⟨Pairwise.nil, by simp⟩
      · obtain ⟨-, hlast', board', hcur'⟩ := uninterrupted_current hnum (by omega) hk'
        obtain ⟨cur, hfind, -⟩ := hcur'.find h hk
        rw [hfind, hlast', isNone_some, Bool.false_or, decide_eq_true_eq] at hre
        refine ⟨hcur'.tip.sorted, fun x hx ↦ (hcur'.bounded x hx).trans_lt ?_⟩
        calc k < (k / C.epochSize + 1) * C.epochSize :=
              lt_mul_of_div_lt (lt_succ_self _) (pos_of_ne_zero hC)
          _ ≤ b := mul_le_mul_right _ hre
    obtain ⟨s', hs', hag, board', hcur'⟩ := restoreEpoch_agree hnum hlist hC hlt hheadn hbelow.1
      hbelow.2 hre hsb
    have hadd : b + (h - b) = h := by omega
    obtain ⟨t', ht', hag'⟩ := catchUp_agree hnum le_rfl hag hcur' hsb (h - b) (by omega)
      (by rw [hadd, Nat.mul_div_cancel _ (Nat.pos_of_ne_zero hC)]) (by rw [hadd]; exact hs)
    rw [hs', ok_bind, catchUp_eq (by rw [hag.2.1]; omega), hag.2.1, hheadn]
    exact ⟨t', ht', hadd ▸ hag'⟩
  · have hrestore : loaded.restoreEpoch C chain head = .ok loaded := by
      simp only [restoreEpoch, if_neg hC, hheadn, hre, Bool.false_eq_true, if_false]
    rcases hloaded with rfl | ⟨k, hk, hk'⟩
    · exact absurd rfl hre
    · obtain ⟨-, hlast', -⟩ := uninterrupted_current hnum (by omega) hk'
      have hadd : k + (h - k) = h := by omega
      rw [hrestore, ok_bind, catchUp_eq (by omega), hlast', hheadn,
        catchUp_uninterrupted hk' (h - k) (by rw [hadd]; exact hs)]
      exact ⟨s, rfl, hlast, hlast, board, hcur.tip, hcur.tip⟩

/-- A store made again from anything the run had saved, or from nothing, answers at the head as the
store of the uninterrupted run does, and treats every following header of the epoch alike. -/
theorem restart_equivalent (C : StoreConfig) (chain : List Header) (h : ℕ)
    (hlen : chain.length = h + 1) (hlt : h < 2 ^ 64) (hnum : Numbered chain)
    (hlist : EpochHeadersList C chain) (s : SnapshotStore) (hs : uninterrupted C chain h = .ok s)
    (metadata : Option ℕ) (snapshots : List Snapshot)
    (hsaved : SavedBy C chain h metadata snapshots) :
    ∃ s', newSnapshotValidatorStore C chain metadata snapshots = .ok s' ∧ SameBoard s s' h ∧
      ∀ next header, Admits (feed C.toSnapshotConfig) (Follows C.toSnapshotConfig h) s
          (next ++ [header]) →
        SameOutcome header.number
          ((exec (feed C.toSnapshotConfig) s next).processHeader C.toSnapshotConfig header)
          ((exec (feed C.toSnapshotConfig) s' next).processHeader C.toSnapshotConfig header) := by
  obtain ⟨s', hs', hag⟩ := newSnapshotValidatorStore_agree hnum hlist hlen hlt hs hsaved
  obtain ⟨hC, -⟩ := uninterrupted_current hnum hlt hs
  exact ⟨s', hs', hag.sameBoard, fun next header ↦ hag.follow hC le_rfl next⟩

end Restart

end Run

section Rebuilt

open SnapshotStore Tracked

def byteConfig : StoreConfig where
  toFastrlp := (plainConfig .ecdsa).toFastrlp
  getSigner _ := .ok (some ⟨.ecdsa, fun header ↦ header.extraData.head?.map addressOf⟩)
  epochSize := 3
  getValidators _ header :=
    some ⟨.ecdsa, header.extraData.tail.map fun i ↦ .ecdsa (addressOf i),
      forall_mem_map.mpr fun _ _ ↦ rfl⟩

def byteHeader (number : ℕ) (miner : Address) (nonce : Nonce) (extraData : Bytes) : Header :=
  { (default : Header) with
    number := number
    miner := miner.bytes
    nonce := nonce
    extraData := extraData }

def byteChain : List Header :=
  [byteHeader 0 zeroAddress nonceDropVote [0, 1], byteHeader 1 (addressOf 9) nonceAuthVote [1],
    byteHeader 2 zeroAddress nonceDropVote [9], byteHeader 3 zeroAddress nonceDropVote [1, 1, 9],
    byteHeader 4 (addressOf 1) nonceDropVote [9]]

theorem byteChain_numbered : Numbered byteChain := by
  have hall : ∀ i : Fin byteChain.length, byteChain[i].number = i := by decide +kernel
  intro i header h
  obtain ⟨hi, rfl⟩ := List.getElem?_eq_some_iff.mp h
  exact hall ⟨i, hi⟩

theorem byteChain_lists : EpochHeadersList byteConfig byteChain := by
  intro n header s hheader hepoch hs
  obtain ⟨hn, rfl⟩ := List.getElem?_eq_some_iff.mp hheader
  obtain rfl : n = 2 := by
    have hn' : n + 1 < 5 := hn
    have hepoch' : (n + 1) % 3 = 0 := hepoch
    omega
  have hboard : (uninterrupted byteConfig byteChain 2).map (fun s ↦ s.getValidatorsByHeight 2) =
      .ok (.ok ⟨.ecdsa, [.ecdsa (addressOf 1), .ecdsa (addressOf 9)], by simp [Validator.type]⟩) := by
    decide +kernel
  rw [hs] at hboard
  exact ⟨_, rfl, ok.inj hboard⟩

theorem restart_equivalent_rebuilt :
    ∃ s s', uninterrupted byteConfig byteChain 4 = .ok s ∧
      newSnapshotValidatorStore byteConfig byteChain none [] = .ok s' ∧ SameBoard s s' 4 ∧
      SameOutcome 5
        (s.processHeader byteConfig.toSnapshotConfig (byteHeader 5 (addressOf 9) nonceDropVote [1]))
        (s'.processHeader byteConfig.toSnapshotConfig
          (byteHeader 5 (addressOf 9) nonceDropVote [1])) := by
  have hok : ((uninterrupted byteConfig byteChain 4).map lastNumber) = .ok 4 := by decide +kernel
  obtain ⟨s, hs⟩ : ∃ s, uninterrupted byteConfig byteChain 4 = .ok s := by
    cases h : uninterrupted byteConfig byteChain 4 with
    | ok s => exact ⟨s, rfl⟩
    | error e | panic => rw [h] at hok; cases hok
  have hlast : s.lastNumber = 4 := by
    rw [hs] at hok
    exact ok.inj hok
  obtain ⟨s', hs', hboard, hnext⟩ := restart_equivalent byteConfig byteChain 4 rfl (by norm_num)
    byteChain_numbered byteChain_lists s hs none [] (.inl ⟨rfl, rfl⟩)
  refine ⟨s, s', hs, hs', hboard, ?_⟩
  exact hnext [] (byteHeader 5 (addressOf 9) nonceDropVote [1])
    ⟨⟨by rw [hlast]; rfl, by decide, by decide +kernel⟩, trivial⟩

end Rebuilt

end Mainnet.Validators
