import Mainnet.Lib.Index
import Mainnet.Lib.Run
import Mainnet.Txpool.Ordered

namespace Mainnet.Txpool

open Types Lib AList Pending

namespace TxPool

def Held (tp : TxPool) (t : PoolTransaction) : Prop := ∃ a, t ∈ tp.pending.list a

/-- `allTxs` has what is pending, each under its hash; every pending list is that of the sender of
its transactions, in the order of their nonces, and has some; and the pool is not over its size. -/
structure Intact (M : TxMethods) (tp : TxPool) : Prop where
  indexed : Indexes M.hash {t | tp.Held t} tp.allTxs
  owned : ∀ a, ∀ t ∈ tp.pending.list a, M.sender t = some a
  increasing : ∀ a, (tp.pending.list a).Pairwise fun t u ↦ t.nonce < u.nonce
  nonempty : ∀ a l, tp.pending.lookup a = some l → l ≠ []
  bounded : tp.allTxs.entries.length ≤ maxTxPoolSize

variable {M : TxMethods} {tp tp' : TxPool} {S : Set PoolTransaction} {src : Address}
  {tx : PoolTransaction}

theorem Intact.ordered (h : tp.Intact M) : tp.Ordered M := ⟨h.owned, h.increasing⟩

theorem Intact.distinct (h : tp.Intact M) (a : Address) :
    ((tp.pending.list a).map PoolTransaction.nonce).Nodup :=
  List.pairwise_map.mpr ((h.increasing a).imp Nat.ne_of_lt)

variable {a : Address} {t : PoolTransaction} {l : List PoolTransaction}

theorem Intact.eq_of_nonce (h : tp.Intact M) {b : Address} {u : PoolTransaction}
    (ht : t ∈ tp.pending.list a) (hu : u ∈ tp.pending.list b) (hs : M.sender t = M.sender u)
    (hn : t.nonce = u.nonce) : t = u := by
  have hab : a = b := Option.some.inj ((h.owned a t ht).symm.trans (hs.trans (h.owned b u hu)))
  subst hab
  exact List.inj_on_of_nodup_map (h.distinct a) ht hu hn

theorem Intact.nodup (h : tp.Intact M) (a : Address) : (tp.pending.list a).Nodup :=
  (h.increasing a).imp fun hlt heq ↦ hlt.ne (congrArg PoolTransaction.nonce heq)

theorem intact_newTxPool (blockGasLimit : ℕ) : (newTxPool blockGasLimit).Intact M where
  indexed := Indexes.empty.congr fun t ↦ by simp [Held, newTxPool, list]
  owned := by simp [newTxPool, list]
  increasing := by simp [newTxPool, list]
  nonempty := by simp [newTxPool]
  bounded := Nat.zero_le _

theorem Intact.congr (h : tp.Intact M) (hp : tp'.pending = tp.pending) (ha : tp'.allTxs = tp.allTxs) :
    tp'.Intact M := by
  have hheld : ∀ t, tp'.Held t ↔ tp.Held t := fun t ↦ by rw [Held, Held, hp]
  exact ⟨ha ▸ h.indexed.congr hheld, hp ▸ h.owned, hp ▸ h.increasing, hp ▸ h.nonempty,
    ha ▸ h.bounded⟩

theorem held_replace (h : tp.Intact M) {P Q : PoolTransaction → Prop}
    (hp : ∀ a, tp'.pending.list a = if a = src then l else tp.pending.list a)
    (hl : ∀ t, t ∈ l ↔ Q t ∨ (t ∈ tp.pending.list src ∧ P t))
    (hother : ∀ t, M.sender t ≠ some src → P t) (t : PoolTransaction) :
    tp'.Held t ↔ Q t ∨ (tp.Held t ∧ P t) := by
  simp only [Held, hp]
  constructor
  · rintro ⟨a, ht⟩
    split_ifs at ht with ha
    · exact ((hl t).mp ht).imp_right fun ⟨hmem, hP⟩ ↦ ⟨⟨src, hmem⟩, hP⟩
    · refine .inr ⟨⟨a, ht⟩, hother t ?_⟩
      rw [h.owned a t ht]
      exact fun heq ↦ ha (Option.some.inj heq)
  · rintro (hQ | ⟨⟨a, ht⟩, hP⟩)
    · refine ⟨src, ?_⟩
      rw [if_pos rfl]
      exact (hl t).mpr (.inl hQ)
    · refine ⟨a, ?_⟩
      split_ifs with ha
      · subst ha
        exact (hl t).mpr (.inr ⟨ht, hP⟩)
      · exact ht

theorem nonempty_insert (h : tp.Intact M) (hl : l ≠ [])
    (hp : tp'.pending = tp.pending.insert src l) :
    ∀ a l', tp'.pending.lookup a = some l' → l' ≠ [] := by
  intro a l' hlookup
  rw [hp] at hlookup
  by_cases ha : a = src
  · subst ha
    rw [lookup_insert] at hlookup
    exact Option.some.inj hlookup ▸ hl
  · rw [lookup_insert_ne ha] at hlookup
    exact h.nonempty a l' hlookup

theorem nonempty_shorten (h : tp.Intact M)
    (hp : tp'.pending = if l = [] then tp.pending.erase src else tp.pending.insert src l) :
    ∀ a l', tp'.pending.lookup a = some l' → l' ≠ [] := by
  split_ifs at hp with hl
  · intro a l' hlookup
    rw [hp] at hlookup
    by_cases ha : a = src
    · subst ha
      rw [lookup_erase] at hlookup
      cases hlookup
    · rw [lookup_erase_ne ha] at hlookup
      exact h.nonempty a l' hlookup
  · exact nonempty_insert h hl hp

theorem mem_set_iff {i : ℕ} {old : PoolTransaction} (hl : l.Nodup)
    (hold : l[i]? = some old) (t : PoolTransaction) :
    t ∈ l.set i tx ↔ t = tx ∨ (t ∈ l ∧ t ≠ old) := by
  obtain ⟨hi, rfl⟩ := List.getElem?_eq_some_iff.mp hold
  have hsplit : l = l.take i ++ l[i] :: l.drop (i + 1) := by
    rw [List.cons_getElem_drop_succ, List.take_append_drop]
  rw [List.set_eq_take_append_cons_drop, if_pos hi]
  have hmem : t ∈ l ↔ t ∈ l.take i ++ l[i] :: l.drop (i + 1) := by rw [← hsplit]
  rw [hsplit] at hl
  have hout := (List.nodup_cons.mp (List.nodup_middle.mp hl)).1
  grind

section

variable (h : tp.Intact M) (hknown : ∀ t, tp.Held t → t ∈ S) (hinj : S.InjOn M.hash)
include h hknown hinj

theorem Intact.place
    (hpasses : tp.Passes M tx) (hs : M.sender tx = some src) : (tp.place M src tx).1.Intact M := by
  have hordered := h.ordered.place hs
  rcases place_cases M tp src tx with ⟨heq, -⟩ | ⟨i, old, hold, hnonce, hp, ha⟩ | ⟨hfresh, hp, ha⟩
  · rwa [heq]
  · have hmem := List.mem_of_getElem? hold
    have holdheld : tp.Held old := ⟨src, hmem⟩
    have hout : M.hash tx ∉ tp.allTxs.erase (M.hash old) := by
      rw [mem_erase]
      exact fun hin ↦ hpasses.fresh hin.2
    refine ⟨?_, hordered.owned, hordered.increasing, nonempty_insert h ?_ hp, ?_⟩
    · rw [ha]
      refine ((h.indexed.erase hinj hknown (hknown old holdheld)).insert hout).congr ?_
      refine held_replace h (fun a ↦ by rw [hp, list_insert]) (mem_set_iff (h.nodup src) hold) ?_
      rintro t ht rfl
      exact ht (h.owned src t hmem)
    · exact fun hnil ↦ List.ne_nil_of_mem hmem (by simpa using hnil)
    · rw [ha, length_insert hout, length_erase, if_pos (h.indexed.mem_iff.mpr ⟨old, holdheld, rfl⟩)]
      have hroom := hpasses.room
      omega
  · have hmem : ∀ t, t ∈ sortAccountTransactions (tp.pending.list src ++ [tx]) ↔
        t = tx ∨ t ∈ tp.pending.list src := by
      intro t
      rw [(sortAccountTransactions_perm _).mem_iff, List.mem_append, List.mem_singleton, or_comm]
    refine ⟨?_, hordered.owned, hordered.increasing, nonempty_insert h ?_ hp, ?_⟩
    · rw [ha]
      refine (h.indexed.insert hpasses.fresh).congr fun t ↦ ?_
      have hheld := held_replace h (fun a ↦ by rw [hp, list_insert])
        (by simpa using hmem : ∀ t, t ∈ sortAccountTransactions _ ↔ t = tx ∨ (t ∈ _ ∧ True))
        (fun _ _ ↦ trivial) t
      simpa using hheld
    · exact List.ne_nil_of_mem ((hmem tx).mpr (.inl rfl))
    · rw [ha, length_insert hpasses.fresh]
      exact hpasses.room

theorem Intact.addTransaction (now : ℤ) : (tp.addTransaction M now tx).1.Intact M := by
  rcases addTransaction_spec M tp now tx with
    ⟨-, heq | ⟨e, heq⟩⟩ | ⟨-, -, heq⟩ | ⟨hpasses, -, src, hs, heq⟩
  · rwa [heq]
  · rw [heq, reject, pruneRejectedTxs]
    split <;> exact h.congr rfl rfl
  · rw [heq]
    exact h.congr rfl rfl
  · rw [heq]
    exact h.place hknown hinj hpasses hs

theorem Intact.drop
    (dropped : List PoolTransaction) (hdropped : ∀ t ∈ dropped, t ∈ tp.pending.list src)
    (hsub : l.Sublist (tp.pending.list src))
    (hl : ∀ t, t ∈ l ↔ t ∈ tp.pending.list src ∧ t ∉ dropped)
    (hp : tp'.pending = if l = [] then tp.pending.erase src else tp.pending.insert src l)
    (ha : tp'.allTxs = dropped.foldl (fun all t ↦ all.erase (M.hash t)) tp.allTxs) :
    tp'.Intact M := by
  have hordered : tp'.Ordered M := h.ordered.of_fewer (fewer_shorten hsub hp)
  have hlist : ∀ a, tp'.pending.list a = if a = src then l else tp.pending.list a := by
    intro a
    rw [hp, list_shorten]
  refine ⟨?_, hordered.owned, hordered.increasing, nonempty_shorten h hp, ?_⟩
  · rw [ha]
    refine (h.indexed.eraseAll hinj hknown fun t ht ↦ hknown t ⟨src, hdropped t ht⟩).congr fun t ↦ ?_
    have hheld := held_replace h hlist
      (by simpa using hl : ∀ t, t ∈ l ↔ False ∨ (t ∈ tp.pending.list src ∧ t ∉ dropped))
      (fun t hs ht ↦ hs (h.owned src t (hdropped t ht))) t
    simpa using hheld
  · rw [ha]
    exact (length_foldl_erase M.hash dropped tp.allTxs).trans h.bounded

theorem Intact.retain
    (keep : PoolTransaction → Bool) (addr : Address) : (tp.retain M keep addr).Intact M := by
  refine h.drop hknown hinj _ ?_ List.filter_sublist ?_ rfl rfl
  · intro t ht
    exact List.mem_of_mem_filter ht
  · intro t
    simp only [List.mem_filter, Bool.not_eq_true']
    grind

theorem Intact.removeTransaction (hS : tx ∈ S) : (tp.removeTransaction M tx).Intact M := by
  unfold TxPool.removeTransaction
  split
  · rename_i hin
    -- the hash is that of a pending transaction, and so of this one
    obtain ⟨t, ⟨src, ht⟩, heq⟩ := h.indexed.mem_iff.mp hin
    obtain rfl := hinj (hknown t ⟨src, ht⟩) hS heq
    have hgone := not_mem_eraseP hinj (fun u hu ↦ hknown u ⟨src, hu⟩) (h.nodup src) hS
    rw [h.owned src t ht]
    refine h.drop hknown hinj [t] ?_ List.eraseP_sublist ?_ rfl rfl
    · intro u hu
      rwa [List.mem_singleton.mp hu]
    · intro u
      rw [List.mem_singleton]
      constructor
      · intro hu
        exact ⟨List.mem_of_mem_eraseP hu, fun heq ↦ hgone (heq ▸ hu)⟩
      · rintro ⟨hu, hne⟩
        refine (List.mem_eraseP_of_neg ?_).mpr hu
        simpa using fun heq ↦ hne (hinj (hknown u ⟨src, hu⟩) hS heq)
  · exact h

end

theorem mem_placed (M : TxMethods) (tp : TxPool) (src : Address) (tx : PoolTransaction) :
    (∀ a, ∀ t ∈ (tp.place M src tx).1.pending.list a, t ∈ tp.pending.list a ∨ (t = tx ∧ a = src)) ∧
    (tx ∈ (tp.place M src tx).1.pending.list src ∨
      ∃ t ∈ tp.pending.list src, t.nonce = tx.nonce) := by
  have hinsert : ∀ {l : List PoolTransaction}, (∀ t ∈ l, t ∈ tp.pending.list src ∨ t = tx) →
      ∀ a, ∀ t ∈ list (tp.pending.insert src l) a,
        t ∈ tp.pending.list a ∨ (t = tx ∧ a = src) := by
    intro l hl a t ht
    rw [list_insert] at ht
    split_ifs at ht with ha
    · subst ha
      exact (hl t ht).imp_right fun h ↦ ⟨h, rfl⟩
    · exact .inl ht
  rcases place_cases M tp src tx with ⟨heq, hsame⟩ | ⟨i, old, hold, hnonce, hp, -⟩ | ⟨-, hp, -⟩
  · rw [heq]
    exact ⟨fun a t ht ↦ .inl ht, .inr hsame⟩
  · rw [hp]
    exact ⟨hinsert fun t ht ↦ List.mem_or_eq_of_mem_set ht,
      .inr ⟨old, List.mem_of_getElem? hold, hnonce⟩⟩
  · have hperm := sortAccountTransactions_perm (tp.pending.list src ++ [tx])
    rw [hp]
    refine ⟨hinsert fun t ht ↦ ?_, .inl ?_⟩
    · simpa using hperm.mem_iff.mp ht
    · rw [list_insert, if_pos rfl, hperm.mem_iff]
      exact List.mem_append_right _ (List.mem_singleton_self tx)

theorem mem_addTransaction (M : TxMethods) (tp : TxPool) (now : ℤ)
    (ht : t ∈ (tp.addTransaction M now tx).1.pending.list a) :
    t ∈ tp.pending.list a ∨ (t = tx ∧ M.hash tx ∉ tp.allTxs) := by
  rcases addTransaction_cases M tp now tx with ⟨hp, -⟩ | ⟨hnew, src, -, heq⟩
  · rw [hp] at ht
    exact .inl ht
  · rw [heq] at ht
    exact ((mem_placed M tp src tx).1 a t ht).imp_right fun h ↦ ⟨h.1, hnew⟩

theorem Intact.pruneRejectedTxs (h : tp.Intact M) : tp.pruneRejectedTxs.Intact M := by
  unfold TxPool.pruneRejectedTxs
  split <;> exact h.congr rfl rfl

def IntactOn (M : TxMethods) (S : Set PoolTransaction) (tp : TxPool) : Prop :=
  tp.Intact M ∧ ∀ t, tp.Held t → t ∈ S

theorem held_of_fewer (hsub : Fewer tp' tp) (hknown : ∀ t, tp.Held t → t ∈ S) :
    ∀ t, tp'.Held t → t ∈ S := by
  rintro t ⟨a, ht⟩
  exact hknown t ⟨a, (hsub a).mem ht⟩

theorem IntactOn.removeTransaction (h : tp.IntactOn M S) (hinj : S.InjOn M.hash) (hS : tx ∈ S) :
    (tp.removeTransaction M tx).IntactOn M S :=
  ⟨h.1.removeTransaction h.2 hinj hS, held_of_fewer (removeTransaction_fewer tp tx) h.2⟩

theorem not_held_removeTransaction (h : (tp.removeTransaction M tx).Intact M) :
    ¬(tp.removeTransaction M tx).Held tx := by
  intro hheld
  have hin := h.indexed.mem_iff.mpr ⟨tx, hheld, rfl⟩
  unfold TxPool.removeTransaction at hin
  split at hin
  · exact (mem_erase.mp hin).1 rfl
  · contradiction

section

variable (h : tp.IntactOn M S) (hinj : S.InjOn M.hash)
include h hinj

theorem IntactOn.removeTransactions
    {txs : List PoolTransaction} (hS : ∀ t ∈ txs, t ∈ S) :
    (tp.removeTransactions M txs).IntactOn M S ∧
      ∀ a, ∀ t ∈ (tp.removeTransactions M txs).pending.list a, t ∈ tp.pending.list a ∧ t ∉ txs := by
  induction txs generalizing tp with
  | nil => exact ⟨h, fun a t ht ↦ ⟨ht, List.not_mem_nil⟩⟩
  | cons tx txs ih =>
    rw [List.forall_mem_cons] at hS
    have hfirst := h.removeTransaction hinj hS.1
    obtain ⟨hintact, hmem⟩ := ih hfirst hS.2
    refine ⟨hintact, fun a t ht ↦ ?_⟩
    obtain ⟨ht', hnot⟩ := hmem a t ht
    refine ⟨(removeTransaction_fewer tp tx a).mem ht', ?_⟩
    rw [List.mem_cons, not_or]
    refine ⟨?_, hnot⟩
    rintro rfl
    exact not_held_removeTransaction hfirst.1 ⟨a, ht'⟩

theorem IntactOn.call (c : Call)
    (hc : ∀ txs, c = .removeTransactions txs → ∀ t ∈ txs, t ∈ S) : (tp.call M c).IntactOn M S := by
  refine ⟨?_, held_of_fewer (call_fewer tp c) h.2⟩
  cases c with
  | removeTransactions txs => exact (h.removeTransactions hinj (hc txs rfl)).1.1
  | removeStale now sinceCleanup =>
    have hfold : (Run.exec (fun tp addr ↦ tp.retain M (notExpired now) addr) tp
        tp.pending.keys).IntactOn M S := by
      refine Run.exec_invariant h (fun tp addr htp ↦ ⟨?_, ?_⟩) _
      · exact htp.1.retain htp.2 hinj _ addr
      · exact held_of_fewer (retain_fewer tp _ addr) htp.2
    simp only [TxPool.call, removeStale]
    split
    · exact hfold.1.pruneRejectedTxs
    · exact hfold.1
  | updateNonce addr nonce => exact h.1.retain h.2 hinj _ addr
  | clear => exact (intact_newTxPool tp.blockGasLimit).congr rfl rfl

theorem IntactOn.addTransaction (now : ℤ)
    (hS : tx ∈ S) : (tp.addTransaction M now tx).1.IntactOn M S := by
  refine ⟨h.1.addTransaction h.2 hinj now, ?_⟩
  rintro t ⟨a, ht⟩
  rcases mem_addTransaction M tp now ht with hold | ⟨rfl, -⟩
  · exact h.2 t ⟨a, hold⟩
  · exact hS

end

end TxPool

end Mainnet.Txpool
