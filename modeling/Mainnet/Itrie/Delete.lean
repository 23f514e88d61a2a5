import Mainnet.Itrie.AnyKeys

namespace Mainnet.Itrie

open Types Lib List Option Function Outcome Bool Patricia.Tree Patricia

variable {K : Keccak} {S : Storage} {M : Marks} {ep : UInt32} {node : Node} {t : Tree}

theorem Node.mergeShort_isRef (key : List Nibble) (node : Node) :
    (node.mergeShort key).isRef = false := by
  cases node <;> rfl

theorem means_mergeShort (hU : M.Unset ep) {key : List Nibble} (hk : key ≠ [])
    (hr : node.isRef = false) (h : Means K S M node t) :
    Means K S M (node.mergeShort key) (t.join key) := by
  obtain ⟨x, key, rfl⟩ := exists_cons_of_ne_nil hk
  cases h with
  | nil => exact .nil
  | value v => exact .short (hU.short _) (.value v)
  | ref => cases hr
  | short _ h => exact .short (hU.short _) h
  | full hm h => exact .short (hU.short _) (.full hm h)

section Collapse

variable {edges : Nibble → Node} {ts : Nibble → Tree}

theorem exists_castSucc {i : Nibble} (h : i ≠ terminator) : ∃ c : Fin 16, i = c.castSucc :=
  ⟨i.castPred h, (Fin.castSucc_castPred i h).symm⟩

section

variable (h : ∀ i, Means K S M (edges i) (ts i))
include h

theorem mem_children (i : Fin 16) :
    i ∈ ((finRange 16).filter fun i ↦ !(edges i.castSucc).isNil) ↔ ts i.castSucc ≠ .nil := by
  rw [mem_filter, not_eq_true', ← not_eq_true, (h i.castSucc).isNil]
  simp

theorem means_collapse_child {i : Fin 16}
    (hs : (ts i.castSucc).Proper terminator false)
    (hu : ∀ j, ts j ≠ .nil → j = i.castSucc) :
    ∃ nc, Node.collapse K S edges = .ok (some (nc.mergeShort [i.castSucc])) ∧
      Means K S M nc (ts i.castSucc) ∧ nc.isRef = false := by
  have hmem : ∀ j, j ∈ ((finRange 16).filter fun i ↦ !(edges i.castSucc).isNil) → j = i := by
    intro j hj
    exact Fin.castSucc_injective _ (hu _ ((mem_children h j).mp hj))
  have hi := (mem_children h i).mpr hs.ne_nil
  have hnd := (nodup_finRange 16).filter fun i : Fin 16 ↦ !(edges i.castSucc).isNil
  have hf : ((finRange 16).filter fun i ↦ !(edges i.castSucc).isNil) = [i] := by
    generalize ((finRange 16).filter fun i ↦ !(edges i.castSucc).isNil) = l at hmem hi hnd
    rcases l with _ | ⟨a, _ | ⟨b, l⟩⟩
    · cases hi
    · rw [hmem a mem_cons_self]
    · have hab : a = b := (hmem a (by simp)).trans (hmem b (by simp)).symm
      exact absurd (nodup_cons.mp hnd).1 (by simp [hab])
  have hv : ¬ (!(edges terminator).isNil) = true := by
    have hnil : ts terminator = .nil := by
      by_contra hne
      exact absurd (hu _ hne) (Fin.castSucc_lt_last i).ne'
    simp [(h terminator).isNil.mpr hnil]
  rw [Node.collapse, hf]
  simp only [if_neg hv]
  have hd := h i.castSucc
  generalize edges i.castSucc = child at hd
  generalize ts i.castSucc = tree at hd hs
  cases hd with
  | nil => exact absurd rfl hs.ne_nil
  | value v => exact absurd rfl (hs.ne_leaf v)
  | @ref buf nc _ hg hm hd =>
    refine ⟨nc, ?_, hd, getNode_isRef hg⟩
    simp only [hg]
    obtain ⟨_, _, rfl⟩ | ⟨_, rfl⟩ := getNode_loaded hg <;> rfl
  | @short cached key child t hm hd => exact ⟨.short cached key child, rfl, .short hm hd, rfl⟩
  | @full cached e edges ts hm hd => exact ⟨.full cached e edges, rfl, .full hm hd, rfl⟩

theorem means_collapse_value {v : Bytes}
    (ht : ts terminator = .leaf v) (hu : ∀ j, ts j ≠ .nil → j = terminator) :
    Node.collapse K S edges = .ok (some (.short [] [terminator] (.value false v))) := by
  have hf : ((finRange 16).filter fun i ↦ !(edges i.castSucc).isNil) = [] := by
    apply eq_nil_iff_forall_not_mem.mpr
    intro i hi
    exact absurd (hu _ ((mem_children h i).mp hi)) (Fin.castSucc_lt_last i).ne
  have hv := h terminator
  rw [ht] at hv
  rw [Node.collapse, hf, hv.eq_value]

theorem means_collapse_full {i j : Nibble} (hij : i ≠ j)
    (hi : ts i ≠ .nil) (hj : ts j ≠ .nil) :
    Node.collapse K S edges = .ok (some (.full [] 0 edges)) := by
  have hmem : ∀ k, ts k ≠ .nil → k = terminator ∨ ∃ c : Fin 16, k = c.castSucc ∧
      c ∈ (finRange 16).filter fun i ↦ !(edges i.castSucc).isNil := by
    intro k hk
    by_cases hkt : k = terminator
    · exact .inl hkt
    · obtain ⟨c, rfl⟩ := exists_castSucc hkt
      exact .inr ⟨c, rfl, (mem_children h c).mpr hk⟩
  have hval : ∀ k, ts k ≠ .nil → k = terminator → (!(edges terminator).isNil) = true := by
    intro k hk hkt
    subst hkt
    simpa using mt (h terminator).isNil.mp hk
  rcases hf : (finRange 16).filter fun i ↦ !(edges i.castSucc).isNil with _ | ⟨c, _ | ⟨d, l⟩⟩
  · rw [hf] at hmem
    obtain hit | ⟨c, -, hc⟩ := hmem i hi
    · obtain hjt | ⟨c, -, hc⟩ := hmem j hj
      · exact absurd (hit.trans hjt.symm) hij
      · cases hc
    · cases hc
  · rw [hf] at hmem
    have hv : (!(edges terminator).isNil) = true := by
      obtain hit | ⟨c', rfl, hc'⟩ := hmem i hi
      · exact hval i hi hit
      · obtain hjt | ⟨d', rfl, hd'⟩ := hmem j hj
        · exact hval j hj hjt
        · rw [mem_singleton.mp hc', mem_singleton.mp hd'] at hij
          exact absurd rfl hij
    rw [Node.collapse, hf]
    simp only [if_pos hv]
  · rw [Node.collapse, hf]

end

theorem means_collapse (hU : M.Unset ep) (h : ∀ i, Means K S M (edges i) (ts i))
    (hs : ∀ i, Sound (decide (i = terminator)) (ts i)) (h1 : ∃ i, ts i ≠ .nil) :
    ∃ r, Node.collapse K S edges = .ok (some r) ∧ Means K S M r (collapse ts) ∧
      r.isRef = false := by
  obtain ⟨i, hi⟩ := h1
  by_cases hu : ∀ j, ts j ≠ .nil → j = i
  · rw [collapse_of_unique hi hu]
    by_cases hit : i = terminator
    · subst hit
      obtain ⟨v, hv⟩ := (hs terminator hi).eq_leaf
      rw [hv]
      exact ⟨_, means_collapse_value h hv hu, .short (hU.short _) (.value v), rfl⟩
    · obtain ⟨i, rfl⟩ := exists_castSucc hit
      have hp := hs _ hi
      rw [decide_eq_false hit] at hp
      obtain ⟨nc, hr, hd, href⟩ := means_collapse_child h hp hu
      exact ⟨_, hr, means_mergeShort hU (by simp) href hd, Node.mergeShort_isRef _ _⟩
  · obtain ⟨j, hj⟩ := not_forall.mp hu
    obtain ⟨hj, hji⟩ := Classical.not_imp.mp hj
    rw [collapse_of_ne hji hj hi]
    exact ⟨_, means_collapse_full h hji hj hi, .full (hU.loaded _) h, rfl⟩

end Collapse

def Prunes (K : Keccak) (S : Storage) (M : Marks) (fuel : ℕ) (node : Node) (t : Tree)
    (s : List Nibble) : Prop :=
  ∃ node' res, node.delete K S fuel s = .ok (node', res) ∧ Means K S M node' t ∧
    node'.isRef = node.isRef ∧
    Rel (fun r t' ↦ Means K S M r t' ∧ r.isRef = false) res ((t.reach s).bind t.delete)

section Cases

variable {fuel : ℕ} {s : List Nibble} {key : List Nibble} {cached : Bytes} {child : Node}

theorem Prunes.short_whole (hU : M.Unset ep) (hs : Sound false (.short key t))
    (hk : Closed terminator s) (h : Means K S M child t)
    (hall : prefixLen s key = s.length) :
    Prunes K S M (fuel + 1) (.short cached key child) (.short key t) s := by
  obtain ⟨b, -, hne, hp, -, hc⟩ := hs.short
  obtain ⟨rest, rfl⟩ | ⟨p, a, ks, c, ss, hac, rfl, rfl⟩ := prefix_or_leave hk hp
  · rw [prefixLen_append_self, length_append] at hall
    obtain rfl : rest = [] := length_eq_zero_iff.mp (by omega)
    have hlen := length_pos_of_ne_nil hne
    obtain rfl : b = true := hp.eq (by simpa [Front] using hk : Front terminator true key)
    obtain ⟨v, rfl⟩ := hc.eq_leaf
    refine ⟨.short [] key child, some .nil, ?_, .short (hU.short _) h, rfl, ?_⟩
    · rw [Node.delete, if_pos (by rw [prefixLen_append_self]; simp)]
    rw [reach, prefixLen_append_self, if_neg (by omega), drop_left]
    simp only [reach, if_true, map_some, bind_some, delete, append_nil, prefix_rfl, drop_length]
    exact .some ⟨.nil, rfl⟩
  · rw [prefixLen_append, prefixLen_cons_of_ne hac.symm] at hall
    simp at hall

theorem Prunes.short_none (hU : M.Unset ep) (h : Means K S M child t)
    (hall : prefixLen s key ≠ s.length) (hzero : prefixLen s key = 0) :
    Prunes K S M (fuel + 1) (.short cached key child) (.short key t) s := by
  refine ⟨.short [] key child, none, ?_, .short (hU.short _) h, rfl, ?_⟩
  · rw [Node.delete, if_neg hall, if_pos hzero]
  rw [reach, if_pos hzero]
  exact .none

theorem Prunes.short_step (hU : M.Unset ep) (hne : key ≠ [])
    (hall : prefixLen s key ≠ s.length) (hzero : prefixLen s key ≠ 0)
    (h : Prunes K S M fuel child t (s.drop (prefixLen s key))) :
    Prunes K S M (fuel + 1) (.short cached key child) (.short key t) s := by
  obtain ⟨child', res, hr, hden', -, hrel⟩ := h
  refine ⟨.short [] key child', res.map (Node.mergeShort key), ?_, .short (hU.short _) hden', rfl, ?_⟩
  · rw [Node.delete, if_neg hall, if_neg hzero]
    simp only [hr, ok_bind]
  rw [reach, if_neg hzero]
  cases hreach : t.reach (s.drop (prefixLen s key)) with
  | none =>
    rw [hreach] at hrel
    cases hrel
    exact .none
  | some k =>
    rw [hreach, bind_some] at hrel
    rw [map_some, bind_some, delete, if_pos (prefix_append _ _), drop_left]
    generalize t.delete k = left at hrel
    cases hrel with
    | none => exact .none
    | some hab => exact .some ⟨means_mergeShort hU hne hab.2 hab.1, Node.mergeShort_isRef _ _⟩

variable {e : UInt32} {edges : Nibble → Node} {ts : Nibble → Tree} {k : Nibble}

theorem Prunes.full (hU : M.Unset ep) (hs : Sound false (.full ts))
    (hm : M.full cached e (.full ts)) (h : ∀ i, Means K S M (edges i) (ts i))
    (hchild : Prunes K S M fuel (edges k) (ts k) s) :
    Prunes K S M (fuel + 1) (.full cached e edges) (.full ts) (k :: s) := by
  obtain ⟨child', res, hr, hden', -, hrel⟩ := hchild
  obtain ⟨-, hs', h2⟩ := hs.full
  have hall := means_update h (k := k) hden'
  rw [update_eq_self] at hall
  rw [Prunes, reach]
  cases hreach : (ts k).reach s with
  | none =>
    rw [hreach] at hrel
    cases hrel
    exact ⟨.full cached e (update edges k child'), none,
      by simp only [Node.delete, hr, ok_bind], .full hm hall, rfl, .none⟩
  | some key =>
    have hne : ts k ≠ .nil := by
      intro hn
      rw [hn] at hreach
      cases hreach
    obtain ⟨t', hd, hp, -⟩ := (hs' k hne).delete (get_of_reach hreach)
    rw [hreach, bind_some, hd] at hrel
    obtain @⟨r, _, hden2, -⟩ := hrel
    have hsound : ∀ i, Sound (decide (i = terminator)) (update ts k t' i) := by
      intro i
      by_cases hi : i = k
      · subst hi
        rw [update_self]
        exact hp
      · rw [update_of_ne hi]
        exact hs' i
    obtain ⟨r', hcol, hrep⟩ := means_collapse hU (means_update h (k := k) hden2) hsound
      (edge_of_update h2 k t')
    refine ⟨.full cached e (update edges k child'), some r',
      by simp only [Node.delete, hr, ok_bind, hcol], .full hm hall, rfl, ?_⟩
    rw [map_some, bind_some, delete, hd, map_some]
    exact .some hrep

end Cases

theorem means_delete (hU : M.Unset ep) {fuel : ℕ} {b : Bool} (hd : Means K S M node t)
    (hs : Sound b t) {s : List Nibble} (hk : s ≠ [] → Closed terminator s)
    (hb : s = [] → b = true)
    (hf : 2 * s.length + 1 + node.isRef.toNat ≤ fuel) : Prunes K S M fuel node t s := by
  induction fuel generalizing node t b s with
  | zero => omega
  | succ fuel ih =>
    cases hd with
    | nil => exact ⟨.nil, none, rfl, .nil, rfl, by simp [reach]⟩
    | value v =>
      refine ⟨_, _, rfl, .value v, rfl, ?_⟩
      by_cases h0 : s = []
      · subst h0
        exact .some ⟨.nil, rfl⟩
      · rw [if_neg h0, reach, if_neg h0]
        exact .none
    | @ref buf nc _ hg hm h =>
      simp only [Node.isRef, toNat_true] at hf
      obtain ⟨node', res, hr, -, -, hrel⟩ := ih h hs hk hb
        (by rw [getNode_isRef hg, toNat_false]; omega)
      exact ⟨_, res, by simp only [Node.delete, hg, hr, ok_bind], .ref hg hm h, rfl, hrel⟩
    | @short cached key child t hm h =>
      obtain ⟨b', rfl, hne, hp, -, hc⟩ := hs.short
      have hclosed : Closed terminator s := hk fun h0 ↦ by cases hb h0
      by_cases hall : prefixLen s key = s.length
      · exact .short_whole hU hs hclosed h hall
      by_cases hzero : prefixLen s key = 0
      · exact .short_none hU h hall hzero
      have hle := (prefixLen_le s key).1
      have hcref := child.isRef.toNat_le
      simp only [Node.isRef, toNat_false] at hf
      have hdrop : s.drop (prefixLen s key) ≠ [] := by
        rw [Ne, drop_eq_nil_iff]
        omega
      have hrest : Closed terminator (s.drop (prefixLen s key)) := by
        rw [← take_append_drop (prefixLen s key) s] at hclosed
        obtain ⟨c, -, hc⟩ := hclosed.cut
        cases c with
        | true => exact absurd hc hdrop
        | false => exact hc
      exact .short_step hU hne hall hzero (ih h (fun _ ↦ hc) (fun _ ↦ hrest)
        (fun h0 ↦ absurd h0 hdrop) (by rw [length_drop]; omega))
    | @full cached e edges ts hm h =>
      obtain ⟨rfl, hs', -⟩ := hs.full
      obtain ⟨k, s, rfl⟩ : ∃ k s', s = k :: s' :=
        exists_cons_of_ne_nil fun h0 ↦ by cases hb h0
      have hcref := (edges k).isRef.toNat_le
      simp only [Node.isRef, toNat_false, length_cons] at hf
      refine .full hU hs hm h (ih (h k) (hs' k) (fun hne ↦ ?_) (fun h0 ↦ ?_) (by omega))
      · obtain ⟨-, h0⟩ | ⟨-, hs⟩ := (hk (by simp)).cons
        · exact absurd h0 hne
        · exact hs
      · obtain ⟨rfl, -⟩ | ⟨-, hs⟩ := (hk (by simp)).cons
        · exact decide_eq_true rfl
        · exact absurd h0 hs.ne_nil

def treeMap (tree : Tree) : Bytes → Option Bytes := fun key ↦ tree.get (bytesToHexNibbles key)

theorem treeMap_update {tree tree' : Tree} {key : Bytes} {o : Option Bytes}
    (h : tree'.get = update tree.get (bytesToHexNibbles key) o) :
    treeMap tree' = update (treeMap tree) key o := by
  funext k
  rw [treeMap, h]
  by_cases hk : k = key
  · rw [hk, update_self, update_self]
  · rw [update_of_ne hk, update_of_ne fun he ↦ hk (bytesToHexNibbles_injective he)]
    rfl

noncomputable def pruned (tree : Tree) (key : Bytes) : Tree :=
  ((tree.reach (bytesToHexNibbles key)).bind tree.delete).getD tree

variable {fuel : ℕ} {tree : Tree}

theorem Sound.reach_self (h : Sound false tree) {s : List Nibble} (hg : (tree.get s).isSome) :
    tree.reach s = some s := by
  have hne : tree ≠ .nil := by
    rintro rfl
    cases hg
  exact (h hne).reach_of_get hg

theorem Sound.pruned (h : Sound false tree) (key : Bytes) :
    Sound false (pruned tree key) ∧
      (tree.reach (bytesToHexNibbles key) = none ∧ Itrie.pruned tree key = tree ∨
        ∃ k, tree.reach (bytesToHexNibbles key) = some k ∧
          (Itrie.pruned tree key).get = update tree.get k none) := by
  rw [Itrie.pruned]
  cases hr : tree.reach (bytesToHexNibbles key) with
  | none => exact ⟨h, .inl ⟨rfl, rfl⟩⟩
  | some k =>
    have hne : tree ≠ .nil := by
      rintro rfl
      cases hr
    obtain ⟨t', hd, hp, hg⟩ := (h hne).delete (get_of_reach hr)
    rw [bind_some, hd]
    exact ⟨hp, .inr ⟨k, rfl, hg⟩⟩

theorem Sound.treeMap_pruned_iff (h : Sound false tree) (key : Bytes) :
    treeMap (Itrie.pruned tree key) = update (treeMap tree) key none ↔
      ∀ other, other ≠ key → tree.reach (bytesToHexNibbles key) ≠ some (bytesToHexNibbles other) := by
  have habsent : tree.reach (bytesToHexNibbles key) ≠ some (bytesToHexNibbles key) →
      update (treeMap tree) key none = treeMap tree := by
    intro hne
    rw [update_eq_self_iff]
    by_contra hsome
    exact hne (h.reach_self (isSome_iff_ne_none.mpr (Ne.symm hsome)))
  obtain ⟨-, ⟨hr, hp⟩ | ⟨k, hr, hp⟩⟩ := h.pruned key
  · rw [hp, hr, habsent (by rw [hr]; simp)]
    simp
  · rw [hr]
    by_cases hk : k = bytesToHexNibbles key
    · subst hk
      rw [treeMap_update hp]
      refine iff_of_true rfl fun other hne he ↦ ?_
      exact hne (bytesToHexNibbles_injective (some.inj he)).symm
    · have hself : tree.reach (bytesToHexNibbles key) ≠ some (bytesToHexNibbles key) := by
        rw [hr]
        simpa using hk
      rw [habsent hself]
      constructor
      · intro hm other _ he
        obtain rfl := some.inj he
        -- The other key was found before and is not any more.
        have hfound := get_of_reach hr
        have hgone := congrFun hm other
        rw [treeMap_update hp, update_self] at hgone
        rw [show tree.get (bytesToHexNibbles other) = none from hgone.symm] at hfound
        cases hfound
      · intro hother
        funext k'
        rw [treeMap, hp, update_of_ne]
        · rfl
        · rintro rfl
          exact hother k' (fun he ↦ hk (by rw [he])) rfl

theorem means_pruned (hU : M.Unset ep) (hd : Means K S M node tree)
    (hs : Sound false tree) (key : Bytes) (hf : 4 * key.length + 6 ≤ fuel) :
    ∃ node' res, node.delete K S fuel (bytesToHexNibbles key) = .ok (node', res) ∧
      Means K S M (res.getD node') (pruned tree key) ∧
      (node.isRef = false → (res.getD node').isRef = false) := by
  have href := node.isRef.toNat_le
  have hclosed := closed_bytesToHexNibbles key
  have hf' : 2 * (bytesToHexNibbles key).length + 1 + node.isRef.toNat ≤ fuel := by
    rw [length_bytesToHexNibbles]
    omega
  obtain ⟨node', res, hr, hd', href', hrel⟩ := means_delete hU hd hs
    (fun _ ↦ hclosed) (fun h0 ↦ absurd h0 hclosed.ne_nil) hf'
  refine ⟨node', res, hr, ?_⟩
  rw [pruned]
  generalize (tree.reach (bytesToHexNibbles key)).bind tree.delete = left at hrel
  cases hrel with
  | none => exact ⟨hd', href'.trans⟩
  | some hab => exact ⟨hab.1, fun _ ↦ hab.2⟩

end Mainnet.Itrie
