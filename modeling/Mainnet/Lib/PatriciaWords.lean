import Mainnet.Lib.PatriciaEdit

namespace Mainnet.Lib.Patricia

open List Option Function

variable {E V : Type} {T : E}

def Closed (T : E) (s : List E) : Prop := ∃ d, s = d ++ [T] ∧ T ∉ d

variable {s d p : List E} {e : E} {b : Bool}

theorem Closed.ne_nil (h : Closed T s) : s ≠ [] := by
  obtain ⟨d, rfl, -⟩ := h
  simp

theorem closed_singleton : Closed T [T] := ⟨[], rfl, by simp⟩

theorem Closed.mem (h : Closed T s) : T ∈ s := by
  obtain ⟨d, rfl, -⟩ := h
  simp

theorem closed_append (hd : T ∉ d) (h : Closed T s) : Closed T (d ++ s) := by
  obtain ⟨d', rfl, hd'⟩ := h
  exact ⟨d ++ d', by rw [append_assoc], by simp [hd, hd']⟩

theorem Closed.cons (h : Closed T (e :: s)) : e = T ∧ s = [] ∨ e ≠ T ∧ Closed T s := by
  obtain ⟨d, hs, hd⟩ := h
  cases d with
  | nil =>
    rw [nil_append, cons.injEq] at hs
    exact .inl hs
  | cons x d =>
    rw [cons_append, cons.injEq] at hs
    obtain ⟨rfl, rfl⟩ := hs
    rw [mem_cons, not_or] at hd
    exact .inr ⟨Ne.symm hd.1, d, rfl, hd.2⟩

/-- A front of a closed word: all of it when `b` is set, digits alone otherwise. -/
def Front (T : E) : Bool → List E → Prop
  | true, p => Closed T p
  | false, p => T ∉ p

def Rest (T : E) : Bool → List E → Prop
  | true, s => s = []
  | false, s => Closed T s

theorem Front.append (hd : T ∉ d) (h : Front T b p) : Front T b (d ++ p) := by
  cases b with
  | true => exact closed_append hd h
  | false => simpa [Front, hd] using h

theorem Closed.cut (h : Closed T (p ++ s)) : ∃ b, Front T b p ∧ Rest T b s := by
  induction p with
  | nil => exact ⟨false, not_mem_nil, h⟩
  | cons e p ih =>
    obtain ⟨rfl, hs⟩ | ⟨he, hs⟩ := Closed.cons h
    · obtain ⟨rfl, rfl⟩ := append_eq_nil_iff.mp hs
      exact ⟨true, closed_singleton, rfl⟩
    · obtain ⟨b, hp, hs⟩ := ih hs
      exact ⟨b, hp.append (d := [e]) (by simpa using he.symm), hs⟩

theorem Front.eq {b' : Bool} (h : Front T b p) (h' : Front T b' p) : b = b' := by
  cases b <;> cases b' <;> first | rfl | exact absurd (Closed.mem ‹_›) ‹_›

theorem Front.rest (hp : Front T b p) (h : Closed T (p ++ s)) : Rest T b s := by
  obtain ⟨b', hp', hs⟩ := h.cut
  rwa [hp.eq hp']

theorem Closed.digits (h : Closed T (p ++ e :: s)) : T ∉ p := by
  obtain ⟨b, hp, hs⟩ := h.cut
  cases b with
  | true => cases hs
  | false => exact hp

theorem Front.digits (h : Front T b (p ++ e :: s)) : T ∉ p := by
  cases b with
  | true => exact Closed.digits h
  | false => exact fun hp ↦ h (mem_append_left _ hp)

theorem Front.tail (h : Front T b (p ++ e :: s)) (hs : s ≠ []) : e ≠ T ∧ Front T b s := by
  have hd : T ∉ p ++ [e] := by
    obtain ⟨x, s, rfl⟩ := exists_cons_of_ne_nil hs
    exact Front.digits (p := p ++ [e]) (s := s) (e := x) (b := b) (by simpa using h)
  have he : e ≠ T := by
    rintro rfl
    exact hd (by simp)
  refine ⟨he, ?_⟩
  cases b with
  | true =>
    have hc : Closed T ((p ++ [e]) ++ s) := by simpa [Front] using h
    exact Front.rest (b := false) hd hc
  | false => exact fun hs ↦ h (mem_append_right _ (mem_cons_of_mem _ hs))

variable [DecidableEq E]

theorem front_singleton (e : E) : Front T (decide (e = T)) [e] := by
  by_cases he : e = T
  · subst he
    rw [decide_eq_true rfl]
    exact closed_singleton
  · rw [decide_eq_false he]
    simpa [Front] using Ne.symm he

theorem Front.split (h : Front T b (p ++ e :: s)) (hs : s = []) : b = decide (e = T) := by
  subst hs
  exact h.eq ((front_singleton e).append h.digits)

namespace Tree

/-- The nonempty trees in normal form whose keys are what is left of closed words. -/
inductive Proper (T : E) : Bool → Tree E V → Prop
  | leaf (v : V) : Proper T true (.leaf v)
  | short {b : Bool} {key : List E} {child : Tree E V} (hk : key ≠ []) (hp : Front T b key)
      (hs : ∀ k c, child ≠ .short k c) (hc : Proper T b child) : Proper T false (.short key child)
  | full {edges : E → Tree E V} (he : ∀ i, edges i ≠ .nil → Proper T (decide (i = T)) (edges i))
      (h2 : ∃ i j, i ≠ j ∧ edges i ≠ .nil ∧ edges j ≠ .nil) : Proper T false (.full edges)

variable {b : Bool} {t : Tree E V} {s key k : List E} {edges : E → Tree E V} {n : ℕ}

theorem Proper.ne_nil (h : Proper T b t) : t ≠ .nil := by
  cases h <;> simp

theorem Proper.eq_leaf (h : Proper T true t) : ∃ v, t = .leaf v := by
  cases h with
  | leaf v => exact ⟨v, rfl⟩

theorem Proper.ne_leaf (h : Proper T false t) (v : V) : t ≠ .leaf v := by
  cases h <;> simp

theorem prefix_or_leave (hs : Closed T s) (hk : Front T b key) :
    (∃ rest, s = key ++ rest) ∨
      ∃ p a ks c ss, a ≠ c ∧ key = p ++ a :: ks ∧ s = p ++ c :: ss := by
  by_cases hl : key.length ≤ s.length
  · exact prefix_or_split s key hl
  · obtain ⟨rest, rfl⟩ | ⟨p, a, ks, c, ss, hac, rfl, rfl⟩ := prefix_or_split key s (by omega)
    · -- A closed word is no proper front of another.
      cases rest with
      | nil => simp at hl
      | cons e rest => exact absurd hs.mem hk.digits
    · exact .inr ⟨p, c, ss, a, ks, hac.symm, rfl, rfl⟩

theorem Proper.stem_leaf (hs : Rest T b s) (v : V) : Proper T b (stem s (.leaf v) : Tree E V) := by
  cases b with
  | true =>
    cases hs
    exact .leaf v
  | false =>
    obtain ⟨e, s, rfl⟩ := exists_cons_of_ne_nil (Closed.ne_nil hs)
    exact .short (b := true) (by simp) hs (by simp) (.leaf v)

theorem Proper.stem_full (h : Proper T false (.full edges))
    (hk : T ∉ key) : Proper T false (stem key (.full edges)) := by
  cases key with
  | nil => exact h
  | cons e key => exact .short (b := false) (by simp) hk (by simp) h

theorem Proper.stem_tail {p ks : List E} {e : E}
    (hp : Front T b (p ++ e :: ks)) (hs : ∀ k c, t ≠ .short k c) (h : Proper T b t) :
    Proper T (decide (e = T)) (stem ks t) := by
  cases ks with
  | nil =>
    rw [← hp.split rfl]
    exact h
  | cons x ks =>
    obtain ⟨he, hks⟩ := hp.tail (by simp)
    rw [decide_eq_false he]
    exact .short (by simp) hks hs h

theorem Proper.join (hk : key ≠ []) (hp : Front T b key)
    (h : Proper T b t) : Proper T false (join key t) := by
  cases h with
  | leaf v =>
    obtain ⟨e, key, rfl⟩ := exists_cons_of_ne_nil hk
    exact .short hk hp (by simp) (.leaf v)
  | short hk' hp' hs hc => exact .short (by simp [hk]) (hp'.append hp) hs hc
  | full he h2 => exact (Proper.full he h2).stem_full hp

theorem Proper.insert (h : t ≠ .nil → Proper T b t)
    (hs : Rest T b s) (v : V) : Proper T b (t.insert s v) := by
  by_cases hn : t = .nil
  · subst hn
    exact Proper.stem_leaf hs v
  · replace h := h hn
    clear hn
    induction h generalizing s with
    | leaf w => exact .leaf v
    | @short b key child hk hp hns hc ih =>
      obtain ⟨rest, rfl⟩ | ⟨p, a, ks, c, ss, hac, rfl, rfl⟩ := prefix_or_leave hs hp
      · rw [insert_short_append]
        exact .short hk hp (insert_ne_short hc.ne_nil hns rest v) (ih (hp.rest hs))
      · rw [insert_short_split hac]
        have hrest : Rest T (decide (c = T)) ss :=
          ((front_singleton c).append hp.digits).rest (by simpa [Rest] using hs)
        refine Proper.stem_full (.full ?_ ⟨a, c, hac, ?_, ?_⟩) hp.digits
        · intro i hi
          by_cases hic : i = c
          · subst hic
            rw [update_self]
            exact Proper.stem_leaf hrest v
          · rw [update_of_ne hic] at hi ⊢
            by_cases hia : i = a
            · subst hia
              rw [single, update_self]
              exact Proper.stem_tail hp hns hc
            · rw [single, update_of_ne hia] at hi
              exact absurd rfl hi
        · rw [update_of_ne hac, single, update_self]
          exact stem_ne_nil hc.ne_nil
        · rw [update_self]
          exact stem_ne_nil (by simp)
    | @full edges he h2 ih =>
      obtain ⟨e, s, rfl⟩ := exists_cons_of_ne_nil (Closed.ne_nil hs)
      have hrest : Rest T (decide (e = T)) s := (front_singleton e).rest hs
      have hce : Proper T (decide (e = T)) ((edges e).insert s v) := by
        by_cases hn : edges e = .nil
        · rw [hn]
          exact Proper.stem_leaf hrest v
        · exact ih e hn hrest
      refine .full (fun i hi ↦ ?_) (two_edges_of_update h2 hce.ne_nil)
      by_cases hie : i = e
      · subst hie
        rw [update_self]
        exact hce
      · rw [update_of_ne hie] at hi ⊢
        exact he i hi

theorem Proper.collapse
    (he : ∀ i, edges i ≠ .nil → Proper T (decide (i = T)) (edges i)) (h1 : ∃ i, edges i ≠ .nil) :
    Proper T false (collapse edges) := by
  unfold Tree.collapse
  split
  · rename_i h
    exact (he _ h.choose_spec.1).join (by simp) (front_singleton _)
  · rename_i h
    obtain ⟨i, hi⟩ := h1
    refine .full he ?_
    by_contra hno
    refine h ⟨i, hi, fun j hj ↦ ?_⟩
    by_contra hji
    exact hno ⟨i, j, Ne.symm hji, hi, hj⟩

/-- Where the walk of a deletion arrives that takes a path of which the search has only the first
edges for followed. -/
def reach : Tree E V → List E → Option (List E)
  | .nil, _ => none
  | .leaf _, s => if s = [] then some [] else none
  | .short key child, s =>
    if prefixLen s key = 0 then none
    else (child.reach (s.drop (prefixLen s key))).map (key ++ ·)
  | .full _, [] => none
  | .full edges, e :: s => ((edges e).reach s).map (e :: ·)

theorem get_of_reach (h : t.reach s = some k) : (t.get k).isSome := by
  induction t generalizing s k with
  | nil => cases h
  | leaf v =>
    rw [reach] at h
    split at h
    · cases h
      rfl
    · cases h
  | short key child ih =>
    rw [reach] at h
    split at h
    · cases h
    · obtain ⟨k', hk', rfl⟩ := map_eq_some_iff.mp h
      rw [get_short_append]
      exact ih hk'
  | full edges ih =>
    cases s with
    | nil => cases h
    | cons e s =>
      obtain ⟨k', hk', rfl⟩ := map_eq_some_iff.mp h
      exact ih e hk'

theorem Proper.reach_of_get (h : Proper T b t) (hg : (t.get k).isSome) : t.reach k = some k := by
  induction h generalizing k with
  | leaf w =>
    by_cases hk : k = []
    · rw [hk, reach, if_pos rfl]
    · simp [get, hk] at hg
  | short hk hp _ _ ih =>
    obtain ⟨v, hv⟩ := isSome_iff_exists.mp hg
    obtain ⟨rest, rfl, hr⟩ := get_short_eq_some hv
    have hlen := length_pos_of_ne_nil hk
    rw [reach, prefixLen_append_self, if_neg (by omega), drop_left, ih (by rw [hr]; rfl)]
    rfl
  | @full edges he _ ih =>
    cases k with
    | nil => cases hg
    | cons e k =>
      have hne : edges e ≠ .nil := fun hn ↦ by simp [hn] at hg
      rw [reach, ih e hne hg]
      rfl

theorem Proper.delete (h : Proper T b t) (hg : (t.get k).isSome) :
    ∃ t', t.delete k = some t' ∧ (t' ≠ .nil → Proper T b t') ∧
      t'.get = update t.get k none := by
  induction h generalizing k with
  | leaf w =>
    obtain rfl : k = [] := by
      by_contra hk
      simp [get, hk] at hg
    refine ⟨.nil, rfl, fun hn ↦ absurd rfl hn, ?_⟩
    rw [get_leaf, update_idem]
    funext k
    by_cases hk : k = [] <;> simp [hk]
  | @short b key child hk hp hs hc ih =>
    obtain ⟨v, hv⟩ := isSome_iff_exists.mp hg
    obtain ⟨rest, rfl, hr⟩ := get_short_eq_some hv
    obtain ⟨t', hd, hc', hg'⟩ := ih (k := rest) (by rw [hr]; rfl)
    refine ⟨Tree.join key t', ?_, fun hn ↦ ?_, ?_⟩
    · rw [Tree.delete, if_pos (prefix_append _ _), drop_left, hd]
      rfl
    · have hn' : t' ≠ .nil := fun he ↦ hn (by rw [he]; rfl)
      exact (hc' hn').join hk hp
    · rw [get_join]
      exact get_short_update hg'
  | @full edges he h2 ih =>
    cases k with
    | nil => cases hg
    | cons e k =>
      have hne : edges e ≠ .nil := fun hn ↦ by simp [hn] at hg
      obtain ⟨t', hd, hc', hg'⟩ := ih e hne hg
      refine ⟨_, by rw [Tree.delete, hd]; rfl, fun _ ↦ Proper.collapse (fun i hi ↦ ?_) ?_, ?_⟩
      · by_cases hie : i = e
        · subst hie
          rw [update_self] at hi ⊢
          exact hc' hi
        · rw [update_of_ne hie] at hi ⊢
          exact he i hi
      · exact edge_of_update h2 e t'
      · rw [get_collapse]
        exact get_full_update hg'

theorem Proper.exists_key (h : Proper T b t) : ∃ k v, t.get k = some v := by
  induction h with
  | leaf v => exact ⟨[], v, rfl⟩
  | @short _ key _ _ _ _ _ ih =>
    obtain ⟨k, v, hk⟩ := ih
    exact ⟨key ++ k, v, by simpa using hk⟩
  | full _ h2 ih =>
    obtain ⟨i, _, _, hi, _⟩ := h2
    obtain ⟨k, v, hk⟩ := ih i hi
    exact ⟨i :: k, v, hk⟩

theorem Proper.canonical (h : Proper T b t)
    (hl : ∀ k v, t.get k = some v → k.length = n) : Canonical n t := by
  induction h generalizing n with
  | leaf v =>
    obtain rfl : 0 = n := hl [] v rfl
    exact .leaf v
  | @short _ key child hk _ hs hc ih =>
    obtain ⟨k, v, hkv⟩ := hc.exists_key
    have hm := hl (key ++ k) v (by simpa using hkv)
    rw [length_append] at hm
    refine .short hm.symm hk hs (ih fun k' w hw ↦ ?_)
    have hm' := hl (key ++ k') w (by simpa using hw)
    rw [length_append] at hm'
    omega
  | @full edges he h2 ih =>
    obtain ⟨i, j, hij, hi, hj⟩ := h2
    obtain ⟨k, v, hkv⟩ := (he i hi).exists_key
    have hm : k.length + 1 = n := hl (i :: k) v hkv
    refine .full hm.symm (fun j hj ↦ ih j hj fun k' w hw ↦ ?_) ⟨i, j, hij, hi, hj⟩
    have hm' : k'.length + 1 = n := hl (j :: k') w hw
    omega

theorem Canonical.eq_of_reach (h : Canonical n t)
    (hl : n ≤ s.length) (hr : t.reach s = some k) : k = s ∧ s.length = n := by
  induction h generalizing s k with
  | leaf w =>
    rw [reach] at hr
    split at hr
    · rename_i hs
      cases hr
      exact ⟨hs.symm, by rw [hs]; rfl⟩
    · cases hr
  | @short m n key child hm hk hs hc ih =>
    rw [reach] at hr
    split at hr
    · cases hr
    obtain ⟨k', hk', rfl⟩ := map_eq_some_iff.mp hr
    obtain ⟨hle, hp⟩ := prefixLen_le s key
    obtain ⟨rfl, hlen⟩ := ih (by rw [length_drop]; omega) hk'
    rw [length_drop] at hlen
    obtain ⟨rest, rfl⟩ := prefix_of_prefixLen (s := s) (t := key) (by omega)
    rw [prefixLen_append_self, drop_left]
    exact ⟨rfl, by rw [length_append] at hlen ⊢; rw [prefixLen_append_self] at hlen; omega⟩
  | @full m n edges hm he _ ih =>
    cases s with
    | nil => cases hr
    | cons e s =>
      obtain ⟨k', hk', rfl⟩ := map_eq_some_iff.mp hr
      have hne : edges e ≠ .nil := by
        intro hn
        rw [hn] at hk'
        cases hk'
      rw [length_cons] at hl
      obtain ⟨rfl, hlen⟩ := ih e hne (by omega) hk'
      exact ⟨rfl, by rw [length_cons]; omega⟩

end Tree

end Mainnet.Lib.Patricia
