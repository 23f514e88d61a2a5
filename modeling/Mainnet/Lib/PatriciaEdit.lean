import Mainnet.Lib.Patricia

namespace Mainnet.Lib.Patricia.Tree

open List Function

variable {E V : Type} [DecidableEq E]

def stem (key : List E) (t : Tree E V) : Tree E V :=
  match key with
  | [] => t
  | e :: key => .short (e :: key) t

/-- A path above a tree in normal form, merged with the path that the tree starts with. -/
def join (key : List E) : Tree E V → Tree E V
  | .nil => .nil
  | .leaf v => stem key (.leaf v)
  | .short k c => .short (key ++ k) c
  | .full edges => stem key (.full edges)

def single (e : E) (t : Tree E V) : E → Tree E V := update (fun _ ↦ .nil) e t

def prefixLen : List E → List E → ℕ
  | a :: as, b :: bs => if a = b then prefixLen as bs + 1 else 0
  | _, _ => 0

def insert : Tree E V → List E → V → Tree E V
  | .nil, s, v => stem s (.leaf v)
  | .leaf _, _, v => .leaf v
  | .short key child, s, v =>
    if prefixLen s key = key.length then .short key (child.insert (s.drop key.length) v)
    else
      match key.drop (prefixLen s key), s.drop (prefixLen s key) with
      | a :: ks, b :: ss => stem (s.take (prefixLen s key))
        (.full (update (single a (stem ks child)) b (stem ss (.leaf v))))
      | _, _ => .short key child
  | .full edges, [], _ => .full edges
  | .full edges, e :: s, v => .full (update edges e ((edges e).insert s v))

open Classical in
noncomputable def collapse (edges : E → Tree E V) : Tree E V :=
  if h : ∃ i, edges i ≠ .nil ∧ ∀ j, edges j ≠ .nil → j = i then
    join [h.choose] (edges h.choose)
  else .full edges

noncomputable def delete : Tree E V → List E → Option (Tree E V)
  | .nil, _ => none
  | .leaf _, s => if s = [] then some .nil else none
  | .short key child, s =>
    if key <+: s then (child.delete (s.drop key.length)).map (join key) else none
  | .full _, [] => none
  | .full edges, e :: s =>
    ((edges e).delete s).map fun t ↦ collapse (update edges e t)

theorem prefixLen_append (p s t : List E) :
    prefixLen (p ++ s) (p ++ t) = p.length + prefixLen s t := by
  induction p with
  | nil => simp
  | cons e p ih => simp only [cons_append, prefixLen, if_true, ih, length_cons]; omega

variable {a b e i : E} {s : List E} {t : Tree E V} {o : Option V} {edges : E → Tree E V}

theorem prefixLen_cons_of_ne (h : a ≠ b) (s t : List E) : prefixLen (a :: s) (b :: t) = 0 := by
  simp [prefixLen, h]

@[simp] theorem prefixLen_nil_right (s : List E) : prefixLen s [] = 0 := by
  cases s <;> rfl

theorem prefixLen_append_self (key s : List E) : prefixLen (key ++ s) key = key.length := by
  simpa using prefixLen_append key s []

theorem prefixLen_le (s t : List E) : prefixLen s t ≤ s.length ∧ prefixLen s t ≤ t.length := by
  induction s generalizing t with
  | nil => simp [prefixLen]
  | cons a s ih =>
    cases t with
    | nil => simp [prefixLen]
    | cons b t =>
      rw [prefixLen]
      have := ih t
      split <;> simp only [length_cons] <;> omega

theorem prefix_of_prefixLen {t : List E} (h : prefixLen s t = t.length) : t <+: s := by
  induction t generalizing s with
  | nil => simp
  | cons b t ih =>
    cases s with
    | nil => simp [prefixLen] at h
    | cons a s =>
      rw [prefixLen] at h
      split at h
      · rename_i hab
        subst hab
        rw [cons_prefix_cons]
        exact ⟨rfl, ih (by simpa using h)⟩
      · simp at h

theorem prefix_or_split (s key : List E) (h : key.length ≤ s.length) :
    (∃ rest, s = key ++ rest) ∨
      ∃ p a ks b ss, a ≠ b ∧ key = p ++ a :: ks ∧ s = p ++ b :: ss := by
  induction key generalizing s with
  | nil => exact .inl ⟨s, rfl⟩
  | cons a key ih =>
    cases s with
    | nil => simp at h
    | cons b s =>
      by_cases hab : a = b
      · subst hab
        obtain ⟨rest, rfl⟩ | ⟨p, c, ks, d, ss, hcd, rfl, rfl⟩ := ih s (by simpa using h)
        · exact .inl ⟨rest, rfl⟩
        · exact .inr ⟨a :: p, c, ks, d, ss, hcd, rfl, rfl⟩
      · exact .inr ⟨[], a, key, b, s, hab, rfl, rfl⟩

theorem insert_short_append (key s : List E) (t : Tree E V) (v : V) :
    (short key t).insert (key ++ s) v = .short key (t.insert s v) := by
  simp [insert, prefixLen_append_self]

theorem insert_short_split (hab : a ≠ b) (p ks ss : List E) (t : Tree E V) (v : V) :
    (short (p ++ a :: ks) t).insert (p ++ b :: ss) v =
      stem p (.full (update (single a (stem ks t)) b (stem ss (.leaf v)))) := by
  have hp : prefixLen (p ++ b :: ss) (p ++ a :: ks) = p.length := by
    rw [prefixLen_append, prefixLen_cons_of_ne hab.symm, Nat.add_zero]
  rw [insert, if_neg (by rw [hp]; simp), hp]
  simp

theorem get_short_short (p q : List E) (t : Tree E V) :
    (short (p ++ q) t).get = (short p (short q t)).get := by
  funext k
  by_cases hp : p <+: k
  · obtain ⟨r, rfl⟩ := hp
    rw [get_short_append]
    by_cases hq : q <+: r
    · obtain ⟨x, rfl⟩ := hq
      rw [get_short_append, ← append_assoc, get_short_append]
    · rw [get_short_of_mismatch t hq, get_short_of_mismatch t
        fun h ↦ hq ((prefix_append_right_inj p).mp h)]
  · rw [get_short_of_mismatch _ hp, get_short_of_mismatch t
      fun h ↦ hp ((prefix_append p q).trans h)]

theorem get_stem (key : List E) (t : Tree E V) : (stem key t).get = (short key t).get := by
  cases key with
  | nil => funext k; simp [stem, get]
  | cons e key => rfl

theorem get_join (key : List E) (t : Tree E V) : (join key t).get = (short key t).get := by
  cases t with
  | nil => funext k; simp [join, get]
  | leaf v | full edges => exact get_stem key _
  | short k c => exact get_short_short key k c

theorem get_short_update {p : List E} {t' : Tree E V} (h : t'.get = update t.get s o) :
    (short p t').get = update (short p t).get (p ++ s) o := by
  funext k
  by_cases hp : p <+: k
  · obtain ⟨r, rfl⟩ := hp
    rw [get_short_append, h]
    by_cases hr : r = s
    · rw [hr, update_self, update_self]
    · rw [update_of_ne hr, update_of_ne (by simpa using hr), get_short_append]
  · have hk : k ≠ p ++ s := fun he ↦ hp (he ▸ prefix_append p s)
    rw [update_of_ne hk, get_short_of_mismatch _ hp, get_short_of_mismatch _ hp]

theorem get_full_update (h : t.get = update (edges e).get s o) :
    (full (update edges e t)).get =
      update (full edges).get (e :: s) o := by
  funext k
  cases k with
  | nil => rw [update_of_ne (by simp)]; rfl
  | cons i k =>
    rw [get_full_cons]
    by_cases hi : i = e
    · subst hi
      rw [update_self, h]
      by_cases hk : k = s
      · rw [hk, update_self, update_self]
      · rw [update_of_ne hk, update_of_ne (by simpa using hk), get_full_cons]
    · rw [update_of_ne hi, update_of_ne (by simp [hi]), get_full_cons]

theorem get_full_single (e : E) (t : Tree E V) : (full (single e t)).get = (short [e] t).get := by
  funext k
  cases k with
  | nil => rw [get_short_of_mismatch t (by simp)]; rfl
  | cons i k =>
    rw [get_full_cons]
    by_cases hi : i = e
    · subst hi
      rw [single, update_self]
      exact (get_short_append [i] k t).symm
    · rw [single, update_of_ne hi, get_short_of_mismatch t (by simp [Ne.symm hi])]
      rfl

theorem get_leaf (v : V) : (leaf v : Tree E V).get = update nil.get [] (some v) := by
  funext k
  cases k with
  | nil => simp
  | cons e k => rw [update_of_ne (by simp)]; rfl

theorem get_short_nil (p : List E) : (short p (nil : Tree E V)).get = nil.get := by
  funext k
  simp [get]

theorem get_stem_leaf (s : List E) (v : V) :
    (stem s (leaf v) : Tree E V).get = update nil.get s (some v) := by
  rw [get_stem, get_short_update (get_leaf v), append_nil, get_short_nil]

theorem get_insert_split (hab : a ≠ b) (p ks ss : List E) (t : Tree E V) (v : V) :
    ((short (p ++ a :: ks) t).insert (p ++ b :: ss) v).get =
      update (short (p ++ a :: ks) t).get (p ++ b :: ss) (some v) := by
  rw [insert_short_split hab, get_stem, get_short_short]
  apply get_short_update
  have hb : (stem ss (leaf v)).get =
      update (single a (stem ks t) b).get ss (some v) := by
    rw [get_stem_leaf, single, update_of_ne hab.symm]
  rw [get_full_update hb, get_full_single]
  congr 1
  rw [← singleton_append (x := a) (l := ks), get_short_short]
  funext k
  simp [get, get_stem]

theorem get_insert {n : ℕ} (h : t ≠ .nil → Canonical n t)
    (hl : s.length = n) (v : V) : (t.insert s v).get = update t.get s (some v) := by
  by_cases hn : t = .nil
  · subst hn
    exact get_stem_leaf s v
  · replace h := h hn
    clear hn
    induction h generalizing s with
    | leaf w =>
      obtain rfl := length_eq_zero_iff.mp hl
      funext k
      cases k with
      | nil => simp [insert]
      | cons e k => rw [update_of_ne (by simp)]; rfl
    | @short m n key child hm hk hs hc ih =>
      obtain ⟨rest, rfl⟩ | ⟨p, a, ks, b, ss, hab, rfl, rfl⟩ :=
        prefix_or_split s key (by omega)
      · rw [insert_short_append]
        exact get_short_update (ih (by rw [length_append] at hl; omega))
      · exact get_insert_split hab p ks ss child v
    | @full m n edges hm he h2 ih =>
      cases s with
      | nil => simp at hl; omega
      | cons e s =>
        apply get_full_update
        have hs : s.length = n := by rw [length_cons] at hl; omega
        by_cases hn : edges e = .nil
        · rw [hn]
          exact get_stem_leaf s v
        · exact ih e hn hs

theorem insert_ne_short (hn : t ≠ .nil) (hs : ∀ k c, t ≠ .short k c) (s : List E)
    (v : V) (k : List E) (c : Tree E V) : t.insert s v ≠ .short k c := by
  cases t with
  | nil => exact absurd rfl hn
  | leaf w => simp [insert]
  | short key child => exact absurd rfl (hs _ _)
  | full edges => cases s <;> simp [insert]

omit [DecidableEq E] in
theorem stem_ne_nil {key : List E} (h : t ≠ .nil) : stem key t ≠ .nil := by
  cases key <;> simp [stem, h]

theorem two_edges_of_update (h : ∃ i j, i ≠ j ∧ edges i ≠ .nil ∧ edges j ≠ .nil) (ht : t ≠ .nil) :
    ∃ i j, i ≠ j ∧ update edges e t i ≠ .nil ∧ update edges e t j ≠ .nil := by
  have hkeep : ∀ i, edges i ≠ .nil → update edges e t i ≠ .nil := by
    intro i hi
    by_cases hie : i = e
    · rw [hie, update_self]
      exact ht
    · rwa [update_of_ne hie]
  obtain ⟨i, j, hij, hi, hj⟩ := h
  exact ⟨i, j, hij, hkeep i hi, hkeep j hj⟩

theorem edge_of_update (h : ∃ i j, i ≠ j ∧ edges i ≠ .nil ∧ edges j ≠ .nil) (e : E) (t : Tree E V) :
    ∃ i, update edges e t i ≠ .nil := by
  obtain ⟨i, j, hij, hi, hj⟩ := h
  by_cases hie : i = e
  · exact ⟨j, by rwa [update_of_ne fun hje ↦ hij (hie.trans hje.symm)]⟩
  · exact ⟨i, by rwa [update_of_ne hie]⟩

omit [DecidableEq E] in
theorem collapse_of_unique (hi : edges i ≠ .nil)
    (hu : ∀ j, edges j ≠ .nil → j = i) : collapse edges = join [i] (edges i) := by
  have h : ∃ i, edges i ≠ .nil ∧ ∀ j, edges j ≠ .nil → j = i := ⟨i, hi, hu⟩
  rw [collapse, dif_pos h, hu _ h.choose_spec.1]

omit [DecidableEq E] in
theorem collapse_of_ne {j : E} (hij : i ≠ j) (hi : edges i ≠ .nil)
    (hj : edges j ≠ .nil) : collapse edges = .full edges :=
  dif_neg fun ⟨_, _, hu⟩ ↦ hij ((hu i hi).trans (hu j hj).symm)

theorem get_collapse (edges : E → Tree E V) : (collapse edges).get = (full edges).get := by
  unfold collapse
  split
  · rename_i h
    obtain ⟨hi, hj⟩ := h.choose_spec
    rw [get_join, ← get_full_single]
    congr 2
    funext j
    by_cases hji : j = h.choose
    · rw [single, hji, update_self]
    · rw [single, update_of_ne hji]
      by_contra hne
      exact hji (hj j (Ne.symm hne))
  · rfl

end Mainnet.Lib.Patricia.Tree
