import Mainnet.Types.Basic

namespace Mainnet.Itrie

open Types List UInt8

/-- A hexadecimal digit of a key, or the terminator `16`. -/
abbrev Nibble := Fin 17

instance nibbleNeZero : NeZero 17 := ⟨by decide⟩

def terminator : Nibble := 16

def hasTerminator (hex : List Nibble) : Bool := hex.getLast? == some terminator

def highNibble (b : UInt8) : Nibble := ⟨b.toNat / 16, by have := b.toNat_lt; omega⟩

def lowNibble (b : UInt8) : Nibble := ⟨b.toNat % 16, by omega⟩

def bytesToHexNibbles : Bytes → List Nibble
  | [] => [terminator]
  | b :: bytes => highNibble b :: lowNibble b :: bytesToHexNibbles bytes

def packNibbles : List Nibble → Bytes
  | a :: b :: hex => (ofNat a.val <<< 4 ||| ofNat b.val) :: packNibbles hex
  | _ => []

def encodeCompact (hex : List Nibble) : Bytes :=
  let digits := if hasTerminator hex then hex.dropLast else hex
  let flag : ℕ := (if hasTerminator hex then 2 else 0) + digits.length % 2
  if digits.length % 2 = 1 then packNibbles (Fin.ofNat 17 flag :: digits)
  else packNibbles (Fin.ofNat 17 flag :: 0 :: digits)

/-- `none` is the slice panic on a compact key without a byte. -/
def decodeCompact (compact : Bytes) : Option (List Nibble) :=
  match bytesToHexNibbles compact with
  | flag :: pad :: hex =>
    let base := if flag.val < 2 then (flag :: pad :: hex).dropLast else flag :: pad :: hex
    some (if flag.val % 2 = 1 then base.drop 1 else base.drop 2)
  | _ => none

def KeyTail : List Nibble → Prop
  | [] => True
  | [x] => x = terminator
  | x :: y :: k => x ≠ terminator ∧ KeyTail (y :: k)

theorem keyTail_bytesToHexNibbles (b : Bytes) : KeyTail (bytesToHexNibbles b) := by
  have hlt : ∀ x : Nibble, x.val < 16 → x ≠ terminator := by decide
  induction b with
  | nil => rfl
  | cons b bytes ih =>
    have hb := b.toNat_lt
    have hlow : KeyTail (lowNibble b :: bytesToHexNibbles bytes) := by
      cases bytes with
      | nil | cons c bytes => exact ⟨hlt _ (by simp only [lowNibble]; omega), ih⟩
    exact ⟨hlt _ (by simp only [highNibble]; omega), hlow⟩

theorem length_bytesToHexNibbles (b : Bytes) : (bytesToHexNibbles b).length = 2 * b.length + 1 := by
  induction b with
  | nil => rfl
  | cons b bytes ih => simp only [bytesToHexNibbles, length_cons, ih]; omega

theorem bytesToHexNibbles_injective : Function.Injective bytesToHexNibbles := by
  intro a b h
  induction a generalizing b with
  | nil =>
    cases b with
    | nil => rfl
    | cons y b => exact absurd (congrArg length h) (by simp [bytesToHexNibbles])
  | cons x a ih =>
    cases b with
    | nil => exact absurd (congrArg length h) (by simp [bytesToHexNibbles])
    | cons y b =>
      simp only [bytesToHexNibbles, cons.injEq] at h
      obtain ⟨hhigh, hlow, hrest⟩ := h
      have hxy : x = y := by
        have h1 := congrArg Fin.val hhigh
        have h2 := congrArg Fin.val hlow
        simp only [highNibble, lowNibble] at h1 h2
        apply UInt8.toNat_inj.mp
        omega
      rw [hxy, ih hrest]

variable {p k d : List Nibble} {n : ℕ}

theorem KeyTail.of_append (h : KeyTail (p ++ k)) : KeyTail k := by
  induction p with
  | nil => exact h
  | cons x p ih =>
    apply ih
    cases hp : p ++ k with
    | nil => trivial
    | cons y l =>
      rw [cons_append, hp] at h
      exact h.2

theorem KeyTail.digits_of_append (h : KeyTail (p ++ k)) (hk : k ≠ []) :
    ∀ x ∈ p, x ≠ terminator := by
  induction p with
  | nil => simp
  | cons x p ih =>
    obtain ⟨y, l, hp⟩ := exists_cons_of_ne_nil (l := p ++ k) (by simp [hk])
    rw [cons_append, hp] at h
    intro z hz
    obtain rfl | hz := mem_cons.mp hz
    · exact h.1
    · exact ih (hp ▸ h.2) z hz

theorem KeyTail.eq_append_terminator (h : KeyTail k) (hk : k ≠ []) :
    ∃ d, k = d ++ [terminator] ∧ ∀ x ∈ d, x ≠ terminator := by
  obtain ⟨d, x, rfl⟩ := eq_nil_or_concat k |>.resolve_left hk
  rw [concat_eq_append] at h ⊢
  exact ⟨d, by rw [show x = terminator from h.of_append], h.digits_of_append (by simp)⟩

theorem nibbles_pack_pair : ∀ a b : Nibble, a ≠ terminator → b ≠ terminator →
    highNibble (ofNat a.val <<< 4 ||| ofNat b.val) = a ∧
      lowNibble (ofNat a.val <<< 4 ||| ofNat b.val) = b := by
  decide +kernel

theorem bytesToHexNibbles_pack (l : List Nibble) (hl : l.length = 2 * n)
    (hd : ∀ x ∈ l, x ≠ terminator) : bytesToHexNibbles (packNibbles l) = l ++ [terminator] := by
  induction n generalizing l with
  | zero =>
    obtain rfl := length_eq_zero_iff.mp hl
    rfl
  | succ n ih =>
    match l with
    | a :: b :: l =>
      obtain ⟨h1, h2⟩ := nibbles_pack_pair a b (hd a (by simp)) (hd b (by simp))
      rw [packNibbles, bytesToHexNibbles, h1, h2,
        ih l (by simp only [length_cons] at hl; omega) fun x hx ↦ hd x (by simp [hx])]
      rfl
    | [a] => simp only [length_cons, length_nil] at hl; omega
    | [] => simp only [length_nil] at hl; omega

theorem KeyTail.exists_bytes (h : KeyTail k) (hl : k.length = 2 * n + 1) :
    ∃ b, k = bytesToHexNibbles b := by
  obtain ⟨d, rfl, hd⟩ := h.eq_append_terminator (by rintro rfl; simp at hl)
  rw [length_append, length_singleton] at hl
  exact ⟨packNibbles d, (bytesToHexNibbles_pack d (n := n) (by omega) hd).symm⟩

theorem hasTerminator_append (d : List Nibble) : hasTerminator (d ++ [terminator]) = true := by
  simp [hasTerminator]

section

variable (hd : ∀ x ∈ d, x ≠ terminator)
include hd

theorem hasTerminator_of_digits : hasTerminator d = false := by
  rw [hasTerminator, beq_eq_false_iff_ne]
  intro h
  exact hd _ (mem_of_getLast? h) rfl

theorem packNibbles_decode {t : ℕ} (ht : t < 2) :
    decodeCompact (if d.length % 2 = 1 then packNibbles (Fin.ofNat 17 (2 * t + d.length % 2) :: d)
      else packNibbles (Fin.ofNat 17 (2 * t + d.length % 2) :: 0 :: d)) =
    some (if t = 0 then d else d ++ [terminator]) := by
  have hflag : ∀ f : ℕ, f < 4 → (Fin.ofNat 17 f).val = f ∧ Fin.ofNat 17 f ≠ terminator := by decide
  by_cases hodd : d.length % 2 = 1
  · obtain ⟨hv, hf⟩ := hflag (2 * t + d.length % 2) (by omega)
    rw [if_pos hodd, decodeCompact, bytesToHexNibbles_pack _ (n := (d.length + 1) / 2)
      (by rw [length_cons]; omega) (forall_mem_cons.mpr ⟨hf, hd⟩)]
    obtain ⟨x, l, rfl⟩ := exists_cons_of_ne_nil (l := d) (by rintro rfl; simp at hodd)
    have hmod : (2 * t + (x :: l).length % 2) % 2 = 1 := by omega
    simp only [cons_append, hv, hmod, if_true]
    by_cases h0 : t = 0
    · rw [if_pos (by omega), if_pos h0, ← cons_append, ← cons_append, dropLast_concat]
      rfl
    · rw [if_neg (by omega), if_neg h0]
      rfl
  · obtain ⟨hv, hf⟩ := hflag (2 * t + d.length % 2) (by omega)
    have h0t : (0 : Nibble) ≠ terminator := by decide
    rw [if_neg hodd, decodeCompact, bytesToHexNibbles_pack _ (n := (d.length + 2) / 2)
      (by rw [length_cons, length_cons]; omega)
      (forall_mem_cons.mpr ⟨hf, forall_mem_cons.mpr ⟨h0t, hd⟩⟩)]
    have hmod : ¬ (2 * t + d.length % 2) % 2 = 1 := by omega
    simp only [cons_append, hv, if_neg hmod]
    by_cases h0 : t = 0
    · rw [if_pos (by omega), if_pos h0, ← cons_append, ← cons_append, dropLast_concat]
      rfl
    · rw [if_neg (by omega), if_neg h0]
      rfl

theorem decodeCompact_encodeCompact :
    decodeCompact (encodeCompact d) = some d ∧
      decodeCompact (encodeCompact (d ++ [terminator])) = some (d ++ [terminator]) := by
  constructor
  · simpa [encodeCompact, hasTerminator_of_digits hd] using packNibbles_decode hd (t := 0) (by omega)
  · simpa [encodeCompact, hasTerminator_append] using packNibbles_decode hd (t := 1) (by omega)

end

/-- The digits of a path, the last of which may be the terminator. -/
def Path := {x : List Nibble // ∀ y ∈ x.dropLast, y ≠ terminator}

theorem Path.decodeCompact_encodeCompact (x : Path) :
    decodeCompact (encodeCompact x.1) = some x.1 := by
  obtain ⟨x, hx⟩ := x
  change decodeCompact (encodeCompact x) = some x
  by_cases hd : ∀ y ∈ x, y ≠ terminator
  · exact (Itrie.decodeCompact_encodeCompact hd).1
  · obtain ⟨d, y, rfl⟩ := eq_nil_or_concat x |>.resolve_left (by rintro rfl; simp at hd)
    rw [concat_eq_append] at *
    rw [dropLast_concat] at hx
    have hy : y = terminator := by
      by_contra hy
      refine hd fun z hz ↦ ?_
      rcases mem_append.mp hz with hz | hz
      · exact hx z hz
      · exact mem_singleton.mp hz ▸ hy
    exact hy ▸ (Itrie.decodeCompact_encodeCompact hx).2

theorem compact_bijective :
    (∀ x : Path, decodeCompact (encodeCompact x.1) = some x.1) ∧
      Function.Injective (fun x : Path ↦ encodeCompact x.1) ∧
      Function.Injective bytesToHexNibbles ∧
      ∀ b, (bytesToHexNibbles b).length = 2 * b.length + 1 ∧
        ∃ d, bytesToHexNibbles b = d ++ [terminator] ∧ ∀ x ∈ d, x ≠ terminator := by
  refine ⟨Path.decodeCompact_encodeCompact, fun x y hxy ↦ ?_, bytesToHexNibbles_injective,
    fun b ↦ ⟨length_bytesToHexNibbles b, ?_⟩⟩
  · have hdecode := x.decodeCompact_encodeCompact
    rw [show encodeCompact x.1 = encodeCompact y.1 from hxy, y.decodeCompact_encodeCompact] at hdecode
    exact Subtype.ext (Option.some.inj hdecode).symm
  · refine (keyTail_bytesToHexNibbles b).eq_append_terminator fun hnil ↦ ?_
    have hlen := length_bytesToHexNibbles b
    rw [hnil, length_nil] at hlen
    omega

end Mainnet.Itrie
