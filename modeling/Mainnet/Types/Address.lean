import Mathlib.Data.Nat.Digits.Defs
import Mainnet.Types.Basic

namespace Mainnet.Types

open List Nat FixedBytes

def hexDigits (b : Bytes) : List Char :=
  b.flatMap fun d ↦ [digitChar (d.toNat / 16), digitChar (d.toNat % 16)]

def encodeToHex (b : Bytes) : String := "0x" ++ String.ofList (hexDigits b)

def hexValue (c : Char) : Option ℕ :=
  if '0' ≤ c ∧ c ≤ '9' then some (c.toNat - '0'.toNat)
  else if 'a' ≤ c ∧ c ≤ 'f' then some (c.toNat - 'a'.toNat + 10)
  else if 'A' ≤ c ∧ c ≤ 'F' then some (c.toNat - 'A'.toNat + 10)
  else none

/-- The bytes that `hex.DecodeString` has when it stops, at the end or at an error. -/
def decodeHexDigits : List Char → Bytes
  | c :: d :: rest =>
    match hexValue c, hexValue d with
    | some high, some low => UInt8.ofNat (16 * high + low) :: decodeHexDigits rest
    | _, _ => []
  | _ => []

/-- `strings.TrimPrefix` of "0x". -/
def trimPrefix (str : String) : List Char :=
  match str.toList with
  | '0' :: 'x' :: rest => rest
  | digits => digits

def stringToBytes (str : String) : Bytes :=
  let digits := trimPrefix str
  decodeHexDigits (if digits.length % 2 = 1 then '0' :: digits else digits)

def stringToHash (str : String) : Hash := bytesToHash (stringToBytes str)

def checksumChar (ch hashed : Char) : Char :=
  if ('0' ≤ ch ∧ ch ≤ '9') ∨ ('0' ≤ hashed ∧ hashed ≤ '7') then ch else ch.toUpper

def repdigit (d : UInt8) : Address := bytesToAddress (replicate 20 (d * 17))

namespace FixedBytes

variable (keccak256 : Bytes → Hash) (a : Address)

def checksumEncode : String :=
  let lowercaseHex := hexDigits a.bytes
  let hashedAddress := hexDigits (keccak256 (lowercaseHex.map fun c ↦ UInt8.ofNat c.toNat)).bytes
  "0x" ++ String.ofList (zipWith checksumChar lowercaseHex hashedAddress)

def string : String := checksumEncode keccak256 a

end FixedBytes

theorem length_hexDigits (b : Bytes) : (hexDigits b).length = 2 * b.length := by
  induction b with
  | nil => rfl
  | cons d b ih =>
    have hcons : hexDigits (d :: b) =
        digitChar (d.toNat / 16) :: digitChar (d.toNat % 16) :: hexDigits b := rfl
    rw [hcons, length_cons, length_cons, ih, length_cons]
    omega

theorem digitChar_inj {m n : ℕ} (hm : m < 16) (hn : n < 16)
    (h : digitChar m = digitChar n) : m = n := by
  have hall : ∀ m n : Fin 16, digitChar m = digitChar n → m = n := by decide
  exact congrArg Fin.val (hall ⟨m, hm⟩ ⟨n, hn⟩ h)

theorem hexDigits_injective : Function.Injective hexDigits := by
  intro b c h
  induction b generalizing c with
  | nil =>
    have hlen := congrArg length h
    rw [length_hexDigits, length_hexDigits] at hlen
    exact (length_eq_zero_iff.mp (by simpa using hlen.symm)).symm
  | cons d b ih =>
    cases c with
    | nil => cases h
    | cons e c =>
      have hd := d.toNat_lt
      have he := e.toNat_lt
      obtain ⟨hhigh, hlow, htail⟩ : digitChar (d.toNat / 16) = digitChar (e.toNat / 16) ∧
          digitChar (d.toNat % 16) = digitChar (e.toNat % 16) ∧ hexDigits b = hexDigits c := by
        simpa [hexDigits] using h
      have hdiv := digitChar_inj (by omega) (by omega) hhigh
      have hmod := digitChar_inj (by omega) (by omega) hlow
      have hde : d = e := UInt8.toNat_inj.mp (by omega)
      rw [hde, ih htail]

theorem mem_hexDigits {b : Bytes} {ch : Char} (h : ch ∈ hexDigits b) :
    ∃ n < 16, ch = digitChar n := by
  obtain ⟨d, -, hd⟩ := mem_flatMap.mp h
  have hlt := d.toNat_lt
  rcases mem_cons.mp hd with hd | hd
  · exact ⟨_, by omega, hd⟩
  · exact ⟨_, by omega, mem_singleton.mp hd⟩

theorem toLower_hexDigits (b : Bytes) : (hexDigits b).map Char.toLower = hexDigits b := by
  refine (map_congr_left fun ch hch ↦ ?_).trans (map_id _)
  obtain ⟨n, hn, rfl⟩ := mem_hexDigits hch
  have hall : ∀ n : Fin 16, (digitChar n).toLower = digitChar n := by decide
  exact hall ⟨n, hn⟩

/-- What does not depend on the case of a digit is the same of a checksummed text. -/
theorem map_zipWith_checksumChar {β : Type} {g : Char → β}
    (hg : ∀ n : Fin 16, g (digitChar n).toUpper = g (digitChar n)) (b : Bytes) (hashed : List Char)
    (h : (hexDigits b).length ≤ hashed.length) :
    (zipWith checksumChar (hexDigits b) hashed).map g = (hexDigits b).map g := by
  have hdigit : ∀ ch ∈ hexDigits b, ∀ x, g (checksumChar ch x) = g ch := by
    intro ch hch x
    obtain ⟨n, hn, rfl⟩ := mem_hexDigits hch
    rw [checksumChar]
    split
    · rfl
    · exact hg ⟨n, hn⟩
  generalize hexDigits b = l at h hdigit
  induction l generalizing hashed with
  | nil => rfl
  | cons ch l ih =>
    cases hashed with
    | nil => simp at h
    | cons x hashed =>
      rw [zipWith_cons_cons, map_cons, map_cons, hdigit ch mem_cons_self x,
        ih hashed (by simpa using h) fun c hc ↦ hdigit c (mem_cons_of_mem _ hc)]

theorem toList_hexText (l : List Char) : ("0x" ++ String.ofList l).toList = '0' :: 'x' :: l := by
  simp

theorem trimPrefix_hexText (l : List Char) : trimPrefix ("0x" ++ String.ofList l) = l := by
  rw [trimPrefix, toList_hexText]
  rfl

section Reading

variable {l : List Char} {b : Bytes} (h : l.map hexValue = (hexDigits b).map hexValue)
include h

theorem decodeHexDigits_of_map : decodeHexDigits l = b := by
  have hall : ∀ n : Fin 16, hexValue (digitChar n) = some n.val := by decide
  induction b generalizing l with
  | nil =>
    obtain rfl := map_eq_nil_iff.mp h
    rfl
  | cons d b ih =>
    have hd := d.toNat_lt
    obtain ⟨c, l₁, rfl, hc, h₁⟩ := map_eq_cons_iff.mp h
    obtain ⟨c', l₂, rfl, hc', h₂⟩ := map_eq_cons_iff.mp h₁
    rw [decodeHexDigits, hc, hc', hall ⟨d.toNat / 16, by omega⟩, hall ⟨d.toNat % 16, by omega⟩]
    simp only [ih h₂, div_add_mod, UInt8.ofNat_toNat]

theorem stringToBytes_of_map : stringToBytes ("0x" ++ String.ofList l) = b := by
  have hlen : l.length = 2 * b.length := by simpa [length_hexDigits] using congrArg length h
  rw [stringToBytes, trimPrefix_hexText, if_neg (by omega), decodeHexDigits_of_map h]

end Reading

theorem stringToHash_encodeToHex (h : Hash) : stringToHash (encodeToHex h.bytes) = h := by
  rw [stringToHash, encodeToHex, stringToBytes_of_map rfl]
  exact ofBytes_bytes h

theorem encodeToHex_inj {b c : Bytes} : encodeToHex b = encodeToHex c ↔ b = c := by
  refine ⟨fun h ↦ ?_, fun h ↦ h ▸ rfl⟩
  have hlist := congrArg String.toList h
  rw [encodeToHex, encodeToHex, toList_hexText, toList_hexText] at hlist
  exact hexDigits_injective (cons.inj (cons.inj hlist).2).2

theorem encodeToHex_toLower (b : Bytes) :
    (encodeToHex b).toList.map Char.toLower = (encodeToHex b).toList := by
  rw [encodeToHex, toList_hexText, map_cons, map_cons, toLower_hexDigits]
  rfl

theorem length_digits_le (keccak256 : Bytes → Hash) (a : Address) (text : Bytes) :
    (hexDigits a.bytes).length ≤ (hexDigits (keccak256 text).bytes).length := by
  rw [length_hexDigits, length_hexDigits, a.length_eq, length_eq]
  decide

theorem string_toLower (keccak256 : Bytes → Hash) (a : Address) :
    (a.string keccak256).toList.map Char.toLower = (encodeToHex a.bytes).toList := by
  rw [string, checksumEncode, toList_hexText, map_cons, map_cons,
    map_zipWith_checksumChar (by decide) _ _ (length_digits_le ..), toLower_hexDigits, encodeToHex,
    toList_hexText]
  rfl

variable {keccak256 : Bytes → Hash} {a b : Address}

theorem length_string : (a.string keccak256).toList.length = 42 := by
  rw [← length_map (f := Char.toLower), string_toLower, encodeToHex, toList_hexText,
    length_cons, length_cons, length_hexDigits, a.length_eq]

theorem length_encodeToHex : (encodeToHex a.bytes).toList.length = 42 := by
  rw [encodeToHex, toList_hexText, length_cons, length_cons, length_hexDigits, a.length_eq]

theorem string_inj : a.string keccak256 = b.string keccak256 ↔ a = b := by
  refine ⟨fun h ↦ ?_, fun h ↦ h ▸ rfl⟩
  have hlist : (encodeToHex a.bytes).toList = (encodeToHex b.bytes).toList := by
    rw [← string_toLower keccak256, h, string_toLower]
  exact ext (encodeToHex_inj.mp (String.toList_inj.mp hlist))

def CaseFree (keccak256 : Bytes → Hash) (a : Address) : Prop :=
  a.string keccak256 = encodeToHex a.bytes

theorem string_eq_encodeToHex : a.string keccak256 = encodeToHex b.bytes ↔
    a = b ∧ CaseFree keccak256 a := by
  refine ⟨fun h ↦ ?_, ?_⟩
  · have hlist : (encodeToHex a.bytes).toList = (encodeToHex b.bytes).toList := by
      rw [← string_toLower keccak256, h, encodeToHex_toLower]
    obtain rfl : a = b := ext (encodeToHex_inj.mp (String.toList_inj.mp hlist))
    exact ⟨rfl, h⟩
  · rintro ⟨rfl, h⟩
    exact h

end Mainnet.Types
