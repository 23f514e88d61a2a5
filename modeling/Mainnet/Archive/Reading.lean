import Mainnet.Archive.Stream
import Mainnet.Types.RoundTrip

namespace Mainnet.Archive

open Types Lib List Nat Outcome Reader UInt8 BigEndian Metadata

/-- The payload behind a header of `offset` bytes can be stored and arrives in one read, or the read
reports the end of the file. -/
def PayloadDelivered (maxAlloc : ℕ) (r : Reader) (offset size : ℕ) : Prop :=
  offset + size < 2 ^ 63 ∧ offset + size ≤ 1024 + maxAlloc ∧
    if size ≤ r.rest.length then r.Fills size else r.eof size = true

/-- The reader delivers the next item read by read: each read gets all it has room for if the bytes
are there, and a read of the item that does not reports the end of the file. -/
def Delivers (maxAlloc : ℕ) (r : Reader) : Prop :=
  match r.rest with
  | [] => r.eof 1 = true
  | d :: rest =>
    r.Fills 1 ∧
      (0xc0 ≤ d → d < 0xf8 → PayloadDelivered maxAlloc (r.after 1) 1 (d.toNat - 0xc0)) ∧
      (0xf8 ≤ d →
        if (r.after 1).Fills (d.toNat - 0xf7) then
          PayloadDelivered maxAlloc ((r.after 1).after (d.toNat - 0xf7)) (d.toNat - 0xf7 + 1)
            (ofBytes (rest.take (d.toNat - 0xf7)))
        else decodeItem r.rest = .error .eof)

namespace BlockStream

variable {maxAlloc : ℕ} {b : BlockStream} {offset size : ℕ}

theorem reserveCap_ok (hbuf : 1024 ≤ b.buffer.length) (hsize : size < 2 ^ 63)
    (halloc : size ≤ 1024 + maxAlloc) :
    ∃ fresh, b.reserveCap maxAlloc size = .ok ⟨b.input, b.buffer ++ fresh⟩ ∧
      size ≤ (b.buffer ++ fresh).length := by
  rw [reserveCap, if_neg (by omega)]
  split
  · rename_i hlt
    rw [if_neg (by omega)]
    exact ⟨_, rfl, by rw [length_append, length_replicate]; omega⟩
  · exact ⟨[], by rw [append_nil], by rw [append_nil]; omega⟩

theorem take_readInto (hoffset : offset ≤ b.buffer.length) (h : b.input.Fills size) :
    (b.readInto offset size).buffer.take (offset + size) =
      b.buffer.take offset ++ b.input.rest.take size := by
  have hlen : (b.buffer.take offset ++ b.input.data size).length = offset + size := by
    rw [length_append, length_take, length_data, h.1]
    omega
  rw [readInto, ← h.data_eq]
  exact take_left' hlen

theorem length_readInto (hoffset : offset + size ≤ b.buffer.length) :
    (b.readInto offset size).buffer.length = b.buffer.length := by
  have hcount := b.input.count_le (m := size)
  simp only [readInto, length_append, length_take, length_drop, length_data]
  omega

theorem length_le_readInto : b.buffer.length ≤ (b.readInto offset size).buffer.length := by
  simp only [readInto, length_append, length_take, length_drop, length_data]
  omega

def payloadOf (header rest : Bytes) (size : ℕ) : Outcome StreamError (Option Bytes × Bytes) :=
  if size ≤ rest.length then .ok (some (header ++ rest.take size), rest.drop size)
  else .error .eof

def itemLeft (size : ℕ) (b : BlockStream) : Option Bytes × Bytes :=
  (some (b.buffer.take size), b.input.rest)

theorem loadPayload_eq (hbuf : 1024 ≤ b.buffer.length)
    (hfits : offset + size < 2 ^ 63) (halloc : offset + size ≤ 1024 + maxAlloc) :
    ∃ fresh, b.loadPayload maxAlloc offset size =
        (if b.input.eof size then .error .eof
          else .ok (readInto ⟨b.input, b.buffer ++ fresh⟩ offset size)) ∧
      offset + size ≤ (b.buffer ++ fresh).length := by
  have hmod : (offset + size) % 2 ^ 64 = offset + size := mod_eq_of_lt (by omega)
  obtain ⟨fresh, hcap, hlen⟩ := reserveCap_ok hbuf hfits halloc
  refine ⟨fresh, ?_, hlen⟩
  simp only [loadPayload, hmod, hcap, ok_bind]
  rw [if_neg (by omega)]

theorem loadPayload_panic (hbuf : 1024 ≤ b.buffer.length) (hoffset : offset ≤ 9)
    (hsize : size < 2 ^ 64)
    (h : 2 ^ 63 ≤ offset + size ∨ b.buffer.length + maxAlloc < offset + size) :
    b.loadPayload maxAlloc offset size = .panic := by
  rcases lt_or_ge (offset + size) (2 ^ 64) with hlt | hge
  · have hcap : b.reserveCap maxAlloc (offset + size) = .panic := by
      rw [reserveCap]
      split
      · rfl
      · rw [if_pos (by omega), if_pos (by omega)]
    simp only [loadPayload, mod_eq_of_lt hlt, hcap]
    rfl
  · -- the sum wraps around to less than the offset
    obtain ⟨total, hmod, htotal⟩ : ∃ total, (offset + size) % 2 ^ 64 = total ∧ total < offset :=
      ⟨_, rfl, by omega⟩
    have hcap : b.reserveCap maxAlloc total = .ok b := by
      rw [reserveCap, if_neg (by omega), if_neg (by omega)]
    simp only [loadPayload, hmod, hcap, ok_bind, if_pos htotal]

theorem loadPayload_of_delivered (hbuf : 1024 ≤ b.buffer.length) (hoffset : offset ≤ 9)
    (h : PayloadDelivered maxAlloc b.input offset size) :
    (b.loadPayload maxAlloc offset size).map (itemLeft (offset + size)) =
      payloadOf (b.buffer.take offset) b.input.rest size := by
  obtain ⟨hfits, halloc, hread⟩ := h
  obtain ⟨fresh, heq, hlen⟩ := loadPayload_eq hbuf hfits halloc
  rw [heq, payloadOf]
  split at hread
  · rename_i hle
    have hitem := take_readInto (b := ⟨b.input, b.buffer ++ fresh⟩) (le_of_add_right_le hlen) hread
    rw [take_append_of_le_length (by omega)] at hitem
    rw [if_neg (by simp [hread.2]), if_pos hle, Outcome.map, itemLeft, hitem]
    rw [readInto, hread.rest_after]
  · rename_i hlt
    rw [if_pos hread, if_neg hlt, Outcome.map]

theorem delivered_of_loadPayload (hbuf : b.buffer.length = 1024) (hoffset : offset ≤ 9)
    (hsize : size < 2 ^ 64)
    (h : (b.loadPayload maxAlloc offset size).map (itemLeft (offset + size)) =
      payloadOf (b.buffer.take offset) b.input.rest size) :
    PayloadDelivered maxAlloc b.input offset size := by
  by_cases hfits : offset + size < 2 ^ 63 ∧ offset + size ≤ 1024 + maxAlloc
  · obtain ⟨fresh, heq, hlen⟩ := loadPayload_eq hbuf.ge hfits.1 hfits.2
    refine ⟨hfits.1, hfits.2, ?_⟩
    rw [heq, payloadOf] at h
    split
    · rename_i hle
      split at h
      · cases h
      · rename_i hopen
        refine ⟨?_, by simpa using hopen⟩
        -- a short read leaves bytes behind that belong to the item
        have hrest := congrArg length (Prod.mk.inj (ok.inj h)).2
        have hcount := b.input.count_le (m := size)
        simp only [readInto, Reader.after, length_drop] at hrest
        omega
    · rename_i hlt
      split at h
      · assumption
      · cases h
  · rw [loadPayload_panic hbuf.ge hoffset hsize (by omega), payloadOf] at h
    split at h <;> cases h

def loaded (maxAlloc : ℕ) (b : BlockStream) : Outcome StreamError (Option Bytes × Bytes) :=
  (b.loadItem maxAlloc).map fun p ↦ (p.1, p.2.input.rest)

section Header

variable {r : Reader} {x : UInt8} {stale : Bytes}

theorem loadRLPPrefix_fills {d : UInt8} {rest : Bytes} (hrest : r.rest = d :: rest)
    (h : r.Fills 1) :
    (⟨r, x :: stale⟩ : BlockStream).loadRLPPrefix = (some d, ⟨r.after 1, d :: stale⟩) := by
  have hdata : r.data 1 = [d] := by rw [h.data_eq, hrest]; rfl
  simp [loadRLPPrefix, readInto, h.1, h.2, hdata]

theorem loadRLPPrefix_eof (x : UInt8) (stale : Bytes) (h : r.eof 1 = true) :
    ∃ b, (⟨r, x :: stale⟩ : BlockStream).loadRLPPrefix = (none, b) ∧ b.input.rest = [] := by
  refine ⟨_, by rw [loadRLPPrefix, if_pos h], ?_⟩
  rw [readInto, Reader.after, count_eq_length_of_eof h, drop_length]

theorem loadRLPPrefix_stale (x : UInt8) (stale : Bytes) (hcount : r.count 1 = 0)
    (h : r.eof 1 = false) :
    (⟨r, x :: stale⟩ : BlockStream).loadRLPPrefix = (some x, ⟨r.after 1, x :: stale⟩) := by
  have hdata : r.data 1 = [] := by rw [data, hcount, take_zero]
  simp [loadRLPPrefix, readInto, hcount, h, hdata]

end Header

variable {d : UInt8} {n : ℕ} {b' : BlockStream} {α : Type} {C : Codec}

theorem loadPrefixSize_short (hd : 0xc0 ≤ d) (hd' : d < 0xf8) :
    b.loadPrefixSize maxAlloc 1 d = .ok ((1, d.toNat - 0xc0), b) := by
  have hle : d ≤ 0xf7 := by
    rw [le_iff_toNat_le]
    exact le_of_lt_succ hd'
  rw [loadPrefixSize, if_pos ⟨hd, hle⟩]

theorem not_short (hd : 0xf8 ≤ d) : ¬ (0xc0 ≤ d ∧ d ≤ 0xf7) := by
  rintro ⟨-, hle⟩
  exact absurd (UInt8.le_trans hd hle) (by decide)

theorem width_le (hd : 0xf8 ≤ d) : 1 ≤ d.toNat - 0xf7 ∧ d.toNat - 0xf7 ≤ 8 := by
  rw [le_iff_toNat_le] at hd
  have h8 : (0xf8 : UInt8).toNat = 0xf8 := rfl
  have := d.toNat_lt
  omega

theorem size_lt (hd : 0xf8 ≤ d) (rest : Bytes) : ofBytes (rest.take (d.toNat - 0xf7)) < 2 ^ 64 := by
  have hlen : (rest.take (d.toNat - 0xf7)).length ≤ 8 :=
    le_trans (length_take_le _ _) (width_le hd).2
  calc ofBytes (rest.take (d.toNat - 0xf7))
      < 256 ^ (rest.take (d.toNat - 0xf7)).length := ofBytes_lt _
    _ ≤ 256 ^ 8 := Nat.pow_le_pow_right (by decide) hlen
    _ = 2 ^ 64 := by decide

theorem reserveCap_self (hn : n ≤ 1024) (hbuf : 1024 ≤ b.buffer.length) :
    b.reserveCap maxAlloc n = .ok b := by
  rw [reserveCap, if_neg (by omega), if_neg (by omega)]

theorem loadPrefixSize_cut (maxAlloc : ℕ) (hd : 0xf8 ≤ d) (hbuf : 1024 ≤ b.buffer.length)
    (h : ¬ b.input.Fills (d.toNat - 0xf7)) : b.loadPrefixSize maxAlloc 1 d = .error .eof := by
  have hwidth := width_le hd
  rw [loadPrefixSize, if_neg (not_short hd), if_pos hd]
  simp only [reserveCap_self (n := 1 + (d.toNat - 0xf7)) (by omega) hbuf, ok_bind]
  by_cases heof : b.input.eof (d.toNat - 0xf7) = true
  · rw [if_pos heof]
  · rw [if_neg heof]
    have hcount := b.input.count_le (m := d.toNat - 0xf7)
    have hne : b.input.count (d.toNat - 0xf7) ≠ d.toNat - 0xf7 := fun hc ↦ h ⟨hc, by simpa using heof⟩
    rw [if_pos (by omega)]

theorem loadPrefixSize_long (maxAlloc : ℕ) (hd : 0xf8 ≤ d) (hbuf : 1024 ≤ b.buffer.length)
    (h : b.input.Fills (d.toNat - 0xf7)) :
    b.loadPrefixSize maxAlloc 1 d =
      .ok ((d.toNat - 0xf7 + 1, ofBytes (b.input.rest.take (d.toNat - 0xf7))),
        b.readInto 1 (d.toNat - 0xf7)) := by
  have hwidth := width_le hd
  have hbytes : ((b.readInto 1 (d.toNat - 0xf7)).buffer.drop 1).take (d.toNat - 0xf7) =
      b.input.rest.take (d.toNat - 0xf7) := by
    rw [take_drop, take_readInto (by omega) h]
    exact drop_left' (by rw [length_take]; omega)
  rw [loadPrefixSize, if_neg (not_short hd), if_pos hd]
  simp only [reserveCap_self (n := 1 + (d.toNat - 0xf7)) (by omega) hbuf, ok_bind, h.2,
    h.1, hbytes, lt_irrefl, if_false, Bool.false_eq_true]

theorem loadPrefixSize_not_array (hd : d < 0xc0) :
    b.loadPrefixSize maxAlloc 1 d = .error .expectedArray := by
  rw [loadPrefixSize, if_neg fun h ↦ UInt8.not_lt.mpr h.1 hd,
    if_neg fun h ↦ UInt8.not_lt.mpr (UInt8.le_trans (by decide) h) hd]

theorem loadPrefixSize_cases (maxAlloc : ℕ) (hbuf : 1024 ≤ b.buffer.length) (d : UInt8) :
    (∃ e, b.loadPrefixSize maxAlloc 1 d = .error e) ∨
      ∃ offset size b', b.loadPrefixSize maxAlloc 1 d = .ok ((offset, size), b') ∧ offset ≤ 9 ∧
        size < 2 ^ 64 ∧ 1024 ≤ b'.buffer.length := by
  have hlt := d.toNat_lt
  by_cases harr : d < 0xc0
  · exact .inl ⟨_, loadPrefixSize_not_array harr⟩
  by_cases hd : d < 0xf8
  · exact .inr ⟨_, _, _, loadPrefixSize_short (UInt8.not_lt.mp harr) hd, by decide, by omega, hbuf⟩
  replace hd := UInt8.not_lt.mp hd
  by_cases h : b.input.Fills (d.toNat - 0xf7)
  · exact .inr ⟨_, _, _, loadPrefixSize_long maxAlloc hd hbuf h, by omega, size_lt hd _,
      hbuf.trans length_le_readInto⟩
  · exact .inl ⟨_, loadPrefixSize_cut maxAlloc hd hbuf h⟩

theorem loaded_of_header {tag : UInt8} {b₁ b₂ : BlockStream}
    (htag : b.loadRLPPrefix = (some tag, b₁))
    (hsizes : b₁.loadPrefixSize maxAlloc 1 tag = .ok ((offset, size), b₂)) (hpos : 0 < offset)
    (hsize : size < 2 ^ 64) :
    b.loaded maxAlloc = (b₂.loadPayload maxAlloc offset size).map (itemLeft (offset + size)) := by
  simp only [loaded, loadItem, loadRLPArray, htag, hsizes, ok_bind]
  cases hload : b₂.loadPayload maxAlloc offset size with
  | error e | panic => rfl
  | ok b₃ =>
    have hmod : (offset + size) % 2 ^ 64 = offset + size := by
      obtain ⟨b₄, -, hrest⟩ := bind_eq_ok.mp hload
      split at hrest
      · cases hrest
      · omega
    simp only [ok_bind, hmod]
    rw [if_neg (by omega)]
    rfl

section Item

variable {r : Reader} {d x : UInt8} {rest stale : Bytes}

theorem loaded_cut (hrest : r.rest = d :: rest) (h : r.Fills 1) (hd : 0xf8 ≤ d)
    (hbuf : 1024 ≤ (x :: stale).length) (hsize : ¬ (r.after 1).Fills (d.toNat - 0xf7)) :
    loaded maxAlloc ⟨r, x :: stale⟩ = .error .eof := by
  have hcut := loadPrefixSize_cut maxAlloc (b := ⟨r.after 1, d :: stale⟩) hd
    (by simpa using hbuf) hsize
  simp only [loaded, loadItem, loadRLPArray, loadRLPPrefix_fills hrest h, hcut]
  rfl

variable {b₁ : BlockStream} {left : Bytes}

theorem loaded_not_array (htag : b.loadRLPPrefix = (some d, b₁))
    (hd : d < 0xc0) : b.loaded maxAlloc = .error .expectedArray := by
  simp only [loaded, loadItem, loadRLPArray, htag, loadPrefixSize_not_array hd]
  rfl

theorem loaded_end (htag : b.loadRLPPrefix = (none, b₁)) :
    b.loaded maxAlloc = .ok (none, b₁.input.rest) := by
  simp only [loaded, loadItem, loadRLPArray, htag]
  rfl

theorem loaded_short (hrest : r.rest = d :: rest) (h : r.Fills 1) (hd : 0xc0 ≤ d)
    (hd' : d < 0xf8) :
    loaded maxAlloc ⟨r, x :: stale⟩ = decodeItem r.rest ↔
      (loadPayload maxAlloc ⟨r.after 1, d :: stale⟩ 1 (d.toNat - 0xc0)).map
        (itemLeft (1 + (d.toNat - 0xc0))) = payloadOf [d] (r.after 1).rest (d.toNat - 0xc0) := by
  have := d.toNat_lt
  have hafter : (r.after 1).rest = rest := by rw [h.rest_after, hrest]; rfl
  rw [loaded_of_header (loadRLPPrefix_fills hrest h) (loadPrefixSize_short hd hd') one_pos
    (by omega), hrest, hafter, decodeItem_short hd hd', payloadOf, singleton_append]

theorem decodeItem_long_eq (hd : 0xf8 ≤ d) (hwidth : d.toNat - 0xf7 ≤ rest.length) :
    decodeItem (d :: rest) =
      payloadOf (d :: rest.take (d.toNat - 0xf7)) (rest.drop (d.toNat - 0xf7))
        (ofBytes (rest.take (d.toNat - 0xf7))) := by
  rw [decodeItem_long hd, payloadOf]
  generalize ofBytes (rest.take (d.toNat - 0xf7)) = size
  generalize d.toNat - 0xf7 = width at *
  have hiff : width + size ≤ rest.length ↔ size ≤ (rest.drop width).length := by
    rw [length_drop]
    omega
  simp only [hiff, take_add, drop_drop, cons_append]

theorem loaded_long (hrest : r.rest = d :: rest) (h : r.Fills 1) (hd : 0xf8 ≤ d)
    (hbuf : 1024 ≤ (x :: stale).length) (hsize : (r.after 1).Fills (d.toNat - 0xf7)) :
    ∃ b : BlockStream, b.buffer.length = (x :: stale).length ∧
      b.input = (r.after 1).after (d.toNat - 0xf7) ∧
      (loaded maxAlloc ⟨r, x :: stale⟩ = decodeItem r.rest ↔
        (b.loadPayload maxAlloc (d.toNat - 0xf7 + 1) (ofBytes (rest.take (d.toNat - 0xf7)))).map
          (itemLeft (d.toNat - 0xf7 + 1 + ofBytes (rest.take (d.toNat - 0xf7)))) =
        payloadOf (b.buffer.take (d.toNat - 0xf7 + 1)) b.input.rest
          (ofBytes (rest.take (d.toNat - 0xf7)))) := by
  have hafter : (r.after 1).rest = rest := by rw [h.rest_after, hrest]; rfl
  have hwidth := width_le hd
  rw [length_cons] at hbuf
  have hlong := loadPrefixSize_long maxAlloc (b := ⟨r.after 1, d :: stale⟩) hd hbuf hsize
  rw [hafter] at hlong
  refine ⟨readInto ⟨r.after 1, d :: stale⟩ 1 (d.toNat - 0xf7), ?_, rfl, ?_⟩
  · rw [length_readInto (by rw [length_cons]; omega), length_cons, length_cons]
  have hheader : (readInto ⟨r.after 1, d :: stale⟩ 1 (d.toNat - 0xf7)).buffer.take
      (d.toNat - 0xf7 + 1) = d :: rest.take (d.toNat - 0xf7) := by
    rw [add_comm, take_readInto (by simp) hsize, hafter, take_succ_cons, take_zero,
      singleton_append]
  have hleft : (readInto ⟨r.after 1, d :: stale⟩ 1 (d.toNat - 0xf7)).input.rest =
      rest.drop (d.toNat - 0xf7) := by rw [readInto, hsize.rest_after, hafter]
  have hle : d.toNat - 0xf7 ≤ rest.length := hafter ▸ hsize.le_length
  rw [loaded_of_header (loadRLPPrefix_fills hrest h) hlong (succ_pos _) (size_lt hd rest), hrest,
    decodeItem_long_eq hd hle, hheader, hleft]

theorem loaded_of_delivers (h : Delivers maxAlloc r) {buffer : Bytes}
    (hbuf : 1024 ≤ buffer.length) : loaded maxAlloc ⟨r, buffer⟩ = decodeItem r.rest := by
  obtain ⟨x, stale, rfl⟩ := exists_cons_of_length_pos (by omega : 0 < buffer.length)
  rw [Delivers] at h
  cases hrest : r.rest with
  | nil =>
    rw [hrest] at h
    obtain ⟨b, htag, hleft⟩ := loadRLPPrefix_eof x stale h
    rw [loaded_end htag, hleft]
    rfl
  | cons d rest =>
    rw [hrest] at h
    obtain ⟨hfills, hshort, hlong⟩ := h
    by_cases harr : d < 0xc0
    · rw [loaded_not_array (loadRLPPrefix_fills hrest hfills) harr, decodeItem, if_pos harr]
    rw [← hrest]
    have hd := UInt8.not_lt.mp harr
    by_cases hd' : d < 0xf8
    · exact (loaded_short hrest hfills hd hd').mpr
        (loadPayload_of_delivered (by simpa using hbuf) (by decide) (hshort hd hd'))
    have hd := UInt8.not_lt.mp hd'
    specialize hlong hd
    have hwidth := width_le hd
    split at hlong
    · rename_i hsize
      obtain ⟨b, hlen, hinput, hiff⟩ := loaded_long hrest hfills hd hbuf hsize
      rw [← hinput] at hlong
      exact hiff.mpr (loadPayload_of_delivered (hlen.trans_ge hbuf) (by omega) hlong)
    · rename_i hsize
      rw [loaded_cut hrest hfills hd hbuf hsize, hrest, hlong]

theorem decodeItem_cons_ne : decodeItem (d :: rest) ≠ .ok (none, left) := by
  rw [decodeItem]
  split
  · intro h
    cases h
  · split <;> simp

theorem length_of_decodeItem {item : Option Bytes}
    (h : decodeItem (d :: rest) = .ok (item, left)) : left.length ≤ rest.length := by
  have hdrop : ∀ {n : ℕ} {x : Option Bytes}, (if n ≤ rest.length then .ok (x, rest.drop n)
      else .error .eof : Outcome StreamError (Option Bytes × Bytes)) = .ok (item, left) →
      left.length ≤ rest.length := by
    intro n x hn
    split at hn
    · rw [← (Prod.mk.inj (ok.inj hn)).2, length_drop]
      exact sub_le _ _
    · cases hn
  by_cases harr : d < 0xc0
  · rw [decodeItem, if_pos harr] at h
    cases h
  · by_cases hd' : d < 0xf8
    · exact hdrop (decodeItem_short (UInt8.not_lt.mp harr) hd' rest ▸ h)
    · exact hdrop (decodeItem_long (UInt8.not_lt.mp hd') rest ▸ h)

theorem loaded_empty (htag : b.loadRLPPrefix = (some 0xc0, b₁))
    (hbuf : 1024 ≤ b₁.buffer.length) (hrest : b₁.input.rest ≠ []) :
    b.loaded maxAlloc = .ok (some (b₁.buffer.take 1), b₁.input.rest) := by
  have hzero : b₁.input.count 0 = 0 := le_zero.mp count_le
  have hopen : b₁.input.eof 0 = false := by
    rw [eof, hzero, Bool.and_eq_false_imp]
    intro _
    exact decide_eq_false fun hlen ↦ hrest (length_eq_zero_iff.mp hlen.symm)
  have hpay : PayloadDelivered maxAlloc b₁.input 1 0 :=
    ⟨by decide, by omega, by rw [if_pos (zero_le _)]; exact ⟨hzero, hopen⟩⟩
  rw [loaded_of_header htag (loadPrefixSize_short (by decide) (by decide)) one_pos (by decide)]
  refine (loadPayload_of_delivered hbuf (by decide) hpay).trans ?_
  rw [payloadOf, if_pos (zero_le _), take_zero, append_nil, drop_zero]

theorem length_cons_zeros (x : UInt8) : (x :: replicate 1023 (0 : UInt8)).length = 1024 := by
  rw [length_cons, length_replicate]

theorem eof_of_loaded (hrest : r.rest = [])
    (hload : loaded maxAlloc ⟨r, 0 :: replicate 1023 0⟩ = decodeItem r.rest) :
    r.eof 1 = true := by
  by_contra heof
  -- the byte 0 of the buffer is taken for one of the input
  have hcount : r.count 1 = 0 := by
    have := r.count_le_length (m := 1)
    rw [hrest] at this
    exact le_zero.mp this
  have htag := loadRLPPrefix_stale 0 (replicate 1023 0) hcount (by simpa using heof)
  rw [loaded_not_array htag (by decide), hrest] at hload
  cases hload

theorem fills_of_loaded (hrest : r.rest = d :: rest)
    (hload : ∀ x, loaded maxAlloc ⟨r, x :: replicate 1023 0⟩ = decodeItem r.rest) :
    r.Fills 1 := by
  by_contra hnot
  have hcount := r.count_le (m := 1)
  by_cases heof : r.eof 1 = true
  · -- the last byte comes together with the end of the file and is lost
    obtain ⟨b, htag, hleft⟩ := loadRLPPrefix_eof 0 (replicate 1023 0) heof
    have hitem := hload 0
    rw [loaded_end htag, hrest] at hitem
    exact decodeItem_cons_ne hitem.symm
  · have hzero : r.count 1 = 0 := by
      by_contra hne
      exact hnot ⟨by omega, by simpa using heof⟩
    -- the byte 0xc0 of the buffer is taken for an empty item of the input
    have hitem := hload 0xc0
    rw [loaded_empty (loadRLPPrefix_stale _ _ hzero (by simpa using heof))
      (length_cons_zeros 0xc0).ge (by rw [Reader.after, hzero, hrest]; exact cons_ne_nil _ _),
      hrest] at hitem
    have hleft := length_of_decodeItem hitem.symm
    rw [Reader.after, hzero, hrest, drop_zero, length_cons] at hleft
    omega

theorem delivers_of_loaded
    (h : ∀ buffer : Bytes, 1024 ≤ buffer.length → loaded maxAlloc ⟨r, buffer⟩ = decodeItem r.rest) :
    Delivers maxAlloc r := by
  have hbuf := length_cons_zeros
  have hload : ∀ x, loaded maxAlloc ⟨r, x :: replicate 1023 0⟩ = decodeItem r.rest :=
    fun x ↦ h _ (hbuf x).ge
  rw [Delivers]
  cases hrest : r.rest with
  | nil => exact eof_of_loaded hrest (hload 0)
  | cons d rest =>
    have hfills := fills_of_loaded hrest hload
    refine ⟨hfills, fun hd hd' ↦ ?_, fun hd ↦ ?_⟩
    · have := d.toNat_lt
      exact delivered_of_loadPayload (b := ⟨r.after 1, d :: replicate 1023 0⟩) (hbuf d)
        (by decide) (by omega) ((loaded_short hrest hfills hd hd').mp (hload 0))
    · split
      · rename_i hsize
        have hwidth := width_le hd
        obtain ⟨b, hlen, hinput, hiff⟩ := loaded_long hrest hfills hd (hbuf 0).ge hsize
        rw [← hinput]
        exact delivered_of_loadPayload (hlen.trans (hbuf 0)) (by omega) (size_lt hd rest)
          (hiff.mp (hload 0))
      · rename_i hsize
        rw [← hrest, ← hload 0]
        exact loaded_cut hrest hfills hd (hbuf 0).ge hsize

end Item

theorem length_le_reserveCap (h : b.reserveCap maxAlloc size = .ok b') :
    b.buffer.length ≤ b'.buffer.length := by
  rw [reserveCap] at h
  split at h
  · cases h
  split at h
  · split at h
    · cases h
    · rw [← ok.inj h, length_append]
      exact le_add_right _ _
  · rw [ok.inj h]

theorem length_le_loadRLPPrefix : b.buffer.length ≤ b.loadRLPPrefix.2.buffer.length := by
  rw [loadRLPPrefix]
  split <;> exact length_le_readInto

theorem length_loadItem {item : Option Bytes} (hbuf : 1024 ≤ b.buffer.length)
    (h : b.loadItem maxAlloc = .ok (item, b')) : 1024 ≤ b'.buffer.length := by
  obtain ⟨⟨total, b₁⟩, harr, hitem⟩ := bind_eq_ok.mp h
  obtain rfl : b₁ = b' := by
    dsimp only at hitem
    split at hitem <;> exact (Prod.mk.inj (ok.inj hitem)).2
  have hb := hbuf.trans length_le_loadRLPPrefix
  rw [loadRLPArray] at harr
  split at harr
  · rename_i b₀ hb₀
    rw [hb₀] at hb
    rwa [← (Prod.mk.inj (ok.inj harr)).2]
  · rename_i tag b₀ hb₀
    rw [hb₀] at hb
    obtain ⟨e, hsizes⟩ | ⟨offset, size, b₂, hsizes, -, -, hb₂⟩ := loadPrefixSize_cases maxAlloc hb tag
    · rw [hsizes] at harr
      cases harr
    rw [hsizes, ok_bind] at harr
    obtain ⟨b₃, hpay, harr⟩ := bind_eq_ok.mp harr
    obtain rfl : b₃ = b₁ := (Prod.mk.inj (ok.inj harr)).2
    obtain ⟨b₄, hcap, hpay⟩ := bind_eq_ok.mp hpay
    split at hpay
    · cases hpay
    split at hpay
    · cases hpay
    · rw [← ok.inj hpay]
      exact hb₂.trans ((length_le_reserveCap hcap).trans length_le_readInto)

def left {α : Type} (p : Option α × BlockStream) : Option α × Bytes := (p.1, p.2.input.rest)

theorem next_left (parse : Bytes → Except UnmarshalError α) :
    (b.next maxAlloc parse).map left = b.loaded maxAlloc >>= parseItem parse := by
  rw [next, loaded]
  cases b.loadItem maxAlloc with
  | error e | panic => rfl
  | ok p =>
    obtain ⟨data, b'⟩ := p
    simp only [ok_bind, Outcome.map]
    cases data with
    | none => rfl
    | some item =>
      simp only [Option.map_some, parseItem]
      cases parse item <;> rfl

theorem next_of_delivers (parse : Bytes → Except UnmarshalError α)
    (hbuf : 1024 ≤ b.buffer.length) (h : Delivers maxAlloc b.input) :
    (b.next maxAlloc parse).map left = decodeNext parse b.input.rest := by
  have hitem : b.loaded maxAlloc = decodeItem b.input.rest := loaded_of_delivers h hbuf
  rw [next_left, hitem, decodeNext]

theorem length_next {parse : Bytes → Except UnmarshalError α} {x : Option α}
    (hbuf : 1024 ≤ b.buffer.length) (h : b.next maxAlloc parse = .ok (x, b')) :
    1024 ≤ b'.buffer.length := by
  obtain ⟨⟨data, b₁⟩, hload, h⟩ := bind_eq_ok.mp h
  have hlen := length_loadItem hbuf hload
  dsimp only at h
  split at h
  · rwa [← (Prod.mk.inj (ok.inj h)).2]
  · rwa [← (Prod.mk.inj (ok.inj h)).2]
  · cases h

def BlocksDelivered (maxAlloc : ℕ) (C : Codec) : ℕ → BlockStream → Prop
  | 0, _ => True
  | n + 1, b => Delivers maxAlloc b.input ∧
      ∀ x b', b.nextBlock maxAlloc C = .ok (x, b') → BlocksDelivered maxAlloc C n b'

def ItemsDelivered (maxAlloc : ℕ) (C : Codec) (n : ℕ) (b : BlockStream) : Prop :=
  Delivers maxAlloc b.input ∧
    ∀ x b', b.getMetadata maxAlloc C = .ok (x, b') → BlocksDelivered maxAlloc C n b'

theorem nextBlocks_eq (hbuf : 1024 ≤ b.buffer.length) (h : BlocksDelivered maxAlloc C n b) :
    nextBlocks maxAlloc C n b = decodeBlocks C n b.input.rest := by
  induction n generalizing b with
  | zero => rfl
  | succ n ih =>
    obtain ⟨hfirst, hlater⟩ := h
    have hnext := next_of_delivers (Block.unmarshalRLP C) hbuf hfirst
    rw [nextBlocks, decodeBlocks, ← hnext]
    cases hb : b.nextBlock maxAlloc C with
    | error e | panic =>
      rw [nextBlock] at hb
      rw [hb]
      rfl
    | ok p =>
      obtain ⟨block, b'⟩ := p
      have hrest := ih (length_next hbuf hb) (hlater block b' hb)
      rw [nextBlock] at hb
      simp only [hb, Outcome.map, left, hrest]

theorem results_eq (hbuf : 1024 ≤ b.buffer.length) (h : ItemsDelivered maxAlloc C n b) :
    b.results maxAlloc C n = decodeArchive C n b.input.rest := by
  obtain ⟨hfirst, hlater⟩ := h
  have hnext := next_of_delivers (unmarshalRLP C.toFastrlp) hbuf hfirst
  rw [results, decodeArchive, ← hnext]
  cases hb : b.getMetadata maxAlloc C with
  | error e | panic =>
    rw [getMetadata] at hb
    rw [hb]
    rfl
  | ok p =>
    obtain ⟨metadata, b'⟩ := p
    have hrest := nextBlocks_eq (length_next hbuf hb) (hlater metadata b' hb)
    rw [getMetadata] at hb
    simp only [hb, Outcome.map, left, hrest]

theorem results_fst {metadata : Option Metadata} {rest : Bytes}
    (h : b.loaded maxAlloc >>= parseItem (unmarshalRLP C.toFastrlp) =
      .ok (metadata, rest)) : (b.results maxAlloc C n).1 = .ok metadata := by
  rw [← next_left] at h
  rw [results, getMetadata]
  cases hb : b.next maxAlloc (unmarshalRLP C.toFastrlp) with
  | error e | panic => rw [hb] at h; cases h
  | ok p =>
    rw [hb] at h
    exact congrArg ok (Prod.mk.inj (ok.inj h)).1

end BlockStream

theorem Metadata.unmarshalRLP_marshal {R : Fastrlp} (hR : R.Faithful) {m : Metadata}
    (hm : m.latest < 2 ^ 64) : unmarshalRLP R (m.marshalRLP R) = .ok m := by
  rw [unmarshalRLP, marshalRLP, unmarshalRlp_marshal hR]
  simp only [unmarshalRLPFrom, marshalRLPWith, Rlp.getElems, fetch_some, getUint64_newUint hm,
    getHash_newFixed]

open BlockStream

/-- An item is read as it stands in the bytes, whatever an earlier one left in the buffer, exactly
if the reader delivers it; and an archive whose items are all delivered is read as it is decoded. -/
theorem reading_eq_decoding (maxAlloc : ℕ) (C : Codec) (r : Reader) :
    ((∀ buffer : Bytes, 1024 ≤ buffer.length → loaded maxAlloc ⟨r, buffer⟩ = decodeItem r.rest) ↔
      Delivers maxAlloc r) ∧
    ∀ n, ItemsDelivered maxAlloc C n (newBlockStream r) →
      (newBlockStream r).results maxAlloc C n = decodeArchive C n r.rest := by
  refine ⟨⟨delivers_of_loaded, fun h buffer hbuf ↦ loaded_of_delivers h hbuf⟩, fun n h ↦ ?_⟩
  have hbuf : 1024 ≤ (newBlockStream r).buffer.length := by
    rw [newBlockStream, length_replicate]
  exact results_eq hbuf h

/-- A file that two reads use up. Every later one reports its end. -/
def untilEnd (bytes : Bytes) : Reader := ⟨bytes, fun i ↦ ⟨2 ^ 63, decide (2 ≤ i)⟩⟩

/-- An archive that ends within its metadata is read as one with a zero hash. The same metadata in
full is an error when the file reports its end with the last bytes, and a size of `2 ^ 64 - 1` bytes
makes the reader panic. -/
theorem truncated_metadata_read :
    (((newBlockStream (untilEnd [0xe2, 0x0a, 0xa0])).results (2 ^ 47) wireCodec 0).1 =
        .ok (some ⟨10, zeroHash⟩) ∧
      (decodeArchive wireCodec 0 [0xe2, 0x0a, 0xa0]).1 = .error .eof) ∧
    ((newBlockStream ⟨marshalRLP rlpCodec ⟨10, zeroHash⟩, fun _ ↦ ⟨2 ^ 63, true⟩⟩).loaded
        (2 ^ 47) = .error .eof ∧
      decodeItem (marshalRLP rlpCodec ⟨10, zeroHash⟩) =
        .ok (some (marshalRLP rlpCodec ⟨10, zeroHash⟩), [])) ∧
    ((newBlockStream (untilEnd (replicate 9 0xff))).loaded (2 ^ 47) = .panic ∧
      decodeItem (replicate 9 0xff) = .error .eof) := by
  refine ⟨⟨?_, ?_⟩, ⟨?_, ?_⟩, ?_, ?_⟩
  · have hitem : (newBlockStream (untilEnd [0xe2, 0x0a, 0xa0])).loaded (2 ^ 47) =
        .ok (some (marshalRLP wireCodec.toFastrlp ⟨10, zeroHash⟩), []) := by
      decide +kernel
    have hparse := unmarshalRLP_marshal (R := wireCodec.toFastrlp)
      (m := ⟨10, zeroHash⟩) rlpCodec_faithful (by decide)
    apply results_fst
    rw [hitem, ok_bind, parseItem, hparse]
  all_goals decide +kernel

namespace BlockStream

variable (maxAlloc : ℕ) (C : Codec)

/-- The number of bytes that the next header announces, with its own. -/
def announced (b : BlockStream) : ℕ :=
  match b.loadRLPPrefix with
  | (none, _) => 0
  | (some tag, b) =>
    match b.loadPrefixSize maxAlloc 1 tag with
    | .ok ((headerSize, payloadSize), _) => headerSize + payloadSize
    | _ => 0

def BlocksFit : ℕ → BlockStream → Prop
  | 0, _ => True
  | n + 1, b => b.announced maxAlloc < 2 ^ 63 ∧ ∀ x b', b.nextBlock maxAlloc C = .ok (x, b') → BlocksFit n b'

variable {maxAlloc C} {b : BlockStream} {n : ℕ} (hmax : 2 ^ 63 ≤ maxAlloc)
  (hbuf : 1024 ≤ b.buffer.length)
include hmax hbuf

theorem loadPayload_safe_iff {offset size : ℕ} (hoffset : offset ≤ 9) (hsize : size < 2 ^ 64) :
    b.loadPayload maxAlloc offset size ≠ .panic ↔ offset + size < 2 ^ 63 := by
  constructor
  · intro h
    by_contra hge
    exact h (loadPayload_panic hbuf hoffset hsize (.inl (not_lt.mp hge)))
  · intro hlt h
    obtain ⟨fresh, heq, -⟩ := loadPayload_eq hbuf hlt
      (show offset + size ≤ 1024 + maxAlloc by omega)
    rw [heq] at h
    split at h <;> cases h

theorem loadRLPArray_safe_iff : b.loadRLPArray maxAlloc ≠ .panic ↔ b.announced maxAlloc < 2 ^ 63 := by
  have hb := hbuf.trans length_le_loadRLPPrefix
  rw [loadRLPArray, announced]
  rcases htag : b.loadRLPPrefix with ⟨_ | tag, b₁⟩
  · exact iff_of_true nofun (Nat.two_pow_pos 63)
  rw [htag] at hb
  dsimp only at hb ⊢
  obtain ⟨e, hsizes⟩ | ⟨offset, size, b₂, hsizes, hoffset, hsize, hb₂⟩ :=
    loadPrefixSize_cases maxAlloc hb tag
  · rw [hsizes]
    exact iff_of_true nofun (Nat.two_pow_pos 63)
  · rw [hsizes, ← loadPayload_safe_iff hmax hb₂ hoffset hsize, ok_bind]
    cases b₂.loadPayload maxAlloc offset size <;> simp [Bind.bind, Outcome.bind]

theorem next_safe_iff {α : Type} (parse : Bytes → Except UnmarshalError α) :
    b.next maxAlloc parse ≠ .panic ↔ b.announced maxAlloc < 2 ^ 63 := by
  rw [← loadRLPArray_safe_iff hmax hbuf, next, loadItem]
  rcases b.loadRLPArray maxAlloc with ⟨size, b'⟩ | e | _
  · simp only [ok_bind]
    split <;> simp
    split <;> simp
  · exact iff_of_true nofun nofun
  · exact iff_of_false (fun h ↦ h rfl) fun h ↦ h rfl

theorem nextBlocks_safe_iff : .panic ∉ nextBlocks maxAlloc C n b ↔ BlocksFit maxAlloc C n b := by
  induction n generalizing b with
  | zero => simp [nextBlocks, BlocksFit]
  | succ n ih =>
    rw [nextBlocks, BlocksFit, ← next_safe_iff hmax hbuf (Block.unmarshalRLP C), nextBlock]
    cases hb : b.next maxAlloc (Block.unmarshalRLP C) with
    | error e | panic => simp
    | ok p =>
      obtain ⟨x, b'⟩ := p
      simp [ih (length_next hbuf hb)]

theorem results_ne_panic_iff :
    (b.results maxAlloc C n).1 ≠ .panic ∧ .panic ∉ (b.results maxAlloc C n).2 ↔
      b.announced maxAlloc < 2 ^ 63 ∧ ∀ x b', b.getMetadata maxAlloc C = .ok (x, b') →
        BlocksFit maxAlloc C n b' := by
  rw [results, ← next_safe_iff hmax hbuf (unmarshalRLP C.toFastrlp), getMetadata]
  cases hb : b.next maxAlloc (unmarshalRLP C.toFastrlp) with
  | error e | panic => simp
  | ok p =>
    obtain ⟨x, b'⟩ := p
    simp [nextBlocks_safe_iff hmax (length_next hbuf hb)]

end BlockStream

/-- Reading an archive never panics exactly if no header that is read announces `2 ^ 63` bytes or
more. -/
theorem results_safe_iff (C : Codec) (n : ℕ) (r : Reader) :
    (((newBlockStream r).results (2 ^ 63) C n).1 ≠ .panic ∧
      .panic ∉ ((newBlockStream r).results (2 ^ 63) C n).2) ↔
    (newBlockStream r).announced (2 ^ 63) < 2 ^ 63 ∧ ∀ x b,
      (newBlockStream r).getMetadata (2 ^ 63) C = .ok (x, b) → BlocksFit (2 ^ 63) C n b :=
  results_ne_panic_iff le_rfl (by rw [newBlockStream, length_replicate])

theorem results_panic :
    ((newBlockStream (untilEnd (replicate 9 0xff))).results (2 ^ 63) wireCodec 0).1 = .panic := by
  have hnext : (newBlockStream (untilEnd (replicate 9 0xff))).getMetadata (2 ^ 63) wireCodec =
      .panic := by
    by_contra h
    exact absurd ((next_safe_iff le_rfl (length_replicate.ge) _).mp h) (by decide +kernel)
  rw [results, hnext]

end Mainnet.Archive
