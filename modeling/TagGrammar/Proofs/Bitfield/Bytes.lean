/-
The byte encoding of bitfields.

Bytes are read through their bits as words are: `byteBit` at `i` is bit `i % 8` of byte `i / 8`.
Packing keeps every bit in its place and fills the last byte with zeros.  Unpacking takes the
bits below the width, wherever the bytes end.  `toBytes?` and `fromBytes?` go through the bytes
one by one and fail at an index that no word has; neither ever fails, and they are `toBytes` and
`fromBytes` (`byteEncoding_exact`).
-/
import Mathlib.Algebra.Order.Floor.Div
import TagGrammar.Proofs.Bitfield
import TagGrammar.Proofs.Except

namespace TagGrammar
namespace Bitfield

variable {b : Bitfield} {width k i : Nat} {words : List Word} {byte : BitVec 8}
  {bytes : List (BitVec 8)}

theorem wordCount_eq_ceilDiv (width : Nat) : wordCount width = width ⌈/⌉ 64 :=
  (Nat.ceilDiv_eq_add_pred_div width 64).symm

theorem byteCount_eq_ceilDiv (width : Nat) : byteCount width = width ⌈/⌉ 8 :=
  (Nat.ceilDiv_eq_add_pred_div width 8).symm

/-! ## Bits of bytes -/

/-- Words and bytes alike are read at their first element up to its length, and beyond it as if
it were not there. -/
theorem getLsbD_getD_cons {w : Nat} (hw : 0 < w) (x : BitVec w) (xs : List (BitVec w)) (i : Nat) :
    ((x :: xs).getD (i / w) 0).getLsbD (i % w) =
      if i < w then x.getLsbD i else (xs.getD ((i - w) / w) 0).getLsbD ((i - w) % w) := by
  split
  · rename_i hi
    rw [Nat.div_eq_of_lt hi, Nat.mod_eq_of_lt hi, List.getD_cons_zero]
  · rename_i hi
    have hle : w ≤ i := Nat.le_of_not_lt hi
    rw [Nat.div_eq_sub_div hw hle, Nat.mod_eq_sub_mod hle, List.getD_cons_succ]

/-- The bit at an index of some bytes.  Missing bytes read as cleared. -/
def byteBit (bytes : List (BitVec 8)) (i : Nat) : Bool := (bytes.getD (i / 8) 0).getLsbD (i % 8)

theorem byteBit_of_length_le (h : bytes.length ≤ i / 8) : byteBit bytes i = false := by
  simp [byteBit, List.getD_eq_getElem?_getD, List.getElem?_eq_none h]

theorem byteBit_cons (byte : BitVec 8) (bytes : List (BitVec 8)) (i : Nat) :
    byteBit (byte :: bytes) i = if i < 8 then byte.getLsbD i else byteBit bytes (i - 8) :=
  getLsbD_getD_cons (by decide) byte bytes i

theorem byteBit_drop (k : Nat) (bytes : List (BitVec 8)) (i : Nat) :
    byteBit (bytes.drop k) i = byteBit bytes (8 * k + i) := by
  have hdiv : (8 * k + i) / 8 = k + i / 8 := by omega
  have hmod : (8 * k + i) % 8 = i % 8 := by omega
  simp only [byteBit, List.getD_eq_getElem?_getD, List.getElem?_drop, hdiv, hmod]

theorem byteBit_take (n : Nat) (bytes : List (BitVec 8)) (i : Nat) :
    byteBit (bytes.take n) i = (decide (i / 8 < n) && byteBit bytes i) := by
  by_cases h : i / 8 < n <;> simp [byteBit, List.getD_eq_getElem?_getD, h]

/-- Zeros put after the bytes read like bytes that are missing. -/
theorem byteBit_rightpad (n : Nat) (bytes : List (BitVec 8)) (i : Nat) :
    byteBit (bytes.rightpad n 0) i = byteBit bytes i := by
  unfold byteBit List.rightpad
  rw [List.getD_eq_getElem?_getD, List.getD_eq_getElem?_getD, List.getElem?_append]
  split
  · rfl
  · rename_i h
    rw [List.getElem?_eq_none (Nat.le_of_not_lt h), List.getElem?_replicate]
    split <;> rfl

theorem eq_of_byteBit {bytes' : List (BitVec 8)} (hlength : bytes.length = bytes'.length)
    (h : ∀ i, byteBit bytes i = byteBit bytes' i) : bytes = bytes' := by
  refine List.ext_getElem hlength fun k hk hk' => ?_
  refine BitVec.eq_of_getLsbD_eq fun j hj => ?_
  have hbit := h (8 * k + j)
  have hdiv : (8 * k + j) / 8 = k := by omega
  have hmod : (8 * k + j) % 8 = j := by omega
  simpa only [byteBit, hdiv, hmod, List.getD_eq_getElem?_getD, List.getElem?_eq_getElem hk,
    List.getElem?_eq_getElem hk', Option.getD_some] using hbit

/-- Bytes with the bits beyond a width cleared. -/
def clearBeyond (width : Nat) (bytes : List (BitVec 8)) : List (BitVec 8) :=
  bytes.mapIdx fun k byte => byte &&& BitVec.ofNat 8 (2 ^ (width - 8 * k) - 1)

theorem byteBit_clearBeyond (width : Nat) (bytes : List (BitVec 8)) (i : Nat) :
    byteBit (clearBeyond width bytes) i = (decide (i < width) && byteBit bytes i) := by
  unfold byteBit clearBeyond
  rw [List.getD_eq_getElem?_getD, List.getD_eq_getElem?_getD, List.getElem?_mapIdx]
  cases bytes[i / 8]? with
  | none => simp
  | some byte =>
    have hmod : i % 8 < 8 := Nat.mod_lt i (by omega)
    have hiff : i % 8 < width - 8 * (i / 8) ↔ i < width := by omega
    simp only [Option.map_some, Option.getD_some, BitVec.getLsbD_and, BitVec.getLsbD_ofNat,
      Nat.testBit_two_pow_sub_one, hmod, hiff, decide_true, Bool.true_and]
    exact Bool.and_comm _ _

/-! ## Packing -/

theorem length_toBytes (b : Bitfield) : b.toBytes.length = byteCount b.width := by
  rw [toBytes, List.length_map, List.length_range]

theorem byteBit_toBytes (b : Bitfield) (i : Nat) :
    byteBit b.toBytes i = (decide (i / 8 < byteCount b.width) && bitAt b.words i) := by
  by_cases h : i / 8 < byteCount b.width
  · have hword : i / 8 * 8 / 64 = i / 64 := by omega
    have hbit : i / 8 * 8 % 64 + i % 8 = i % 64 := by omega
    have hmod : i % 8 < 8 := Nat.mod_lt i (by omega)
    simp [byteBit, toBytes, bitAt, List.getD_eq_getElem?_getD, h, hword, hbit, hmod]
  · rw [byteBit_of_length_le (by rw [length_toBytes]; omega)]
    simp [h]

theorem WellFormed.byteBit_toBytes (h : b.WellFormed) (i : Nat) :
    byteBit b.toBytes i = b.get i := by
  rw [Bitfield.byteBit_toBytes, h.get_eq_bitAt]
  by_cases hi : i < b.width
  · have hbyte : i / 8 < byteCount b.width := by unfold byteCount; omega
    rw [decide_eq_true hbyte, Bool.true_and]
  · rw [h.padding i (by omega), Bool.and_false]

/-! ## Unpacking -/

theorem getLsbD_wordOfBytes (bytes : List (BitVec 8)) (hi : i < 64) :
    (wordOfBytes bytes).getLsbD i = byteBit bytes i := by
  induction bytes generalizing i with
  | nil => simp [wordOfBytes, byteBit]
  | cons byte bytes ih =>
    rw [wordOfBytes, BitVec.getLsbD_or, BitVec.getLsbD_setWidth, BitVec.getLsbD_shiftLeft,
      byteBit_cons]
    by_cases h : i < 8
    · simp [h, hi]
    · rw [ih (by omega), BitVec.getLsbD_of_ge byte i (by omega)]
      simp [h, hi]

theorem bitAt_map_range (n : Nat) (f : Nat → Word) (i : Nat) :
    bitAt ((List.range n).map f) i = (decide (i / 64 < n) && (f (i / 64)).getLsbD (i % 64)) := by
  unfold bitAt
  rw [List.getD_eq_getElem?_getD, List.getElem?_map]
  by_cases h : i / 64 < n <;> simp [h]

theorem fromBytes_wellFormed (width : Nat) (bytes : List (BitVec 8)) :
    (fromBytes width bytes).WellFormed :=
  clearPadding_wellFormed (by rw [List.length_map, List.length_range])

theorem get_fromBytes (width : Nat) (bytes : List (BitVec 8)) (i : Nat) :
    (fromBytes width bytes).get i = (decide (i < width) && byteBit bytes i) := by
  rw [(fromBytes_wellFormed width bytes).get_eq_bitAt, fromBytes,
    bitAt_clearPadding (by rw [List.length_map, List.length_range]), bitAt_map_range]
  by_cases hi : i < width
  · have hmod : i % 64 < 64 := Nat.mod_lt i (by omega)
    have hword : i / 64 < wordCount width := by unfold wordCount; omega
    have hbyte : i % 64 / 8 < 8 := by omega
    have hindex : 8 * (i / 64 * 8) + i % 64 = i := by omega
    rw [getLsbD_wordOfBytes _ hmod, byteBit_take, byteBit_drop, hindex, decide_eq_true hword,
      decide_eq_true hbyte, Bool.true_and, Bool.true_and]
  · simp [hi]

theorem WellFormed.fromBytes_toBytes (h : b.WellFormed) : fromBytes b.width b.toBytes = b := by
  refine (fromBytes_wellFormed b.width b.toBytes).eq_of_get h rfl fun i hi => ?_
  rw [get_fromBytes, h.byteBit_toBytes]
  simp [show i < b.width from hi]

theorem toBytes_fromBytes (width : Nat) (bytes : List (BitVec 8)) :
    (fromBytes width bytes).toBytes =
      clearBeyond width ((bytes.take (byteCount width)).rightpad (byteCount width) 0) := by
  apply eq_of_byteBit
  · rw [length_toBytes, clearBeyond, List.length_mapIdx, List.length_rightpad, List.length_take]
    exact (Nat.max_eq_left (Nat.min_le_left _ _)).symm
  · intro i
    rw [(fromBytes_wellFormed width bytes).byteBit_toBytes, get_fromBytes, byteBit_clearBeyond,
      byteBit_rightpad, byteBit_take]
    by_cases hi : i < width
    · have hbyte : i / 8 < byteCount width := by unfold byteCount; omega
      rw [decide_eq_true hbyte, Bool.true_and]
    · simp [hi]

/-! ## Byte by byte -/

/-- The byte of some words at an index, if there is a word for it. -/
def byteAt? (words : List Word) (k : Nat) : Option (BitVec 8) :=
  words[k * 8 / 64]?.map fun w : Word => (w >>> (k * 8 % 64)).setWidth 8

/-- The bits packed into bytes, each cut out of a word that must be there. -/
def toBytes? (b : Bitfield) : Option (List (BitVec 8)) :=
  (List.range (byteCount b.width)).mapM (byteAt? b.words)

/-- Put the byte of an index into its word, which must be there. -/
def putByte? (words : List Word) (k : Nat) (byte : BitVec 8) : Option (List Word) :=
  if k * 8 / 64 < words.length then
    some (words.modify (k * 8 / 64) (· ||| byte.setWidth 64 <<< (k * 8 % 64)))
  else none

/-- Put bytes into words, from an index on. -/
def putBytes? (words : List Word) (k : Nat) : List (BitVec 8) → Option (List Word)
  | [] => some words
  | byte :: rest => (putByte? words k byte).bind fun words => putBytes? words (k + 1) rest

/-- The bitfield that is packed into some bytes, put one by one into words that must be there. -/
def fromBytes? (width : Nat) (bytes : List (BitVec 8)) : Option Bitfield :=
  (putBytes? (List.replicate (wordCount width) 0) 0 (bytes.take (byteCount width))).map
    fun words => ⟨width, clearPadding width words⟩

theorem WellFormed.toBytes?_eq (h : b.WellFormed) : b.toBytes? = some b.toBytes := by
  have hbyte : ∀ k ∈ List.range (byteCount b.width), byteAt? b.words k =
      some ((b.words.getD (k * 8 / 64) 0 >>> (k * 8 % 64)).setWidth 8) := by
    intro k hk
    have hword : k * 8 / 64 < b.words.length := by
      have hcount := List.mem_range.mp hk
      rw [h.length_words]
      unfold byteCount at hcount
      unfold wordCount
      omega
    rw [byteAt?, List.getD_eq_getElem?_getD, List.getElem?_eq_getElem hword]
    rfl
  exact mapM_eq_some_iff.mpr (List.forall₂_map_right_iff.mpr (List.forall₂_same.mpr hbyte))

/-- A shifted byte of a word: its bits stand where the byte does. -/
theorem getLsbD_shifted_byte (hword : i / 64 = k * 8 / 64) :
    (byte.setWidth 64 <<< (k * 8 % 64)).getLsbD (i % 64) =
      (decide (i / 8 = k) && byte.getLsbD (i % 8)) := by
  rw [BitVec.getLsbD_shiftLeft, BitVec.getLsbD_setWidth]
  have hmod : i % 64 < 64 := Nat.mod_lt i (by omega)
  rcases Nat.lt_trichotomy (i / 8) k with hlt | heq | hgt
  · have hbelow : i % 64 < k * 8 % 64 := by omega
    simp [hbelow, Nat.ne_of_lt hlt]
  · have hwithin : ¬i % 64 < k * 8 % 64 := by omega
    have hbit : i % 64 - k * 8 % 64 = i % 8 := by omega
    have hsmall : i % 8 < 64 := by omega
    simp [hmod, hwithin, hbit, heq, hsmall]
  · have habove : 8 ≤ i % 64 - k * 8 % 64 := by omega
    rw [BitVec.getLsbD_of_ge byte _ habove]
    simp [Nat.ne_of_gt hgt]

/-- One byte is put in: its bits are added, and no other bit changes. -/
theorem exists_putByte? (byte : BitVec 8) (hk : k * 8 / 64 < words.length) :
    ∃ words', putByte? words k byte = some words' ∧ words'.length = words.length ∧
      ∀ i, bitAt words' i = (bitAt words i || (decide (i / 8 = k) && byte.getLsbD (i % 8))) := by
  refine ⟨_, if_pos hk, List.length_modify _ _ _, fun i => ?_⟩
  simp only [bitAt, List.getD_eq_getElem?_getD, List.getElem?_modify]
  by_cases hword : k * 8 / 64 = i / 64
  · have hi : i / 64 < words.length := hword ▸ hk
    simp only [hword, if_true, List.getElem?_eq_getElem hi, Option.map_eq_map, Option.map_some,
      Option.getD_some, BitVec.getLsbD_or, getLsbD_shifted_byte hword.symm]
  · have hne : i / 8 ≠ k := fun h => hword (by omega)
    simp [hword, hne]

/-- Bytes are put in one after the other: the words hold their bits besides those they had. -/
theorem exists_putBytes? (bytes : List (BitVec 8))
    (hk : ∀ j < bytes.length, (k + j) * 8 / 64 < words.length) :
    ∃ words', putBytes? words k bytes = some words' ∧ words'.length = words.length ∧
      ∀ i, bitAt words' i = (bitAt words i || (decide (8 * k ≤ i) && byteBit bytes (i - 8 * k))) := by
  induction bytes generalizing words k with
  | nil => exact ⟨words, rfl, rfl, fun i => by simp [byteBit]⟩
  | cons byte bytes ih =>
    have hfirst : k * 8 / 64 < words.length := hk 0 (by simp)
    obtain ⟨words₁, hput₁, hlength₁, hbit₁⟩ := exists_putByte? byte hfirst
    have hrest : ∀ j < bytes.length, (k + 1 + j) * 8 / 64 < words₁.length := by
      intro j hj
      rw [hlength₁, Nat.add_assoc, Nat.add_comm 1 j]
      exact hk (j + 1) (by simpa using hj)
    obtain ⟨words₂, hput₂, hlength₂, hbit₂⟩ := ih hrest
    refine ⟨words₂, ?_, hlength₂.trans hlength₁, fun i => ?_⟩
    · rw [putBytes?, hput₁]
      exact hput₂
    · rw [hbit₂, hbit₁, byteBit_cons, Bool.or_assoc]
      congr 1
      rcases Nat.lt_trichotomy (i / 8) k with hlt | heq | hgt
      · have hbefore : ¬8 * k ≤ i := by omega
        have hbefore' : ¬8 * (k + 1) ≤ i := by omega
        simp [hbefore, hbefore', Nat.ne_of_lt hlt]
      · have hfrom : 8 * k ≤ i := by omega
        have hbefore : ¬8 * (k + 1) ≤ i := by omega
        have hbit : i - 8 * k = i % 8 := by omega
        have hsmall : i % 8 < 8 := by omega
        simp [hfrom, hbefore, heq, hbit, hsmall]
      · have hfrom : 8 * k ≤ i := by omega
        have hfrom' : 8 * (k + 1) ≤ i := by omega
        have hlarge : ¬i - 8 * k < 8 := by omega
        have hindex : i - 8 * (k + 1) = i - 8 * k - 8 := by omega
        simp [hfrom, hfrom', hlarge, hindex, Nat.ne_of_gt hgt]

theorem fromBytes?_eq (width : Nat) (bytes : List (BitVec 8)) :
    fromBytes? width bytes = some (fromBytes width bytes) := by
  have hwithin : ∀ j < (bytes.take (byteCount width)).length,
      (0 + j) * 8 / 64 < (List.replicate (wordCount width) (0 : Word)).length := by
    intro j hj
    rw [List.length_take] at hj
    rw [List.length_replicate]
    unfold byteCount at hj
    unfold wordCount
    omega
  obtain ⟨words, hput, hlength, hbit⟩ := exists_putBytes? _ hwithin
  have hcount : words.length = wordCount width := hlength.trans List.length_replicate
  rw [fromBytes?, hput, Option.map_some]
  refine congrArg some ((clearPadding_wellFormed hcount).eq_of_get
    (fromBytes_wellFormed width bytes) rfl fun i hi => ?_)
  rw [(clearPadding_wellFormed hcount).get_eq_bitAt, bitAt_clearPadding hcount, hbit,
    bitAt_replicate, get_fromBytes, byteBit_take]
  have hbyte : i / 8 < byteCount width := by
    have hi' : i < width := hi
    unfold byteCount
    omega
  simp [hbyte]

/-! ## The encoding -/

/-- Some bytes hold the bits of a bitfield, low bit first, and zeros after them. -/
structure Packs (b : Bitfield) (bytes : List (BitVec 8)) : Prop where
  length : bytes.length = b.width ⌈/⌉ 8
  bit : ∀ i < b.width, byteBit bytes i = b.get i
  padding : ∀ i, b.width ≤ i → byteBit bytes i = false

/-- A bitfield holds of some bytes the bits below its width, and packs them as they are but for
their number and what lies beyond. -/
structure Unpacks (bytes : List (BitVec 8)) (b : Bitfield) : Prop where
  bit : ∀ i < b.width, b.get i = byteBit bytes i
  toBytes_eq : b.toBytes =
    clearBeyond b.width ((bytes.take (b.width ⌈/⌉ 8)).rightpad (b.width ⌈/⌉ 8) 0)

theorem WellFormed.packs_toBytes (h : b.WellFormed) : Packs b b.toBytes where
  length := (length_toBytes b).trans (byteCount_eq_ceilDiv b.width)
  bit i _ := h.byteBit_toBytes i
  padding i hi := (h.byteBit_toBytes i).trans (get_of_width_le b hi)

theorem unpacks_fromBytes (width : Nat) (bytes : List (BitVec 8)) :
    Unpacks bytes (fromBytes width bytes) where
  bit i hi := by
    have hi' : i < width := hi
    rw [get_fromBytes, decide_eq_true hi', Bool.true_and]
  toBytes_eq := by
    rw [toBytes_fromBytes, byteCount_eq_ceilDiv]
    rfl

/-- Packing loses nothing and adds only padding, and whatever bytes are unpacked, they are cut or
extended to the width.  No index leaves the words on the way. -/
theorem byteEncoding_exact :
    (∀ b : Bitfield, b.WellFormed →
      (∀ i < b.width, i / 64 < b.words.length) ∧ b.toBytes? = some b.toBytes ∧
        Packs b b.toBytes ∧ fromBytes b.width b.toBytes = b) ∧
    ∀ (width : Nat) (bytes : List (BitVec 8)),
      fromBytes? width bytes = some (fromBytes width bytes) ∧
        (fromBytes width bytes).WellFormed ∧ (fromBytes width bytes).width = width ∧
          Unpacks bytes (fromBytes width bytes) := by
  constructor
  · intro b h
    have hwords : ∀ i < b.width, i / 64 < b.words.length := by
      intro i hi
      rw [h.length_words]
      unfold wordCount
      omega
    exact ⟨hwords, h.toBytes?_eq, h.packs_toBytes, h.fromBytes_toBytes⟩
  · intro width bytes
    exact ⟨fromBytes?_eq width bytes, fromBytes_wellFormed width bytes, rfl,
      unpacks_fromBytes width bytes⟩

/-- The second and the last of sixty-six bits. -/
def spacedBits : Bitfield := ((new 66).set 1 true).set 65 true

theorem byteEncoding_exact_spacedBits :
    spacedBits.WellFormed ∧
      (spacedBits.toBytes? = some [2, 0, 0, 0, 0, 0, 0, 0, 2] ∧
        fromBytes 66 [2, 0, 0, 0, 0, 0, 0, 0, 2] = spacedBits) ∧
      (fromBytes? 10 [255, 255, 255] = some ⟨10, [1023]⟩ ∧
        (fromBytes 10 [255, 255, 255]).toBytes = [255, 3]) := by
  have hwf : spacedBits.WellFormed := ((new_wellFormed 66).set 1 true).set 65 true
  have hbytes : spacedBits.toBytes = [2, 0, 0, 0, 0, 0, 0, 0, 2] := by decide
  obtain ⟨-, hpacked, -, hback⟩ := byteEncoding_exact.1 spacedBits hwf
  obtain ⟨hread, -, hwidth, hunpacks⟩ := byteEncoding_exact.2 10 [255, 255, 255]
  rw [hbytes] at hpacked hback
  refine ⟨hwf, ⟨hpacked, hback⟩, hread.trans (by decide), hunpacks.toBytes_eq.trans ?_⟩
  rw [hwidth, ← byteCount_eq_ceilDiv]
  decide

end Bitfield
end TagGrammar
