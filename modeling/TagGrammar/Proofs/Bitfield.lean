/-
Bitfields through their bits.

`bitAt` reads a bit of packed words without looking at a width.  A bitfield is well formed
if it has as many words as its width takes and its padding is clear, `WellFormed`; then
`get` and `bitAt` agree, and every operation is described by the bits that can be read
afterwards.
-/
import TagGrammar.Bitfield

namespace TagGrammar
namespace Bitfield

/-- The bit at an index of some packed words.  Bits beyond the words read as cleared. -/
def bitAt (words : List Word) (i : Nat) : Bool := (words.getD (i / 64) 0).getLsbD (i % 64)

/-- As many words as the width takes, and nothing set beyond the width. -/
structure WellFormed (b : Bitfield) : Prop where
  length_words : b.words.length = wordCount b.width
  padding : ∀ i, b.width ≤ i → bitAt b.words i = false

theorem get_eq_and (b : Bitfield) (i : Nat) :
    b.get i = (decide (i < b.width) && bitAt b.words i) := by
  by_cases h : i < b.width
  · simp [get, bitAt, h]
  · simp [get, h]

theorem WellFormed.get_eq_bitAt {b : Bitfield} (h : b.WellFormed) (i : Nat) :
    b.get i = bitAt b.words i := by
  rw [get_eq_and]
  by_cases hi : i < b.width
  · simp [hi]
  · simp [hi, h.padding i (by omega)]

theorem bitAt_of_word {words : List Word} {k j : Nat} (hk : k < words.length) (hj : j < 64) :
    bitAt words (64 * k + j) = words[k].getLsbD j := by
  have hdiv : (64 * k + j) / 64 = k := by omega
  have hmod : (64 * k + j) % 64 = j := by omega
  rw [bitAt, hdiv, hmod, List.getD_eq_getElem?_getD, List.getElem?_eq_getElem hk, Option.getD_some]

/-- The words of two bitfields of one width that read the same are the same. -/
theorem WellFormed.eq_of_get {a b : Bitfield} (ha : a.WellFormed) (hb : b.WellFormed)
    (hw : a.width = b.width) (h : ∀ i < a.width, a.get i = b.get i) : a = b := by
  have hbits : ∀ i, bitAt a.words i = bitAt b.words i := by
    intro i
    by_cases hi : i < a.width
    · rw [← ha.get_eq_bitAt, ← hb.get_eq_bitAt, h i hi]
    · rw [ha.padding i (by omega), hb.padding i (by omega)]
  have hwords : a.words = b.words := by
    refine List.ext_getElem (by rw [ha.length_words, hb.length_words, hw]) fun k hka hkb => ?_
    refine BitVec.eq_of_getLsbD_eq fun j hj => ?_
    rw [← bitAt_of_word hka hj, ← bitAt_of_word hkb hj, hbits]
  cases a
  cases b
  cases hw
  cases hwords
  rfl

/-! ## Words -/

theorem getLsbD_lowBits {n i : Nat} (hi : i < 64) : (lowBits n).getLsbD i = decide (i < n) := by
  rw [lowBits, BitVec.getLsbD_ofNat, Nat.one_shiftLeft, Nat.testBit_two_pow_sub_one]
  simp [hi]

theorem getLsbD_oneBit {i j : Nat} (hj : j < 64) : (oneBit i).getLsbD j = decide (i = j) := by
  rw [oneBit, BitVec.getLsbD_shiftLeft, BitVec.getLsbD_one]
  by_cases h : i = j
  · subst h
    simp [hj]
  · by_cases hlt : j < i
    · simp [hlt, h]
    · have hne : j - i ≠ 0 := by omega
      simp [h, hne]

theorem getLsbD_setBit {w : Word} {i j : Nat} (hj : j < 64) (value : Bool) :
    (setBit w i value).getLsbD j = if i = j then value else w.getLsbD j := by
  cases value with
  | true =>
    rw [setBit, if_pos rfl, BitVec.getLsbD_or, getLsbD_oneBit hj]
    by_cases h : i = j <;> simp [h]
  | false =>
    rw [setBit, if_neg Bool.false_ne_true, BitVec.getLsbD_and, BitVec.getLsbD_not,
      getLsbD_oneBit hj]
    by_cases h : i = j <;> simp [h, hj]

theorem bitAt_of_length_le {words : List Word} {i : Nat} (h : words.length ≤ i / 64) :
    bitAt words i = false := by
  simp [bitAt, List.getD_eq_getElem?_getD, List.getElem?_eq_none h]

theorem bitAt_replicate (n : Nat) (w : Word) (i : Nat) :
    bitAt (List.replicate n w) i = (decide (i / 64 < n) && w.getLsbD (i % 64)) := by
  unfold bitAt
  rw [List.getD_eq_getElem?_getD, List.getElem?_replicate]
  by_cases h : i / 64 < n <;> simp [h]

/-- The mask is put on the last word alone. -/
theorem getD_maskLast (mask : Word) (words : List Word) (k : Nat) :
    (maskLast mask words).getD k 0 =
      if k + 1 = words.length then words.getD k 0 &&& mask else words.getD k 0 := by
  induction words generalizing k with
  | nil => simp [maskLast]
  | cons w rest ih =>
    cases rest with
    | nil =>
      cases k with
      | zero => simp [maskLast]
      | succ k => simp [maskLast]
    | cons w' rest =>
      show (w :: maskLast mask (w' :: rest)).getD k 0 = _
      cases k with
      | zero => simp
      | succ k =>
        rw [List.getD_cons_succ, ih, List.getD_cons_succ]
        simp

/-- Clearing the padding of words of the right number leaves the bits below the width. -/
theorem bitAt_clearPadding {width : Nat} {words : List Word}
    (h : words.length = wordCount width) (i : Nat) :
    bitAt (clearPadding width words) i = (decide (i < width) && bitAt words i) := by
  unfold wordCount at h
  unfold clearPadding
  split
  · by_cases hi : i < width
    · simp [hi]
    · rw [bitAt_of_length_le (by omega)]
      simp [hi]
  · unfold bitAt
    rw [getD_maskLast]
    split
    · rw [BitVec.getLsbD_and, getLsbD_lowBits (Nat.mod_lt i (by omega)), Bool.and_comm]
      have hiff : i % 64 < width % 64 ↔ i < width := by omega
      simp [hiff]
    · by_cases hi : i < width
      · simp [hi]
      · have hbeyond : words.length ≤ i / 64 := by omega
        simp [hi, List.getD_eq_getElem?_getD, List.getElem?_eq_none hbeyond]

/-! ## Operations -/

theorem new_wellFormed (width : Nat) : (new width).WellFormed where
  length_words := List.length_replicate
  padding i _ := by simp [new, bitAt_replicate]

theorem get_new (width i : Nat) : (new width).get i = false := by
  simp [get_eq_and, new, bitAt_replicate]

/-- Words whose padding has been cleared make a well-formed bitfield. -/
theorem clearPadding_wellFormed {width : Nat} {words : List Word}
    (h : words.length = wordCount width) :
    (Bitfield.mk width (clearPadding width words)).WellFormed where
  length_words := (length_clearPadding width words).trans h
  padding i hi := by
    rw [bitAt_clearPadding h]
    simp [Nat.not_lt.mpr hi]

theorem filled_wellFormed (width : Nat) : (filled width).WellFormed :=
  clearPadding_wellFormed List.length_replicate

theorem get_filled {width i : Nat} (hi : i < width) : (filled width).get i = true := by
  rw [(filled_wellFormed width).get_eq_bitAt]
  show bitAt (clearPadding width _) i = true
  rw [bitAt_clearPadding List.length_replicate, bitAt_replicate, BitVec.getLsbD_allOnes]
  have hw : i / 64 < wordCount width := by unfold wordCount; omega
  have hm : i % 64 < 64 := Nat.mod_lt i (by omega)
  simp [hi, hw, hm]

theorem width_set (b : Bitfield) (i : Nat) (value : Bool) : (b.set i value).width = b.width := by
  unfold set
  split <;> rfl

/-- Setting a bit within the width changes that bit of the words and no other. -/
theorem WellFormed.bitAt_set {b : Bitfield} (h : b.WellFormed) {i : Nat} (hi : i < b.width)
    (value : Bool) (j : Nat) :
    bitAt (b.set i value).words j = if i = j then value else bitAt b.words j := by
  have hlen := h.length_words
  unfold wordCount at hlen
  rw [set, if_pos hi]
  unfold bitAt
  simp only [List.getD_eq_getElem?_getD, List.getElem?_modify]
  by_cases hw : i / 64 = j / 64
  · have hj : j / 64 < b.words.length := by omega
    have hiff : i % 64 = j % 64 ↔ i = j := by omega
    simp only [hw, if_true, List.getElem?_eq_getElem hj, Option.map_eq_map, Option.map_some,
      Option.getD_some]
    rw [getLsbD_setBit (Nat.mod_lt j (by omega))]
    simp [hiff]
  · have hne : i ≠ j := fun e => hw (by rw [e])
    simp [hw, hne]

theorem WellFormed.set {b : Bitfield} (h : b.WellFormed) (i : Nat) (value : Bool) :
    (b.set i value).WellFormed := by
  by_cases hi : i < b.width
  · constructor
    · rw [width_set, ← h.length_words]
      simp [Bitfield.set, hi]
    · intro j hj
      rw [width_set] at hj
      rw [h.bitAt_set hi, if_neg (by omega)]
      exact h.padding j hj
  · rwa [Bitfield.set, if_neg hi]

theorem WellFormed.get_set {b : Bitfield} (h : b.WellFormed) {i : Nat} (hi : i < b.width)
    (value : Bool) (j : Nat) : (b.set i value).get j = if i = j then value else b.get j := by
  rw [(h.set i value).get_eq_bitAt, h.get_eq_bitAt, h.bitAt_set hi]

/-- A bit below the width after any bit has been set, within the width or not. -/
theorem WellFormed.get_set_of_lt {b : Bitfield} (h : b.WellFormed) {j : Nat} (hj : j < b.width)
    (i : Nat) (value : Bool) : (b.set i value).get j = if i = j then value else b.get j := by
  by_cases hi : i < b.width
  · exact h.get_set hi value j
  · rw [Bitfield.set, if_neg hi, if_neg (by omega)]

/-- The bits of an intersection are set in both, whatever the words of the second are
beyond the width. -/
theorem WellFormed.bitAt_intersect {a b : Bitfield} (ha : a.WellFormed)
    (hb : b.WellFormed) (hw : a.width = b.width) (i : Nat) :
    bitAt (a.intersect b).words i = (bitAt a.words i && bitAt b.words i) := by
  have hlen : a.words.length = b.words.length := by
    rw [ha.length_words, hb.length_words, hw]
  unfold bitAt intersect
  simp only [List.getD_eq_getElem?_getD, List.getElem?_zipWith]
  by_cases hi : i / 64 < a.words.length
  · simp [List.getElem?_eq_getElem hi, List.getElem?_eq_getElem (hlen ▸ hi)]
  · simp [List.getElem?_eq_none (Nat.not_lt.mp hi)]

theorem WellFormed.intersect {a b : Bitfield} (ha : a.WellFormed) (hb : b.WellFormed)
    (hw : a.width = b.width) : (a.intersect b).WellFormed where
  length_words := by
    show (a.words.zipWith (· &&& ·) b.words).length = wordCount a.width
    rw [List.length_zipWith, ha.length_words, hb.length_words, hw, Nat.min_self]
  padding i hi := by
    rw [ha.bitAt_intersect hb hw, ha.padding i hi, Bool.false_and]

theorem WellFormed.get_intersect {a b : Bitfield} (ha : a.WellFormed) (hb : b.WellFormed)
    (hw : a.width = b.width) (i : Nat) : (a.intersect b).get i = (a.get i && b.get i) := by
  rw [(ha.intersect hb hw).get_eq_bitAt, ha.get_eq_bitAt, hb.get_eq_bitAt,
    ha.bitAt_intersect hb hw]

end Bitfield
end TagGrammar
