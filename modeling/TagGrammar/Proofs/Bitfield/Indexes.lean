/-
Bitfields as sets of indexes.

`Built` are the bitfields that the operations make of each other, in any order.  They are the
well-formed ones (`built_iff`).  So what looks at whole words, equality, inclusion and counting,
depends on the bits below the width alone, and the bits are changed one by one
(`built_sets_of_indexes`).
-/
import TagGrammar.Increasing
import TagGrammar.Proofs.Bitfield.Bytes

namespace TagGrammar
namespace Bitfield

variable {a b : Bitfield} {width : Nat} {words : List Word}

/-! ## Built bitfields -/

/-- A bitfield that is made, read from bytes or words, or changed within its width. -/
inductive Built : Bitfield → Prop where
  | new (width : Nat) : Built (new width)
  | filled (width : Nat) : Built (filled width)
  | fromBytes (width : Nat) (bytes : List (BitVec 8)) : Built (fromBytes width bytes)
  | ofWords {width : Nat} {words : List Word} {b : Bitfield} (h : ofWords? width words = some b) :
    Built b
  | set {b : Bitfield} {i : Nat} (h : Built b) (hi : i < b.width) (value : Bool) :
    Built (b.set i value)
  | intersect {a b : Bitfield} (ha : Built a) (hb : Built b) (hw : a.width = b.width) :
    Built (a.intersect b)

theorem ofWords?_wellFormed (h : ofWords? width words = some b) : b.WellFormed := by
  unfold ofWords? at h
  split at h
  · rename_i hlength
    cases h
    exact clearPadding_wellFormed hlength
  · cases h

theorem Built.wellFormed (h : Built b) : b.WellFormed := by
  induction h with
  | new width => exact new_wellFormed width
  | filled width => exact filled_wellFormed width
  | fromBytes width bytes => exact fromBytes_wellFormed width bytes
  | ofWords h => exact ofWords?_wellFormed h
  | set h hi value ih => exact ih.set _ value
  | intersect ha hb hw iha ihb => exact iha.intersect ihb hw

theorem built_iff : Built b ↔ b.WellFormed :=
  ⟨Built.wellFormed, fun h => h.fromBytes_toBytes ▸ Built.fromBytes b.width b.toBytes⟩

/-! ## Inclusion -/

theorem and_eq_left_iff {w v : Word} :
    w &&& v = w ↔ ∀ j < 64, w.getLsbD j = true → v.getLsbD j = true := by
  rw [BitVec.eq_of_getLsbD_eq_iff]
  refine forall₂_congr fun j _ => ?_
  rw [BitVec.getLsbD_and, Bool.and_eq_left_iff_imp]

theorem all_zip_and_iff {words' : List Word} (hlength : words.length = words'.length) :
    ((words.zip words').all fun p => p.1 &&& p.2 == p.1) = true ↔
      ∀ i, bitAt words i = true → bitAt words' i = true := by
  have hword : ((words.zip words').all fun p => p.1 &&& p.2 == p.1) = true ↔
      ∀ (k : Nat) (hk : k < words.length), words[k] &&& words'[k] = words[k] := by
    simp only [List.all_eq_true, beq_iff_eq, List.forall_mem_iff_getElem, List.length_zip,
      List.getElem_zip, ← hlength, Nat.min_self]
  rw [hword]
  constructor
  · intro h i hi
    have hk : i / 64 < words.length := by
      by_contra hk
      rw [bitAt_of_length_le (by omega)] at hi
      cases hi
    have hindex : 64 * (i / 64) + i % 64 = i := by omega
    have hmod : i % 64 < 64 := Nat.mod_lt i (by omega)
    rw [← hindex, bitAt_of_word hk hmod] at hi
    rw [← hindex, bitAt_of_word (hlength ▸ hk) hmod]
    exact and_eq_left_iff.mp (h _ hk) _ hmod hi
  · intro h k hk
    refine and_eq_left_iff.mpr fun j hj hbit => ?_
    rw [← bitAt_of_word (hlength ▸ hk) hj]
    exact h _ ((bitAt_of_word hk hj).trans hbit)

theorem WellFormed.isSubsetOf_iff (ha : a.WellFormed) (hb : b.WellFormed) :
    a.isSubsetOf b = true ↔ a.width = b.width ∧ ∀ i, a.get i = true → b.get i = true := by
  rw [isSubsetOf, Bool.and_eq_true, beq_iff_eq]
  refine and_congr_right fun hw => ?_
  have hlength : a.words.length = b.words.length := by
    rw [ha.length_words, hb.length_words, hw]
  simp only [all_zip_and_iff hlength, ha.get_eq_bitAt, hb.get_eq_bitAt]

/-! ## Counting -/

theorem bitAt_cons (w : Word) (words : List Word) (i : Nat) :
    bitAt (w :: words) i = if i < 64 then w.getLsbD i else bitAt words (i - 64) :=
  getLsbD_getD_cons (by decide) w words i

/-- The bits of all words, counted word by word. -/
theorem countP_bitAt (words : List Word) :
    (List.range (64 * words.length)).countP (bitAt words) =
      words.foldr (fun w n => wordOnes w + n) 0 := by
  induction words with
  | nil => rfl
  | cons w words ih =>
    have hlength : 64 * (w :: words).length = 64 + 64 * words.length := by
      rw [List.length_cons]
      omega
    have hfirst : (List.range 64).countP (bitAt (w :: words)) = wordOnes w :=
      List.countP_congr fun i hi => by rw [bitAt_cons, if_pos (List.mem_range.mp hi)]
    have hrest : (List.range (64 * words.length)).countP (bitAt (w :: words) ∘ (64 + ·)) =
        (List.range (64 * words.length)).countP (bitAt words) :=
      List.countP_congr fun i _ => by simp [bitAt_cons]
    rw [hlength, List.range_add, List.countP_append, List.countP_map, List.foldr_cons, ← ih,
      hfirst, hrest]

theorem WellFormed.countOnes_eq (h : b.WellFormed) : b.countOnes = b.ones.length := by
  obtain ⟨rest, hrest⟩ : ∃ rest, 64 * b.words.length = b.width + rest := by
    have hlength := h.length_words
    unfold wordCount at hlength
    exact ⟨64 * b.words.length - b.width, by omega⟩
  have hbeyond : ((List.range rest).map (b.width + ·)).countP (bitAt b.words) = 0 := by
    rw [List.countP_eq_zero]
    intro i hi
    obtain ⟨j, -, rfl⟩ := List.mem_map.mp hi
    simp [h.padding (b.width + j) (by omega)]
  calc b.countOnes
      = (List.range (64 * b.words.length)).countP (bitAt b.words) := (countP_bitAt b.words).symm
    _ = (List.range b.width).countP (bitAt b.words) := by
      rw [hrest, List.range_add, List.countP_append, hbeyond, Nat.add_zero]
    _ = (List.range b.width).countP b.get :=
      List.countP_congr fun i _ => by rw [h.get_eq_bitAt]
    _ = b.ones.length := List.countP_eq_length_filter

theorem mem_ones_iff {i : Nat} : i ∈ b.ones ↔ b.get i = true := by
  rw [ones, List.mem_filter, List.mem_range, and_iff_right_iff_imp]
  intro h
  by_contra hi
  rw [get_of_width_le b (Nat.le_of_not_lt hi)] at h
  cases h

theorem increasing_ones (b : Bitfield) : Increasing b.ones :=
  Increasing.filter List.pairwise_lt_range b.get

/-! ## Sets of indexes -/

/-- A bitfield is the set of the indexes at which it is set: its words hold nothing else, and
counting, listing and changing it say and do what they would to that set. -/
structure IsSetOfIndexes (a : Bitfield) : Prop where
  length_words : a.words.length = a.width ⌈/⌉ 64
  padding : ∀ i, a.width ≤ i → bitAt a.words i = false
  countOnes_eq : a.countOnes = a.ones.length
  mem_ones_iff : ∀ i, i ∈ a.ones ↔ a.get i = true
  increasing_ones : Increasing a.ones
  width_set : ∀ i value, (a.set i value).width = a.width
  get_set : ∀ i < a.width, ∀ value j,
    (a.set i value).get j = if i = j then value else a.get j

/-- Two bitfields are compared and intersected as the sets of their indexes. -/
structure ComparedByIndexes (a b : Bitfield) : Prop where
  beq_iff : (a == b) = true ↔ a.width = b.width ∧ ∀ i, a.get i = b.get i
  isSubsetOf_iff :
    a.isSubsetOf b = true ↔ a.width = b.width ∧ ∀ i, a.get i = true → b.get i = true
  width_intersect : (a.intersect b).width = a.width
  get_intersect : a.width = b.width → ∀ i, (a.intersect b).get i = (a.get i && b.get i)

theorem WellFormed.isSetOfIndexes (h : a.WellFormed) : IsSetOfIndexes a where
  length_words := h.length_words.trans (wordCount_eq_ceilDiv a.width)
  padding := h.padding
  countOnes_eq := h.countOnes_eq
  mem_ones_iff _ := mem_ones_iff
  increasing_ones := increasing_ones a
  width_set := width_set a
  get_set _ hi value j := h.get_set hi value j

theorem WellFormed.comparedByIndexes (ha : a.WellFormed) (hb : b.WellFormed) :
    ComparedByIndexes a b where
  beq_iff := by
    rw [beq_iff_eq]
    constructor
    · rintro rfl
      exact ⟨rfl, fun _ => rfl⟩
    · rintro ⟨hw, hget⟩
      exact ha.eq_of_get hb hw fun i _ => hget i
  isSubsetOf_iff := ha.isSubsetOf_iff hb
  width_intersect := rfl
  get_intersect := ha.get_intersect hb

/-- Whatever is done to bitfields, each remains the set of its indexes, and any two are compared
and intersected as such. -/
theorem built_sets_of_indexes (ha : Built a) (hb : Built b) :
    IsSetOfIndexes a ∧ ComparedByIndexes a b :=
  ⟨ha.wellFormed.isSetOfIndexes, ha.wellFormed.comparedByIndexes hb.wellFormed⟩

/-- Three of seventy bits, the last one among them. -/
def maskedBits : Bitfield :=
  (filled 70).intersect (fromBytes 70 [129, 0, 0, 0, 0, 0, 0, 0, 224])

theorem built_sets_of_indexes_maskedBits :
    ofWords? 70 [BitVec.allOnes 64, BitVec.allOnes 64] = some (filled 70) ∧ Built maskedBits ∧
      maskedBits.words.length = 2 ∧ maskedBits.countOnes = 3 ∧
      maskedBits.isSubsetOf (filled 70) = true ∧ (maskedBits == filled 70) = false ∧
      ∀ j, (maskedBits.set 69 false).get j = if 69 = j then false else maskedBits.get j := by
  -- the padding of the last word is set
  have hwords : ofWords? 70 [BitVec.allOnes 64, BitVec.allOnes 64] = some (filled 70) := by rfl
  have hmasked : Built maskedBits := .intersect (.filled 70) (.fromBytes 70 _) rfl
  obtain ⟨hset, hcompared⟩ := built_sets_of_indexes hmasked (Built.ofWords hwords)
  have hones : maskedBits.ones = [0, 7, 69] := by decide
  have hsubset : ∀ i, maskedBits.get i = true → (filled 70).get i = true := by
    have hall : ∀ i ∈ [0, 7, 69], (filled 70).get i = true := by decide
    exact fun i hi => hall i (hones ▸ (hset.mem_ones_iff i).mpr hi)
  refine ⟨hwords, hmasked, hset.length_words, ?_, hcompared.isSubsetOf_iff.mpr ⟨rfl, hsubset⟩,
    ?_, hset.get_set 69 (by decide) false⟩
  · rw [hset.countOnes_eq, hones]
    rfl
  · refine Bool.eq_false_iff.mpr fun h => ?_
    have hbit := (hcompared.beq_iff.mp h).2 1
    exact absurd hbit (by decide)

end Bitfield
end TagGrammar
