import Mathlib.Tactic.SplitIfs
import StackTemplate.Text.Bytes

/-!
# The order of names

UTF-8 keeps the order of code points: where two characters differ, the encoding of the smaller one
has the smaller byte at the first place where the encodings differ, whatever follows them
(`utf8EncodeChar_lt`). So comparing texts by code points is comparing their bytes
(`precedes_iff`), and a list of names made by insertion is strictly ascending in the order of bytes
(`sortedDistinct_ascending`).
-/

namespace StackTemplate.Text

/-- The UTF-8 bytes of a text. -/
def bytes (s : String) : List UInt8 := s.toUTF8.data.toList

theorem bytes_eq_flatMap (s : String) : bytes s = s.toList.flatMap String.utf8EncodeChar := by
  rw [bytes, String.toUTF8, ← String.utf8Encode_toList, List.utf8Encode]
  exact List.toList_data_toByteArray

theorem bytes_inj {a b : String} (h : bytes a = bytes b) : a = b := by
  refine String.toByteArray_inj.mp (ByteArray.ext ?_)
  exact Array.toList_inj.mp h

/-! ### Encodings of characters -/

/-- Bytes given by numbers compare like the numbers. -/
theorem ofNat_cons_lt {m n : Nat} {as bs : List UInt8} (hm : m < 256) (hn : n < 256) :
    UInt8.ofNat m :: as < UInt8.ofNat n :: bs ↔ m < n ∨ m = n ∧ as < bs := by
  rw [List.cons_lt_cons_iff, UInt8.lt_iff_toNat_lt, ← UInt8.toNat_inj, UInt8.toNat_ofNat_of_lt' hm,
    UInt8.toNat_ofNat_of_lt' hn]

/-- A smaller number has the smaller digit in base 64 at the first place where the digits differ. -/
theorem digits_lt {v w : Nat} (h : v < w) :
    v / 262144 < w / 262144 ∨ v / 262144 = w / 262144 ∧
      (v / 4096 % 64 < w / 4096 % 64 ∨ v / 4096 % 64 = w / 4096 % 64 ∧
        (v / 64 % 64 < w / 64 % 64 ∨ v / 64 % 64 = w / 64 % 64 ∧ v % 64 < w % 64)) := by
  have hdigit : ∀ {v w : Nat}, v < w → v / 64 < w / 64 ∨ v / 64 = w / 64 ∧ v % 64 < w % 64 := by
    omega
  have hquotients : ∀ v : Nat, v / 4096 = v / 64 / 64 ∧ v / 262144 = v / 64 / 64 / 64 := by omega
  simp only [hquotients]
  rcases hdigit h with h | ⟨heq, h⟩
  · rcases hdigit h with h | ⟨heq, h⟩
    · exact (hdigit h).imp_right fun ⟨heq, h⟩ => ⟨heq, .inl h⟩
    · exact .inr ⟨congrArg (· / 64) heq, .inr ⟨congrArg (· % 64) heq, .inl h⟩⟩
  · exact .inr ⟨by rw [heq], .inr ⟨by rw [heq], .inr ⟨by rw [heq], h⟩⟩⟩

/-- Of two different characters, the smaller one has the smaller encoding, whatever follows. -/
theorem utf8EncodeChar_lt {a b : Char} (h : a.toNat < b.toNat) (as bs : List UInt8) :
    String.utf8EncodeChar a ++ as < String.utf8EncodeChar b ++ bs := by
  have hb : b.val.toNat < 0x110000 := by
    rcases b.valid with hlow | ⟨-, hhigh⟩
    · exact Nat.lt_trans hlow (by decide)
    · exact hhigh
  change a.val.toNat < b.val.toNat at h
  simp only [String.utf8EncodeChar]
  generalize a.val.toNat = v at *
  generalize b.val.toNat = w at *
  -- The bytes are digits in base 64 behind a mark for the length, which is larger for more digits.
  have hdigits := digits_lt h
  have hv : v / 262144 % 8 = v / 262144 := Nat.mod_eq_of_lt (by omega)
  have hw : w / 262144 % 8 = w / 262144 := Nat.mod_eq_of_lt (by omega)
  split_ifs <;>
    simp (disch := omega) only [List.cons_append, List.nil_append, ofNat_cons_lt, hv, hw] <;>
    omega

theorem append_lt_append_left {l as bs : List UInt8} : l ++ as < l ++ bs ↔ as < bs := by
  induction l with
  | nil => rfl
  | cons x l ih => rw [List.cons_append, List.cons_append, List.cons_lt_cons_self, ih]

/-! ### Texts -/

theorem precedesChars_iff (as bs : List Char) : precedesChars as bs = true ↔
    as.flatMap String.utf8EncodeChar < bs.flatMap String.utf8EncodeChar := by
  fun_induction precedesChars as bs with
  | case1 as => simp
  | case2 b bs =>
    have hne : String.utf8EncodeChar b ≠ [] := by
      rw [← List.length_pos_iff, String.length_utf8EncodeChar]
      exact b.utf8Size_pos
    obtain ⟨x, xs, hx⟩ := List.exists_cons_of_ne_nil hne
    simp [hx]
  | case3 a as b bs h =>
    simpa using utf8EncodeChar_lt h _ _
  | case4 a as b bs _ h =>
    have hgt := utf8EncodeChar_lt h (bs.flatMap String.utf8EncodeChar)
      (as.flatMap String.utf8EncodeChar)
    simpa using List.lt_asymm hgt
  | case5 a as b bs h h' ih =>
    obtain rfl : a = b := Char.toNat_inj.mp (by omega)
    rw [ih, List.flatMap_cons, List.flatMap_cons, append_lt_append_left]

theorem precedes_iff {a b : String} : precedes a b = true ↔ bytes a < bytes b := by
  rw [precedes, precedesChars_iff, bytes_eq_flatMap, bytes_eq_flatMap]

/-- Of two texts that do not precede each other, none is the smaller. -/
theorem eq_of_not_precedes {a b : String} (h : ¬ precedes a b = true) (h' : ¬ precedes b a = true) :
    a = b := by
  rw [precedes_iff, List.not_lt] at h h'
  exact bytes_inj (List.le_antisymm h' h)

/-! ### Ascending lists of names -/

/-- The names are strictly ascending in the order of their bytes. -/
def Ascending (names : List String) : Prop :=
  names.Pairwise fun a b => bytes a < bytes b

theorem mem_insertSorted {name x : String} (names : List String) :
    x ∈ insertSorted name names ↔ x = name ∨ x ∈ names := by
  fun_induction insertSorted name names with
  | case1 => simp
  | case2 first rest h => simp
  | case3 first rest _ h ih => simp [ih, or_left_comm]
  | case4 first rest h h' =>
    rw [eq_of_not_precedes h h']
    simp

/-- Inserting keeps a list ascending: all that follows the place of the new name is greater. -/
theorem insertSorted_ascending (name : String) {names : List String} (h : Ascending names) :
    Ascending (insertSorted name names) := by
  unfold Ascending at *
  fun_induction insertSorted name names with
  | case1 => exact List.pairwise_singleton _ _
  | case2 first rest hlt =>
    obtain ⟨hfirst, -⟩ := List.pairwise_cons.mp h
    refine List.pairwise_cons.mpr ⟨fun x hx => ?_, h⟩
    rcases List.mem_cons.mp hx with rfl | hx
    · exact precedes_iff.mp hlt
    · exact List.lt_trans (precedes_iff.mp hlt) (hfirst x hx)
  | case3 first rest _ hlt ih =>
    obtain ⟨hfirst, hrest⟩ := List.pairwise_cons.mp h
    refine List.pairwise_cons.mpr ⟨fun x hx => ?_, ih hrest⟩
    rcases (mem_insertSorted rest).mp hx with rfl | hx
    · exact precedes_iff.mp hlt
    · exact hfirst x hx
  | case4 first rest => exact h

theorem mem_sortedDistinct {x : String} (names : List String) :
    x ∈ sortedDistinct names ↔ x ∈ names := by
  induction names with
  | nil => rfl
  | cons name names ih =>
    rw [sortedDistinct, List.foldr_cons, mem_insertSorted, List.mem_cons]
    exact or_congr_right ih

theorem sortedDistinct_ascending (names : List String) : Ascending (sortedDistinct names) := by
  induction names with
  | nil => exact List.Pairwise.nil
  | cons name names ih => exact insertSorted_ascending name ih

end StackTemplate.Text
