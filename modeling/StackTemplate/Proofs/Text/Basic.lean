import Mathlib.Data.List.TakeDrop
import Mathlib.Data.List.TakeWhile
import StackTemplate.Text.Bytes
import StackTemplate.Text.Split

/-!
# Cuts and first occurrences

A cut at the first dot loses that dot and leaves none before it; a cut at the last dot leaves none
after it. So a cut is known by what stands on its two sides.
-/

namespace StackTemplate.Text

variable {s before after : String} {cs before' after' : List Char}

theorem bne_dot (hnone : '.' ∉ cs) : ∀ c ∈ cs, (c != '.') = true := by
  intro c hc
  rw [bne_iff_ne]
  exact fun heq => hnone (heq ▸ hc)

/-- The characters before the first dot, and the rest from it on. -/
theorem span_dot (hnone : '.' ∉ before') :
    (before' ++ '.' :: after').span (· != '.') = (before', '.' :: after') := by
  have hall := bne_dot hnone
  rw [List.span_eq_takeWhile_dropWhile, List.takeWhile_append_of_pos hall,
    List.dropWhile_append_of_pos hall]
  simp

/-- Without a dot nothing is left over. -/
theorem span_of_no_dot (hnone : '.' ∉ cs) : cs.span (· != '.') = (cs, []) := by
  have hall := bne_dot hnone
  rw [List.span_eq_takeWhile_dropWhile, List.takeWhile_eq_self_iff.mpr hall,
    List.dropWhile_eq_nil_iff.mpr hall]

theorem cutAtFirstDot?_eq_none : cutAtFirstDot? s = none ↔ '.' ∉ s.toList := by
  unfold cutAtFirstDot?
  constructor
  · intro h hmem
    obtain ⟨as, bs, heq, hnone⟩ := List.eq_append_cons_of_mem hmem
    rw [heq, span_dot hnone] at h
    cases h
  · intro h
    rw [span_of_no_dot h]

theorem cutAtFirstDot?_eq_some : cutAtFirstDot? s = some (before, after) ↔
    s.toList = before.toList ++ '.' :: after.toList ∧ '.' ∉ before.toList := by
  constructor
  · intro h
    have hmem : '.' ∈ s.toList := by
      by_contra hnone
      rw [cutAtFirstDot?_eq_none.mpr hnone] at h
      cases h
    obtain ⟨as, bs, heq, hnone⟩ := List.eq_append_cons_of_mem hmem
    rw [cutAtFirstDot?, heq, span_dot hnone] at h
    obtain ⟨rfl, rfl⟩ := Prod.mk.inj (Option.some.inj h)
    rw [String.toList_ofList, String.toList_ofList]
    exact ⟨heq, hnone⟩
  · rintro ⟨heq, hnone⟩
    rw [cutAtFirstDot?, heq, span_dot hnone]
    simp

theorem cutAtLastDot?_eq_none : cutAtLastDot? s = none ↔ '.' ∉ s.toList := by
  unfold cutAtLastDot?
  constructor
  · intro h hmem
    obtain ⟨as, bs, heq, hnone⟩ := List.eq_append_cons_of_mem (List.mem_reverse.mpr hmem)
    rw [heq, span_dot hnone] at h
    cases h
  · intro h
    rw [span_of_no_dot fun hmem => h (List.mem_reverse.mp hmem)]

theorem cutAtLastDot?_eq_some : cutAtLastDot? s = some (before, after) ↔
    s.toList = before.toList ++ '.' :: after.toList ∧ '.' ∉ after.toList := by
  constructor
  · intro h
    have hmem : '.' ∈ s.toList := by
      by_contra hnone
      rw [cutAtLastDot?_eq_none.mpr hnone] at h
      cases h
    obtain ⟨as, bs, heq, hnone⟩ := List.eq_append_cons_of_mem (List.mem_reverse.mpr hmem)
    rw [cutAtLastDot?, heq, span_dot hnone] at h
    obtain ⟨rfl, rfl⟩ := Prod.mk.inj (Option.some.inj h)
    rw [String.toList_ofList, String.toList_ofList, List.mem_reverse]
    refine ⟨?_, hnone⟩
    simpa using congrArg List.reverse heq
  · rintro ⟨heq, hnone⟩
    have hreverse : s.toList.reverse = after.toList.reverse ++ '.' :: before.toList.reverse := by
      simp [heq]
    rw [cutAtLastDot?, hreverse, span_dot fun hmem => hnone (List.mem_reverse.mp hmem)]
    simp

theorem byteSize_append (cs ds : List Char) :
    byteSize (cs ++ ds) = byteSize cs + byteSize ds := by
  induction cs with
  | nil => simp [byteSize]
  | cons c cs ih =>
    rw [List.cons_append, byteSize, byteSize, ih, Nat.add_assoc]

/-- Both ways to measure text count UTF-8 bytes. -/
theorem utf8ByteSize_eq (s : String) : s.utf8ByteSize = byteSize s.toList := by
  rw [← String.ofList_toList (s := s), String.toList_ofList]
  induction s.toList with
  | nil => rfl
  | cons c cs ih =>
    rw [String.ofList_cons, String.utf8ByteSize_append, String.utf8ByteSize_singleton, ih, byteSize]

theorem mem_firstOccurrences {α : Type} [DecidableEq α] {x : α} (xs : List α) :
    x ∈ firstOccurrences xs ↔ x ∈ xs := by
  have hstep : ∀ xs seen : List α, x ∈ xs.foldl
      (fun seen y => if y ∈ seen then seen else seen ++ [y]) seen ↔ x ∈ seen ∨ x ∈ xs := by
    intro xs
    induction xs with
    | nil => simp
    | cons y ys ih =>
      intro seen
      rw [List.foldl_cons, ih]
      split <;> grind
  simp [firstOccurrences, hstep]

end StackTemplate.Text
