/-!
# Cutting text

Three cuts: at every occurrence of a separator from left to right, at the first dot, and at the
last dot.
-/

namespace StackTemplate.Text

/-- What follows a given beginning, if the text begins with it. -/
def afterLead? : List Char → List Char → Option (List Char)
  | [], text => some text
  | _ :: _, [] => none
  | l :: lead, c :: text => if l = c then afterLead? lead text else none

/-- What follows a beginning is shorter than the text by the length of that beginning. -/
theorem length_of_afterLead? {lead text rest : List Char} (h : afterLead? lead text = some rest) :
    text.length = lead.length + rest.length := by
  induction lead generalizing text with
  | nil => simp_all [afterLead?]
  | cons l lead ih =>
    cases text with
    | nil => simp [afterLead?] at h
    | cons c text =>
      simp only [afterLead?] at h
      split at h
      · have := ih h
        simp only [List.length_cons]
        omega
      · simp at h

/-- Puts a character in front of the first piece. -/
def consFirst (c : Char) : List (List Char) → List (List Char)
  | [] => [[c]]
  | piece :: pieces => (c :: piece) :: pieces

/-- The pieces between the occurrences of the separator `s :: sep`, taken from left to right
without overlap. There is always one piece more than there are occurrences. -/
def splitAtEvery (s : Char) (sep : List Char) : List Char → List (List Char)
  | [] => [[]]
  | c :: cs =>
    match h : afterLead? (s :: sep) (c :: cs) with
    | some rest =>
      have := length_of_afterLead? h
      [] :: splitAtEvery s sep rest
    | none => consFirst c (splitAtEvery s sep cs)
termination_by cs => cs.length
decreasing_by
  · simp_all only [List.length_cons]
    omega
  · simp

/-- The pieces of `text` between the occurrences of `separator`; an empty separator cuts nothing
and gives no answer. -/
def splitOn? (separator text : String) : Option (List String) :=
  match separator.toList with
  | [] => none
  | s :: sep => some ((splitAtEvery s sep text.toList).map String.ofList)

/-- The parts before and after the first dot, if there is one. -/
def cutAtFirstDot? (s : String) : Option (String × String) :=
  match s.toList.span (· != '.') with
  | (_, []) => none
  | (before, _ :: after) => some (String.ofList before, String.ofList after)

/-- The parts before and after the last dot, if there is one. -/
def cutAtLastDot? (s : String) : Option (String × String) :=
  match s.toList.reverse.span (· != '.') with
  | (_, []) => none
  | (after, _ :: before) => some (String.ofList before.reverse, String.ofList after.reverse)

end StackTemplate.Text
