import Mathlib.Data.Finset.Card
import StackTemplate.Graph.Components
import StackTemplate.Proofs.Graph.Ways

/-!
# The search for components

At every moment of a search some vertices are open: entered and not left. An open vertex leads to
all that was entered after it and is on the stack still, and all on the stack leads to an open
vertex; what is found are components (`Sound`).

`Scans g opens s s' vs low low'` says what a search from the vertices `vs` makes of the progress `s`
and of a low link: no edge from `vs`, or from what is new on the stack, leads below the new low
link to what was on the stack before, and a low link that became less is the number of a vertex on
the stack. Scans compose. At the end of one, the vertex that was entered either leads to an open
vertex below it and stays on the stack (`Scans.leave`), or nothing from it upwards has an edge below
it, and this is a component (`Scans.close`).
-/

namespace StackTemplate.NameGraph

variable {g : NameGraph} {s s' s'' : Descent} {opens vs ws above rest : List Symbol}
  {v w : Symbol} {low low' low'' number depth : Nat}

/-! ### Progress -/

namespace Descent

@[simp] theorem number?_enter (s : Descent) (v w : Symbol) :
    (s.enter v).number? w = if w = v then some s.numbers.length else s.number? w := by
  unfold number? enter
  rw [List.lookup_cons]
  split
  · next h => rw [if_pos (eq_of_beq h)]
  · next h => rw [if_neg (ne_of_beq_false h)]

@[simp] theorem stack_enter (s : Descent) (v : Symbol) : (s.enter v).stack = v :: s.stack := rfl

@[simp] theorem found_enter (s : Descent) (v : Symbol) : (s.enter v).found = s.found := rfl

theorem popThrough_append (habove : v ∉ above) :
    popThrough v (above ++ v :: rest) = (above ++ [v], rest) := by
  induction above with
  | nil => simp [popThrough]
  | cons w above ih =>
    obtain ⟨hne, habove⟩ := List.ne_and_not_mem_of_not_mem_cons habove
    rw [List.cons_append, popThrough, if_neg hne.symm, ih habove]
    rfl

theorem close_eq (hstack : s.stack = above ++ v :: rest) (habove : v ∉ above) :
    s.close v = { s with stack := rest, found := s.found ++ [above ++ [v]] } := by
  rw [close, hstack, popThrough_append habove]

/-- The vertices have numbers, the first one a lower number. -/
def Older (s : Descent) (v w : Symbol) : Prop :=
  ∃ m n, s.number? v = some m ∧ s.number? w = some n ∧ m < n

theorem Older.lt {m n : Nat} (h : s.Older v w) (hv : s.number? v = some m)
    (hw : s.number? w = some n) : m < n := by
  obtain ⟨m', n', hm, hn, hlt⟩ := h
  obtain rfl := Option.some.inj (hm.symm.trans hv)
  obtain rfl := Option.some.inj (hn.symm.trans hw)
  exact hlt

theorem Older.ne (h : s.Older v w) : v ≠ w := by
  rintro rfl
  obtain ⟨m, n, hm, hn, hlt⟩ := h
  exact absurd (Option.some.inj (hm.symm.trans hn)) (Nat.ne_of_lt hlt)

end Descent

/-- Numbers are given to vertices in turn, and what has a number is either on the stack or found. -/
structure Tidy (g : NameGraph) (s : Descent) : Prop where
  vertex : ∀ v, (s.number? v).isSome → v ∈ g.vertices
  numbered : ∀ v n, s.number? v = some n → n < s.numbers.length
  entered : ∀ v, (s.number? v).isSome ↔ v ∈ s.stack ∨ v ∈ s.found.flatten
  apart : ∀ v ∈ s.stack, v ∉ s.found.flatten
  older : s.stack.Pairwise fun later earlier => s.Older earlier later

theorem Tidy.exists_number (h : Tidy g s) (hv : v ∈ s.stack) : ∃ n, s.number? v = some n :=
  Option.isSome_iff_exists.mp ((h.entered v).mpr (.inl hv))

theorem Tidy.nodup (h : Tidy g s) : s.stack.Nodup := h.older.imp fun hab => hab.ne.symm

theorem Tidy.not_entered (h : Tidy g s) (hnew : s.number? v = none) :
    v ∉ s.stack ∧ v ∉ s.found.flatten := by
  rw [← not_or, ← h.entered, hnew]
  exact Bool.false_ne_true

theorem Tidy.enter (h : Tidy g s) (hv : v ∈ g.vertices) (hnew : s.number? v = none) :
    Tidy g (s.enter v) where
  vertex w hw := by
    by_cases heq : w = v
    · rwa [heq]
    · rw [s.number?_enter, if_neg heq] at hw
      exact h.vertex w hw
  numbered w n hw := by
    have hlength : (s.enter v).numbers.length = s.numbers.length + 1 := rfl
    rw [s.number?_enter] at hw
    split at hw
    · have hn := Option.some.inj hw
      omega
    · have hn := h.numbered w n hw
      omega
  entered w := by
    have hentered := h.entered w
    by_cases heq : w = v
    · simp [heq]
    · rw [s.number?_enter, if_neg heq]
      simpa [heq] using hentered
  apart := List.forall_mem_cons.mpr ⟨(h.not_entered hnew).2, h.apart⟩
  older := by
    have hne : ∀ w ∈ s.stack, w ≠ v := fun w hw heq => (h.not_entered hnew).1 (heq ▸ hw)
    refine List.pairwise_cons.mpr ⟨fun b hb => ?_, h.older.imp_of_mem fun ha hb hab => ?_⟩
    · obtain ⟨n, hn⟩ := h.exists_number hb
      refine ⟨n, s.numbers.length, ?_, ?_, h.numbered b n hn⟩
      · rw [s.number?_enter, if_neg (hne b hb), hn]
      · rw [s.number?_enter, if_pos rfl]
    · obtain ⟨m, n, hm, hn, hlt⟩ := hab
      refine ⟨m, n, ?_, ?_, hlt⟩
      · rw [s.number?_enter, if_neg (hne _ hb), hm]
      · rw [s.number?_enter, if_neg (hne _ ha), hn]

theorem Tidy.apart_of_append (h : Tidy g s) (hstack : s.stack = above ++ v :: rest) :
    (above ++ [v]).Nodup ∧ ∀ x ∈ above ++ [v], x ∉ rest := by
  have hnodup := h.nodup
  rw [hstack, List.append_cons, List.nodup_append] at hnodup
  exact ⟨hnodup.1, fun x hx hrest => hnodup.2.2 x hx x hrest rfl⟩

theorem Tidy.close_eq (h : Tidy g s) (hstack : s.stack = above ++ v :: rest) :
    s.close v = { s with stack := rest, found := s.found ++ [above ++ [v]] } := by
  refine Descent.close_eq hstack fun hv => ?_
  have hnodup := (h.apart_of_append hstack).1
  exact (List.nodup_append.mp hnodup).2.2 v hv v (List.mem_singleton.mpr rfl) rfl

theorem Tidy.close (h : Tidy g s) (hstack : s.stack = above ++ v :: rest) :
    Tidy g (s.close v) := by
  have hsplit : s.stack = (above ++ [v]) ++ rest := by rw [hstack, List.append_cons]
  have hrest : rest.Sublist s.stack := hsplit ▸ List.sublist_append_right _ _
  rw [h.close_eq hstack]
  exact
    { vertex := h.vertex
      numbered := h.numbered
      entered := fun w => by
        refine (h.entered w).trans ?_
        simp only [hsplit, List.flatten_append, List.flatten_singleton, List.mem_append]
        tauto
      apart := fun w hw hfound => by
        rw [List.flatten_append, List.mem_append, List.flatten_singleton] at hfound
        rcases hfound with hfound | hmem
        · exact h.apart w (hrest.subset hw) hfound
        · exact (h.apart_of_append hstack).2 w hmem hw
      older := h.older.sublist hrest }

/-! ### Open vertices -/

/-- The progress of a search in which some vertices are open. -/
structure Sound (g : NameGraph) (opens : List Symbol) (s : Descent) : Prop extends Tidy g s where
  stacked : opens ⊆ s.stack
  onward : s.stack.Pairwise fun later earlier => earlier ∈ opens → g.Leads earlier later
  back : ∀ v ∈ s.stack, ∃ o ∈ opens, g.Leads v o
  searched : ∀ v ∈ s.stack, v ∉ opens → ∀ w ∈ g.successors v, (s.number? w).isSome
  condensed : Condensed g s.found

theorem Sound.empty (g : NameGraph) : Sound g [] {} where
  vertex _ h := absurd h Bool.false_ne_true
  numbered _ _ h := nomatch h
  entered v := by simp [Descent.number?]
  apart _ h := absurd h List.not_mem_nil
  older := .nil
  stacked := List.Subset.refl _
  onward := .nil
  back _ h := absurd h List.not_mem_nil
  searched _ h := absurd h List.not_mem_nil
  condensed := .nil g

/-- A vertex that all open ones lead to is entered, and open. -/
theorem Sound.enter (h : Sound g opens s) (hv : v ∈ g.vertices) (hnew : s.number? v = none)
    (hopen : ∀ o ∈ opens, g.Leads o v) : Sound g (v :: opens) (s.enter v) where
  toTidy := h.toTidy.enter hv hnew
  stacked := List.cons_subset_cons v h.stacked
  onward := by
    have hold : ∀ b ∈ s.stack, b ∈ v :: opens → b ∈ opens := fun b hb hmem =>
      (List.mem_cons.mp hmem).resolve_left fun heq => (h.not_entered hnew).1 (heq ▸ hb)
    refine List.pairwise_cons.mpr ⟨fun b hb ho => hopen b (hold b hb ho), ?_⟩
    exact h.onward.imp_of_mem fun _ hb hab ho => hab (hold _ hb ho)
  back := by
    refine List.forall_mem_cons.mpr ⟨⟨v, List.mem_cons_self .., .refl⟩, fun w hw => ?_⟩
    obtain ⟨o, ho, hlead⟩ := h.back w hw
    exact ⟨o, List.mem_cons_of_mem v ho, hlead⟩
  searched := by
    refine List.forall_mem_cons.mpr ⟨fun ho => absurd (List.mem_cons_self ..) ho, ?_⟩
    intro x hx ho w hw
    have hsome := h.searched x hx (fun hmem => ho (List.mem_cons_of_mem v hmem)) w hw
    rw [s.number?_enter]
    split
    · rfl
    · exact hsome
  condensed := h.condensed

/-- An open vertex that leads to the stack below it is left there. -/
theorem Sound.leave (h : Sound g (v :: opens) s') (hs : Sound g opens s)
    (hsearched : ∀ w ∈ g.successors v, (s'.number? w).isSome)
    (hw : w ∈ s.stack) (hlead : g.Leads v w) : Sound g opens s' where
  toTidy := h.toTidy
  stacked := (List.cons_subset.mp h.stacked).2
  onward := h.onward.imp fun hab ho => hab (List.mem_cons_of_mem v ho)
  back x hx := by
    obtain ⟨o, ho, hxo⟩ := h.back x hx
    -- A way back that ended at `v` goes on to an open vertex below it.
    rcases List.mem_cons.mp ho with rfl | ho
    · obtain ⟨o', ho', hwo⟩ := hs.back w hw
      exact ⟨o', ho', hxo.trans (hlead.trans hwo)⟩
    · exact ⟨o, ho, hxo⟩
  searched x hx ho := by
    by_cases heq : x = v
    · rwa [heq]
    · exact h.searched x hx (List.not_mem_cons_of_ne_of_not_mem heq ho)
  condensed := h.condensed

/-- An open vertex leads to all above it, and that to an open vertex, from which a way leads back. -/
theorem Sound.mutual (h : Sound g (v :: opens) s) (hstack : s.stack = above ++ v :: rest)
    (hopen : ∀ o ∈ opens, g.Leads o v) : ∀ x ∈ above ++ [v], g.Mutual v x := by
  intro x hx
  have hmem : x ∈ s.stack := by
    rw [hstack, List.append_cons]
    exact List.mem_append_left rest hx
  refine ⟨?_, ?_⟩
  · have honward := h.onward
    rw [hstack] at honward
    rcases List.mem_append.mp hx with hx | hx
    · exact (List.pairwise_append.mp honward).2.2 x hx v (by simp) (by simp)
    · rw [List.mem_singleton.mp hx]
      exact .refl
  · obtain ⟨o, ho, hxo⟩ := h.back x hmem
    rcases List.mem_cons.mp ho with rfl | ho
    · exact hxo
    · exact hxo.trans (hopen o ho)

/-- An open vertex is left with all above it on the stack if none of that has an edge to the stack
below it. -/
theorem Sound.close (h : Sound g (v :: opens) s') (hs : Sound g opens s)
    (hstack : s'.stack = above ++ v :: s.stack) (hopen : ∀ o ∈ opens, g.Leads o v)
    (hsearched : ∀ w ∈ g.successors v, (s'.number? w).isSome)
    (hbelow : ∀ x ∈ above ++ [v], ∀ w ∈ g.successors x, w ∉ s.stack) :
    Sound g opens (s'.close v) := by
  obtain ⟨hnodup, hapart⟩ := h.apart_of_append hstack
  have hsplit : s'.stack = (above ++ [v]) ++ s.stack := by rw [hstack, List.append_cons]
  have hv : v ∈ above ++ [v] := List.mem_append_right _ (List.mem_singleton.mpr rfl)
  have hmem : ∀ x ∈ above ++ [v], x ∈ s'.stack := fun x hx =>
    hsplit ▸ List.mem_append_left s.stack hx
  -- All that is left was searched, and its edges stay in it or lead to what was found before.
  have hcomplete : ∀ x ∈ above ++ [v], ∀ w ∈ g.successors x, (s'.number? w).isSome := by
    intro x hx w hw
    by_cases heq : x = v
    · exact hsearched w (heq ▸ hw)
    · refine h.searched x (hmem x hx) (fun ho => hapart x hx ?_) w hw
      exact hs.stacked ((List.mem_cons.mp ho).resolve_left heq)
  have hclosed : ∀ x ∈ above ++ [v], ∀ w ∈ g.successors x,
      w ∈ above ++ [v] ∨ w ∈ s'.found.flatten := by
    intro x hx w hw
    rcases (h.entered w).mp (hcomplete x hx w hw) with hstacked | hfound
    · rw [hsplit] at hstacked
      exact .inl ((List.mem_append.mp hstacked).resolve_right (hbelow x hx w hw))
    · exact .inr hfound
  have htidy := h.toTidy.close hstack
  rw [h.close_eq hstack] at htidy ⊢
  exact
    { toTidy := htidy
      stacked := hs.stacked
      onward := hs.onward
      back := hs.back
      searched := fun x hx ho => by
        refine h.searched x (hsplit ▸ List.mem_append_right _ hx) fun hmem => ?_
        rcases List.mem_cons.mp hmem with rfl | hmem
        · exact hapart x hv hx
        · exact ho hmem
      condensed := h.condensed.append hnodup hv (h.mutual hstack hopen)
        (fun x hx => h.apart x (hmem x hx)) hclosed }

/-! ### Low links -/

/-- What a search from `vs` makes of the progress `s` and of a low link. -/
structure Scans (g : NameGraph) (opens : List Symbol) (s s' : Descent) (vs : List Symbol)
    (low low' : Nat) : Prop where
  sound : Sound g opens s'
  kept : ∀ v n, s.number? v = some n → s'.number? v = some n
  grown : s.numbers.length ≤ s'.numbers.length
  stack : s.stack <:+ s'.stack
  found : ∀ v ∈ vs, (s'.number? v).isSome
  le : low' ≤ low
  /-- Edges from `vs` and from what is new on the stack do not lead below the low link. -/
  bound : ∀ w ∈ s.stack, (w ∈ vs ∨ ∃ x ∈ s'.stack, x ∉ s.stack ∧ w ∈ g.successors x) →
    ∀ n, s.number? w = some n → low' ≤ n
  /-- A low link that became less is the number of a vertex on the stack. -/
  attained : low' < low →
    ∃ w ∈ s'.stack, s'.number? w = some low' ∧ ∃ v ∈ vs, g.Leads v w

theorem Scans.refl (h : Sound g opens s) (low : Nat) : Scans g opens s s [] low low where
  sound := h
  kept _ _ hn := hn
  grown := Nat.le_refl _
  stack := List.suffix_refl _
  found _ hv := absurd hv List.not_mem_nil
  le := Nat.le_refl _
  bound := by
    rintro w - (hw | ⟨x, hx, hnot, -⟩)
    · exact absurd hw List.not_mem_nil
    · exact absurd hx hnot
  attained hlt := absurd hlt (Nat.lt_irrefl low)

theorem Scans.trans (h : Scans g opens s s' vs low low') (h' : Scans g opens s' s'' ws low' low'') :
    Scans g opens s s'' (vs ++ ws) low low'' where
  sound := h'.sound
  kept v n hn := h'.kept v n (h.kept v n hn)
  grown := h.grown.trans h'.grown
  stack := h.stack.trans h'.stack
  found v hv := by
    rcases List.mem_append.mp hv with hv | hv
    · obtain ⟨n, hn⟩ := Option.isSome_iff_exists.mp (h.found v hv)
      exact Option.isSome_of_eq_some (h'.kept v n hn)
    · exact h'.found v hv
  le := h'.le.trans h.le
  bound w hw hedge n hn := by
    have hw' := h.stack.subset hw
    have hn' := h.kept w n hn
    rcases hedge with hmem | ⟨x, hx, hnew, hsuccessor⟩
    · rcases List.mem_append.mp hmem with hmem | hmem
      · exact h'.le.trans (h.bound w hw (.inl hmem) n hn)
      · exact h'.bound w hw' (.inl hmem) n hn'
    -- What is new after both searches is new in the first or in the second.
    · by_cases hx' : x ∈ s'.stack
      · exact h'.le.trans (h.bound w hw (.inr ⟨x, hx', hnew, hsuccessor⟩) n hn)
      · exact h'.bound w hw' (.inr ⟨x, hx, hx', hsuccessor⟩) n hn'
  attained hlt := by
    -- The second search lowered the low link last, or left that of the first.
    by_cases hlt' : low'' < low'
    · obtain ⟨w, hw, hn, v, hv, hlead⟩ := h'.attained hlt'
      exact ⟨w, hw, hn, v, List.mem_append_right vs hv, hlead⟩
    · obtain rfl : low'' = low' := Nat.le_antisymm h'.le (Nat.le_of_not_lt hlt')
      obtain ⟨w, hw, hn, v, hv, hlead⟩ := h.attained hlt
      exact ⟨w, h'.stack.subset hw, h'.kept w _ hn, v, List.mem_append_left ws hv, hlead⟩

/-- A vertex on the stack lowers the low link to its number. -/
theorem Scans.stacked (h : Sound g opens s) (hv : v ∈ s.stack) (hnumber : s.number? v = some number)
    (low : Nat) : Scans g opens s s [v] low (min low number) where
  sound := h
  kept _ _ hn := hn
  grown := Nat.le_refl _
  stack := List.suffix_refl _
  found := List.forall_mem_singleton.mpr (Option.isSome_of_eq_some hnumber)
  le := Nat.min_le_left ..
  bound := by
    rintro w - (hw | ⟨x, hx, hnot, -⟩) n hn
    · rw [List.mem_singleton.mp hw, hnumber] at hn
      rw [← Option.some.inj hn]
      exact Nat.min_le_right ..
    · exact absurd hx hnot
  attained hlt := by
    have hmin : min low number = number := by omega
    rw [hmin]
    exact ⟨v, hv, hnumber, v, List.mem_singleton.mpr rfl, .refl⟩

/-- A vertex in a component adds nothing. -/
theorem Scans.passed (h : Sound g opens s) (hv : v ∉ s.stack) (hnumber : s.number? v = some number)
    (low : Nat) : Scans g opens s s [v] low low where
  sound := h
  kept _ _ hn := hn
  grown := Nat.le_refl _
  stack := List.suffix_refl _
  found := List.forall_mem_singleton.mpr (Option.isSome_of_eq_some hnumber)
  le := Nat.le_refl _
  bound := by
    rintro w hw (hmem | ⟨x, hx, hnot, -⟩)
    · exact absurd (List.mem_singleton.mp hmem ▸ hw) hv
    · exact absurd hx hnot
  attained hlt := absurd hlt (Nat.lt_irrefl low)

/-- The low link of a vertex entered later is taken into account. -/
theorem Scans.below (h : Scans g opens s s' vs s.numbers.length low')
    (hlow : low ≤ s.numbers.length) : Scans g opens s s' vs low (min low low') where
  sound := h.sound
  kept := h.kept
  grown := h.grown
  stack := h.stack
  found := h.found
  le := Nat.min_le_left ..
  bound w hw hedge n hn := (Nat.min_le_right ..).trans (h.bound w hw hedge n hn)
  attained hlt := by
    have hmin : min low low' = low' := by omega
    rw [hmin]
    exact h.attained (by omega)

section Entered

/-! ### Leaving a vertex

`v` was entered on top of the progress `s`, and its successors are searched. -/

variable (hs : Sound g opens s) (hnew : s.number? v = none)
  (h : Scans g (v :: opens) (s.enter v) s' (g.successors v) s.numbers.length low)

include h hnew in
theorem Scans.kept_enter (w : Symbol) (n : Nat) (hw : s.number? w = some n) :
    s'.number? w = some n := by
  refine h.kept w n ?_
  rw [s.number?_enter, if_neg ?_, hw]
  rintro rfl
  exact absurd (hw.symm.trans hnew) (Option.some_ne_none n)

include h in
theorem Scans.number_enter : s'.number? v = some s.numbers.length :=
  h.kept v _ (by rw [s.number?_enter, if_pos rfl])

include h in
/-- What is on the stack with a lower number was there before. -/
theorem Scans.mem_of_lt {n : Nat} (hw : w ∈ s'.stack) (hn : s'.number? w = some n)
    (hlt : n < s.numbers.length) : w ∈ s.stack := by
  obtain ⟨above, habove⟩ := h.stack
  have holder := h.sound.older
  rw [← habove] at hw holder
  rcases List.mem_append.mp hw with hw | hw
  · have hbelow := (List.pairwise_append.mp holder).2.2 w hw v (List.mem_cons_self ..)
    exact absurd (hbelow.lt h.number_enter hn) (Nat.lt_asymm hlt)
  · refine (List.mem_cons.mp hw).resolve_left ?_
    rintro rfl
    rw [h.number_enter] at hn
    exact absurd (Option.some.inj hn) (Nat.ne_of_gt hlt)

include hnew h in
/-- Edges from the vertex and from all above it do not lead below the low link. -/
theorem Scans.bound_enter (hw : w ∈ s.stack) {x : Symbol} (hx : x ∈ s'.stack) (hxs : x ∉ s.stack)
    (hedge : w ∈ g.successors x) {n : Nat} (hn : s.number? w = some n) : low ≤ n := by
  have hne : w ≠ v := by
    rintro rfl
    exact absurd (hn.symm.trans hnew) (Option.some_ne_none n)
  have hn' : (s.enter v).number? w = some n := by rw [s.number?_enter, if_neg hne, hn]
  refine h.bound w (List.mem_cons_of_mem v hw) ?_ n hn'
  by_cases heq : x = v
  · exact .inl (heq ▸ hedge)
  · exact .inr ⟨x, hx, List.not_mem_cons_of_ne_of_not_mem heq hxs, hedge⟩

include hs hnew h in
/-- With a low link below its number the vertex stays on the stack. -/
theorem Scans.leave (hlow : low ≠ s.numbers.length) :
    Scans g opens s s' [v] s.numbers.length low := by
  have hlt := Nat.lt_of_le_of_ne h.le hlow
  obtain ⟨b, hb, hn, w, hw, hlead⟩ := h.attained hlt
  have hvb : g.Leads v b := (leads_successor hw).trans hlead
  exact
    { sound := h.sound.leave hs h.found (h.mem_of_lt hb hn hlt) hvb
      kept := h.kept_enter hnew
      grown := Nat.le_of_succ_le h.grown
      stack := (List.suffix_cons v s.stack).trans h.stack
      found := List.forall_mem_singleton.mpr (Option.isSome_of_eq_some h.number_enter)
      le := h.le
      bound := by
        rintro w hw (hmem | ⟨x, hx, hxs, hedge⟩) n hn
        · rw [List.mem_singleton.mp hmem, hnew] at hn
          exact nomatch hn
        · exact h.bound_enter hnew hw hx hxs hedge hn
      attained := fun _ => ⟨b, hb, hn, v, List.mem_singleton.mpr rfl, hvb⟩ }

include hs hnew h in
/-- With its own number as low link the vertex and all above it are a component. -/
theorem Scans.close (hopen : ∀ o ∈ opens, g.Leads o v) (hlow : low = s.numbers.length) :
    Scans g opens s (s'.close v) [v] s.numbers.length low := by
  obtain ⟨above, habove⟩ := h.stack
  have hstack : s'.stack = above ++ v :: s.stack := habove.symm
  have hapart := (h.sound.apart_of_append hstack).2
  have hsound : Sound g opens (s'.close v) := by
    refine h.sound.close hs hstack hopen h.found fun x hx w hw hmem => ?_
    have hx' : x ∈ s'.stack := by
      rw [hstack, List.append_cons]
      exact List.mem_append_left _ hx
    obtain ⟨n, hn⟩ := hs.exists_number hmem
    have hle := h.bound_enter hnew hmem hx' (hapart x hx) hw hn
    have hlt := hs.numbered w n hn
    omega
  have hclose := h.sound.close_eq hstack
  have hnumber : ∀ w, (s'.close v).number? w = s'.number? w := fun w => by rw [hclose]; rfl
  have hstack' : (s'.close v).stack = s.stack := by rw [hclose]
  exact
    { sound := hsound
      kept := fun w n hn => (hnumber w).trans (h.kept_enter hnew w n hn)
      grown := by
        rw [hclose]
        exact Nat.le_of_succ_le h.grown
      stack := by rw [hstack']
      found := List.forall_mem_singleton.mpr
        (Option.isSome_of_eq_some ((hnumber v).trans h.number_enter))
      le := h.le
      bound := by
        rintro w hw (hmem | ⟨x, hx, hxs, -⟩) n hn
        · rw [List.mem_singleton.mp hmem, hnew] at hn
          exact nomatch hn
        · exact absurd (hstack' ▸ hx) hxs
      attained := fun hlt => absurd hlow (Nat.ne_of_lt hlt) }

end Entered

/-! ### Enough depth -/

/-- The vertices not entered yet. -/
def fresh (g : NameGraph) (s : Descent) : Finset Symbol :=
  g.vertices.toFinset.filter fun v => s.number? v = none

theorem mem_fresh : v ∈ g.fresh s ↔ v ∈ g.vertices ∧ s.number? v = none := by
  rw [fresh, Finset.mem_filter, List.mem_toFinset]

theorem Scans.card_fresh_le (h : Scans g opens s s' vs low low') :
    (g.fresh s').card ≤ (g.fresh s).card := by
  refine Finset.card_le_card fun v hv => ?_
  obtain ⟨hvertex, hnone⟩ := mem_fresh.mp hv
  refine mem_fresh.mpr ⟨hvertex, Option.eq_none_iff_forall_ne_some.mpr fun n hn => ?_⟩
  exact absurd (hnone.symm.trans (h.kept v n hn)) nofun

theorem card_fresh_enter_lt (hv : v ∈ g.vertices) (hnew : s.number? v = none) :
    (g.fresh (s.enter v)).card < (g.fresh s).card := by
  refine Finset.card_lt_card ((Finset.ssubset_iff_of_subset fun w hw => ?_).mpr ⟨v, ?_, ?_⟩)
  · obtain ⟨hvertex, hnone⟩ := mem_fresh.mp hw
    rw [s.number?_enter] at hnone
    split at hnone
    · exact nomatch hnone
    · exact mem_fresh.mpr ⟨hvertex, hnone⟩
  · exact mem_fresh.mpr ⟨hv, hnew⟩
  · simp [mem_fresh]

theorem card_fresh_lt_searchDepth (g : NameGraph) (s : Descent) :
    (g.fresh s).card < g.searchDepth := by
  have hle : (g.fresh s).card ≤ g.vertices.toFinset.card :=
    Finset.card_le_card (Finset.filter_subset ..)
  have hcard := g.vertices.toFinset_card_le
  rw [vertices, List.length_map, List.length_range] at hcard
  unfold searchDepth
  exact Nat.lt_succ_of_le (hle.trans hcard)

/-! ### Searching -/

/-- A search of a depth scans from any vertex that all open ones lead to, if it is deep enough for
all vertices that may be entered. -/
def ScansFrom (g : NameGraph) (depth : Nat) : Prop :=
  ∀ opens s v, v ∈ g.vertices → s.number? v = none → (g.fresh s).card < depth → Sound g opens s →
    (∀ o ∈ opens, g.Leads o v) →
    Scans g opens s (g.connect depth s v).2 [v] s.numbers.length (g.connect depth s v).1

theorem ScansFrom.follow (hdeep : g.ScansFrom depth) (hw : w ∈ g.vertices)
    (hopen : ∀ o ∈ opens, g.Leads o w) (hdepth : (g.fresh s).card < depth) (h : Sound g opens s)
    (hlow : low ≤ s.numbers.length) :
    Scans g opens s (NameGraph.follow (g.connect depth) (low, s) w).2 [w] low
      (NameGraph.follow (g.connect depth) (low, s) w).1 := by
  cases hnumber : s.number? w with
  | none =>
    simp only [NameGraph.follow, hnumber]
    exact (hdeep opens s w hw hnumber hdepth h hopen).below hlow
  | some number =>
    simp only [NameGraph.follow, hnumber]
    split
    · next hmem => exact .stacked h (List.contains_iff_mem.mp hmem) hnumber low
    · next hmem => exact .passed h (fun hw => hmem (List.contains_iff_mem.mpr hw)) hnumber low

/-- Vertices are followed one after the other. -/
theorem ScansFrom.foldl (hdeep : g.ScansFrom depth) :
    ∀ (vs : List Symbol) (s : Descent) (low : Nat), (∀ v ∈ vs, v ∈ g.vertices) →
      (∀ v ∈ vs, ∀ o ∈ opens, g.Leads o v) → (g.fresh s).card < depth → Sound g opens s →
      low ≤ s.numbers.length →
      Scans g opens s (vs.foldl (NameGraph.follow (g.connect depth)) (low, s)).2 vs low
        (vs.foldl (NameGraph.follow (g.connect depth)) (low, s)).1
  | [], _, low, _, _, _, h, _ => .refl h low
  | v :: vs, s, low, hvs, hopen, hdepth, h, hlow => by
    obtain ⟨hv, hvs⟩ := List.forall_mem_cons.mp hvs
    obtain ⟨hopenv, hopen⟩ := List.forall_mem_cons.mp hopen
    have hfirst := hdeep.follow hv hopenv hdepth h hlow
    refine hfirst.trans (ScansFrom.foldl hdeep vs _ _ hvs hopen ?_ hfirst.sound ?_)
    · exact Nat.lt_of_le_of_lt hfirst.card_fresh_le hdepth
    · exact hfirst.le.trans (hlow.trans hfirst.grown)

theorem scansFrom (hg : g.Proper) (depth : Nat) : g.ScansFrom depth := by
  induction depth with
  | zero =>
    intro opens s v _ _ hdepth
    exact absurd hdepth (Nat.not_lt_zero _)
  | succ depth ih =>
    intro opens s v hv hnew hdepth h hopen
    have hfresh := card_fresh_enter_lt hv hnew
    have hopens : ∀ w ∈ g.successors v, ∀ o ∈ v :: opens, g.Leads o w := fun w hw =>
      have hvw := leads_successor hw
      List.forall_mem_cons.mpr ⟨hvw, fun o ho => (hopen o ho).trans hvw⟩
    have hscan := ih.foldl (g.successors v) (s.enter v) s.numbers.length
      (fun w hw => hg.successor hw) hopens (by omega) (h.enter hv hnew hopen) (Nat.le_succ _)
    rw [connect]
    generalize (g.successors v).foldl (NameGraph.follow (g.connect depth))
      (s.numbers.length, s.enter v) = result at hscan ⊢
    dsimp only
    split
    · next hlow => exact hscan.close h hnew hopen hlow
    · next hlow => exact hscan.leave h hnew hlow

/-- When no vertex is open, all that was entered is in components. -/
theorem Sound.stack_eq_nil (h : Sound g [] s) : s.stack = [] := by
  refine List.eq_nil_iff_forall_not_mem.mpr fun v hv => ?_
  obtain ⟨o, ho, -⟩ := h.back v hv
  exact List.not_mem_nil ho

theorem visit_scans (hg : g.Proper) (h : Sound g [] s) (hv : v ∈ g.vertices) :
    Scans g [] s (g.visit s v) [v] 0 0 := by
  unfold visit
  split
  · next hsome =>
    obtain ⟨n, hn⟩ := Option.isSome_iff_exists.mp hsome
    exact .passed h (h.stack_eq_nil ▸ List.not_mem_nil) hn 0
  · next hnone =>
    have hscan := scansFrom hg g.searchDepth [] s v hv (Option.not_isSome_iff_eq_none.mp hnone)
      (g.card_fresh_lt_searchDepth s) h (fun o ho => absurd ho List.not_mem_nil)
    have hbelow := hscan.below (Nat.zero_le _)
    rwa [Nat.zero_min] at hbelow

theorem foldl_visit_scans (hg : g.Proper) : ∀ (vs : List Symbol) (s : Descent),
    (∀ v ∈ vs, v ∈ g.vertices) → Sound g [] s → Scans g [] s (vs.foldl g.visit s) vs 0 0
  | [], _, _, h => .refl h 0
  | v :: vs, s, hvs, h => by
    obtain ⟨hv, hvs⟩ := List.forall_mem_cons.mp hvs
    have hfirst := visit_scans hg h hv
    exact hfirst.trans (foldl_visit_scans hg vs _ hvs hfirst.sound)

theorem fullDescent_scans (hg : g.Proper) : Scans g [] {} g.fullDescent g.vertices 0 0 :=
  foldl_visit_scans hg g.vertices {} (fun _ hv => hv) (.empty g)

/-- The search finds components. -/
theorem components_condensed (hg : g.Proper) : Condensed g g.components :=
  (fullDescent_scans hg).sound.condensed

theorem mem_flatten_components (hg : g.Proper) : v ∈ g.components.flatten ↔ v ∈ g.vertices := by
  have h := fullDescent_scans hg
  have hentered := h.sound.entered v
  rw [h.sound.stack_eq_nil, or_iff_right List.not_mem_nil] at hentered
  exact hentered.symm.trans ⟨h.sound.vertex v, h.found v⟩

end StackTemplate.NameGraph
