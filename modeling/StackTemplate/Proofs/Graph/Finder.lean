import StackTemplate.Graph.Finder
import StackTemplate.Proofs.Graph.Search

/-!
# No look-up of a low link fails

The search that looks low links up in a map finds each of them, and ends with the progress of the
search that hands them on (`fullDescent_checked`).

While the edges of a vertex are followed, the low link handed on is what the map has for the vertex.
A search from one of its successors writes low links of that successor and of what is entered after
it only (`Follows.kept`), so the map has it still when the search returns. That levels do not run
out is used at one place: with none left, nothing is fresh.
-/

namespace StackTemplate.NameGraph

variable {g : NameGraph} {s s' s'' : Finder} {opens : List Symbol} {v w : Symbol}
  {low depth : Nat} {plain plain' : Nat × Descent}

/-! ### Low links -/

namespace Finder

@[simp] theorem toDescent_enter (s : Finder) (v : Symbol) :
    (s.enter v).toDescent = s.toDescent.enter v := rfl

theorem lowLink?_setLowLink (s : Finder) (v w : Symbol) (low : Nat) :
    (s.setLowLink v low).lowLink? w = if w = v then some low else s.lowLink? w := by
  unfold lowLink? setLowLink
  rw [List.lookup_cons]
  split
  · next h => rw [if_pos (eq_of_beq h)]
  · next h => rw [if_neg (ne_of_beq_false h)]

theorem lowLink?_enter (s : Finder) (v w : Symbol) :
    (s.enter v).lowLink? w = if w = v then some s.numbers.length else s.lowLink? w :=
  lowLink?_setLowLink s v w s.numbers.length

theorem lowLink_of_lowLink? (h : s.lowLink? v = some low) : s.lowLink v = .ok low := by
  rw [lowLink, h]

theorem number_of_number? {number : Nat} (h : s.number? v = some number) :
    s.number v = .ok number := by
  rw [Finder.number, h]

end Finder

/-! ### One search beside the other -/

/-- The search that keeps low links went on from `s` to `s'`, and `plain` is what the other search
has then: the low link of `v` and its progress. -/
structure Follows (s : Finder) (v : Symbol) (s' : Finder) (plain : Nat × Descent) : Prop where
  progress : s'.toDescent = plain.2
  lowLink : s'.lowLink? v = some plain.1
  kept : ∀ w, w ≠ v → (s.number? w).isSome → s'.lowLink? w = s.lowLink? w

theorem Follows.refl (h : s.lowLink? v = some low) : Follows s v s (low, s.toDescent) where
  progress := rfl
  lowLink := h
  kept _ _ _ := rfl

theorem Follows.trans (h : Follows s v s' plain) (h' : Follows s' v s'' plain')
    (hkept : ∀ w, (s.number? w).isSome → (s'.number? w).isSome) : Follows s v s'' plain' where
  progress := h'.progress
  lowLink := h'.lowLink
  kept w hw hsome := (h'.kept w hw (hkept w hsome)).trans (h.kept w hw hsome)

theorem Follows.setLowLink (low : Nat)
    (hkept : ∀ w, w ≠ v → (s.number? w).isSome → s'.lowLink? w = s.lowLink? w) :
    Follows s v (s'.setLowLink v low) (low, s'.toDescent) where
  progress := rfl
  lowLink := by rw [Finder.lowLink?_setLowLink, if_pos rfl]
  kept w hw hsome := by rw [Finder.lowLink?_setLowLink, if_neg hw, hkept w hw hsome]

/-- When the edges of a vertex that was entered are followed, its low link and its number are there,
and it is left as in the other search. -/
theorem Follows.leave (h : Follows (s.enter v) v s' plain)
    (hnumber : plain.2.number? v = some s.numbers.length) :
    ∃ s'', (do
        let low ← s'.lowLink v
        let number ← s'.number v
        pure (if low = number then s'.close v else s')) = (.ok s'' : Except Fault Finder) ∧
      Follows s v s''
        (plain.1, if plain.1 = s.numbers.length then plain.2.close v else plain.2) := by
  obtain ⟨low, progress⟩ := plain
  obtain rfl : s'.toDescent = progress := h.progress
  have hkept : ∀ w, w ≠ v → (s.number? w).isSome → s'.lowLink? w = s.lowLink? w := by
    intro w hw hsome
    rw [h.kept w hw (by rwa [Finder.toDescent_enter, Descent.number?_enter, if_neg hw]),
      Finder.lowLink?_enter, if_neg hw]
  refine ⟨if low = s.numbers.length then s'.close v else s', ?_, ?_⟩
  · simp only [Bind.bind, Except.bind, Finder.lowLink_of_lowLink? h.lowLink,
      Finder.number_of_number? hnumber, pure, Except.pure]
  · dsimp only
    split
    · exact ⟨rfl, h.lowLink, hkept⟩
    · exact ⟨rfl, h.lowLink, hkept⟩

/-- A search from a new vertex that goes `depth` levels deep finds all low links that it asks for. -/
def FindsFrom (g : NameGraph) (depth : Nat) : Prop :=
  ∀ opens (s : Finder) v, v ∈ g.vertices → s.number? v = none → (g.fresh s.toDescent).card < depth →
    Sound g opens s.toDescent → (∀ o ∈ opens, g.Leads o v) →
      ∃ s', g.connectChecked depth s v = .ok s' ∧ Follows s v s' (g.connect depth s.toDescent v)

theorem FindsFrom.follow (hdeep : g.FindsFrom depth) (hw : w ∈ g.vertices)
    (hopen : ∀ o ∈ opens, g.Leads o w) (hdepth : (g.fresh s.toDescent).card < depth)
    (h : Sound g opens s.toDescent) (hv : (s.number? v).isSome) (hlow : s.lowLink? v = some low) :
    ∃ s', followChecked (g.connectChecked depth) v s w = .ok s' ∧
      Follows s v s' (NameGraph.follow (g.connect depth) (low, s.toDescent) w) := by
  cases hnumber : s.number? w with
  | none =>
    obtain ⟨s', hconnect, hs'⟩ := hdeep opens s w hw hnumber hdepth h hopen
    -- What was entered before is not the vertex that is entered now.
    have hkept : ∀ u, (s.number? u).isSome → s'.lowLink? u = s.lowLink? u := by
      refine fun u hu => hs'.kept u ?_ hu
      rintro rfl
      rw [hnumber] at hu
      cases hu
    refine ⟨s'.setLowLink v (min low (g.connect depth s.toDescent w).1), ?_, ?_⟩
    · have hlow' := Finder.lowLink_of_lowLink? ((hkept v hv).trans hlow)
      rw [followChecked, hnumber]
      simp only [Option.isNone_none, if_true, hconnect, Bind.bind, Except.bind, hlow',
        Finder.lowLink_of_lowLink? hs'.lowLink, pure, Except.pure]
    · rw [NameGraph.follow, hnumber]
      show Follows s v _ (_, (g.connect depth s.toDescent w).2)
      rw [← hs'.progress]
      exact .setLowLink _ fun u _ hu => hkept u hu
  | some number =>
    rw [followChecked, NameGraph.follow, hnumber]
    simp only [Option.isNone_some, Bool.false_eq_true, if_false]
    split
    · refine ⟨s.setLowLink v (min low number), ?_, .setLowLink _ fun _ _ _ => rfl⟩
      simp only [Finder.lowLink_of_lowLink? hlow, Finder.number_of_number? hnumber, Bind.bind,
        Except.bind, pure, Except.pure]
    · exact ⟨s, rfl, .refl hlow⟩

/-- All edges of a vertex are followed, one after the other. -/
theorem FindsFrom.foldlM (hg : g.Proper) (hdeep : g.FindsFrom depth) :
    ∀ (ws : List Symbol) (s : Finder) (low : Nat), (∀ w ∈ ws, w ∈ g.vertices) →
      (∀ w ∈ ws, ∀ o ∈ opens, g.Leads o w) → (g.fresh s.toDescent).card < depth →
      Sound g opens s.toDescent → low ≤ s.numbers.length → (s.number? v).isSome →
      s.lowLink? v = some low →
      ∃ s', ws.foldlM (followChecked (g.connectChecked depth) v) s = .ok s' ∧
        Follows s v s' (ws.foldl (NameGraph.follow (g.connect depth)) (low, s.toDescent))
  | [], s, low, _, _, _, _, _, _, hlow => ⟨s, rfl, .refl hlow⟩
  | w :: ws, s, low, hws, hopen, hdepth, h, hle, hv, hlow => by
    obtain ⟨hw, hws⟩ := List.forall_mem_cons.mp hws
    obtain ⟨hopenw, hopen⟩ := List.forall_mem_cons.mp hopen
    obtain ⟨s', hfollow, hs'⟩ := hdeep.follow hw hopenw hdepth h hv hlow
    have hscan := (scansFrom hg depth).follow hw hopenw hdepth h hle
    rw [List.foldlM_cons, hfollow, List.foldl_cons]
    generalize NameGraph.follow (g.connect depth) (low, s.toDescent) w = plain at hs' hscan ⊢
    obtain ⟨low', progress⟩ := plain
    obtain rfl : s'.toDescent = progress := hs'.progress
    have hkept : ∀ u, (s.number? u).isSome → (s'.number? u).isSome := by
      intro u hu
      obtain ⟨n, hn⟩ := Option.isSome_iff_exists.mp hu
      exact Option.isSome_of_eq_some (hscan.kept u n hn)
    obtain ⟨s'', hrest, hs''⟩ := FindsFrom.foldlM hg hdeep ws s' low' hws hopen
      (Nat.lt_of_le_of_lt hscan.card_fresh_le hdepth) hscan.sound
      (hscan.le.trans (hle.trans hscan.grown)) (hkept v hv) hs'.lowLink
    exact ⟨s'', hrest, hs'.trans hs'' hkept⟩

theorem findsFrom (hg : g.Proper) (depth : Nat) : g.FindsFrom depth := by
  induction depth with
  | zero =>
    intro opens s v _ _ hdepth
    exact absurd hdepth (Nat.not_lt_zero _)
  | succ depth ih =>
    intro opens s v hv hnew hdepth h hopen
    have hfresh := card_fresh_enter_lt hv hnew
    have hopens : ∀ w ∈ g.successors v, ∀ o ∈ v :: opens, g.Leads o w := fun w hw =>
      have hvw := leads_successor hw
      List.forall_mem_cons.mpr ⟨hvw, fun o ho => (hopen o ho).trans hvw⟩
    have hsuccessors : ∀ w ∈ g.successors v, w ∈ g.vertices := fun w hw => hg.successor hw
    have hnumber : (s.enter v).number? v = some s.numbers.length := by
      rw [Finder.toDescent_enter, Descent.number?_enter, if_pos rfl]
    have hdepth' : (g.fresh (s.enter v).toDescent).card < depth := by
      rw [Finder.toDescent_enter]
      omega
    have hsound : Sound g (v :: opens) (s.enter v).toDescent := h.enter hv hnew hopen
    have hscan := (scansFrom hg depth).foldl (g.successors v) _ s.numbers.length hsuccessors
      hopens hdepth' hsound (Nat.le_succ _)
    obtain ⟨s', hrun, hs'⟩ := ih.foldlM hg (g.successors v) (s.enter v) s.numbers.length
      hsuccessors hopens hdepth' hsound (Nat.le_succ _) (Option.isSome_of_eq_some hnumber)
      (by rw [Finder.lowLink?_enter, if_pos rfl])
    obtain ⟨s'', hleave, hs''⟩ := hs'.leave (hscan.kept v _ hnumber)
    refine ⟨s'', ?_, ?_⟩
    · rw [connectChecked, hrun]
      exact hleave
    · rw [connect]
      exact hs''

/-! ### The search from all vertices -/

theorem foldlM_visitChecked (hg : g.Proper) : ∀ (vs : List Symbol) (s : Finder),
    (∀ v ∈ vs, v ∈ g.vertices) → Sound g [] s.toDescent →
      ∃ s', vs.foldlM g.visitChecked s = .ok s' ∧ s'.toDescent = vs.foldl g.visit s.toDescent
  | [], s, _, _ => ⟨s, rfl, rfl⟩
  | v :: vs, s, hvs, h => by
    obtain ⟨hv, hvs⟩ := List.forall_mem_cons.mp hvs
    obtain ⟨s', hvisit, hs'⟩ :
        ∃ s', g.visitChecked s v = .ok s' ∧ s'.toDescent = g.visit s.toDescent v := by
      unfold visitChecked visit
      split
      · exact ⟨s, rfl, rfl⟩
      · next hnone =>
        obtain ⟨s', hconnect, hs'⟩ := findsFrom hg g.searchDepth [] s v hv
          (Option.not_isSome_iff_eq_none.mp hnone) (g.card_fresh_lt_searchDepth s.toDescent) h
          (fun o ho => absurd ho List.not_mem_nil)
        exact ⟨s', hconnect, hs'.progress⟩
    have hsound := (visit_scans hg h hv).sound
    rw [← hs'] at hsound
    obtain ⟨s'', hrest, hs''⟩ := foldlM_visitChecked hg vs s' hvs hsound
    refine ⟨s'', ?_, ?_⟩
    · rw [List.foldlM_cons, hvisit]
      exact hrest
    · rw [List.foldl_cons, ← hs', hs'']

/-- The search that keeps the low links in a map meets no fault and does what the other one does. -/
theorem fullDescent_checked (hg : g.Proper) :
    ∃ s, g.fullDescentChecked = .ok s ∧ s.toDescent = g.fullDescent :=
  foldlM_visitChecked hg g.vertices {} (fun _ hv => hv) (.empty g)

end StackTemplate.NameGraph
