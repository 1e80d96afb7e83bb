import StackTemplate.Proofs.Fold.Termination
import StackTemplate.Proofs.Format.Normalizing
import StackTemplate.Proofs.Naming
import StackTemplate.Proofs.Resolution.Wiring

/-!
# Passes keep the tree well formed

Whatever passes run over a module, in whatever order, its tree stays well formed and its items stay
where they are. One pass keeps two facts: the tree is well formed, and the directory leads to
declarations within reach. By induction so does a run.

Naming fails on items that have names, and resolving needs names. All other passes always succeed,
so a run that names the items first does.
-/

namespace StackTemplate

open StackTemplate.Tree

/-- A pass over a module. -/
inductive Pass where
  /-- Names all items. -/
  | bind
  /-- Extracts the placeholders of interpolated strings. -/
  | normalize
  /-- Folds constants. -/
  | evaluate (fuel : Nat)
  /-- Records the dependencies. -/
  | resolve
  /-- Wires the finalizer of that name. -/
  | finalize (name : String)
deriving DecidableEq

namespace Pass

/-- Runs a pass on a tree with its directory. -/
def run (directory : Directory) (t : Tree) : Pass → Except Interruption (Directory × Tree)
  | .bind => do
    let b ← t.bind
    pure (b.directory, b.tree)
  | .normalize => pure (directory, (Format.normalize t directory).tree)
  | .evaluate fuel => do
    let e ← Fold.evaluate t directory fuel
    pure (directory, e.tree)
  | .resolve => do
    let r ← t.resolve directory
    pure (directory, r.tree)
  | .finalize name => do
    let found ← Interruption.after [] (Finalizer.analyze t directory name)
    pure (directory, found.2)

/-- Runs passes one after the other. -/
def runAll (passes : List Pass) (start : Directory × Tree) :
    Except Interruption (Directory × Tree) :=
  passes.foldlM (fun m pass => pass.run m.1 m.2) start

end Pass

variable {t t' : Tree} {directory : Directory}

/-! ### What items that stay in place carry along -/

theorem Tree.KeepsItems.bound (h : KeepsItems t t') (hbound : Bound t directory) :
    Bound t' directory := by
  intro name id hid
  obtain ⟨hreach, hdecl⟩ := hbound name id hid
  obtain ⟨d, hd⟩ := Option.isSome_iff_exists.mp hdecl
  obtain ⟨d', hd', -⟩ := h.decl id d hreach hd
  exact ⟨(h.host id hreach (expr?_of_decl? hd)).1, Option.isSome_of_eq_some hd'⟩

/-- A declaration of the second tree is one of the first. -/
theorem Tree.KeepsItems.old_decl {x : NodeId} {d' : Decl} (h : KeepsItems t t')
    (hwf : t.WellFormed) (hwf' : t'.WellFormed) (hx : t'.Reaches t'.root x)
    (hd' : t'.decl? x = some d') : t.Reaches t.root x ∧ (t.decl? x).isSome := by
  obtain ⟨hx, he⟩ := h.old_host x hx (expr?_of_decl? hd')
  refine ⟨hx, ?_⟩
  rcases Relation.ReflTransGen.cases_tail hx with heq | ⟨p, hp, hxp⟩
  · rw [← h.root_eq] at heq
    exact absurd heq (hwf'.ne_root_of_decl? hd')
  · refine (hwf.expr_or_decl hp hxp).resolve_left ?_
    rw [he]
    exact Bool.false_ne_true

theorem Tree.KeepsItems.named (h : KeepsItems t t') (hwf : t.WellFormed) (hwf' : t'.WellFormed)
    (hnamed : t.Named) : t'.Named := by
  intro x d' hx hd'
  obtain ⟨hx, hdecl⟩ := h.old_decl hwf hwf' hx hd'
  obtain ⟨d, hd⟩ := Option.isSome_iff_exists.mp hdecl
  obtain ⟨name, hname⟩ := Option.isSome_iff_exists.mp (hnamed x d hx hd)
  obtain ⟨d'', hd'', -, hfull⟩ := h.decl x d hx hd
  rw [hd'] at hd''
  rw [Option.some.inj hd'']
  exact Option.isSome_of_eq_some (hfull name hname)

theorem Tree.KeepsItems.indexed (h : KeepsItems t t') (hindexed : t.Indexed directory) :
    t'.Indexed directory := by
  intro name id hget
  obtain ⟨hreach, d, hd, hname⟩ := hindexed name id hget
  obtain ⟨d', hd', -, hfull⟩ := h.decl id d hreach hd
  exact ⟨(h.host id hreach (expr?_of_decl? hd)).1, d', hd', hfull name hname⟩

/-- Folding succeeds and changes expressions only, whether or not it comes to an end. -/
theorem Fold.evaluate_rewired (fuel : Nat) (hwf : t.WellFormed) (hbound : Bound t directory) :
    ∃ after f, evaluate t directory fuel = .ok after ∧ Rewired t after.tree f := by
  obtain ⟨n, -, hrun⟩ := Folding.exists_run_eq directory fuel { tree := t }
  obtain ⟨f, hf⟩ := after_rewired (s := { tree := t }) hwf hbound n
  rw [← hrun] at hf
  unfold evaluate
  split
  · next s heq =>
    rw [heq] at hf
    exact ⟨_, f, rfl, hf⟩
  · next s heq =>
    rw [heq] at hf
    obtain ⟨after, f', hreinline, hf'⟩ := reinline_rewired hf.wellFormed
    have htrans : Rewired t after.2 (f' ∘ f) := hf.trans hf'
    rw [hreinline]
    exact ⟨_, f' ∘ f, rfl, htrans⟩

/-! ### Runs -/

/-- What passes rely on. -/
structure Sound (m : Directory × Tree) : Prop where
  wellFormed : m.2.WellFormed
  bound : Bound m.2 m.1

namespace Pass

variable {pass : Pass} {passes : List Pass} {start after : Directory × Tree}

/-- Passes other than naming succeed on a tree with names. -/
theorem run_ok (h : Sound (directory, t)) (hnamed : t.Named) (hpass : pass ≠ .bind) :
    ∃ after, pass.run directory t = .ok after := by
  cases pass with
  | bind => exact absurd rfl hpass
  | normalize => exact ⟨_, rfl⟩
  | evaluate fuel =>
    obtain ⟨e, f, he, -⟩ := Fold.evaluate_rewired fuel h.wellFormed h.bound
    exact ⟨_, by rw [run, he]; rfl⟩
  | resolve =>
    obtain ⟨r, hr⟩ := resolve_ok h.wellFormed hnamed directory
    exact ⟨_, by rw [run, hr]; rfl⟩
  | finalize name =>
    obtain ⟨found, hfound, -⟩ := Finalizer.analyze_spec name h.wellFormed h.bound
    exact ⟨_, by rw [run, hfound]; rfl⟩

/-- A pass that succeeds keeps what passes rely on, and the items. -/
theorem run_keeps (h : Sound (directory, t)) (hrun : pass.run directory t = .ok after) :
    Sound after ∧ KeepsItems t after.2 := by
  obtain ⟨hwf, hbound⟩ := h
  cases pass with
  -- Two passes only relabel declarations, two rewire expressions, and wiring grafts.
  | bind =>
    cases hb : t.bind with
    | error i =>
      rw [run, hb] at hrun
      cases hrun
    | ok b =>
      rw [run, hb] at hrun
      obtain rfl := Except.ok.inj hrun
      obtain ⟨hlabels, -, hbound'⟩ := bind_spec hwf hb
      exact ⟨⟨hlabels.wellFormed hwf, hbound'⟩, hlabels.keepsItems hwf⟩
  | normalize =>
    obtain rfl := Except.ok.inj hrun
    obtain ⟨f, hf⟩ := Format.normalize_rewired hwf directory
    have hkeeps := hf.keepsItems hwf
    exact ⟨⟨hf.wellFormed, hkeeps.bound hbound⟩, hkeeps⟩
  | evaluate fuel =>
    obtain ⟨e, f, he, hf⟩ := Fold.evaluate_rewired fuel hwf hbound
    rw [run, he] at hrun
    obtain rfl := Except.ok.inj hrun
    have hkeeps := hf.keepsItems hwf
    exact ⟨⟨hf.wellFormed, hkeeps.bound hbound⟩, hkeeps⟩
  | resolve =>
    cases hr : t.resolve directory with
    | error i =>
      rw [run, hr] at hrun
      cases hrun
    | ok r =>
      rw [run, hr] at hrun
      obtain rfl := Except.ok.inj hrun
      have hlabels := resolve_relabelled hr
      have hkeeps := hlabels.keepsItems hwf
      exact ⟨⟨hlabels.wellFormed hwf, hkeeps.bound hbound⟩, hkeeps⟩
  | finalize name =>
    obtain ⟨found, hfound, hwf', hkeeps⟩ := Finalizer.analyze_spec name hwf hbound
    rw [run, hfound] at hrun
    obtain rfl := Except.ok.inj hrun
    exact ⟨⟨hwf', hkeeps.bound hbound⟩, hkeeps⟩

theorem runAll_keeps (h : Sound start) (hrun : runAll passes start = .ok after) :
    Sound after ∧ KeepsItems start.2 after.2 := by
  refine foldlM_keeps (P := fun m => Sound m ∧ KeepsItems start.2 m.2) ?_ ⟨h, .refl _⟩ hrun
  intro m pass next hm hnext
  obtain ⟨hsound, hkeeps⟩ := run_keeps hm.1 hnext
  exact ⟨hsound, hm.2.trans hkeeps⟩

theorem runAll_ok (h : Sound start) (hnamed : start.2.Named) (hpasses : .bind ∉ passes) :
    ∃ after, runAll passes start = .ok after := by
  have hstep : ∀ m : Directory × Tree, ∀ pass ∈ passes, Sound m ∧ m.2.Named →
      ∃ next, pass.run m.1 m.2 = .ok next ∧ Sound next ∧ next.2.Named := by
    rintro m pass hpass ⟨hm, hnamed⟩
    obtain ⟨next, hnext⟩ := run_ok hm hnamed (ne_of_mem_of_not_mem hpass hpasses)
    obtain ⟨hsound, hkeeps⟩ := run_keeps hm hnext
    exact ⟨next, hnext, hsound, hkeeps.named hm.wellFormed hsound.wellFormed hnamed⟩
  obtain ⟨after, hafter, -⟩ := foldlM_ok (P := fun m => Sound m ∧ m.2.Named) hstep ⟨h, hnamed⟩
  exact ⟨after, hafter⟩

/-- Passes in any order leave the tree of a module well formed and its items in their slots, under
their names. Every run succeeds that names the items first and not again. -/
theorem runAll_wellFormed {b : Binding} (hwf : t.WellFormed) (hb : t.bind = .ok b) :
    (∀ passes after, runAll passes (b.directory, t) = .ok after →
      after.2.WellFormed ∧ KeepsItems t after.2) ∧
    ∀ passes directory, .bind ∉ passes →
      ∃ after, runAll (.bind :: passes) (directory, t) = .ok after ∧
        after.2.WellFormed ∧ KeepsItems t after.2 ∧ KeepsItems b.tree after.2 := by
  obtain ⟨hlabels, hnamed, hbound⟩ := bind_spec hwf hb
  constructor
  · intro passes after hrun
    have hbound' : Bound t b.directory := by
      intro name id hid
      obtain ⟨hreach, hdecl⟩ := hbound name id hid
      rw [hlabels.root_eq, hlabels.reaches] at hreach
      obtain ⟨d', hd'⟩ := Option.isSome_iff_exists.mp hdecl
      obtain ⟨d, hd, -⟩ := hlabels.old_decl id hd'
      exact ⟨hreach, Option.isSome_of_eq_some hd⟩
    obtain ⟨hsound, hkeeps⟩ := runAll_keeps ⟨hwf, hbound'⟩ hrun
    exact ⟨hsound.wellFormed, hkeeps⟩
  · intro passes directory hpasses
    have hstart : Sound (b.directory, b.tree) := ⟨hlabels.wellFormed hwf, hbound⟩
    obtain ⟨after, hrun⟩ := runAll_ok hstart hnamed hpasses
    obtain ⟨hsound, hkeeps⟩ := runAll_keeps hstart hrun
    refine ⟨after, ?_, hsound.wellFormed, (hlabels.keepsItems hwf).trans hkeeps, hkeeps⟩
    rw [runAll, List.foldlM_cons, run, hb]
    exact hrun

/-- A module with a queue that only production gets, and a resource to be created last. -/
def deployment : Tree where
  nodes := #[
    { kind := .decl { localName := "Stage", kind := .parameter { typeName := "String" } },
      span := default, parent := some 9 },
    { kind := .expr (.ref "Stage"), span := default, parent := some 3 },
    { kind := .expr (.literal (.string "prod")), span := default, parent := some 3 },
    { kind := .expr (.equals 1 2), span := default, parent := some 4 },
    { kind := .decl { localName := "IsProd", kind := .condition 3 }, span := default,
      parent := some 9 },
    { kind := .expr (.conditionRef "IsProd"), span := default, parent := some 7 },
    { kind := .expr (.sub "q-${Stage}" .empty), span := default, parent := some 7 },
    { kind := .decl
        { localName := "Queue"
          kind := .resource
            { resourceType := some "Queue", ifCondition := some 5, properties := some 6 } }
      span := default
      parent := some 9 },
    { kind := .decl { localName := "Last", kind := .resource { resourceType := some "Marker" } },
      span := default, parent := some 9 },
    { kind := .module { name := "deployment", items := [0, 4, 7, 8] }, span := default }]
  root := 9

theorem deployment_wellFormed :
    ∃ after, runAll [.bind, .normalize, .evaluate 8, .resolve, .finalize "Last"] ({}, deployment) =
        .ok after ∧
      after.2.WellFormed ∧ after.2.itemSlots 9 = [0, 4, 7, 8] := by
  have hwf : deployment.WellFormed := by
    refine .ofAll (m := { name := "deployment", items := [0, 4, 7, 8] }) rfl rfl ?_
    decide +kernel
  obtain ⟨b, hb⟩ : ∃ b, deployment.bind = .ok b := ⟨_, rfl⟩
  obtain ⟨after, hrun, hwf', hkeeps, -⟩ := (runAll_wellFormed hwf hb).2
    [.normalize, .evaluate 8, .resolve, .finalize "Last"] {} (by decide)
  exact ⟨after, hrun, hwf', (hkeeps.host 9 .refl rfl).2.2⟩

end Pass

end StackTemplate
