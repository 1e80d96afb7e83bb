import Mathlib.Data.Finset.Dedup
import StackTemplate.Proofs.Compiling

/-!
# Edges are recorded on both sides

Every edge goes to the declaration that it starts from and, turned around, to the item of the
directory that it leads to. `Mirrored` says that the two sides agree: for any two names, the edges
from one to the other are, turned around, the reverse edges from the other to the one. Several
declarations may share a full name, and then the directory has only the first of them; edges start
from all of them and lead to that one only.

Recording one edge keeps the two sides in agreement (`Mirrored.recordEdge`), and nothing else that
resolution and the finalizer do touches an edge (`KeepsEdges`). So they agree after both
(`resolve_analyze_mirrored`).
-/

namespace StackTemplate

/-- Whether the edge leads to `target` under just these guards and was found at `origin`. -/
def Dependency.Is (edge : Dependency) (target : String) (guards : Finset Guard)
    (origin : NodeId) : Prop :=
  edge.target = target ∧ edge.guards.toFinset = guards ∧ edge.origin = origin

instance (edge : Dependency) (target : String) (guards : Finset Guard) (origin : NodeId) :
    Decidable (edge.Is target guards origin) :=
  inferInstanceAs (Decidable (_ ∧ _ ∧ _))

namespace Tree

variable {t t' t'' : Tree} {directory : Directory}

/-! ### The two sides -/

/-- The edges on the declaration at an id, if it has that full name. -/
def edgesAt (t : Tree) (name : String) (x : NodeId) : List Dependency :=
  ((t.decl? x).filter fun d => d.fullName = some name).elim [] Decl.dependencies

/-- The edges on all declarations within reach that have a full name. -/
def edgesFrom (t : Tree) (name : String) : List Dependency := t.decls.flatMap (t.edgesAt name)

/-- The reverse edges on the declaration that the directory has under a name. -/
def edgesInto (t : Tree) (directory : Directory) (name : String) : List Dependency :=
  ((directory.get? name).bind t.decl?).elim [] Decl.reverseDependencies

/-- The two sides of the edges agree. -/
structure Mirrored (directory : Directory) (t : Tree) : Prop where
  target : ∀ x d, t.Reaches t.root x → t.decl? x = some d →
    ∀ edge ∈ d.dependencies, (directory.get? edge.target).isSome
  perm : ∀ source target,
    (((t.edgesFrom source).filter (·.target = target)).map (·.reversed source)).Perm
      ((t.edgesInto directory target).filter (·.target = source))
  unlisted : ∀ x d, t.Reaches t.root x → t.decl? x = some d →
    (∀ name, directory.get? name ≠ some x) → d.reverseDependencies = []

/-- Edges that agree are equally many on both sides, whatever their guards and origins. -/
theorem Mirrored.count_eq (h : Mirrored directory t) (source target : String)
    (guards : Finset Guard) (origin : NodeId) :
    (t.edgesFrom source).countP (·.Is target guards origin) =
      (t.edgesInto directory target).countP (·.Is source guards origin) := by
  let wanted : Dependency → Bool := fun edge =>
    edge.guards.toFinset = guards ∧ edge.origin = origin
  have hfrom : (t.edgesFrom source).countP (·.Is target guards origin) =
      (((t.edgesFrom source).filter (·.target = target)).map (·.reversed source)).countP
        wanted := by
    rw [List.countP_map, List.countP_filter]
    refine List.countP_congr fun edge _ => ?_
    simp [wanted, Dependency.Is, Dependency.reversed, and_comm]
  have hinto : (t.edgesInto directory target).countP (·.Is source guards origin) =
      ((t.edgesInto directory target).filter (·.target = source)).countP wanted := by
    rw [List.countP_filter]
    refine List.countP_congr fun edge _ => ?_
    simp [wanted, Dependency.Is, and_comm]
  rw [hfrom, hinto, (h.perm source target).countP_eq]

/-! ### Changes that touch no edge -/

/-- The second tree has all declarations of the first, with the same names and edges. -/
def KeepsEdges (t t' : Tree) : Prop :=
  ∀ x d, t.decl? x = some d → ∃ d', t'.decl? x = some d' ∧ d'.fullName = d.fullName ∧
    d'.dependencies = d.dependencies ∧ d'.reverseDependencies = d.reverseDependencies

theorem KeepsEdges.refl (t : Tree) : KeepsEdges t t := fun _ d hd => ⟨d, hd, rfl, rfl, rfl⟩

theorem KeepsEdges.trans (h : KeepsEdges t t') (h' : KeepsEdges t' t'') : KeepsEdges t t'' := by
  intro x d hd
  obtain ⟨d', hd', hname, hout, hback⟩ := h x d hd
  obtain ⟨d'', hd'', hname', hout', hback'⟩ := h' x d' hd'
  exact ⟨d'', hd'', hname'.trans hname, hout'.trans hout, hback'.trans hback⟩

/-- Other content at a node that is no declaration touches no edge. -/
theorem KeepsEdges.ofKind {y : NodeId} (hy : t.decl? y = none)
    (hkind : ∀ x, x < t.size → x ≠ y → t'.kind? x = t.kind? x) : KeepsEdges t t' := by
  intro x d hd
  have hne : x ≠ y := by
    rintro rfl
    rw [hy] at hd
    cases hd
  rw [← decl?_congr (hkind x (lt_size_of_decl? hd) hne)] at hd
  exact ⟨d, hd, rfl, rfl, rfl⟩

theorem KeepsEdges.ofKind_eq (hkind : ∀ x, t'.kind? x = t.kind? x) : KeepsEdges t t' :=
  fun x d hd => ⟨d, (decl?_congr (hkind x)).trans hd, rfl, rfl, rfl⟩

theorem Keeps.keepsEdges (h : Keeps t t') : KeepsEdges t t' :=
  .ofKind (y := t.size) (by rw [decl?, kind?_eq_none.mpr (Nat.le_refl _)]; rfl)
    fun x hx _ => h.kind_eq x hx

theorem KeepsEdges.modifyDecl {y : NodeId} {f : Decl → Decl}
    (hf : ∀ d, (f d).fullName = d.fullName ∧ (f d).dependencies = d.dependencies ∧
      (f d).reverseDependencies = d.reverseDependencies) : KeepsEdges t (t.modifyDecl y f) := by
  intro x d hd
  rw [decl?_modifyDecl, hd]
  split
  · exact ⟨f d, rfl, hf d⟩
  · exact ⟨d, rfl, rfl, rfl, rfl⟩

theorem decls_perm (h : KeepsItems t t') (hwf : t.WellFormed) (hwf' : t'.WellFormed) :
    t'.decls.Perm t.decls := by
  refine (List.perm_ext_iff_of_nodup hwf'.nodup_decls hwf.nodup_decls).mpr fun x => ?_
  rw [hwf.mem_decls, hwf'.mem_decls]
  constructor
  · rintro ⟨hx, hsome⟩
    obtain ⟨d, hd⟩ := Option.isSome_iff_exists.mp hsome
    exact h.old_decl hwf hwf' hx hd
  · rintro ⟨hx, hsome⟩
    obtain ⟨d, hd⟩ := Option.isSome_iff_exists.mp hsome
    obtain ⟨d', hd', -⟩ := h.decl x d hx hd
    exact ⟨(h.host x hx (expr?_of_decl? hd)).1, Option.isSome_of_eq_some hd'⟩

theorem edgesAt_eq {x : NodeId} {d : Decl} (hd : t.decl? x = some d) (name : String) :
    t.edgesAt name x = if d.fullName = some name then d.dependencies else [] := by
  rw [edgesAt, hd]
  by_cases hname : d.fullName = some name <;> simp [hname, Option.filter]

theorem edgesInto_eq {x : NodeId} {d : Decl} {name : String} (hget : directory.get? name = some x)
    (hd : t.decl? x = some d) : t.edgesInto directory name = d.reverseDependencies := by
  rw [edgesInto, hget, Option.bind_some, hd]
  rfl

theorem edgesInto_of_none {name : String} (hget : directory.get? name = none) :
    t.edgesInto directory name = [] := by
  rw [edgesInto, hget]
  rfl

theorem Mirrored.keep (h : Mirrored directory t) (hindexed : t.Indexed directory)
    (hwf : t.WellFormed) (hwf' : t'.WellFormed) (hkeeps : KeepsItems t t')
    (hedges : KeepsEdges t t') : Mirrored directory t' := by
  have hold : ∀ x d', t'.Reaches t'.root x → t'.decl? x = some d' →
      t.Reaches t.root x ∧ ∃ d, t.decl? x = some d ∧ d'.dependencies = d.dependencies ∧
        d'.reverseDependencies = d.reverseDependencies := by
    intro x d' hx hd'
    obtain ⟨hx, hsome⟩ := hkeeps.old_decl hwf hwf' hx hd'
    obtain ⟨d, hd⟩ := Option.isSome_iff_exists.mp hsome
    obtain ⟨d'', hd'', -, hout, hback⟩ := hedges x d hd
    obtain rfl := Option.some.inj (hd'.symm.trans hd'')
    exact ⟨hx, d, hd, hout, hback⟩
  refine ⟨fun x d' hx hd' edge hedge => ?_, fun source target => ?_, fun x d' hx hd' hnone => ?_⟩
  · obtain ⟨hx, d, hd, hout, -⟩ := hold x d' hx hd'
    exact h.target x d hx hd edge (hout ▸ hedge)
  · have hfrom : (t'.edgesFrom source).Perm (t.edgesFrom source) := by
      refine (List.Perm.flatMap_right _ (decls_perm hkeeps hwf hwf')).trans (.of_eq ?_)
      refine List.flatMap_congr fun x hx => ?_
      obtain ⟨d, hd⟩ := Option.isSome_iff_exists.mp (hwf.mem_decls.mp hx).2
      obtain ⟨d', hd', hname, hout, -⟩ := hedges x d hd
      rw [edgesAt_eq hd, edgesAt_eq hd', hname, hout]
    have hinto : t'.edgesInto directory target = t.edgesInto directory target := by
      cases hget : directory.get? target with
      | none => rw [edgesInto_of_none hget, edgesInto_of_none hget]
      | some y =>
        obtain ⟨-, d, hd, -⟩ := hindexed target y hget
        obtain ⟨d', hd', -, -, hback⟩ := hedges y d hd
        rw [edgesInto_eq hget hd, edgesInto_eq hget hd', hback]
    rw [hinto]
    exact ((hfrom.filter _).map _).trans (h.perm source target)
  · obtain ⟨hx, d, hd, -, hback⟩ := hold x d' hx hd'
    rw [hback]
    exact h.unlisted x d hx hd hnone

/-! ### Recording an edge -/

/-- One member of a list that gives one thing more. -/
theorem flatMap_perm_snoc {α β : Type} {as : List α} {f g : α → List β} {a : α} {b : β}
    (ha : a ∈ as) (hnodup : as.Nodup) (hself : g a = f a ++ [b])
    (hother : ∀ c ∈ as, c ≠ a → g c = f c) : (as.flatMap g).Perm (as.flatMap f ++ [b]) := by
  induction as with
  | nil => cases ha
  | cons c as ih =>
    rw [List.nodup_cons] at hnodup
    rw [List.flatMap_cons, List.flatMap_cons]
    by_cases hc : c = a
    · subst hc
      have hrest : as.flatMap g = as.flatMap f := List.flatMap_congr fun x hx =>
        hother x (List.mem_cons_of_mem c hx) fun heq => hnodup.1 (heq ▸ hx)
      rw [hself, hrest, List.append_assoc, List.append_assoc]
      exact List.perm_append_comm.append_left _
    · have ha : a ∈ as := (List.mem_cons.mp ha).resolve_left (Ne.symm hc)
      rw [hother c (List.mem_cons_self ..) hc, List.append_assoc]
      exact (ih ha hnodup.2 fun x hx => hother x (List.mem_cons_of_mem c hx)).append_left _

section Step

variable {source target : NodeId} {name : String} {d : Decl} {edge : Dependency}

/-- A new edge comes to the edges from the name of its source. -/
theorem edgesFrom_recordEdge (target : NodeId) (edge : Dependency) (hwf : t.WellFormed)
    (hx : t.Reaches t.root source) (hd : t.decl? source = some d) (hname : d.fullName = some name)
    (other : String) :
    ((t.recordEdge source name target edge).edgesFrom other).Perm
      (t.edgesFrom other ++ if other = name then [edge] else []) := by
  have hlabels := recordEdge_relabelled t source name target edge
  have hdecls := decls_perm (hlabels.keepsItems hwf) hwf (hlabels.wellFormed hwf)
  -- At each declaration there are the old edges, and at the source the new one behind them.
  have hat : ∀ x ∈ t.decls, (t.recordEdge source name target edge).edgesAt other x =
      t.edgesAt other x ++ if x = source ∧ other = name then [edge] else [] := by
    intro x hx
    obtain ⟨dx, hdx⟩ := Option.isSome_iff_exists.mp (hwf.mem_decls.mp hx).2
    have hdx' := decl?_recordEdge t source name target edge x
    rw [hdx, Option.map_some] at hdx'
    rw [edgesAt_eq hdx, edgesAt_eq hdx', Decl.fullName_extend, Decl.dependencies_extend]
    by_cases hxs : x = source
    · subst hxs
      obtain rfl := Option.some.inj (hd.symm.trans hdx)
      rw [hname]
      by_cases hother : other = name
      · simp [hother]
      · have hother' : ¬ name = other := fun heq => hother heq.symm
        simp [hother, hother']
    · simp [hxs]
  refine (List.Perm.flatMap_right _ hdecls).trans ?_
  by_cases hother : other = name
  · rw [if_pos hother]
    refine flatMap_perm_snoc (hwf.mem_decls.mpr ⟨hx, Option.isSome_of_eq_some hd⟩)
      hwf.nodup_decls ?_ fun x hx hne => ?_
    · rw [hat source (hwf.mem_decls.mpr ⟨hx, Option.isSome_of_eq_some hd⟩), if_pos ⟨rfl, hother⟩]
    · rw [hat x hx, if_neg fun h => hne h.1, List.append_nil]
  · rw [if_neg hother, List.append_nil]
    refine .of_eq (List.flatMap_congr fun x hx => ?_)
    rw [hat x hx, if_neg fun h => hother h.2, List.append_nil]

/-- The reverse of a new edge comes to the reverse edges on its target. -/
theorem edgesInto_recordEdge (hindexed : t.Indexed directory)
    (hget : directory.get? edge.target = some target) (other : String) :
    (t.recordEdge source name target edge).edgesInto directory other =
      t.edgesInto directory other ++ if other = edge.target then [edge.reversed name] else [] := by
  cases hother : directory.get? other with
  | none =>
    have hne : other ≠ edge.target := by
      rintro rfl
      rw [hget] at hother
      cases hother
    rw [edgesInto_of_none hother, edgesInto_of_none hother, if_neg hne, List.append_nil]
  | some y =>
    obtain ⟨-, dy, hdy, hnamey⟩ := hindexed other y hother
    have hdy' := decl?_recordEdge t source name target edge y
    rw [hdy, Option.map_some] at hdy'
    -- An item has one name, so only the name of the target leads to it.
    have hiff : y = target ↔ other = edge.target := by
      constructor
      · rintro rfl
        obtain ⟨-, d', hd', hname'⟩ := hindexed edge.target y hget
        obtain rfl := Option.some.inj (hdy.symm.trans hd')
        exact Option.some.inj (hnamey.symm.trans hname')
      · rintro rfl
        exact Option.some.inj (hother.symm.trans hget)
    rw [edgesInto_eq hother hdy, edgesInto_eq hother hdy', Decl.reverseDependencies_extend]
    simp only [hiff]

/-- Recording an edge keeps the two sides in agreement. -/
theorem Mirrored.recordEdge (h : Mirrored directory t) (hcoherent : Coherent directory t)
    (hx : t.Reaches t.root source) (hd : t.decl? source = some d)
    (hname : d.fullName = some name) (hget : directory.get? edge.target = some target) :
    Mirrored directory (t.recordEdge source name target edge) := by
  have hlabels := recordEdge_relabelled t source name target edge
  refine ⟨fun y d' hy hd' e he => ?_, fun here there => ?_, fun y d' hy hd' hnone => ?_⟩
  · rw [hlabels.root_eq, hlabels.reaches] at hy
    rw [decl?_recordEdge] at hd'
    obtain ⟨dy, hdy, rfl⟩ := Option.map_eq_some_iff.mp hd'
    rw [Decl.dependencies_extend, List.mem_append] at he
    rcases he with he | he
    · exact h.target y dy hy hdy e he
    · split at he
      · rw [List.mem_singleton.mp he]
        exact Option.isSome_of_eq_some hget
      · cases he
  · have hfrom := edgesFrom_recordEdge target edge hcoherent.wellFormed hx hd hname here
    rw [edgesInto_recordEdge hcoherent.indexed hget there]
    refine ((hfrom.filter _).map _).trans ?_
    rw [List.filter_append, List.map_append, List.filter_append]
    refine (h.perm here there).append (.of_eq ?_)
    by_cases hhere : here = name <;> by_cases hthere : there = edge.target <;>
      grind [Dependency.reversed]
  · rw [hlabels.root_eq, hlabels.reaches] at hy
    rw [decl?_recordEdge] at hd'
    obtain ⟨dy, hdy, rfl⟩ := Option.map_eq_some_iff.mp hd'
    have hne : y ≠ target := fun heq => hnone edge.target (heq ▸ hget)
    rw [Decl.reverseDependencies_extend, if_neg hne, List.append_nil]
    exact h.unlisted y dy hy hdy hnone

theorem Mirrored.recordEdges (h : Mirrored directory t) (hcoherent : Coherent directory t)
    (hx : t.Reaches t.root source) (hd : t.decl? source = some d)
    (hname : d.fullName = some name) (edges : List Dependency) :
    Mirrored directory (t.recordEdges directory source name edges) := by
  induction edges generalizing t d with
  | nil => exact h
  | cons edge edges ih =>
    rw [recordEdges_cons]
    cases hget : directory.get? edge.target with
    | none => exact ih h hcoherent hx hd hname
    | some target =>
      have hlabels := recordEdge_relabelled t source name target edge
      have hd' := decl?_recordEdge t source name target edge source
      rw [hd, Option.map_some] at hd'
      refine ih (h.recordEdge hcoherent hx hd hname hget) (hcoherent.relabel hlabels) ?_ hd' hname
      rwa [hlabels.root_eq, hlabels.reaches]

end Step

/-! ### Resolution -/

/-- No edge is recorded on a declaration within reach. -/
def Unresolved (t : Tree) : Prop :=
  ∀ x d, t.Reaches t.root x → t.decl? x = some d →
    d.dependencies = [] ∧ d.reverseDependencies = []

theorem Unresolved.mirrored (h : t.Unresolved) (hcoherent : Coherent directory t) :
    Mirrored directory t := by
  have hfrom : ∀ name, t.edgesFrom name = [] := by
    intro name
    rw [edgesFrom, List.flatMap_eq_nil_iff]
    intro x hx
    obtain ⟨hreach, hsome⟩ := hcoherent.wellFormed.mem_decls.mp hx
    obtain ⟨d, hd⟩ := Option.isSome_iff_exists.mp hsome
    rw [edgesAt_eq hd, (h x d hreach hd).1, ite_self]
  have hinto : ∀ name, t.edgesInto directory name = [] := by
    intro name
    cases hget : directory.get? name with
    | none => exact edgesInto_of_none hget
    | some y =>
      obtain ⟨hreach, d, hd, -⟩ := hcoherent.indexed name y hget
      rw [edgesInto_eq hget hd, (h y d hreach hd).2]
  refine ⟨fun x d hx hd edge hedge => ?_, fun source target => ?_,
    fun x d hx hd _ => (h x d hx hd).2⟩
  · rw [(h x d hx hd).1] at hedge
    cases hedge
  · rw [hfrom, hinto]
    exact .refl _

theorem resolve_mirrored (h : Mirrored directory t) (hcoherent : Coherent directory t) :
    ∃ r, t.resolve directory = .ok r ∧ Mirrored directory r.tree := by
  have hstep : ∀ (r : Resolution), ∀ id ∈ t.decls,
      Relabelled t r.tree ∧ Mirrored directory r.tree →
      ∃ r', resolveDecl directory r id = .ok r' ∧ Relabelled t r'.tree ∧
        Mirrored directory r'.tree := by
    rintro r id hid ⟨hlabels, hr⟩
    obtain ⟨hreach, hsome⟩ := hcoherent.wellFormed.mem_decls.mp hid
    obtain ⟨d₀, hd₀⟩ := Option.isSome_iff_exists.mp hsome
    obtain ⟨d', hd', hlabels'⟩ := hlabels.decl id hd₀
    obtain ⟨name₀, hname₀⟩ := Option.isSome_iff_exists.mp (hcoherent.named id d₀ hreach hd₀)
    obtain ⟨next, hnext⟩ := resolveDecl_ok directory hd'
      (Option.isSome_of_eq_some (hlabels'.fullName name₀ hname₀))
    obtain ⟨d, name, hd, hname, rfl⟩ := resolveDecl_eq_ok hnext
    refine ⟨_, hnext, hlabels.trans (recordEdges_relabelled ..), ?_⟩
    refine hr.recordEdges (hcoherent.relabel hlabels) ?_ hd hname _
    rwa [hlabels.root_eq, hlabels.reaches]
  obtain ⟨r, hr, -, hmirrored⟩ := foldlM_ok
    (P := fun r : Resolution => Relabelled t r.tree ∧ Mirrored directory r.tree) hstep
    (s := { tree := t }) ⟨.refl t, h⟩
  exact ⟨r, hr, hmirrored⟩

end Tree

/-! ### The finalizer -/

namespace Finalizer

open StackTemplate.Tree

variable {t s g g' : Tree} {directory : Directory} {finalizer : NodeId} {finalizerName : String}

theorem ensureProperties_keepsEdges (g : Tree) (finalizer : NodeId) :
    KeepsEdges g (ensureProperties g finalizer).2 := by
  have hset : ∀ (id : NodeId) (d : Decl), (setProperties id d).fullName = d.fullName ∧
      (setProperties id d).dependencies = d.dependencies ∧
      (setProperties id d).reverseDependencies = d.reverseDependencies := by
    intro id d
    unfold setProperties
    split <;> exact ⟨rfl, rfl, rfl⟩
  have hmake : KeepsEdges g (((g.addExpr (.object .empty) (g.span finalizer)).2.modifyDecl finalizer
      (setProperties g.size)).link finalizer g.size) :=
    ((Keeps.add g _ _).keepsEdges.trans (.modifyDecl (hset _))).trans
      (.ofKind_eq fun x => kind?_link _ _)
  cases hid : (g.decl? finalizer).bind properties? with
  | none =>
    rw [ensureProperties, hid]
    exact hmake
  | some id =>
    rw [ensureProperties, hid]
    simp only
    split
    · exact .refl g
    · exact hmake

theorem ensureList_keepsEdges {span : Span} {object : NodeId} {found : NodeId × Tree}
    (h : ensureList g span object = .ok found) : KeepsEdges g found.2 := by
  unfold ensureList at h
  split at h
  rotate_left
  · obtain rfl := Except.ok.inj h
    exact .refl g
  next fields hobject =>
  -- A new list rewrites one node, which holds no edges: it is an object.
  have hmake : ∀ (e : Expr) (span : Span), KeepsEdges g
      (((g.addExpr e span).2.setExpr object (.object (fields.insert dependsOnKey g.size))).link
        object g.size) := by
    intro e span
    refine .ofKind (y := object) ?_ fun x hx hne => ?_
    · rw [decl?, expr?_eq_some.mp hobject]
      rfl
    · rw [kind?_link, setExpr, kind?_setKind_ne hne.symm, addExpr, kind?_add_of_lt hx]
  dsimp only at h
  split at h
  · obtain rfl := Except.ok.inj h
    exact hmake _ _
  · next id hid =>
    cases he : g.expr id with
    | error fault =>
      rw [he] at h
      cases h
    | ok e =>
      rw [he] at h
      dsimp only [Bind.bind, Except.bind] at h
      split at h
      · obtain rfl := Except.ok.inj h
        exact .refl g
      · obtain rfl := Except.ok.inj h
        exact hmake _ _

theorem appendItems_keepsEdges (g : Tree) (list : NodeId) (ys : List NodeId) :
    KeepsEdges g (appendItems g list ys) := by
  unfold appendItems
  split
  · next values hlist =>
    refine .ofKind (y := list) ?_ fun x hx hne => ?_
    · rw [decl?, expr?_eq_some.mp hlist]
      rfl
    · rw [(foldl_link list ys _).2.2.1, setExpr, kind?_setKind_ne hne.symm]
  · exact .refl g

theorem appendDependsOn_keepsEdges {ys : List NodeId}
    (h : appendDependsOn g finalizer ys = .ok g') : KeepsEdges g g' := by
  unfold appendDependsOn at h
  split at h
  · obtain rfl := Except.ok.inj h
    exact .refl g
  · cases hlist : ensureList (ensureProperties g finalizer).2 (g.span finalizer)
      (ensureProperties g finalizer).1 with
    | error fault =>
      simp only [hlist] at h
      cases h
    | ok found =>
      simp only [hlist] at h
      obtain rfl := Except.ok.inj h
      exact ((ensureProperties_keepsEdges g finalizer).trans (ensureList_keepsEdges hlist)).trans
        (appendItems_keepsEdges found.2 found.1 ys)

/-- Each `if` expression comes with one edge, recorded on both sides. -/
theorem addEach_mirrored {d : Decl} (rs : List ConditionalResource)
    (hrs : ∀ r ∈ rs, Copyable s r ∧ directory.get? r.name = some r.id)
    (h : Mirrored directory s) (hcoherent : Coherent directory s)
    (hx : s.Reaches s.root finalizer) (hd : s.decl? finalizer = some d)
    (hname : d.fullName = some finalizerName) :
    Mirrored directory (addEach (addConditional finalizer finalizerName) rs s).2 := by
  induction rs generalizing s d with
  | nil => exact h
  | cons r rs ih =>
    obtain ⟨⟨hcopyable, hget⟩, hrest⟩ := List.forall_mem_cons.mp hrs
    have hwf := hcoherent.wellFormed
    obtain ⟨item, edge, hedge, heq, hkeeps, htops, -⟩ :=
      addConditional_grows finalizer finalizerName hwf (.refl s) hcopyable
    rw [addEach_cons, heq]
    -- First the expression, then the edge.
    have hsprouting := htops.sprouting
    have hitem : Coherent directory item.2 :=
      hcoherent.keep (hsprouting.wellFormed hwf) (hsprouting.keepsItems hwf)
    have hmirrored := h.keep hcoherent.indexed hwf hitem.wellFormed (hsprouting.keepsItems hwf)
      hkeeps.keepsEdges
    have hx' : item.2.Reaches item.2.root finalizer := by
      rwa [hsprouting.root_eq, hsprouting.reaches hwf .refl]
    have hd' : item.2.decl? finalizer = some d := by
      rw [decl?_congr (hkeeps.kind_eq finalizer (lt_size_of_decl? hd)), hd]
    have hlabels := recordEdge_relabelled item.2 finalizer finalizerName r.id edge
    have hd'' := decl?_recordEdge item.2 finalizer finalizerName r.id edge finalizer
    rw [hd', Option.map_some] at hd''
    refine ih (fun r' hr' => ?_) (hmirrored.recordEdge hitem hx' hd' hname ?_)
      (hitem.relabel hlabels) ?_ hd'' hname
    · exact ⟨(hrest r' hr').1.sprout hwf (hsprouting.relabel hlabels), (hrest r' hr').2⟩
    · rwa [hedge.target_eq]
    · rwa [hlabels.root_eq, hlabels.reaches]

/-- The unconditional dependencies of the finalizer come with edges, recorded on both sides. -/
theorem begun_mirrored {d : Decl} (h : Mirrored directory t) (hcoherent : Coherent directory t)
    (hx : t.Reaches t.root finalizer) (hd : t.decl? finalizer = some d)
    (hname : d.fullName = some finalizerName) (dependsOn : List String) :
    Mirrored directory (begun t directory finalizerName finalizer dependsOn) := by
  have hset : ∀ names (d : Decl), (setDependsOn names d).fullName = d.fullName ∧
      (setDependsOn names d).dependencies = d.dependencies ∧
      (setDependsOn names d).reverseDependencies = d.reverseDependencies := by
    intro names d
    unfold setDependsOn
    split <;> exact ⟨rfl, rfl, rfl⟩
  have hlabels : ∀ names, Relabelled t (t.modifyDecl finalizer (setDependsOn names)) :=
    fun names => .modifyDecl fun d _ => setDependsOn_relabels names d
  have hd' : ∀ names, (t.modifyDecl finalizer (setDependsOn names)).decl? finalizer =
      some (setDependsOn names d) := by
    intro names
    rw [decl?_modifyDecl, if_pos rfl, hd, Option.map_some]
  have hwf := hcoherent.wellFormed
  refine (h.keep hcoherent.indexed hwf ((hlabels _).wellFormed hwf) ((hlabels _).keepsItems hwf)
    (.modifyDecl (hset _))).recordEdges (hcoherent.relabel (hlabels _)) ?_ (hd' _) ?_ _
  · rwa [(hlabels _).root_eq, (hlabels _).reaches]
  · rw [(hset _ _).1, hname]

/-- Looking for the finalizer and wiring it keeps the two sides of the edges in agreement. -/
theorem analyze_mirrored {found : Option FinalizerDependencies × Tree}
    (h : Mirrored directory t) (hcoherent : Coherent directory t)
    (hfound : analyze t directory finalizerName = .ok found) : Mirrored directory found.2 := by
  rcases analyze_cases hfound with
    ⟨heq, -⟩ | ⟨finalizer, d, resource, report, hget, hd, hkind, hwire⟩
  · rwa [heq]
  have hwf := hcoherent.wellFormed
  obtain ⟨hx, d', hd', hname⟩ := hcoherent.indexed finalizerName finalizer hget
  obtain rfl := Option.some.inj (hd.symm.trans hd')
  -- The labels, then the `if` expressions, then the new slots.
  have hbegun := begun_mirrored h hcoherent hx hd hname resource.dependsOn
  have hlabels := begun_relabelled t directory finalizerName finalizer resource.dependsOn
  obtain ⟨d', hd', hlabels'⟩ := hlabels.decl finalizer hd
  have hsprouting := (Sprouting.refl t).relabel hlabels
  have hitems : Mirrored directory
      (conditionalItems t directory finalizerName finalizer resource.dependsOn).2 := by
    refine addEach_mirrored _ (fun r hr => ?_) hbegun (hcoherent.relabel hlabels) ?_ hd'
      (hlabels'.fullName _ hname)
    · exact ⟨(copyable_of_mem hwf hcoherent.indexed.bound hr).sprout hwf hsprouting,
        (mem_conditionalResources.mp hr).1⟩
    · rwa [hlabels.root_eq, hlabels.reaches]
  obtain ⟨happend, hwf', hkeeps⟩ := appended_of_wire hwf hcoherent.indexed.bound hx hd hkind hwire
  have htops := conditionalItems_tops finalizerName finalizer resource.dependsOn hwf
    hcoherent.indexed.bound
  have hkept := hcoherent.keep (htops.sprouting.wellFormed hwf) (htops.sprouting.keepsItems hwf)
  exact hitems.keep hkept.indexed hkept.wellFormed hwf' hkeeps (appendDependsOn_keepsEdges happend)

end Finalizer

open StackTemplate.Tree

variable {t : Tree} {directory : Directory}

/-- Resolution records just what the declarations mention of the directory. After it and after the
finalizer, whatever its name is, every edge leads to an item of the directory. The edges from the
declarations of one name to another are as many as the reverse edges from the one on the item of the
other, whatever their guards and origins, and what is not in the directory has no reverse edges. -/
theorem resolve_analyze_mirrored (hcoherent : Coherent directory t) (hnew : t.Unresolved)
    (finalizerName : String) :
    ∃ r found, t.resolve directory = .ok r ∧
      Finalizer.analyze r.tree directory finalizerName = .ok found ∧
      (∀ x d, t.Reaches t.root x → t.decl? x = some d →
        ∃ back, r.tree.decl? x = some (d.extend (t.knownMentions directory x d) back)) ∧
      (∀ x d, found.2.Reaches found.2.root x → found.2.decl? x = some d →
        ∀ edge ∈ d.dependencies, (directory.get? edge.target).isSome) ∧
      (∀ source target guards origin,
        (found.2.edgesFrom source).countP (·.Is target guards origin) =
          (found.2.edgesInto directory target).countP (·.Is source guards origin)) ∧
      ∀ x d, found.2.Reaches found.2.root x → found.2.decl? x = some d →
        (∀ name, directory.get? name ≠ some x) → d.reverseDependencies = [] := by
  obtain ⟨r, hr, hresolved⟩ := resolve_mirrored (hnew.mirrored hcoherent) hcoherent
  have hcoherent' := hcoherent.relabel (resolve_relabelled hr)
  obtain ⟨found, hfound, -⟩ :=
    Finalizer.analyze_spec finalizerName hcoherent'.wellFormed hcoherent'.indexed.bound
  have hmirrored := Finalizer.analyze_mirrored hresolved hcoherent' hfound
  exact ⟨r, found, hr, hfound, fun x d => resolve_decl hcoherent.wellFormed hr, hmirrored.target,
    hmirrored.count_eq, hmirrored.unlisted⟩

/-- It is enough to look at all nodes, within reach or not. -/
theorem Tree.Unresolved.ofAll (h : ∀ x < t.size, (t.decl? x).all fun d =>
    d.dependencies.isEmpty && d.reverseDependencies.isEmpty) : t.Unresolved := by
  intro x d _ hd
  have hx := h x (lt_size_of_decl? hd)
  rw [hd] at hx
  simpa using hx

/-- Two queues of one name, each of which reads the topic and the queue, and a resource that is
created last; a topic only for production. -/
def doubled : Tree where
  nodes := #[
    { kind := .expr (.ref "Topic"), span := default, parent := some 2 },
    { kind := .expr (.getAtt "Queue" "Arn"), span := default, parent := some 2 },
    { kind := .expr (.list [0, 1]), span := default, parent := some 3 },
    { kind := .decl
        { localName := "Queue"
          kind := .resource { resourceType := some "Queue", properties := some 2 } }
      span := default
      parent := some 11 },
    { kind := .expr (.ref "Topic"), span := default, parent := some 6 },
    { kind := .expr (.getAtt "Queue" "Arn"), span := default, parent := some 6 },
    { kind := .expr (.list [4, 5]), span := default, parent := some 7 },
    { kind := .decl
        { localName := "Queue"
          kind := .resource { resourceType := some "Queue", properties := some 6 } }
      span := default
      parent := some 11 },
    { kind := .expr (.conditionRef "IsProd"), span := default, parent := some 9 },
    { kind := .decl
        { localName := "Topic"
          kind := .resource { resourceType := some "Topic", ifCondition := some 8 } }
      span := default
      parent := some 11 },
    { kind := .decl { localName := "Last", kind := .resource { resourceType := some "Marker" } },
      span := default, parent := some 11 },
    { kind := .module { name := "doubled", items := [3, 7, 9, 10] }, span := default }]
  root := 11

theorem doubled_mirrored :
    ∃ b r found, doubled.bind = .ok b ∧ b.tree.resolve b.directory = .ok r ∧
      Finalizer.analyze r.tree b.directory "Last" = .ok found ∧
      b.directory.get? "Queue" = some 3 ∧
      (∀ source target guards origin,
        (found.2.edgesFrom source).countP (·.Is target guards origin) =
          (found.2.edgesInto b.directory target).countP (·.Is source guards origin)) ∧
      (r.tree.edgesFrom "Queue").countP (·.Is "Queue" ∅ 5) = 1 := by
  have hwf : doubled.WellFormed := by
    refine .ofAll (m := { name := "doubled", items := [3, 7, 9, 10] }) rfl rfl ?_
    decide +kernel
  have hbind : (doubled.bind.map fun b => decide ((∀ x < b.tree.size, (b.tree.decl? x).all fun d =>
      d.dependencies.isEmpty && d.reverseDependencies.isEmpty) ∧
      b.directory.get? "Queue" = some 3 ∧
      ((b.tree.resolve b.directory).map fun r =>
        (r.tree.edgesFrom "Queue").countP (·.Is "Queue" ∅ 5)).toOption = some 1)).toOption =
        some true := by
    decide +kernel
  obtain ⟨b, hb, hall⟩ := exists_of_toOption_map hbind
  obtain ⟨hnew, hqueue, hcount⟩ := of_decide_eq_true hall
  obtain ⟨r, found, hr, hfound, -, -, hmirror, -⟩ :=
    resolve_analyze_mirrored (coherent_of_bind hwf hb) (.ofAll hnew) "Last"
  obtain ⟨r', hr', hone⟩ := exists_of_toOption_map hcount
  obtain rfl := Except.ok.inj (hr.symm.trans hr')
  exact ⟨b, r, found, hb, hr, hfound, hqueue, hmirror, hone⟩

end StackTemplate
