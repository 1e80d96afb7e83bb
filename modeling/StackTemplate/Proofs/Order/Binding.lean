import StackTemplate.Proofs.Compiling
import StackTemplate.Proofs.Order.Folding

/-!
# The order of declarations

The full name of a declaration depends on the groups around it and not on its place among the
items. So binding gives reordered trees the same names, and if these are distinct also the same
directory (`Reordered.bind`, `Reordered.sameItems`), and all that follows runs side by side:
folding a module does not depend on the order of its items (`evaluate_withItems`).
-/

namespace StackTemplate

/-- The tree with other items in its module. -/
def Tree.withItems (t : Tree) (items : List NodeId) : Tree :=
  t.setKind t.root (.module { t.module with items })

namespace Order

open StackTemplate.Tree Fold

variable {base base' t t' : Tree} {b b' : Binding} {f f' : NodeId → NodeId} {x c : NodeId}
  {name : String}

/-! ### Reordered trees -/

namespace Reordered

theorem symm (h : Reordered t t') : Reordered t' t where
  root_eq := h.root_eq.symm
  parent_eq x := (h.parent_eq x).symm
  kind_eq x hx := (h.kind_eq x (h.root_eq ▸ hx)).symm
  module := by
    obtain ⟨m, items, hm, hm', hperm⟩ := h.module
    rw [h.root_eq]
    exact ⟨_, _, hm', hm, hperm.symm⟩

theorem hasName (h : Reordered t t') (hwf : t.WellFormed) (hname : HasName t x name) :
    HasName t' x name := by
  have hlocal : ∀ x, t.localName x = t'.localName x := fun x => by
    rw [localName, localName, h.decl?_eq]
  induction hname with
  | top hx =>
    rw [module_items hwf, ← (h.itemSlots_perm _).mem_iff, ← h.root_eq,
      ← module_items (h.wellFormed hwf)] at hx
    rw [hlocal]
    exact .top hx
  | @held y x scope _ hx ih =>
    rw [heldItems, ← h.decl?_eq, ← heldItems] at hx
    rw [hlocal]
    exact .held ih hx

/-- The same items have the same names. -/
theorem mem_namedItems (h : Reordered t t') (hwf : t.WellFormed) {item : NodeId × String} :
    item ∈ t'.namedItems ↔ item ∈ t.namedItems := by
  rw [mem_namedItems_iff hwf, mem_namedItems_iff (h.wellFormed hwf)]
  exact ⟨h.symm.hasName (h.wellFormed hwf), h.hasName hwf⟩

theorem unnamed (h : Reordered t t') (hunnamed : t.Unnamed) : t'.Unnamed := by
  intro x d hx hd
  rw [h.root_eq, h.reaches] at hx
  rw [h.decl?_eq] at hd
  exact hunnamed x d hx hd

/-- The binder takes both or none. -/
theorem bind_ok (h : Reordered t t') (hwf : t.WellFormed) :
    (∃ b', t'.bind = .ok b') ↔ ∃ b, t.bind = .ok b := by
  rw [bind_ok_iff hwf, bind_ok_iff (h.wellFormed hwf)]
  exact ⟨h.symm.unnamed, h.unnamed⟩

/-- The binder gives the same names to the same declarations. -/
theorem bind (h : Reordered t t') (hwf : t.WellFormed) (hb : t.bind = .ok b)
    (hb' : t'.bind = .ok b') : Reordered b.tree b'.tree := by
  have hr := bind_registers hwf hb
  have hr' := bind_registers (h.wellFormed hwf) hb'
  have hitems : ∀ y, y ∈ t'.namedItems.map Prod.fst ↔ y ∈ t.namedItems.map Prod.fst := by
    intro y
    simp only [List.mem_map, h.mem_namedItems hwf]
  have hroot := hr.relabelled.root_eq
  refine ⟨?_, fun y => ?_, fun y hy => ?_, ?_⟩
  · rw [hr'.relabelled.root_eq, hroot, h.root_eq]
  · rw [hr'.relabelled.parent_eq, hr.relabelled.parent_eq, h.parent_eq]
  · by_cases hmem : y ∈ t.namedItems.map Prod.fst
    · obtain ⟨item, hitem, rfl⟩ := List.mem_map.mp hmem
      obtain ⟨d, hd, hnamed⟩ := hr.named item hitem
      obtain ⟨d', hd', hnamed'⟩ := hr'.named item ((h.mem_namedItems hwf).mpr hitem)
      rw [h.decl?_eq, hd] at hd'
      rw [decl?_eq_some.mp hnamed, decl?_eq_some.mp hnamed', Option.some.inj hd']
    · rw [hr.kind_eq y hmem, hr'.kind_eq y (mt (hitems y).mp hmem)]
      exact h.kind_eq y (hroot ▸ hy)
  · -- The module is not among the items, so the binder leaves it as it is.
    obtain ⟨m, items, hm, hm', hperm⟩ := h.module
    have hmodule : t.root ∉ t.namedItems.map Prod.fst := by
      rw [Tree.mem_namedItems hwf, decl?, hm]
      rintro ⟨-, hdecl⟩
      cases hdecl
    rw [hroot, hr.kind_eq _ hmodule, hr'.kind_eq _ (mt (hitems _).mp hmodule)]
    exact ⟨m, items, hm, hm', hperm⟩

end Reordered

theorem Reordered.sameItems (h : Reordered t t') (hwf : t.WellFormed)
    (hnames : (t.namedItems.map Prod.snd).Nodup) (hb : t.bind = .ok b) (hb' : t'.bind = .ok b') :
    SameItems b.directory b'.directory := by
  -- The names stay distinct in the other order.
  have hperm : t'.namedItems.Perm t.namedItems :=
    (List.perm_ext_iff_of_nodup (nodup_namedItems (h.wellFormed hwf)).of_map
      (nodup_namedItems hwf).of_map).mpr fun _ => h.mem_namedItems hwf
  intro name
  refine Option.ext fun x => ?_
  rw [(bind_registers hwf hb).get?_iff hnames, (bind_registers (h.wellFormed hwf) hb').get?_iff
    ((hperm.map _).nodup_iff.mpr hnames), hperm.mem_iff]

/-! ### Trees that differ in ids only -/

/-- Both trees have the same declarations with the same terms in their slots. The ids of the
expressions may differ. -/
structure SameTerms (t t' : Tree) : Prop where
  declares : ∀ x, t'.Reaches t'.root x ∧ (t'.decl? x).isSome ↔
    t.Reaches t.root x ∧ (t.decl? x).isSome
  /-- A declaration differs in what its expression slots hold, and not in the terms there. -/
  decl : ∀ x d, t.Reaches t.root x → t.decl? x = some d →
    ∃ f, t'.decl? x = some (d.mapSlots f) ∧ (∀ c ∈ d.kind.items, f c = c) ∧
      ∀ c ∈ t.exprSlots x, t'.term (f c) = t.term c
  module : (t'.exprSlots t'.root).map t'.term = (t.exprSlots t.root).map t.term

/-- If the slots of a declaration lead to different nodes, then where they lead determines where
they lead on the other side. -/
theorem exists_mapSlots (f' : NodeId → NodeId) {d : Decl} (h : (d.children.map f).Nodup) :
    ∃ g, (d.mapSlots f).mapSlots g = d.mapSlots f' ∧ ∀ c ∈ d.children, g (f c) = f' c := by
  have hinj : Set.InjOn f {c | c ∈ d.children} := fun a ha c hc =>
    List.inj_on_of_nodup_map h ha hc
  have hback : ∀ c ∈ d.children, f' (Function.invFunOn f {c | c ∈ d.children} (f c)) = f' c :=
    fun c hc => congrArg f' (hinj.leftInvOn_invFunOn hc)
  refine ⟨f' ∘ Function.invFunOn f {c | c ∈ d.children}, ?_, hback⟩
  have hkind := NodeKind.mapSlots_mapSlots f (f' ∘ Function.invFunOn f {c | c ∈ d.children})
    (.decl d)
  exact NodeKind.decl.inj (hkind.trans (NodeKind.mapSlots_congr hback))

theorem Parallel.sameTerms (h : Parallel base base' t t' f f') (hbase : Reordered base base')
    (hwf : base.WellFormed) : SameTerms t t' where
  declares x := by
    rw [h.right.declares, h.left.declares, hbase.root_eq, hbase.reaches, hbase.decl?_eq]
  decl x d hx hd := by
    obtain ⟨hold, he⟩ := h.left.old_host x hx (expr?_of_decl? hd)
    have hold' : base'.Reaches base'.root x := by rwa [hbase.root_eq, hbase.reaches]
    have he' : base'.expr? x = none := (hbase.expr?_eq x).trans he
    obtain ⟨d₀, hd₀, rfl⟩ := Option.map_eq_some_iff.mp
      ((h.left.decl?_host hold he).symm.trans hd)
    have hchildren : base.children x = d₀.children := by
      rw [children, decl?_eq_some.mp hd₀]
      rfl
    have hchildren' : t.children x = d₀.children.map f := by
      rw [children, decl?_eq_some.mp hd]
      exact NodeKind.children_mapSlots f (.decl d₀)
    -- A slot that held `c` at first leads to `f c` on the left and to `f' c` on the right.
    obtain ⟨g, hg, hback⟩ := exists_mapSlots f' (hchildren' ▸ h.left.wellFormed.nodup hx)
    rw [← hchildren] at hback
    refine ⟨g, ?_, fun c hc => ?_, fun c hc => ?_⟩
    · rw [hg, h.right.decl?_host hold' he', hbase.decl?_eq, hd₀, Option.map_some]
    · have hitem : c ∈ t.itemSlots x := by rwa [itemSlots, decl?_eq_some.mp hd]
      rw [(h.left.slots hwf hold he).2] at hitem
      obtain ⟨hreach, hdecl⟩ := decl_of_itemSlot hwf hold hitem
      obtain ⟨held, hheld⟩ := Option.isSome_iff_exists.mp hdecl
      have hgc := hback c (mem_children.mpr (.inr hitem))
      rwa [h.left.item c held hreach hheld, h.right.item c held
        (by rwa [hbase.root_eq, hbase.reaches]) ((hbase.decl?_eq c).trans hheld)] at hgc
    · rw [(h.left.slots hwf hold he).1] at hc
      obtain ⟨c, hslot, rfl⟩ := List.mem_map.mp hc
      rw [hback c (mem_children.mpr (.inl hslot))]
      exact h.term_eq x c hold he hslot
  module := by
    have he := hwf.expr?_root
    have he' : base'.expr? base'.root = none := by
      rw [hbase.root_eq, hbase.expr?_eq, he]
    rw [h.left.root_eq, h.right.root_eq, (h.left.slots hwf .refl he).1,
      (h.right.slots (hbase.wellFormed hwf) .refl he').1, hbase.root_eq, hbase.exprSlots_eq,
      List.map_map, List.map_map]
    exact List.map_congr_left fun c hc => h.term_eq base.root c .refl he hc

/-! ### Any order of the items -/

theorem reordered_withItems (hwf : t.WellFormed) {items : List NodeId}
    (hperm : items.Perm t.module.items) : Reordered t (t.withItems items) where
  root_eq := rfl
  parent_eq _ := parent?_setKind _
  kind_eq _ hx := kind?_setKind_ne (Ne.symm hx)
  module := by
    obtain ⟨m, hm⟩ := hwf.root_module
    have hmodule : t.module = m := by
      rw [Tree.module, hm]
    rw [hmodule] at hperm
    refine ⟨m, items, hm, ?_, hperm⟩
    rw [withItems, kind?_setKind_self (lt_size_of_kind? hm), hmodule]

/-- A module whose declarations have distinct full names folds in one way, however its items are
ordered. -/
theorem evaluate_withItems (hwf : t.WellFormed) (hnames : (t.namedItems.map Prod.snd).Nodup)
    {items : List NodeId} (hperm : items.Perm t.module.items) (fuel : Nat) :
    ((∃ b', (t.withItems items).bind = .ok b') ↔ ∃ b, t.bind = .ok b) ∧
      ∀ b b', t.bind = .ok b → (t.withItems items).bind = .ok b' →
        (Format.normalize b'.tree b'.directory).count =
            (Format.normalize b.tree b.directory).count ∧
          ∃ e e', evaluate (Format.normalize b.tree b.directory).tree b.directory fuel = .ok e ∧
            evaluate (Format.normalize b'.tree b'.directory).tree b'.directory fuel = .ok e' ∧
            e'.outcome = e.outcome ∧ SameTerms e.tree e'.tree := by
  have h := reordered_withItems hwf hperm
  refine ⟨h.bind_ok hwf, fun b b' hb hb' => ?_⟩
  obtain ⟨hlabels, -, hbound⟩ := bind_spec hwf hb
  -- From here on the two bound trees are what all passes are compared with.
  have hbase := h.bind hwf hb hb'
  have hwfb := hlabels.wellFormed hwf
  have hitems := h.sameItems hwf hnames hb hb'
  obtain ⟨⟨f, f', hnormalized⟩, hcount⟩ := (Parallel.start hbase hwfb).normalize hbase hwfb hitems
  obtain ⟨e, e', he, he', houtcome, f, f', hfolded⟩ :=
    hnormalized.evaluate hbase hwfb hbound hitems fuel
  exact ⟨hcount, e, e', he, he', houtcome, hfolded.sameTerms hbase hwfb⟩

/-- A module in which two strings have placeholders, one for the other. -/
def letters : Tree where
  nodes := #[
    { kind := .expr (.sub "Dear ${Name}" .empty), span := default, parent := some 1 },
    { kind := .decl { localName := "Salutation", kind := .var none 0 }, span := default,
      parent := some 6 },
    { kind := .expr (.literal (.string "Ada")), span := default, parent := some 3 },
    { kind := .decl { localName := "Name", kind := .var none 2 }, span := default,
      parent := some 6 },
    { kind := .expr (.sub "${Salutation}, bye ${Name}" .empty), span := default,
      parent := some 5 },
    { kind := .decl { localName := "Letter", kind := .var none 4 }, span := default,
      parent := some 6 },
    { kind := .module { name := "letters", items := [1, 3, 5] }, span := default }]
  root := 6

/-- The same expressions, at other nodes. -/
theorem letters_reversed :
    ∃ b b' e e', letters.bind = .ok b ∧ (letters.withItems [5, 3, 1]).bind = .ok b' ∧
      evaluate (Format.normalize b.tree b.directory).tree b.directory 9 = .ok e ∧
      evaluate (Format.normalize b'.tree b'.directory).tree b'.directory 9 = .ok e' ∧
      e.outcome = .finished { passes := 5, substitutions := 8, reinlined := 0 } ∧
      (Format.normalize b'.tree b'.directory).count =
        (Format.normalize b.tree b.directory).count ∧
      e'.outcome = e.outcome ∧ SameTerms e.tree e'.tree ∧
      e.tree.exprSlots 1 = [16] ∧ e'.tree.exprSlots 1 = [18] := by
  have hwf : letters.WellFormed := by
    refine .ofAll (m := { name := "letters", items := [1, 3, 5] }) rfl rfl ?_
    decide +kernel
  have hrun : (letters.bind.map fun b =>
      ((evaluate (Format.normalize b.tree b.directory).tree b.directory 9).map fun e =>
        (e.outcome, e.tree.exprSlots 1)).toOption).toOption =
        some (some (.finished { passes := 5, substitutions := 8, reinlined := 0 }, [16])) := by
    decide +kernel
  have hrun' : ((letters.withItems [5, 3, 1]).bind.map fun b =>
      ((evaluate (Format.normalize b.tree b.directory).tree b.directory 9).map fun e =>
        e.tree.exprSlots 1).toOption).toOption = some (some [18]) := by
    decide +kernel
  obtain ⟨b, hb, hfold⟩ := exists_of_toOption_map hrun
  obtain ⟨b', hb', hfold'⟩ := exists_of_toOption_map hrun'
  obtain ⟨e, he, heq⟩ := exists_of_toOption_map hfold
  obtain ⟨e', he', hids'⟩ := exists_of_toOption_map hfold'
  obtain ⟨hfinished, hids⟩ := Prod.mk.inj heq
  obtain ⟨-, hall⟩ := evaluate_withItems hwf (by decide +kernel)
    (show [5, 3, 1].Perm letters.module.items by decide) 9
  obtain ⟨hcount, e₁, e₁', he₁, he₁', houtcome, hsame⟩ := hall b b' hb hb'
  obtain rfl := Except.ok.inj (he.symm.trans he₁)
  obtain rfl := Except.ok.inj (he'.symm.trans he₁')
  exact ⟨b, b', e, e', hb, hb', he, he', hfinished, hcount, houtcome, hsame, hids, hids'⟩

end Order

end StackTemplate
