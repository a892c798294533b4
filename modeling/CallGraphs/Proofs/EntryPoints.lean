import CallGraphs.Entry.Selection
import CallGraphs.Proofs.BaseNames
import CallGraphs.Proofs.Merging

/-! The choice of entry points. A loaded program numbers its types in the order in which the walk through the modules
    meets them, and its methods type by type. So the choice, which is made module by module and type by type, goes once
    over all methods in the order of their numbers (`entryPoints_eq_filter`), and what it asks can be said of a method
    and its type alone (`takesMethod_iff`). Strategies that ask for less choose more (`entryPoints_sublist`). -/

namespace CallGraphs

namespace Program

variable {p : Program} {t root : TypeId}

/-! ### Nested types -/

/-- The type `t` is nested in `e`. -/
def NestedIn (p : Program) (t e : TypeId) : Prop := p.enclosingOf? t = some e

/-- From `t` outwards, through any number of types, the last one is `root`. -/
def Outermost (p : Program) (t root : TypeId) : Prop :=
  Relation.ReflTransGen p.NestedIn t root ∧ p.enclosingOf? root = none

theorem WellFormed.exists_outermost (h : p.WellFormed) (t : TypeId) : ∃ root, p.Outermost t root := by
  induction t using Nat.strong_induction_on with
  | h t ih =>
    cases he : p.enclosingOf? t with
    | none => exact ⟨t, .refl, he⟩
    | some e =>
      obtain ⟨root, hout, hroot⟩ := ih e (h.enclosing t e he).1
      exact ⟨root, .head he hout, hroot⟩

/-- Nesting keeps the namespace. -/
theorem WellFormed.nsOf?_outermost (h : p.WellFormed) (hroot : p.Outermost t root) : p.nsOf? root = p.nsOf? t := by
  obtain ⟨hout, -⟩ := hroot
  induction hout with
  | refl => rfl
  | tail _ hlink ih => exact ((h.enclosing _ _ hlink).2).trans ih

/-! ### Attribute types -/

/-- No type on the chain of `t`, `t` included, names `base` as its base type. -/
def NamesNowhere (p : Program) (t : TypeId) (base : String) : Prop :=
  ∀ s ty, Relation.ReflTransGen p.BaseLink t s → p.types[s]? = some ty → ty.baseName ≠ base

theorem BasesExist.derivesFrom_eq_false (hp : p.BasesExist) (ht : t < p.types.size) (base : String) :
    p.derivesFrom t base = false ↔ p.NamesNowhere t base := by
  rw [derivesFrom, List.any_eq_false]
  refine forall_congr' fun s => ?_
  rw [hp.mem_chain_iff, and_iff_right ht]
  cases p.types[s]? with
  | none => simp
  | some ty => simp

end Program

/-! ### What a strategy asks of a method -/

namespace MethodDef

/-- The method is neither abstract nor a getter or setter. -/
def Concrete (d : MethodDef) : Prop := d.isAbstract = false ∧ d.isGetter = false ∧ d.isSetter = false

/-- The method has what a strategy asks for. -/
def Meets (d : MethodDef) : Strategy → Prop
  | .all => True
  | .concrete => d.Concrete
  | .accessibleConcrete => d.Concrete ∧ d.visibility ∈ [.publicAccess, .family, .familyOrAssembly]
  | .publicConcrete => d.Concrete ∧ d.visibility = .publicAccess
  | .dotnetMain => False

theorem takes_iff_meets (strategy : Strategy) (d : MethodDef) : strategy.takes d = true ↔ d.Meets strategy := by
  have hconcrete : (!d.isAbstract && !d.isAccessor) = true ↔ d.Concrete := by simp [MethodDecl.isAccessor, Concrete]
  have haccessible : d.visibility.isAccessible = true ↔ d.visibility ∈ [.publicAccess, .family, .familyOrAssembly] := by
    cases d.visibility <;> decide
  cases strategy with
  | all => simp [Strategy.takes, Meets]
  | concrete => exact hconcrete
  | accessibleConcrete => rw [Strategy.takes, Bool.and_eq_true, hconcrete, haccessible, Meets]
  | publicConcrete => rw [Strategy.takes, Bool.and_eq_true, hconcrete, beq_iff_eq, Meets]
  | dotnetMain => simp [Strategy.takes, Meets]

end MethodDef

namespace Selection

variable {s : Selection}

/-- The type of the method passes, and the method passes. -/
def takesMethod (s : Selection) (m : MethodId) : Bool :=
  match s.program.methods[m]? with
  | none => false
  | some d => s.takesType d.owner && s.strategy.takes d

/-- Within a type the choice can be left to the methods. -/
theorem ofType_eq_filter (h : s.program.WellFormed) (t : TypeId) :
    s.ofType t = (s.program.methodsOf t).filter s.takesMethod := by
  have htakes : ∀ m ∈ s.program.methodsOf t, s.takesMethod m =
      (s.takesType t && (s.program.methods[m]?.map s.strategy.takes).getD false) := by
    intro m hm
    obtain ⟨d, hd, rfl⟩ := Option.map_eq_some_iff.mp (h.mem_methodsOf.mp hm)
    simp [takesMethod, hd]
  rw [List.filter_congr htakes, ofType]
  cases s.takesType t with
  | false => simp
  | true => simp [Program.methodsOf]

/-- Module by module and type by type, the choice goes once over all methods, in the order of their numbers. -/
theorem entryPoints_eq_filter (hs : s.strategy ≠ .dotnetMain) {v : Json} (h : Description.Describes v s.program) :
    s.entryPoints = (List.range s.program.methods.size).filter s.takesMethod := by
  have hmodule : ∀ d, s.ofModule d = (s.program.allTypes d).flatMap s.ofType := by
    intro d
    rw [ofModule]
    split
    · exact absurd ‹_› hs
    · rfl
  -- the types of all modules are met in the order of their numbers, and the methods of all types too
  calc s.entryPoints
      = (List.range s.program.modules.size).flatMap fun d => (s.program.allTypes d).flatMap s.ofType := by
        rw [entryPoints, funext hmodule]
    _ = (List.range s.program.types.size).flatMap s.ofType := by
        rw [← List.flatMap_assoc, h.inOrder]
    _ = ((List.range s.program.types.size).flatMap s.program.methodsOf).filter s.takesMethod := by
        rw [List.filter_flatMap, funext (ofType_eq_filter h.counted.wellFormed)]
    _ = (List.range s.program.methods.size).filter s.takesMethod := by
        rw [h.counted.methodsOf_eq_range]

theorem takesMethod_iff (hp : s.program.BasesExist) (m : MethodId) : s.takesMethod m = true ↔
    ∃ d ty, s.program.methods[m]? = some d ∧ s.program.types[d.owner]? = some ty ∧ ty.isInterface = false ∧
      s.program.NamesNowhere d.owner "System.Attribute" ∧ s.filter.accepts ty.ns = true ∧ d.Meets s.strategy := by
  rw [takesMethod]
  cases s.program.methods[m]? with
  | none => simp
  | some d =>
    rw [Bool.and_eq_true, MethodDef.takes_iff_meets, takesType]
    cases hty : s.program.types[d.owner]? with
    | none => simp [hty]
    | some ty =>
      have hlt := (Array.getElem?_eq_some_iff.mp hty).1
      simp [hty, and_assoc, attributeBase, hp.derivesFrom_eq_false hlt]

/-- A strategy that asks for less chooses more. -/
theorem entryPoints_sublist {p : Program} {v : Json} (h : Description.Describes v p) {strict lax : Strategy}
    (hstrict : strict ≠ .dotnetMain) (hlax : lax ≠ .dotnetMain) (filter : NamespaceFilter)
    (hmeets : ∀ d : MethodDef, d.Meets strict → d.Meets lax) :
    (entryPoints ⟨p, strict, filter⟩).Sublist (entryPoints ⟨p, lax, filter⟩) := by
  rw [entryPoints_eq_filter hstrict h, entryPoints_eq_filter hlax h]
  refine List.monotone_filter_right _ fun m hm => ?_
  simp only [takesMethod] at hm ⊢
  cases hd : p.methods[m]? with
  | none => simp [hd] at hm
  | some d =>
    simp only [hd, Bool.and_eq_true, MethodDef.takes_iff_meets] at hm ⊢
    exact ⟨hm.1, hmeets d hm.2⟩

/-- The entry points of a loaded program, in the order of their numbers, are exactly the methods that pass the test of
    the strategy, in types that are no interfaces, have no attribute type on their chain and lie in an accepted
    namespace. Nested types lie in the namespace of the outermost type around them. Each strategy chooses part of what
    the next one does. -/
theorem entryPoints_exact (p : Program) (hp : p.Loaded) (filter : NamespaceFilter) :
    (∀ strategy, strategy ≠ .dotnetMain →
      (entryPoints ⟨p, strategy, filter⟩).Pairwise (· < ·) ∧
      ∀ m, m ∈ entryPoints ⟨p, strategy, filter⟩ ↔
        ∃ d ty, p.methods[m]? = some d ∧ p.types[d.owner]? = some ty ∧ ty.isInterface = false ∧
          p.NamesNowhere d.owner "System.Attribute" ∧ filter.accepts ty.ns = true ∧ d.Meets strategy) ∧
    (∀ t, (∃ root, p.Outermost t root) ∧ ∀ root, p.Outermost t root → p.nsOf? root = p.nsOf? t) ∧
    (entryPoints ⟨p, .publicConcrete, filter⟩).Sublist (entryPoints ⟨p, .accessibleConcrete, filter⟩) ∧
    (entryPoints ⟨p, .accessibleConcrete, filter⟩).Sublist (entryPoints ⟨p, .concrete, filter⟩) ∧
    (entryPoints ⟨p, .concrete, filter⟩).Sublist (entryPoints ⟨p, .all, filter⟩) := by
  obtain ⟨v, hv⟩ := hp.describes
  have hwell := hp.finalized.wellFormed
  refine ⟨fun strategy hs => ?_, fun t => ⟨hwell.exists_outermost t, fun root => hwell.nsOf?_outermost⟩, ?_, ?_, ?_⟩
  · have hlist := entryPoints_eq_filter (s := ⟨p, strategy, filter⟩) hs hv
    rw [hlist]
    refine ⟨List.pairwise_lt_range.filter _, fun m => ?_⟩
    rw [List.mem_filter, takesMethod_iff (s := ⟨p, strategy, filter⟩) hp.finalized.basesExist, List.mem_range]
    refine and_iff_right_of_imp ?_
    rintro ⟨d, -, hd, -⟩
    exact (Array.getElem?_eq_some_iff.mp hd).1
  · refine entryPoints_sublist hv (by decide) (by decide) filter fun d => ?_
    rintro ⟨hconcrete, hpublic⟩
    exact ⟨hconcrete, by simp [hpublic]⟩
  · exact entryPoints_sublist hv (by decide) (by decide) filter fun d hd => hd.1
  · exact entryPoints_sublist hv (by decide) (by decide) filter fun d _ => trivial

/-- Two modules. The first one has types nested two deep, the inner one with a namespace of its own, which does not
    count, then an interface and an attribute type; the base type of its base type is not part of the program. The type
    of the second one lies in a namespace below that of the others. -/
def shopText : String :=
  "\x7b\"Modules\":[\x7b\"Name\":\"Shop\"," ++ "\"Types\":[\x7b\"Name\":\"Till\",\"Namespace\":\"S\"," ++
    "\"NestedTypes\":[\x7b\"Name\":\"Tray\"," ++ "\"NestedTypes\":[\x7b\"Name\":\"Coin\"," ++ "\"Namespace\":\"X\"," ++
    "\"Methods\":[\x7b\"Name\":\"Pay\"," ++ "\"Visibility\":\"family\"\x7d]\x7d]\x7d]," ++
    "\"Methods\":[\x7b\"Name\":\"Open\"," ++ "\"Visibility\":\"public\"\x7d," ++
    "\x7b\"Name\":\"Sum\",\"IsGetter\":true\x7d]\x7d," ++
    "\x7b\"Name\":\"IBuy\",\"Namespace\":\"S\"," ++ "\"IsInterface\":true," ++
    "\"Methods\":[\x7b\"Name\":\"Buy\"\x7d]\x7d," ++
    "\x7b\"Name\":\"Tag\",\"Namespace\":\"S\"," ++ "\"BaseType\":\"Note\"," ++
    "\"Methods\":[\x7b\"Name\":\"Read\"\x7d]\x7d," ++
    "\x7b\"Name\":\"Note\"," ++ "\"BaseType\":\"System.Attribute\"\x7d]\x7d," ++
    "\x7b\"Name\":\"Yard\",\"Types\":[" ++ "\x7b\"Name\":\"Cart\",\"Namespace\":\"S.Y\"," ++
    "\"Methods\":[\x7b\"Name\":\"Pull\"\x7d]\x7d]\x7d]\x7d"

/-- Its value. -/
def shop : Json :=
  .obj [("Modules", .arr [
    .obj [("Name", .str "Shop"), ("Types", .arr [
      .obj [("Name", .str "Till"), ("Namespace", .str "S"),
        ("NestedTypes", .arr [.obj [("Name", .str "Tray"), ("NestedTypes", .arr [
          .obj [("Name", .str "Coin"), ("Namespace", .str "X"),
            ("Methods", .arr [.obj [("Name", .str "Pay"), ("Visibility", .str "family")]])]])]]),
        ("Methods", .arr [.obj [("Name", .str "Open"), ("Visibility", .str "public")],
          .obj [("Name", .str "Sum"), ("IsGetter", .bool true)]])],
      .obj [("Name", .str "IBuy"), ("Namespace", .str "S"), ("IsInterface", .bool true),
        ("Methods", .arr [.obj [("Name", .str "Buy")]])],
      .obj [("Name", .str "Tag"), ("Namespace", .str "S"), ("BaseType", .str "Note"),
        ("Methods", .arr [.obj [("Name", .str "Read")]])],
      .obj [("Name", .str "Note"), ("BaseType", .str "System.Attribute")]])],
    .obj [("Name", .str "Yard"), ("Types", .arr [
      .obj [("Name", .str "Cart"), ("Namespace", .str "S.Y"), ("Methods", .arr [.obj [("Name", .str "Pull")]])]])]])]

theorem entryPoints_exact_shop :
    ∃ d, Program.ofText Json.ofText? "shop" shopText = .ok d ∧ d.program.Loaded ∧ d.program.methods.size = 6 ∧
    (∀ m, m ∈ [0, 2, 5] ↔
      ∃ x ty, d.program.methods[m]? = some x ∧ d.program.types[x.owner]? = some ty ∧ ty.isInterface = false ∧
        d.program.NamesNowhere x.owner "System.Attribute" ∧ NamespaceFilter.accepts ["S"] ty.ns = true ∧ x.Concrete) ∧
    d.program.Outermost 2 0 ∧ d.program.nsOf? 2 = some "S" ∧
    entryPoints ⟨d.program, .all, ["S"]⟩ = [0, 1, 2, 5] ∧ [0, 2].Sublist [0, 2, 5] ∧
    entryPoints ⟨d.program, .publicConcrete, ["S"]⟩ = [0] := by
  have hvalue : Json.ofText? shopText = some shop := by
    unfold shopText
    rw [Description.ofText?_eq]
    simp only [String.toList_append, String.reduceToList]
    set_option maxRecDepth 4000 in rfl
  obtain ⟨d, hd, hfacts⟩ := Description.exists_ofText hvalue (by decide +kernel :
    (Program.ofDocument "shop" shop).toOption.any (fun d => decide (d.program.methods.size = 6 ∧
      d.program.enclosingOf? 2 = some 1 ∧ d.program.enclosingOf? 1 = some 0 ∧ d.program.enclosingOf? 0 = none ∧
      d.program.nsOf? 0 = some "S" ∧
      entryPoints ⟨d.program, .all, ["S"]⟩ = [0, 1, 2, 5] ∧
      entryPoints ⟨d.program, .concrete, ["S"]⟩ = [0, 2, 5] ∧
      entryPoints ⟨d.program, .accessibleConcrete, ["S"]⟩ = [0, 2] ∧
      entryPoints ⟨d.program, .publicConcrete, ["S"]⟩ = [0])) = true)
  obtain ⟨hsize, hcoin, htray, htill, hns, hall, hconcrete, haccessible, hpublic⟩ := of_decide_eq_true hfacts
  have hloaded : d.program.Loaded := .text hd
  have houter : d.program.Outermost 2 0 := ⟨.head hcoin (.single htray), htill⟩
  obtain ⟨hexact, hnested, -, hsublist, -⟩ := entryPoints_exact d.program hloaded ["S"]
  have hmem := (hexact .concrete (by decide)).2
  rw [hconcrete] at hmem hsublist
  rw [haccessible] at hsublist
  exact ⟨d, hd, hloaded, hsize, hmem, houter, ((hnested 2).2 0 houter).symm.trans hns, hall, hsublist, hpublic⟩

end Selection

end CallGraphs
