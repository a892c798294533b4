import CallGraphs.Proofs.Building

/-! Bindings leave no trace. Binding names starts from the declarations each time: it overwrites what an earlier binding
    has found (`finalize_unbound`), and no other edit looks at bindings (`unbound_edit`). So a program that is bound in
    between, when some names do not exist yet or mean something else, ends as one that is bound once at the end
    (`edits_absorb_bindings`). -/

namespace CallGraphs

/-- The type with its names not bound. -/
def TypeDef.unbound (ty : TypeDef) : TypeDef := { ty with base := none, interfaces := [] }

/-- The method without full name and with its continuation not bound. -/
def MethodDef.unbound (m : MethodDef) : MethodDef := { m with fullName := none, continuationType := none }

/-- The module with its entry point not bound. -/
def ModuleDef.unbound (d : ModuleDef) : ModuleDef := { d with entry := none }

namespace Program

variable {p : Program}

/-- What has been declared, without anything that a binding has found. -/
def unbound (p : Program) : Program where
  modules := p.modules.map ModuleDef.unbound
  types := p.types.map TypeDef.unbound
  methods := p.methods.map MethodDef.unbound

theorem eq_of_tables {q : Program} (hmodules : p.modules = q.modules) (htypes : p.types = q.types)
    (hmethods : p.methods = q.methods) : p = q := by
  cases p
  cases q
  congr

/-! ### Names do not depend on bindings -/

theorem unbound_typeNamed? (p : Program) (name : String) : p.unbound.typeNamed? name = p.typeNamed? name := by
  rw [typeNamed?, unbound, Array.findIdx?_map]
  rfl

theorem unbound_typeName (p : Program) (t : TypeId) : p.unbound.typeName t = p.typeName t := by
  rw [typeName, unbound, Array.getElem?_map, Option.map_map]
  rfl

theorem unbound_place (p : Program) (decl : TypeDecl) (enclosing : Option TypeId) :
    p.unbound.place decl enclosing = p.place decl enclosing := by
  cases enclosing with
  | none => rfl
  | some e =>
    simp only [place, unbound, Option.bind_some, Array.getElem?_map]
    cases p.types[e]? <;> rfl

/-! ### A binding overwrites the one before -/

theorem unbound_finalize (p : Program) : p.finalize.unbound = p.unbound := by
  refine eq_of_tables ?_ ?_ ?_
  · exact Array.map_map
  · exact Array.map_map
  · exact Array.map_map

theorem bindDefinitions_unbound (p : Program) :
    p.unbound.bindDefinitions = { p.bindDefinitions with modules := p.unbound.modules } := by
  refine eq_of_tables rfl ?_ ?_
  · refine Array.map_map.trans (congrArg p.types.map (funext fun ty => ?_))
    have hnames : p.unbound.typeNamed? = p.typeNamed? := funext p.unbound_typeNamed?
    simp only [Function.comp_apply, bindType, boundBase, TypeDef.unbound, hnames]
  · refine Array.map_map.trans (congrArg p.methods.map (funext fun m => ?_))
    simp only [Function.comp_apply, bindMethod, MethodDef.unbound, unbound_typeName, unbound_typeNamed?]

theorem finalize_unbound (p : Program) : p.unbound.finalize = p.finalize := by
  have hresolve : p.unbound.bindDefinitions.resolve? = p.bindDefinitions.resolve? := by
    rw [bindDefinitions_unbound]
    exact funext (resolve?_congr rfl rfl)
  have htypes := congrArg types p.bindDefinitions_unbound
  have hmethods := congrArg methods p.bindDefinitions_unbound
  refine eq_of_tables ?_ htypes hmethods
  refine Array.map_map.trans (congrArg p.modules.map (funext fun d => ?_))
  simp only [Function.comp_apply, bindModule, ModuleDef.unbound, hresolve]

/-! ### Other edits do not look at bindings -/

/-- A change at one position, seen through a view that commutes with it. -/
theorem map_modify {α β : Type} {f : α → α} {k : β → β} (g : α → β) (l : Array α) (i : Nat)
    (h : ∀ x, g (f x) = k (g x)) : (l.modify i f).map g = (l.map g).modify i k := by
  refine Array.ext_getElem? fun j => ?_
  rw [Array.getElem?_map, Array.getElem?_modify, Array.getElem?_modify, Array.getElem?_map]
  split
  · rw [Option.map_map, Option.map_map]
    exact congrArg (Option.map · l[j]?) (funext h)
  · rfl

theorem unbound_enlist (p : Program) (m : ModuleId) (enclosing : Option TypeId) (t : TypeId) :
    (p.enlist m enclosing t).unbound = p.unbound.enlist m enclosing t := by
  cases enclosing with
  | none =>
    refine eq_of_tables ?_ rfl rfl
    simp only [enlist, unbound]
    refine map_modify ModuleDef.unbound p.modules m ?_
    exact fun _ => rfl
  | some e =>
    refine eq_of_tables rfl ?_ rfl
    simp only [enlist, unbound]
    refine map_modify TypeDef.unbound p.types e ?_
    exact fun _ => rfl

theorem unbound_withType (p : Program) (m : ModuleId) (decl : TypeDecl) (enclosing : Option TypeId) :
    (p.withType m decl enclosing).unbound = p.unbound.withType m decl enclosing := by
  have htype : (p.typeAt m decl enclosing).unbound = p.unbound.typeAt m decl enclosing := by
    simp only [typeAt, unbound_place]
    rfl
  have hsize : p.unbound.types.size = p.types.size := Array.size_map
  rw [withType, unbound_enlist, withType, hsize, ← htype]
  exact congrArg (enlist · m enclosing p.types.size) (eq_of_tables rfl Array.map_push rfl)

/-- The edit binds names. -/
def Edit.isBinding : Edit → Bool
  | .finalize => true
  | _ => false

/-- What any edit but a binding does to a program it does to the declarations alone. -/
theorem unbound_edit (p : Program) : ∀ {e : Edit}, e.isBinding = false → (p.edit e).unbound = p.unbound.edit e
  | .addModule _, _ => eq_of_tables Array.map_push rfl rfl
  | .addType m decl enclosing, _ => by
      rw [edit_addType, edit_addType, unbound_place, unbound_typeNamed?]
      split
      · rfl
      · exact unbound_withType p m decl enclosing
  | .addMethod t decl, _ => by
      have hsize : p.unbound.methods.size = p.methods.size := Array.size_map
      simp only [edit, addMethod, hsize]
      refine eq_of_tables rfl ?_ Array.map_push
      simp only [unbound]
      refine map_modify TypeDef.unbound p.types t ?_
      exact fun _ => rfl
  | .setEntry m _, _ => by
      refine eq_of_tables ?_ rfl rfl
      simp only [edit, setEntry, unbound]
      refine map_modify ModuleDef.unbound p.modules m ?_
      exact fun _ => rfl

/-! ### Sequences of edits -/

/-- The edits of a sequence that are no bindings. -/
def additions (edits : List Edit) : List Edit := edits.filter (!·.isBinding)

/-- What is declared after some edits is what the additions among them have declared. -/
theorem unbound_foldl (edits : List Edit) (p : Program) :
    (edits.foldl edit p).unbound = (additions edits).foldl edit p.unbound := by
  induction edits generalizing p with
  | nil => rfl
  | cons e edits ih =>
    rw [List.foldl_cons, ih, additions, additions, List.filter_cons]
    cases he : e.isBinding with
    | false => rw [unbound_edit p he]; rfl
    | true =>
      obtain rfl : e = .finalize := by cases e <;> simp_all [Edit.isBinding]
      rw [edit, unbound_finalize]
      rfl

/-- Which edits are allowed does not depend on bindings. -/
theorem allowed_unbound (p : Program) : ∀ e : Edit, e.Allowed p.unbound ↔ e.Allowed p
  | .addModule _ => Iff.rfl
  | .addType _ _ _ => by simp [Edit.Allowed, unbound]
  | .addMethod _ _ => by simp [Edit.Allowed, unbound]
  | .setEntry _ _ => by simp [Edit.Allowed, unbound]
  | .finalize => Iff.rfl

theorem allAllowed_additions (edits : List Edit) (p : Program) :
    AllAllowed p.unbound (additions edits) ↔ AllAllowed p edits := by
  induction edits generalizing p with
  | nil => exact Iff.rfl
  | cons e edits ih =>
    rw [AllAllowed, ← ih, additions, additions, List.filter_cons]
    cases he : e.isBinding with
    | false =>
      rw [← allowed_unbound, unbound_edit p he]
      exact Iff.rfl
    | true =>
      obtain rfl : e = .finalize := by cases e <;> simp_all [Edit.isBinding]
      rw [edit, unbound_finalize]
      exact (and_iff_right trivial).symm

/-- A method is found by its full name as soon as names are bound: the first one that is declared with it counts. -/
theorem finalize_methodNamed? (p : Program) (name : String) : p.finalize.methodNamed? name =
    p.methods.findIdx? fun m => m.toSignature.fullName (p.typeName m.owner) == name := by
  rw [methodNamed?, finalize, bindDefinitions, Array.findIdx?_map]
  rfl

/-- Bindings between other edits make no difference once names are bound at the end. The result is the program of the
    other edits alone, bound once, and binding it again changes nothing. Types and methods are found by their names as
    the declarations have them, and the edits are allowed with the bindings among them as they are without. -/
theorem edits_absorb_bindings (edits : List Edit) :
    let p := (edits ++ [Edit.finalize]).foldl edit {}
    let declared := (additions edits).foldl edit {}
    p = (additions edits ++ [Edit.finalize]).foldl edit {} ∧ p.edit .finalize = p ∧
    (∀ name, p.typeNamed? name = declared.typeNamed? name) ∧
    (∀ name, p.methodNamed? name =
      declared.methods.findIdx? fun m => m.toSignature.fullName (declared.typeName m.owner) == name) ∧
    (AllAllowed {} (additions edits) ↔ AllAllowed {} edits) := by
  intro p declared
  have hempty : unbound {} = {} := by simp [unbound]
  have hdeclared : (edits.foldl edit {}).unbound = declared := by rw [unbound_foldl, hempty]
  have hp : p = declared.finalize := by
    rw [← hdeclared, finalize_unbound]
    exact List.foldl_concat edit {} .finalize edits
  refine ⟨hp.trans (List.foldl_concat edit {} .finalize _).symm, ?_, ?_, ?_, ?_⟩
  · rw [edit, hp, ← finalize_unbound declared.finalize, unbound_finalize, finalize_unbound]
  · intro name
    rw [hp, ← unbound_typeNamed?, unbound_finalize, unbound_typeNamed?]
  · intro name
    rw [hp, finalize_methodNamed?]
  · rw [← allAllowed_additions edits {}, hempty]

-- An entry point that is inherited when names are first bound, and declared by the type itself when they are bound
-- last.
example :
    let early := [Edit.addModule "App.dll", .addType 0 { name := "App", baseName := "Base" } none,
      .addType 0 { name := "Base" } none, .addMethod 1 { name := "Main" },
      .setEntry 0 { name := "Main", owner := "App" }, .finalize]
    let late := [Edit.addMethod 0 { name := "Main" }, .finalize]
    (early.foldl edit {}).modules.toList.map (·.entry) = [some 0] ∧
    ((early ++ late).foldl edit {}).modules.toList.map (·.entry) = [some 1] := by
  decide +kernel

end Program

end CallGraphs
