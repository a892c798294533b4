import Mathlib.Data.List.Flatten
import CallGraphs.Proofs.Forest
import CallGraphs.Proofs.Outline

/-! What can be relied on in a program that was built by edits, whatever they were. A full name leads to the one
    type that has it. Every type is listed once, with the type around it or else with its module, and every method
    once, with its owner. The walk through the types of all modules ends and meets every type once, after the type
    around it. A position keeps what it was given to, a refused type changes nothing, and after a binding every
    bound position exists and has the name that was asked for (`edits_coherent`). -/

namespace CallGraphs.Program

variable {p : Program}

/-! ### Names and lists -/

theorem moduleOf?_lt {t : TypeId} {d : ModuleId} (h : p.moduleOf? t = some d) : t < p.types.size := by
  obtain ⟨ty, hty, -⟩ := Option.map_eq_some_iff.mp h
  exact (Array.getElem?_eq_some_iff.mp hty).1

theorem ownerOf?_lt {m : MethodId} {t : TypeId} (h : p.ownerOf? m = some t) : m < p.methods.size := by
  obtain ⟨x, hx, -⟩ := Option.map_eq_some_iff.mp h
  exact (Array.getElem?_eq_some_iff.mp hx).1

theorem fullNameOf?_of_typeNamed? {n : String} {t : TypeId} (h : p.typeNamed? n = some t) :
    p.fullNameOf? t = some n := by
  obtain ⟨hlt, hname, -⟩ := Array.findIdx?_eq_some_iff_getElem.mp h
  rw [fullNameOf?, Array.getElem?_eq_getElem hlt, Option.map_some]
  exact congrArg some (by simpa using hname)

namespace WellFormed

theorem typeNamed?_iff (h : WellFormed p) {n : String} {t : TypeId} :
    p.typeNamed? n = some t ↔ p.fullNameOf? t = some n := by
  constructor
  · exact fullNameOf?_of_typeNamed?
  · intro ht
    cases hn : p.typeNamed? n with
    | none => exact absurd ht (typeNamed?_eq_none.mp hn t)
    | some u => rw [h.names u t n (fullNameOf?_of_typeNamed? hn) ht]

theorem mem_nestedOf (h : WellFormed p) {t e : TypeId} : t ∈ p.nestedOf e ↔ p.enclosingOf? t = some e := by
  rw [h.nested, List.mem_filter, List.mem_range, beq_iff_eq]
  exact and_iff_right_of_imp enclosingOf?_lt

theorem mem_topTypes (h : WellFormed p) {t : TypeId} {d : ModuleId} :
    t ∈ p.topTypes d ↔ p.moduleOf? t = some d ∧ p.enclosingOf? t = none := by
  rw [h.top, List.mem_filter, List.mem_range, Bool.and_eq_true, beq_iff_eq, beq_iff_eq]
  exact and_iff_right_of_imp fun ht => moduleOf?_lt ht.1

theorem mem_methodsOf (h : WellFormed p) {m : MethodId} {t : TypeId} : m ∈ p.methodsOf t ↔ p.ownerOf? m = some t := by
  rw [h.methods, List.mem_filter, List.mem_range, beq_iff_eq]
  exact and_iff_right_of_imp ownerOf?_lt

/-- Nesting is a forest. -/
theorem parented (h : WellFormed p) : Forest.Parented p.nestedOf p.enclosingOf? :=
  ⟨fun _ _ => h.mem_nestedOf, fun e t he => (h.enclosing t e he).1,
    fun e => by rw [h.nested]; exact List.nodup_range.filter _⟩

end WellFormed

/-- Lists whose members know the list they stand in have no member in common. -/
theorem nodup_flatMap_of_key {keys : List Nat} {f : Nat → List Nat} {key : Nat → Option Nat} (hkeys : keys.Nodup)
    (hf : ∀ k, (f k).Nodup) (hkey : ∀ k, ∀ x ∈ f k, key x = some k) : (keys.flatMap f).Nodup := by
  refine List.nodup_flatMap.mpr ⟨fun k _ => hf k, hkeys.imp fun hne x hx hx' => hne ?_⟩
  exact Option.some.inj ((hkey _ x hx).symm.trans (hkey _ x hx'))

namespace WellFormed

theorem flatMap_topTypes_nodup (h : WellFormed p) : ((List.range p.modules.size).flatMap p.topTypes).Nodup :=
  nodup_flatMap_of_key List.nodup_range (fun d => by rw [h.top]; exact List.nodup_range.filter _)
    fun _ _ hx => (h.mem_topTypes.mp hx).1

/-- A type that is not nested is listed by a module. -/
theorem exists_module (h : WellFormed p) {t : TypeId} (ht : t < p.types.size) (htop : p.enclosingOf? t = none) :
    t ∈ (List.range p.modules.size).flatMap p.topTypes := by
  have hmodule : p.moduleOf? t = some (p.types[t]).moduleId := by
    rw [moduleOf?, Array.getElem?_eq_getElem ht, Option.map_some]
  exact List.mem_flatMap.mpr ⟨_, List.mem_range.mpr (h.home t _ hmodule), h.mem_topTypes.mpr ⟨hmodule, htop⟩⟩

/-- The lists of nested types and of the modules' types hold every type once. -/
theorem lists_perm (h : WellFormed p) :
    ((List.range p.types.size).flatMap p.nestedOf ++ (List.range p.modules.size).flatMap p.topTypes).Perm
      (List.range p.types.size) := by
  have hnested : ((List.range p.types.size).flatMap p.nestedOf).Nodup :=
    nodup_flatMap_of_key List.nodup_range h.parented.nodup fun _ _ hx => h.mem_nestedOf.mp hx
  have hdisjoint : List.Disjoint ((List.range p.types.size).flatMap p.nestedOf)
      ((List.range p.modules.size).flatMap p.topTypes) := by
    intro t ht ht'
    obtain ⟨e, -, ht⟩ := List.mem_flatMap.mp ht
    obtain ⟨d, -, ht'⟩ := List.mem_flatMap.mp ht'
    have hnone := (h.mem_topTypes.mp ht').2
    rw [h.mem_nestedOf.mp ht] at hnone
    exact absurd hnone (by simp)
  refine (List.perm_ext_iff_of_nodup (hnested.append h.flatMap_topTypes_nodup hdisjoint) List.nodup_range).mpr ?_
  intro t
  rw [List.mem_append, List.mem_range]
  constructor
  · rintro (ht | ht)
    · obtain ⟨e, -, ht⟩ := List.mem_flatMap.mp ht
      exact enclosingOf?_lt (h.mem_nestedOf.mp ht)
    · obtain ⟨d, -, ht⟩ := List.mem_flatMap.mp ht
      exact moduleOf?_lt (h.mem_topTypes.mp ht).1
  · intro ht
    cases he : p.enclosingOf? t with
    | none => exact .inr (h.exists_module ht he)
    | some e =>
      have hlt : e < p.types.size := Nat.lt_trans (h.enclosing t e he).1 ht
      exact .inl (List.mem_flatMap.mpr ⟨e, List.mem_range.mpr hlt, h.mem_nestedOf.mpr he⟩)

/-- The lists of methods hold every method once. -/
theorem methods_perm (h : WellFormed p) :
    ((List.range p.types.size).flatMap p.methodsOf).Perm (List.range p.methods.size) := by
  have hnodup : ((List.range p.types.size).flatMap p.methodsOf).Nodup :=
    nodup_flatMap_of_key List.nodup_range (fun t => by rw [h.methods]; exact List.nodup_range.filter _)
      fun _ _ hx => h.mem_methodsOf.mp hx
  refine (List.perm_ext_iff_of_nodup hnodup List.nodup_range).mpr fun m => ?_
  rw [List.mem_flatMap, List.mem_range]
  constructor
  · rintro ⟨t, -, hm⟩
    exact ownerOf?_lt (h.mem_methodsOf.mp hm)
  · intro hm
    have howner : p.ownerOf? m = some (p.methods[m]).owner := by
      rw [ownerOf?, Array.getElem?_eq_getElem hm, Option.map_some]
    exact ⟨_, List.mem_range.mpr (h.owner m _ howner), h.mem_methodsOf.mpr howner⟩

/-! ### The walk through all types -/

/-- The stack of types to expand is used up, and what was found are all types of the module. -/
theorem walk_reaches (h : WellFormed p) (d : ModuleId) :
    Forest.Walk.Reaches p.nestedOf ⟨p.topTypes d, []⟩ ⟨[], p.allTypes d⟩ := by
  have hlt : ∀ e, ∀ t ∈ p.nestedOf e, e < t := fun e t ht => (h.enclosing t e (h.mem_nestedOf.mp ht)).1
  have hleaf : ∀ e, p.types.size ≤ e → p.nestedOf e = [] := by
    intro e he
    simp [nestedOf, he]
  have hexpand : ∀ t rest found, Forest.Walk.Reaches p.nestedOf ⟨t :: rest, found⟩
      ⟨rest, found ++ Forest.preorder p.nestedOf p.types.size t⟩ :=
    fun t => Forest.Walk.expand_reaches hlt hleaf p.types.size t (Nat.le_add_left _ _)
  have hreach := Forest.Walk.reaches_flatMap [] (p.topTypes d) [] fun t _ => hexpand t
  rw [List.append_nil, List.nil_append] at hreach
  exact hreach

theorem allTypes_perm (h : WellFormed p) :
    ((List.range p.modules.size).flatMap p.allTypes).Perm (List.range p.types.size) := by
  have hroots : (List.range p.modules.size).flatMap p.allTypes =
      ((List.range p.modules.size).flatMap p.topTypes).flatMap (Forest.preorder p.nestedOf p.types.size) :=
    List.flatMap_assoc.symm
  have htop : ∀ t ∈ (List.range p.modules.size).flatMap p.topTypes, p.enclosingOf? t = none := by
    intro t ht
    obtain ⟨d, -, ht⟩ := List.mem_flatMap.mp ht
    exact (h.mem_topTypes.mp ht).2
  have hnodup : ((List.range p.modules.size).flatMap p.allTypes).Nodup := by
    rw [hroots]
    exact h.parented.flatMap_nodup h.flatMap_topTypes_nodup htop fun t _ => h.parented.preorder_nodup _ t
  refine (List.perm_ext_iff_of_nodup hnodup List.nodup_range).mpr fun t => ?_
  rw [hroots, List.mem_flatMap, List.mem_range]
  constructor
  · rintro ⟨r, hr, ht⟩
    rcases Forest.preorder_cases ht with rfl | ⟨e, -, ht⟩
    · obtain ⟨d, -, hr⟩ := List.mem_flatMap.mp hr
      exact moduleOf?_lt (h.mem_topTypes.mp hr).1
    · exact enclosingOf?_lt (h.mem_nestedOf.mp ht)
  · intro ht
    obtain ⟨r, hr, hmem⟩ := h.parented.exists_root t
    have hlt : r < p.types.size := Nat.lt_of_le_of_lt (h.parented.le_of_mem hmem) ht
    exact ⟨r, h.exists_module hlt hr, Forest.preorder_mono (Nat.le_of_lt ht) r hmem⟩

/-- A nested type comes after the type around it, in the list of the same module. -/
theorem enclosing_before (h : WellFormed p) {t e : TypeId} (he : p.enclosingOf? t = some e) :
    ∃ d < p.modules.size, [e, t].Sublist (p.allTypes d) := by
  have ht : t ∈ (List.range p.modules.size).flatMap p.allTypes :=
    h.allTypes_perm.mem_iff.mpr (List.mem_range.mpr (enclosingOf?_lt he))
  obtain ⟨d, hd, ht⟩ := List.mem_flatMap.mp ht
  obtain ⟨r, hr, ht⟩ := List.mem_flatMap.mp ht
  have hpart : (Forest.preorder p.nestedOf p.types.size r).Sublist (p.allTypes d) := by
    have hflat := (List.singleton_sublist.mpr hr).flatMap (Forest.preorder p.nestedOf p.types.size)
    rwa [List.flatMap_singleton] at hflat
  refine ⟨d, List.mem_range.mp hd, ?_⟩
  rcases Forest.preorder_parent_before ht with rfl | ⟨u, hu, hbefore⟩
  · have hnone := (h.mem_topTypes.mp hr).2
    rw [he] at hnone
    exact absurd hnone (by simp)
  · obtain rfl : e = u := Option.some.inj (he.symm.trans (h.mem_nestedOf.mp hu))
    exact hbefore.trans hpart

end WellFormed

/-- The tables agree with one another. -/
structure Coherent (p : Program) : Prop where
  typeNamed? : ∀ n t, p.typeNamed? n = some t ↔ p.fullNameOf? t = some n
  nestedOf : ∀ e t, t ∈ p.nestedOf e ↔ p.enclosingOf? t = some e
  topTypes : ∀ d t, t ∈ p.topTypes d ↔ p.moduleOf? t = some d ∧ p.enclosingOf? t = none
  typesOnce : ((List.range p.types.size).flatMap p.nestedOf ++
    (List.range p.modules.size).flatMap p.topTypes).Perm (List.range p.types.size)
  enclosing : ∀ t e, p.enclosingOf? t = some e → e < t ∧ p.nsOf? e = p.nsOf? t
  methodsOf : ∀ t m, m ∈ p.methodsOf t ↔ p.ownerOf? m = some t
  methodsOnce : ((List.range p.types.size).flatMap p.methodsOf).Perm (List.range p.methods.size)
  walkEnds : ∀ d, Forest.Walk.Reaches p.nestedOf ⟨p.topTypes d, []⟩ ⟨[], p.allTypes d⟩
  allTypesOnce : ((List.range p.modules.size).flatMap p.allTypes).Perm (List.range p.types.size)
  enclosingFirst : ∀ t e, p.enclosingOf? t = some e → ∃ d < p.modules.size, [e, t].Sublist (p.allTypes d)

theorem WellFormed.coherent (h : WellFormed p) : Coherent p :=
  ⟨fun _ _ => h.typeNamed?_iff, fun _ _ => h.mem_nestedOf, fun _ _ => h.mem_topTypes, h.lists_perm, h.enclosing,
    fun _ _ => h.mem_methodsOf, h.methods_perm, h.walk_reaches, h.allTypes_perm, fun _ _ => h.enclosing_before⟩

/-! ### Positions -/

/-- The name of a module. -/
def moduleName? (p : Program) (d : ModuleId) : Option String := p.modules[d]?.map (·.name)

/-- What a method keeps for good: its declaration and its owner. -/
def declarationOf? (p : Program) (m : MethodId) : Option (MethodDecl × TypeId) :=
  p.methods[m]?.map fun x => (x.toMethodDecl, x.owner)

/-- What stands at a position keeps its declaration and its place. -/
structure Keeps (p q : Program) : Prop where
  modules : ∀ d name, p.moduleName? d = some name → q.moduleName? d = some name
  types : ∀ t x, p.identityOf? t = some x → q.identityOf? t = some x
  methods : ∀ m x, p.declarationOf? m = some x → q.declarationOf? m = some x

namespace Keeps

theorem refl (p : Program) : Keeps p p := ⟨fun _ _ h => h, fun _ _ h => h, fun _ _ h => h⟩

theorem trans {q r : Program} (h : Keeps p q) (h' : Keeps q r) : Keeps p r :=
  ⟨fun d name hd => h'.modules d name (h.modules d name hd), fun t x ht => h'.types t x (h.types t x ht),
    fun m x hm => h'.methods m x (h.methods m x hm)⟩

theorem of_eq {q : Program} (hmodules : ∀ d, q.moduleName? d = p.moduleName? d)
    (htypes : ∀ t, q.identityOf? t = p.identityOf? t) (hmethods : ∀ m, q.declarationOf? m = p.declarationOf? m) :
    Keeps p q :=
  ⟨fun d _ hd => (hmodules d).trans hd, fun t _ ht => (htypes t).trans ht, fun m _ hm => (hmethods m).trans hm⟩

end Keeps

theorem map_getElem?_push {α β : Type} {l : Array α} {i : Nat} {g : α → β} {y : β} (h : l[i]?.map g = some y)
    (x : α) : (l.push x)[i]?.map g = some y := by
  obtain ⟨z, hz, -⟩ := Option.map_eq_some_iff.mp h
  have hlt := (Array.getElem?_eq_some_iff.mp hz).1
  rw [Array.getElem?_push, if_neg (Nat.ne_of_lt hlt)]
  exact h

theorem withType_keeps (m : ModuleId) (decl : TypeDecl) (enclosing : Option TypeId) :
    Keeps p (p.withType m decl enclosing) := by
  refine ⟨fun d name hd => ?_, fun t x ht => ?_, fun i x hx => ?_⟩
  · cases enclosing with
    | some e => exact hd
    | none =>
      rw [moduleName?, withType, enlist, map_getElem?_modify]
      · exact hd
      · exact fun _ => rfl
  · obtain ⟨ty, hty, -⟩ := Option.map_eq_some_iff.mp ht
    have hlt := (Array.getElem?_eq_some_iff.mp hty).1
    exact (withType_identityOf? (Nat.ne_of_lt hlt)).trans ht
  · rw [declarationOf?, withType_methods]
    exact hx

theorem edit_keeps (p : Program) : ∀ e : Edit, Keeps p (p.edit e)
  | .addModule name => ⟨fun _ _ hd => map_getElem?_push hd { name }, fun _ _ ht => ht, fun _ _ hm => hm⟩
  | .addType m decl enclosing => by
      rw [edit_addType]
      split
      · exact Keeps.refl p
      · exact withType_keeps m decl enclosing
  | .addMethod t decl =>
      ⟨fun _ _ hd => hd, fun i _ hi => (addMethod_identityOf? p t decl i).trans hi,
        fun _ _ hm => map_getElem?_push hm { decl with owner := t }⟩
  | .setEntry m r => by
      refine .of_eq (fun d => ?_) (fun _ => rfl) fun _ => rfl
      rw [moduleName?, edit, setEntry, map_getElem?_modify, moduleName?]
      exact fun _ => rfl
  | .finalize => by
      refine .of_eq (fun d => ?_) (finalize_sameOutline p).identityOf? fun m => ?_
      · simp only [moduleName?, edit, finalize, Array.getElem?_map, Option.map_map]
        rfl
      · simp only [declarationOf?, edit, finalize, bindDefinitions, Array.getElem?_map, Option.map_map]
        rfl

theorem edits_keep (p : Program) (edits : List Edit) : Keeps p (edits.foldl edit p) :=
  List.foldlRecOn (motive := Keeps p) edits edit (Keeps.refl p) fun q h e _ => h.trans (edit_keeps q e)

/-- New modules, types and methods stand at the position that is returned, which is the next one; whatever edits
    follow, they leave at its position what was there; and a type is refused exactly if its full name is taken,
    without effect. -/
structure Numbered (p : Program) : Prop where
  addModule : ∀ name, (p.addModule name).1 = p.modules.size ∧
    (p.addModule name).2.modules[(p.addModule name).1]? = some { name }
  addType : ∀ m decl enclosing t q, (Edit.addType m decl enclosing).Allowed p →
    p.addType? m decl enclosing = some (t, q) → t = p.types.size ∧ q.types[t]? = some (p.typeAt m decl enclosing)
  addMethod : ∀ t decl, (p.addMethod t decl).1 = p.methods.size ∧
    (p.addMethod t decl).2.methods[(p.addMethod t decl).1]? = some { decl with owner := t }
  keeps : ∀ later : List Edit, Keeps p (later.foldl edit p)
  refused : ∀ m decl enclosing, p.addType? m decl enclosing = none ↔
    ∃ t, p.fullNameOf? t = some (p.place decl enclosing).2
  unchanged : ∀ m decl enclosing, p.addType? m decl enclosing = none → p.edit (.addType m decl enclosing) = p

theorem numbered (p : Program) : Numbered p := by
  refine ⟨fun name => ⟨rfl, by simp [addModule]⟩, ?_, fun t decl => ⟨rfl, by simp [addMethod]⟩, edits_keep p, ?_, ?_⟩
  · intro m decl enclosing t q hallowed hadd
    rw [addType?_eq] at hadd
    split at hadd
    · simp at hadd
    · obtain ⟨rfl, rfl⟩ : p.types.size = t ∧ p.withType m decl enclosing = q := by simpa using hadd
      exact ⟨rfl, withType_last hallowed.2⟩
  · intro m decl enclosing
    have htaken : p.addType? m decl enclosing = none ↔ p.typeNamed? (p.place decl enclosing).2 ≠ none := by
      rw [addType?_eq]
      cases p.typeNamed? (p.place decl enclosing).2 <;> simp
    rw [htaken, ne_eq, typeNamed?_eq_none]
    simp
  · intro m decl enclosing hnone
    simp only [edit, hnone]

/-! ### After a binding -/

/-- Every name that the program defines is bound to it, and no other name is bound: base types, interfaces and
    continuation types to the type of that name, entry points to the method that they resolve to. -/
structure Bound (p : Program) : Prop where
  base : ∀ (t : TypeId) ty b, p.types[t]? = some ty → (ty.base = some b ↔
    ty.baseName ≠ "" ∧ b < p.types.size ∧ p.fullNameOf? b = some ty.baseName)
  interfaces : ∀ (t : TypeId) ty i, p.types[t]? = some ty → (i ∈ ty.interfaces ↔
    i < p.types.size ∧ ∃ n ∈ ty.interfaceNames, p.fullNameOf? i = some n)
  continuation : ∀ (m : MethodId) x t, p.methods[m]? = some x → (x.continuationType = some t ↔
    t < p.types.size ∧ ∃ c, x.continuation = some c ∧ p.fullNameOf? t = some c.typeName)
  entry : ∀ (d : ModuleId) x m, p.modules[d]? = some x → (x.entry = some m ↔
    m < p.methods.size ∧ ∃ r, x.entryRef = some r ∧ p.resolve? r = some m)

/-- Resolution looks at types and methods only. -/
theorem resolve?_congr {q : Program} (htypes : q.types = p.types) (hmethods : q.methods = p.methods) (r : MethodRef) :
    q.resolve? r = p.resolve? r := by
  have hclimb : ∀ n t, q.climb n t = p.climb n t := by
    intro n
    induction n with
    | zero => exact fun _ => rfl
    | succ n ih => intro t; simp only [climb, baseOf, htypes, ih]
  simp only [resolve?, typeNamed?, chain, hclimb, firstMethod?, htypes, hmethods]

theorem resolve?_lt {r : MethodRef} {m : MethodId} (h : p.resolve? r = some m) : m < p.methods.size := by
  obtain ⟨t, -, ht⟩ := Option.bind_eq_some_iff.mp h
  obtain ⟨s, -, hs⟩ := List.exists_of_findSome?_eq_some ht
  obtain ⟨ty, -, hm⟩ := Option.bind_eq_some_iff.mp hs
  have htest := List.find?_some hm
  refine Nat.lt_of_not_le fun hle => ?_
  simp [Array.getElem?_eq_none hle] at htest

theorem WellFormed.finalize_bound (h : WellFormed p) : Bound p.finalize := by
  have houtline := finalize_sameOutline p
  have hname : ∀ n t, p.typeNamed? n = some t ↔ t < p.finalize.types.size ∧ p.finalize.fullNameOf? t = some n := by
    intro n t
    rw [h.typeNamed?_iff, fullNameOf?_congr (houtline.identityOf? t), houtline.types]
    exact (and_iff_right_of_imp fullNameOf?_lt).symm
  refine ⟨?_, ?_, ?_, ?_⟩
  · intro t ty b hty
    simp only [finalize, bindDefinitions, Array.getElem?_map] at hty
    obtain ⟨ty, -, rfl⟩ := Option.map_eq_some_iff.mp hty
    show p.boundBase ty = some b ↔
      ty.baseName ≠ "" ∧ b < p.finalize.types.size ∧ p.finalize.fullNameOf? b = some ty.baseName
    rw [← hname, boundBase]
    by_cases hempty : ty.baseName = "" <;> simp [hempty]
  · intro t ty i hty
    simp only [finalize, bindDefinitions, Array.getElem?_map] at hty
    obtain ⟨ty, -, rfl⟩ := Option.map_eq_some_iff.mp hty
    show i ∈ ty.interfaceNames.filterMap p.typeNamed? ↔ i < _ ∧ ∃ n ∈ ty.interfaceNames, _
    rw [List.mem_filterMap]
    constructor
    · rintro ⟨n, hn, hi⟩
      exact ⟨((hname n i).mp hi).1, n, hn, ((hname n i).mp hi).2⟩
    · rintro ⟨hi, n, hn, hname'⟩
      exact ⟨n, hn, (hname n i).mpr ⟨hi, hname'⟩⟩
  · intro m x t hx
    simp only [finalize, bindDefinitions, Array.getElem?_map] at hx
    obtain ⟨x, -, rfl⟩ := Option.map_eq_some_iff.mp hx
    show x.continuation.bind (fun c => p.typeNamed? c.typeName) = some t ↔ t < _ ∧ ∃ c, x.continuation = some c ∧ _
    rw [Option.bind_eq_some_iff]
    constructor
    · rintro ⟨c, hc, ht⟩
      exact ⟨((hname c.typeName t).mp ht).1, c, hc, ((hname c.typeName t).mp ht).2⟩
    · rintro ⟨ht, c, hc, hname'⟩
      exact ⟨c, hc, (hname c.typeName t).mpr ⟨ht, hname'⟩⟩
  · intro d x m hx
    simp only [finalize, Array.getElem?_map] at hx
    obtain ⟨x, -, rfl⟩ := Option.map_eq_some_iff.mp hx
    show x.entryRef.bind p.bindDefinitions.resolve? = some m ↔ m < _ ∧ ∃ r, x.entryRef = some r ∧ _
    have hresolve : ∀ r, p.finalize.resolve? r = p.bindDefinitions.resolve? r := resolve?_congr rfl rfl
    rw [Option.bind_eq_some_iff]
    simp only [hresolve]
    refine (and_iff_right_of_imp ?_).symm
    rintro ⟨r, -, hr⟩
    exact resolve?_lt (p := p.bindDefinitions) hr

/-! ### Any sequence of edits -/

/-- Every edit of the list is allowed when its turn comes. -/
def AllAllowed : Program → List Edit → Prop
  | _, [] => True
  | p, e :: edits => e.Allowed p ∧ AllAllowed (p.edit e) edits

instance instDecidableAllAllowed : ∀ (p : Program) (edits : List Edit), Decidable (AllAllowed p edits)
  | _, [] => inferInstanceAs (Decidable True)
  | p, e :: edits =>
    have := instDecidableAllAllowed (p.edit e) edits
    inferInstanceAs (Decidable (e.Allowed p ∧ AllAllowed (p.edit e) edits))

theorem edits_wellFormed : ∀ (edits : List Edit) (p : Program), WellFormed p → AllAllowed p edits →
    WellFormed (edits.foldl edit p)
  | [], _, hp, _ => hp
  | e :: edits, p, hp, ⟨he, hedits⟩ => edits_wellFormed edits (p.edit e) (edit_wellFormed hp he) hedits

/-- A finalized program: allowed edits of the empty program have built it, and then its names were bound. -/
def Finalized (p : Program) : Prop :=
  ∃ edits : List Edit, AllAllowed {} edits ∧ p = (edits.foldl edit {}).finalize

theorem Finalized.wellFormed (h : p.Finalized) : p.WellFormed := by
  obtain ⟨edits, hallowed, rfl⟩ := h
  exact (edits_wellFormed edits {} WellFormed.empty hallowed).of_sameOutline (finalize_sameOutline _)

theorem Finalized.bound (h : p.Finalized) : p.Bound := by
  obtain ⟨edits, hallowed, rfl⟩ := h
  exact (edits_wellFormed edits {} WellFormed.empty hallowed).finalize_bound

/-- After any allowed edits of the empty program, its tables agree with one another. The next module, type or method
    gets the next position, what has a position keeps it, and a type is refused exactly if its full name is taken,
    without effect. Right after a binding, names are bound to what has them. -/
theorem edits_coherent (edits : List Edit) (h : AllAllowed {} edits) :
    let p := edits.foldl edit {}
    Coherent p ∧ Numbered p ∧ Bound p.finalize := by
  have hp := edits_wellFormed edits {} WellFormed.empty h
  exact ⟨hp.coherent, numbered _, hp.finalize_bound⟩

/-- Types around types, a base type that is nested, a second type of a name, and an entry point that is inherited. -/
def nesting : List Edit := [
  .addModule "Core.dll", .addModule "App.dll",
  .addType 1 { name := "Outer", ns := "App", baseName := "Core.Base/Part" } none,
  .addType 0 { name := "Base", ns := "Core" } none,
  .addType 1 { name := "Inner", interfaceNames := ["Core.Base", "Gone"] } (some 0),
  .finalize,
  .addType 1 { name := "Part" } (some 1),
  .addType 0 { name := "Outer", ns := "App" } none,
  .addMethod 3 { name := "Main", isStatic := true },
  .addMethod 0 { name := "Loop", continuation := some { kind := .async, typeName := "App.Outer/Inner" } },
  .setEntry 1 { name := "Main", owner := "App.Outer" }]

theorem edits_coherent_nesting :
    let p := nesting.foldl edit {}
    AllAllowed {} nesting ∧ Coherent p ∧ Numbered p ∧ Bound p.finalize ∧
    (List.range p.types.size).map p.typeName = ["App.Outer", "Core.Base", "App.Outer/Inner", "Core.Base/Part"] ∧
    (List.range p.modules.size).map p.allTypes = [[1, 3], [0, 2]] ∧
    p.finalize.types.toList.map (fun ty => (ty.base, ty.interfaces)) =
      [(some 3, []), (none, []), (none, [1]), (none, [])] ∧
    p.finalize.methods.toList.map (·.continuationType) = [none, some 2] ∧
    p.finalize.modules.toList.map (·.entry) = [none, some 0] := by
  intro p
  have hallowed : AllAllowed {} nesting := by decide +kernel
  obtain ⟨hcoherent, hnumbered, hbound⟩ := edits_coherent nesting hallowed
  exact ⟨hallowed, hcoherent, hnumbered, hbound, by decide +kernel, by decide +kernel, by decide +kernel,
    by decide +kernel, by decide +kernel⟩

end CallGraphs.Program
