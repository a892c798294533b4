import Mathlib.Data.List.Nodup
import CallGraphs.Program.Build
import CallGraphs.Program.Listing

/-! The outline of a program: which types and methods there are, what they are called and what they belong to. The
    tables hold it twice, once as back references (the type around a type, the module, the owner of a method) and
    once as lists (nested types, types of a module, methods of a type). In a well-formed outline the lists are
    exactly the positions that refer back, in the order of their numbers. Appending a type or a method extends
    one list by the new position, and binding names leaves the outline alone, so every edit keeps it well-formed
    (`edit_wellFormed`). -/

namespace CallGraphs

/-- What a type keeps for good: its declaration, its full name and its place. -/
structure TypeDef.Identity where
  decl : TypeDecl
  fullName : String
  moduleId : ModuleId
  enclosing : Option TypeId
  deriving DecidableEq

/-- The lasting part of a type; the lists of what it contains and what its names are bound to are left out. -/
def TypeDef.identity (ty : TypeDef) : TypeDef.Identity := ⟨ty.toTypeDecl, ty.fullName, ty.moduleId, ty.enclosing⟩

namespace Program

/-! ### Edits -/

/-- A call that changes a program. A type is added without nested types and methods, which are added later. -/
inductive Edit where
  | addModule (name : String)
  | addType (m : ModuleId) (decl : TypeDecl) (enclosing : Option TypeId)
  | addMethod (t : TypeId) (decl : MethodDecl)
  | setEntry (m : ModuleId) (r : MethodRef)
  | finalize

/-- The edit names only modules and types that exist. -/
def Edit.Allowed (p : Program) : Edit → Prop
  | .addModule _ => True
  | .addType m _ enclosing => m < p.modules.size ∧ ∀ o ∈ enclosing, o < p.types.size
  | .addMethod t _ => t < p.types.size
  | .setEntry m _ => m < p.modules.size
  | .finalize => True

instance (p : Program) : DecidablePred (Edit.Allowed p)
  | .addModule _ => inferInstanceAs (Decidable True)
  | .addType m _ enclosing => inferInstanceAs (Decidable (m < p.modules.size ∧ ∀ o ∈ enclosing, o < p.types.size))
  | .addMethod t _ => inferInstanceAs (Decidable (t < p.types.size))
  | .setEntry m _ => inferInstanceAs (Decidable (m < p.modules.size))
  | .finalize => inferInstanceAs (Decidable True)

/-- The program after an edit. A type that is refused changes nothing. -/
def edit (p : Program) : Edit → Program
  | .addModule name => (p.addModule name).2
  | .addType m decl enclosing =>
    match p.addType? m decl enclosing with
    | none => p
    | some (_, q) => q
  | .addMethod t decl => (p.addMethod t decl).2
  | .setEntry m r => p.setEntry m r
  | .finalize => p.finalize

/-! ### What the tables say -/

/-- What a type keeps for good. -/
def identityOf? (p : Program) (t : TypeId) : Option TypeDef.Identity := p.types[t]?.map TypeDef.identity

/-- The full name of a type. -/
def fullNameOf? (p : Program) (t : TypeId) : Option String := p.types[t]?.map (·.fullName)

/-- The namespace of a type. -/
def nsOf? (p : Program) (t : TypeId) : Option String := p.types[t]?.map (·.ns)

/-- The module that a type was added to. -/
def moduleOf? (p : Program) (t : TypeId) : Option ModuleId := p.types[t]?.map (·.moduleId)

/-- The type around a type. -/
def enclosingOf? (p : Program) (t : TypeId) : Option TypeId := p.types[t]?.bind (·.enclosing)

/-- The methods declared by a type. -/
def methodsOf (p : Program) (t : TypeId) : List MethodId := (p.types[t]?.map (·.methods)).getD []

/-- The type that declares a method. -/
def ownerOf? (p : Program) (m : MethodId) : Option TypeId := p.methods[m]?.map (·.owner)

theorem fullNameOf?_lt {p : Program} {t : TypeId} {n : String} (h : p.fullNameOf? t = some n) :
    t < p.types.size := by
  obtain ⟨ty, hty, -⟩ := Option.map_eq_some_iff.mp h
  exact (Array.getElem?_eq_some_iff.mp hty).1

theorem enclosingOf?_lt {p : Program} {t e : TypeId} (h : p.enclosingOf? t = some e) : t < p.types.size := by
  obtain ⟨ty, hty, -⟩ := Option.bind_eq_some_iff.mp h
  exact (Array.getElem?_eq_some_iff.mp hty).1

/-- A full name that no type has is not found. -/
theorem typeNamed?_eq_none {p : Program} {n : String} :
    p.typeNamed? n = none ↔ ∀ t, p.fullNameOf? t ≠ some n := by
  rw [typeNamed?, Array.findIdx?_eq_none_iff]
  constructor
  · intro h t ht
    obtain ⟨ty, hty, rfl⟩ := Option.map_eq_some_iff.mp ht
    simpa using h ty (Array.mem_of_getElem? hty)
  · intro h ty hty
    obtain ⟨t, ht, rfl⟩ := Array.mem_iff_getElem.mp hty
    have hne := h t
    simpa [fullNameOf?, ht] using hne

/-! ### Well-formed outlines -/

/-- Full names are unique; a type lies inside an earlier one, with its namespace; modules and owners exist; and
    every list holds the positions that refer back to its owner, in the order of their numbers. -/
structure WellFormed (p : Program) : Prop where
  names : ∀ i j n, p.fullNameOf? i = some n → p.fullNameOf? j = some n → i = j
  enclosing : ∀ t e, p.enclosingOf? t = some e → e < t ∧ p.nsOf? e = p.nsOf? t
  home : ∀ t d, p.moduleOf? t = some d → d < p.modules.size
  owner : ∀ m t, p.ownerOf? m = some t → t < p.types.size
  nested : ∀ e, p.nestedOf e = (List.range p.types.size).filter (p.enclosingOf? · == some e)
  top : ∀ d, p.topTypes d =
    (List.range p.types.size).filter fun t => p.moduleOf? t == some d && p.enclosingOf? t == none
  methods : ∀ t, p.methodsOf t = (List.range p.methods.size).filter (p.ownerOf? · == some t)

theorem WellFormed.empty : WellFormed {} := by
  constructor <;> simp [fullNameOf?, enclosingOf?, moduleOf?, ownerOf?, nestedOf, topTypes, methodsOf]

/-- The second program has the outline of the first one, and maybe further modules. -/
structure SameOutline (p q : Program) : Prop where
  modules : p.modules.size ≤ q.modules.size
  types : q.types.size = p.types.size
  methods : q.methods.size = p.methods.size
  identityOf? : ∀ t, q.identityOf? t = p.identityOf? t
  nestedOf : ∀ t, q.nestedOf t = p.nestedOf t
  methodsOf : ∀ t, q.methodsOf t = p.methodsOf t
  topTypes : ∀ d, q.topTypes d = p.topTypes d
  ownerOf? : ∀ m, q.ownerOf? m = p.ownerOf? m

/-! Names and places are part of what a type keeps, so where that agrees, they agree. -/

section Identity

variable {p q : Program} {t u : TypeId} (h : q.identityOf? u = p.identityOf? t)

include h

theorem fullNameOf?_congr : q.fullNameOf? u = p.fullNameOf? t := by
  have hview := congrArg (Option.map TypeDef.Identity.fullName) h
  rw [identityOf?, identityOf?, Option.map_map, Option.map_map] at hview
  exact hview

theorem nsOf?_congr : q.nsOf? u = p.nsOf? t := by
  have hview := congrArg (Option.map fun x : TypeDef.Identity => x.decl.ns) h
  rw [identityOf?, identityOf?, Option.map_map, Option.map_map] at hview
  exact hview

theorem moduleOf?_congr : q.moduleOf? u = p.moduleOf? t := by
  have hview := congrArg (Option.map TypeDef.Identity.moduleId) h
  rw [identityOf?, identityOf?, Option.map_map, Option.map_map] at hview
  exact hview

theorem enclosingOf?_congr : q.enclosingOf? u = p.enclosingOf? t := by
  have hview := congrArg (Option.bind · TypeDef.Identity.enclosing) h
  rw [identityOf?, identityOf?, Option.bind_map, Option.bind_map] at hview
  exact hview

end Identity

theorem WellFormed.of_sameOutline {p q : Program} (h : WellFormed p) (hq : SameOutline p q) : WellFormed q := by
  have hname := fun t => fullNameOf?_congr (hq.identityOf? t)
  have hns := fun t => nsOf?_congr (hq.identityOf? t)
  have hmodule := fun t => moduleOf?_congr (hq.identityOf? t)
  have hencl := fun t => enclosingOf?_congr (hq.identityOf? t)
  refine ⟨?_, ?_, ?_, ?_, ?_, ?_, ?_⟩
  · intro i j n
    rw [hname, hname]
    exact h.names i j n
  · intro t e
    rw [hencl, hns, hns]
    exact h.enclosing t e
  · intro t d hd
    rw [hmodule] at hd
    exact Nat.lt_of_lt_of_le (h.home t d hd) hq.modules
  · intro m t
    rw [hq.ownerOf?, hq.types]
    exact h.owner m t
  · intro e
    simp only [hq.nestedOf, hq.types, hencl]
    exact h.nested e
  · intro d
    simp only [hq.topTypes, hq.types, hmodule, hencl]
    exact h.top d
  · intro t
    simp only [hq.methodsOf, hq.methods, hq.ownerOf?]
    exact h.methods t

/-! ### Edits that leave the outline alone -/

/-- A change at one position is not seen by what does not look at it. -/
theorem map_getElem?_modify {α β : Type} {f : α → α} {g : α → β} (l : Array α) (i j : Nat)
    (h : ∀ x, g (f x) = g x) : (l.modify i f)[j]?.map g = l[j]?.map g := by
  rw [Array.getElem?_modify]
  split
  · rw [Option.map_map]
    exact congrArg (Option.map · l[j]?) (funext h)
  · rfl

theorem addModule_sameOutline (p : Program) (name : String) : SameOutline p (p.addModule name).2 := by
  refine ⟨by simp [addModule], rfl, rfl, fun _ => rfl, fun _ => rfl, fun _ => rfl, ?_, fun _ => rfl⟩
  intro d
  simp only [topTypes, addModule, Array.getElem?_push]
  split
  · rename_i hd
    simp [hd]
  · rfl

theorem setEntry_sameOutline (p : Program) (m : ModuleId) (r : MethodRef) : SameOutline p (p.setEntry m r) := by
  refine ⟨by simp [setEntry], rfl, rfl, fun _ => rfl, fun _ => rfl, fun _ => rfl, ?_, fun _ => rfl⟩
  intro d
  rw [topTypes, setEntry, map_getElem?_modify, topTypes]
  exact fun _ => rfl

theorem finalize_sameOutline (p : Program) : SameOutline p p.finalize := by
  refine ⟨by simp [finalize], by simp [finalize, bindDefinitions], by simp [finalize, bindDefinitions],
    ?_, ?_, ?_, ?_, ?_⟩
  · intro t
    simp only [Program.identityOf?, finalize, bindDefinitions, Array.getElem?_map, Option.map_map]
    rfl
  · intro t
    simp only [Program.nestedOf, finalize, bindDefinitions, Array.getElem?_map, Option.map_map]
    rfl
  · intro t
    simp only [Program.methodsOf, finalize, bindDefinitions, Array.getElem?_map, Option.map_map]
    rfl
  · intro d
    simp only [Program.topTypes, finalize, Array.getElem?_map, Option.map_map]
    rfl
  · intro m
    simp only [Program.ownerOf?, finalize, bindDefinitions, Array.getElem?_map, Option.map_map]
    rfl

/-! ### A new type -/

/-- The type that a declaration becomes in its place. -/
def typeAt (p : Program) (m : ModuleId) (decl : TypeDecl) (enclosing : Option TypeId) : TypeDef :=
  { decl with ns := (p.place decl enclosing).1, fullName := (p.place decl enclosing).2, moduleId := m, enclosing }

/-- The program with one more type, listed where it belongs. -/
def withType (p : Program) (m : ModuleId) (decl : TypeDecl) (enclosing : Option TypeId) : Program :=
  { p with types := p.types.push (p.typeAt m decl enclosing) }.enlist m enclosing p.types.size

theorem addType?_eq (p : Program) (m : ModuleId) (decl : TypeDecl) (enclosing : Option TypeId) :
    p.addType? m decl enclosing =
      if (p.typeNamed? (p.place decl enclosing).2).isSome then none
      else some (p.types.size, p.withType m decl enclosing) := rfl

section NewType

variable {p : Program} {m : ModuleId} {decl : TypeDecl} {enclosing : Option TypeId}

/-- Earlier positions keep what they hold. -/
theorem withType_identityOf? {i : TypeId} (hi : i ≠ p.types.size) :
    (p.withType m decl enclosing).identityOf? i = p.identityOf? i := by
  have hpush : (p.types.push (p.typeAt m decl enclosing))[i]? = p.types[i]? := by
    rw [Array.getElem?_push, if_neg hi]
  cases enclosing with
  | none => exact congrArg (Option.map TypeDef.identity) hpush
  | some e =>
    simp only [identityOf?, withType, enlist]
    rw [map_getElem?_modify, hpush]
    exact fun _ => rfl

/-- The new type stands at the end. -/
theorem withType_last (henclosing : ∀ o ∈ enclosing, o < p.types.size) :
    (p.withType m decl enclosing).types[p.types.size]? = some (p.typeAt m decl enclosing) := by
  cases enclosing with
  | none => simp [withType, enlist]
  | some e =>
    have hne : e ≠ p.types.size := Nat.ne_of_lt (henclosing e rfl)
    simp only [withType, enlist, Array.getElem?_modify, if_neg hne, Array.getElem?_push_size]

theorem withType_size : (p.withType m decl enclosing).types.size = p.types.size + 1 := by
  cases enclosing <;> simp [withType, enlist]

theorem withType_modules : (p.withType m decl enclosing).modules.size = p.modules.size := by
  cases enclosing <;> simp [withType, enlist]

theorem withType_methods : (p.withType m decl enclosing).methods = p.methods := by
  cases enclosing <;> rfl

theorem withType_methodsOf (t : TypeId) : (p.withType m decl enclosing).methodsOf t = p.methodsOf t := by
  have hpush : ((p.types.push (p.typeAt m decl enclosing))[t]?.map (·.methods)).getD [] = p.methodsOf t := by
    rw [Array.getElem?_push, methodsOf]
    split
    · rename_i ht
      simp [ht, typeAt]
    · rfl
  rw [← hpush]
  cases enclosing with
  | none => rfl
  | some e =>
    simp only [methodsOf, withType, enlist]
    rw [map_getElem?_modify]
    exact fun _ => rfl

/-- A nested type goes to the end of its list. -/
theorem withType_nestedOf (henclosing : ∀ o ∈ enclosing, o < p.types.size) (e : TypeId) :
    (p.withType m decl enclosing).nestedOf e =
      p.nestedOf e ++ if enclosing == some e then [p.types.size] else [] := by
  have hpush : ∀ e', ((p.types.push (p.typeAt m decl enclosing))[e']?.map (·.nested)).getD [] = p.nestedOf e' := by
    intro e'
    rw [Array.getElem?_push, nestedOf]
    split
    · rename_i he
      simp [he, typeAt]
    · rfl
  cases enclosing with
  | none => exact (hpush e).trans (List.append_nil _).symm
  | some o =>
    have ho : o < p.types.size := henclosing o rfl
    by_cases he : o = e
    · subst he
      simp [nestedOf, withType, enlist, Array.getElem?_modify, Array.getElem?_push, Nat.ne_of_lt ho, ho]
    · have hnone : (some o == some e) = false := by simpa using he
      rw [hnone, if_neg (by decide), List.append_nil, ← hpush e]
      simp only [nestedOf, withType, enlist, Array.getElem?_modify, if_neg he]

/-- Any other type goes to the end of the list of its module. -/
theorem withType_topTypes (hm : m < p.modules.size) (d : ModuleId) :
    (p.withType m decl enclosing).topTypes d =
      p.topTypes d ++ if m == d && enclosing == none then [p.types.size] else [] := by
  cases enclosing with
  | some o => simp [topTypes, withType, enlist]
  | none =>
    simp only [topTypes, withType, enlist, Array.getElem?_modify]
    by_cases hd : m = d
    · subst hd
      simp [hm]
    · simp [hd]

/-- One more position: what a filter keeps of the earlier ones, and perhaps the new one. -/
theorem filter_range_succ {f g : Nat → Bool} {n : Nat} (h : ∀ i < n, g i = f i) :
    (List.range (n + 1)).filter g = (List.range n).filter f ++ if g n then [n] else [] := by
  rw [List.range_succ, List.filter_append]
  congr 1
  · exact List.filter_congr fun i hi => h i (List.mem_range.mp hi)
  · simp [List.filter_cons]

/-- The new full name was free, so full names stay unique. -/
theorem withType_names (h : WellFormed p) (henclosing : ∀ o ∈ enclosing, o < p.types.size)
    (hnew : p.typeNamed? (p.place decl enclosing).2 = none) {i j : TypeId} {n : String}
    (hi : (p.withType m decl enclosing).fullNameOf? i = some n)
    (hj : (p.withType m decl enclosing).fullNameOf? j = some n) : i = j := by
  have hfresh := typeNamed?_eq_none.mp hnew
  have hlast : (p.withType m decl enclosing).fullNameOf? p.types.size = some (p.place decl enclosing).2 := by
    rw [fullNameOf?, withType_last henclosing]
    rfl
  by_cases hi' : i = p.types.size <;> by_cases hj' : j = p.types.size
  · rw [hi', hj']
  · subst hi'
    rw [hlast] at hi
    rw [fullNameOf?_congr (withType_identityOf? hj'), ← hi] at hj
    exact absurd hj (hfresh j)
  · subst hj'
    rw [hlast] at hj
    rw [fullNameOf?_congr (withType_identityOf? hi'), ← hj] at hi
    exact absurd hi (hfresh i)
  · rw [fullNameOf?_congr (withType_identityOf? hi')] at hi
    rw [fullNameOf?_congr (withType_identityOf? hj')] at hj
    exact h.names i j n hi hj

theorem withType_enclosingOf?_last (henclosing : ∀ o ∈ enclosing, o < p.types.size) :
    (p.withType m decl enclosing).enclosingOf? p.types.size = enclosing := by
  rw [enclosingOf?, withType_last henclosing]
  rfl

theorem withType_moduleOf?_last (henclosing : ∀ o ∈ enclosing, o < p.types.size) :
    (p.withType m decl enclosing).moduleOf? p.types.size = some m := by
  rw [moduleOf?, withType_last henclosing]
  rfl

/-- A new type takes its namespace from the type around it. -/
theorem withType_enclosing (h : WellFormed p) (henclosing : ∀ o ∈ enclosing, o < p.types.size) {t e : TypeId}
    (he : (p.withType m decl enclosing).enclosingOf? t = some e) :
    e < t ∧ (p.withType m decl enclosing).nsOf? e = (p.withType m decl enclosing).nsOf? t := by
  by_cases ht : t = p.types.size
  · subst ht
    rw [withType_enclosingOf?_last henclosing] at he
    have hlt := henclosing e he
    have hns : (p.withType m decl enclosing).nsOf? p.types.size = some (p.place decl enclosing).1 := by
      rw [nsOf?, withType_last henclosing]
      rfl
    refine ⟨hlt, ?_⟩
    rw [hns, nsOf?_congr (withType_identityOf? (Nat.ne_of_lt hlt)), nsOf?, Array.getElem?_eq_getElem hlt]
    simp [place, he, hlt]
  · rw [enclosingOf?_congr (withType_identityOf? ht)] at he
    obtain ⟨hlt, hsame⟩ := h.enclosing t e he
    have het : e < p.types.size := Nat.lt_trans hlt (enclosingOf?_lt he)
    rw [nsOf?_congr (withType_identityOf? ht), nsOf?_congr (withType_identityOf? (Nat.ne_of_lt het))]
    exact ⟨hlt, hsame⟩

theorem withType_wellFormed (h : WellFormed p) (hm : m < p.modules.size)
    (henclosing : ∀ o ∈ enclosing, o < p.types.size) (hnew : p.typeNamed? (p.place decl enclosing).2 = none) :
    WellFormed (p.withType m decl enclosing) := by
  have hold : ∀ i < p.types.size, (p.withType m decl enclosing).identityOf? i = p.identityOf? i :=
    fun i hi => withType_identityOf? (Nat.ne_of_lt hi)
  refine ⟨fun _ _ _ => withType_names h henclosing hnew, fun _ _ => withType_enclosing h henclosing,
    ?_, ?_, ?_, ?_, ?_⟩
  · intro t d hd
    rw [withType_modules]
    by_cases ht : t = p.types.size
    · subst ht
      rw [withType_moduleOf?_last henclosing] at hd
      exact Option.some.inj hd ▸ hm
    · exact h.home t d (by rwa [moduleOf?_congr (withType_identityOf? ht)] at hd)
  · intro x t ht
    rw [ownerOf?, withType_methods] at ht
    rw [withType_size]
    exact Nat.lt_succ_of_lt (h.owner x t ht)
  · intro e
    rw [withType_nestedOf henclosing, withType_size, h.nested e,
      filter_range_succ fun i hi => by rw [enclosingOf?_congr (hold i hi)], withType_enclosingOf?_last henclosing]
  · intro d
    rw [withType_topTypes hm, withType_size, h.top d,
      filter_range_succ fun i hi => by rw [enclosingOf?_congr (hold i hi), moduleOf?_congr (hold i hi)],
      withType_enclosingOf?_last henclosing, withType_moduleOf?_last henclosing]
    rfl
  · intro t
    simp only [withType_methodsOf, withType_methods, ownerOf?]
    exact h.methods t

end NewType

/-! ### A new method -/

theorem addMethod_identityOf? (p : Program) (t : TypeId) (decl : MethodDecl) (i : TypeId) :
    (p.addMethod t decl).2.identityOf? i = p.identityOf? i := by
  rw [identityOf?, addMethod, map_getElem?_modify, identityOf?]
  exact fun _ => rfl

theorem addMethod_wellFormed {p : Program} {t : TypeId} (h : WellFormed p) (ht : t < p.types.size)
    (decl : MethodDecl) : WellFormed (p.addMethod t decl).2 := by
  have hidentity := addMethod_identityOf? p t decl
  have hnested : ∀ i, (p.addMethod t decl).2.nestedOf i = p.nestedOf i := by
    intro i
    rw [nestedOf, addMethod, map_getElem?_modify, nestedOf]
    exact fun _ => rfl
  have hmethods : ∀ i, (p.addMethod t decl).2.methodsOf i =
      p.methodsOf i ++ if some t == some i then [p.methods.size] else [] := by
    intro i
    simp only [methodsOf, addMethod, Array.getElem?_modify]
    by_cases hi : t = i
    · subst hi
      simp [ht]
    · simp [hi]
  have howner : ∀ x, (p.addMethod t decl).2.ownerOf? x =
      if x = p.methods.size then some t else p.ownerOf? x := by
    intro x
    simp only [ownerOf?, addMethod, Array.getElem?_push]
    split <;> rfl
  have hsize : (p.addMethod t decl).2.types.size = p.types.size := by simp [addMethod]
  have hcount : (p.addMethod t decl).2.methods.size = p.methods.size + 1 := by simp [addMethod]
  refine ⟨?_, ?_, ?_, ?_, ?_, ?_, ?_⟩
  · intro i j n
    rw [fullNameOf?_congr (hidentity i), fullNameOf?_congr (hidentity j)]
    exact h.names i j n
  · intro i e
    rw [enclosingOf?_congr (hidentity i), nsOf?_congr (hidentity i), nsOf?_congr (hidentity e)]
    exact h.enclosing i e
  · intro i d
    rw [moduleOf?_congr (hidentity i)]
    exact h.home i d
  · intro x i hx
    rw [hsize]
    rw [howner] at hx
    split at hx
    · exact Option.some.inj hx ▸ ht
    · exact h.owner x i hx
  · intro e
    rw [hnested, hsize, h.nested e]
    exact List.filter_congr fun i _ => by rw [enclosingOf?_congr (hidentity i)]
  · intro d
    rw [hsize]
    refine (h.top d).trans (List.filter_congr fun i _ => ?_)
    rw [enclosingOf?_congr (hidentity i), moduleOf?_congr (hidentity i)]
  · intro i
    rw [hmethods, hcount, h.methods i, filter_range_succ (f := (p.ownerOf? · == some i)) fun x hx => by
      rw [howner, if_neg (Nat.ne_of_lt hx)], howner, if_pos rfl]

/-! ### Any edit -/

theorem edit_addType (p : Program) (m : ModuleId) (decl : TypeDecl) (enclosing : Option TypeId) :
    p.edit (.addType m decl enclosing) =
      if (p.typeNamed? (p.place decl enclosing).2).isSome then p else p.withType m decl enclosing := by
  cases hname : p.typeNamed? (p.place decl enclosing).2 <;> simp [edit, addType?_eq, hname]

/-- An allowed edit keeps the outline well-formed. -/
theorem edit_wellFormed {p : Program} (h : WellFormed p) : ∀ {e : Edit}, e.Allowed p → WellFormed (p.edit e)
  | .addModule name, _ => h.of_sameOutline (addModule_sameOutline p name)
  | .addType m decl enclosing, ⟨hm, henclosing⟩ => by
      rw [edit_addType]
      split
      · exact h
      · rename_i hnew
        exact withType_wellFormed h hm henclosing (by simpa using hnew)
  | .addMethod _ decl, ht => addMethod_wellFormed h ht decl
  | .setEntry m r, _ => h.of_sameOutline (setEntry_sameOutline p m r)
  | .finalize, _ => h.of_sameOutline (finalize_sameOutline p)

end Program

end CallGraphs
