import CallGraphs.Proofs.Kinds
import CallGraphs.Proofs.Members

/-! Members that are passed over because their value is not of the kind that the format gives them. A description
    without them is read with the same result (`ofDocument_tidy`): object by object, every function that looks a
    member up finds the same. And it has no more such members (`tidied_contributing`). -/

namespace CallGraphs

open Json (Object overItems overMembers)

namespace Description

/-! ### Objects without such members -/

/-- The value under the key is not of the kind that the format gives it, and that is not checked. -/
def swallowed (role : Role) (o : Object) (key : String) : Bool :=
  (rules o role).any fun r => !r.checked && r.key == key && (Object.get? o key).any fun w => !r.kind.fits w

/-- The object without the members whose values are not of their kind, as far as that is not checked. -/
def fit (role : Role) (o : Object) : Object := Object.only o fun key => !swallowed role o key

/-- A reference without such members. -/
def tidyReference : Object → Object := fit .reference

/-- An instruction without such members in its operand. -/
def tidyInstruction (o : Object) : Object := Object.change o "Method" (overMembers tidyReference)

/-- A method without such members. -/
def tidyMethod (o : Object) : Object :=
  Object.change (Object.change (fit .method o) "Overrides" (overItems (List.map (overMembers tidyReference))))
    "Body" (overItems (List.map (overMembers tidyInstruction)))

/-- A type without such members, and with other items in the list of the types nested in it. -/
def tidyWith (nested : List Json) (o : Object) : Object :=
  Object.change (Object.change (fit .type o) "Methods" (overItems (List.map (overMembers tidyMethod))))
    "NestedTypes" (overItems fun _ => nested)

mutual

/-- A type without such members. -/
def tidyType : Json → Json
  | .obj o => .obj (tidyWith (tidyTypes (Object.items o "NestedTypes")) o)
  | v => v
termination_by v => sizeOf v
decreasing_by
  have := Object.sizeOf_items o "NestedTypes"
  simp only [Json.obj.sizeOf_spec]
  omega

/-- Types without such members. -/
def tidyTypes : List Json → List Json
  | [] => []
  | v :: vs => tidyType v :: tidyTypes vs
termination_by vs => sizeOf vs

end

/-- A module without such members. -/
def tidyModule (o : Object) : Object :=
  Object.change (Object.change (fit .module o) "EntryPoint" (overMembers tidyReference)) "Types" (overItems tidyTypes)

/-- A description without such members. -/
def tidy : Json → Json := overMembers fun o => Object.change o "Modules" (overItems (List.map (overMembers tidyModule)))

/-! ### What is seen of an object -/

section Views

variable {role : Role} {o : Object} {key : String}

/-- A member is there as before, or it is left out because its value is of another kind. -/
theorem get?_fit_cases (role : Role) (o : Object) (key : String) :
    (Object.get? (fit role o) key = Object.get? o key ∧ swallowed role o key = false) ∨
      Object.get? (fit role o) key = none ∧ ∃ r ∈ rules o role, r.key = key ∧ r.checked = false ∧
        ∃ w, Object.get? o key = some w ∧ r.kind.fits w = false := by
  rw [fit, Object.get?_only]
  cases hswallowed : swallowed role o key with
  | false => exact .inl ⟨rfl, rfl⟩
  | true =>
    obtain ⟨r, hr, hout⟩ := List.any_eq_true.mp hswallowed
    cases hw : Object.get? o key with
    | none => simp [hw] at hout
    | some w =>
      obtain ⟨⟨hchecked, hkey⟩, hkind⟩ : (r.checked = false ∧ r.key = key) ∧ r.kind.fits w = false := by
        simpa [hw] using hout
      exact .inr ⟨rfl, r, hr, hkey, hchecked, w, rfl, hkind⟩

theorem get?_fit (h : ∀ r ∈ rules o role, r.key = key → r.checked = true) :
    Object.get? (fit role o) key = Object.get? o key := by
  rcases get?_fit_cases role o key with ⟨hsame, -⟩ | ⟨-, r, hr, hkey, hchecked, -⟩
  · exact hsame
  · simp [h r hr hkey] at hchecked

theorem text?_fit (h : ∀ r ∈ rules o role, r.key = key → r.kind = .text) :
    Object.text? (fit role o) key = Object.text? o key := by
  rcases get?_fit_cases role o key with ⟨hsame, -⟩ | ⟨hnone, r, hr, hkey, -, w, hw, hkind⟩
  · exact Object.text?_congr hsame
  · rw [h r hr hkey] at hkind
    rw [Object.text?, hnone, Object.text?, hw]
    cases w <;> simp_all [Kind.fits]

theorem object?_fit (h : ∀ r ∈ rules o role, r.key = key → r.kind = .object) :
    Object.object? (fit role o) key = Object.object? o key := by
  rcases get?_fit_cases role o key with ⟨hsame, -⟩ | ⟨hnone, r, hr, hkey, -, w, hw, hkind⟩
  · exact Object.object?_congr hsame
  · rw [h r hr hkey] at hkind
    rw [Object.object?, hnone, Object.object?, hw]
    cases w <;> simp_all [Kind.fits]

theorem array?_fit (h : ∀ r ∈ rules o role, r.key = key → r.kind = .array) :
    Object.array? (fit role o) key = Object.array? o key := by
  rcases get?_fit_cases role o key with ⟨hsame, -⟩ | ⟨hnone, r, hr, hkey, -, w, hw, hkind⟩
  · exact Object.array?_congr hsame
  · rw [h r hr hkey] at hkind
    rw [Object.array?, hnone, Object.array?, hw]
    cases w <;> simp_all [Kind.fits]

end Views

/-! ### Reading is the same -/

theorem decode_tidyReference (o : Object) (place : Place) :
    MethodRef.decode (tidyReference o) place = MethodRef.decode o place := by
  refine MethodRef.decode_congr ?_ (get?_fit (by simp [rules])) place
  simp only [List.forall_mem_cons]
  exact ⟨text?_fit (by simp [rules]), text?_fit (by simp [rules]), text?_fit (by simp [rules]), by simp⟩

theorem decode_tidyInstruction (o : Object) (owner name : String) :
    Instruction.decode (tidyInstruction o) owner name = Instruction.decode o owner name := by
  have hget : ∀ key, key ≠ "Method" → Object.get? (tidyInstruction o) key = Object.get? o key :=
    fun key hne => Object.get?_change_of_ne hne _ o
  refine Instruction.decode_congr ?_ ?_ owner name
  · intro key hkey
    refine Object.text?_congr (hget key ?_)
    rintro rfl
    simp at hkey
  · intro place
    rw [tidyInstruction, Object.object?_change, Option.map_map]
    simp only [Function.comp_def, decode_tidyReference]

theorem mapM_map_congr {ε α β : Type} {f : α → Except ε β} {g : α → α} (h : ∀ a, f (g a) = f a) (l : List α) :
    (l.map g).mapM f = l.mapM f := by
  simp [List.mapM_map, Function.comp_def, h]

/-- The items of a list without such members in them. -/
theorem items_change_map {role : Role} {key : String} (h : ∀ o, ∀ r ∈ rules o role, r.key = key → r.kind = .array)
    (f : Json → Json) (o : Object) :
    Object.items (Object.change (fit role o) key (overItems (List.map f))) key = (Object.items o key).map f := by
  rw [Object.items_change key List.map_nil, Object.items, array?_fit (h o), Object.items]

theorem items_congr {o o' : Object} {key : String} (h : Object.get? o' key = Object.get? o key) :
    Object.items o' key = Object.items o key :=
  congrArg (Option.getD · []) (Object.array?_congr h)

theorem items_tidyMethod_overrides (o : Object) :
    Object.items (tidyMethod o) "Overrides" = (Object.items o "Overrides").map (overMembers tidyReference) := by
  rw [tidyMethod, items_congr (Object.get?_change_of_ne (by decide) _ _), items_change_map (by simp [rules])]

theorem get?_tidyMethod_body (o : Object) : Object.get? (tidyMethod o) "Body" =
    (Object.get? o "Body").map (overItems (List.map (overMembers tidyInstruction))) := by
  rw [tidyMethod, Object.get?_change, Object.get?_change_of_ne (by decide), get?_fit (by simp [rules])]

theorem decodeOverrides_tidyMethod (o : Object) (owner name : String) :
    decodeOverrides (tidyMethod o) owner name = decodeOverrides o owner name := by
  rw [decodeOverrides, items_tidyMethod_overrides, decodeOverrides]
  refine mapM_map_congr (fun x => ?_) _
  cases x with
  | obj r => exact decode_tidyReference r _
  | _ => rfl

theorem decodeBody_tidyMethod (o : Object) (owner name : String) :
    decodeBody (tidyMethod o) owner name = decodeBody o owner name := by
  rw [decodeBody, get?_tidyMethod_body, decodeBody]
  cases Object.get? o "Body" with
  | none => rfl
  | some w =>
    cases w with
    | arr items =>
      simp only [Option.map_some, overItems]
      rw [mapM_map_congr]
      intro x
      cases x with
      | obj r => exact decode_tidyInstruction r owner name
      | _ => rfl
    | _ => rfl

theorem decode_tidyMethod (o : Object) (owner : String) :
    MethodDecl.decode (tidyMethod o) owner = MethodDecl.decode o owner := by
  have hget : ∀ key, key ≠ "Overrides" → key ≠ "Body" →
      Object.get? (tidyMethod o) key = Object.get? (fit .method o) key := by
    intro key hoverrides hbody
    rw [tidyMethod, Object.get?_change_of_ne hbody, Object.get?_change_of_ne hoverrides]
  refine MethodDecl.decode_congr ?_ ?_ ?_ (decodeOverrides_tidyMethod o) (decodeBody_tidyMethod o) owner
  · simp only [List.forall_mem_cons]
    refine ⟨?_, ?_, ?_, by simp⟩
    all_goals
      exact (Object.text?_congr (hget _ (by decide) (by decide))).trans (text?_fit (by simp [rules]))
  · simp only [List.forall_mem_cons]
    refine ⟨?_, ?_, ?_, ?_, ?_, ?_, ?_, by simp⟩
    all_goals
      exact (hget _ (by decide) (by decide)).trans (get?_fit (by simp [rules]))
  · exact (Object.object?_congr (hget _ (by decide) (by decide))).trans (object?_fit (by simp [rules]))

theorem readMethod_tidy (t : TypeId) (name : String) (d : Draft) (x : Json) :
    Draft.readMethod t name d (overMembers tidyMethod x) = Draft.readMethod t name d x := by
  cases x with
  | obj o => simp only [overMembers, Draft.readMethod, decode_tidyMethod]
  | _ => rfl

theorem foldlM_map_congr {ε α β : Type} {f : β → α → Except ε β} {g : α → α} (h : ∀ b a, f b (g a) = f b a) (l : List α)
    (b : β) : (l.map g).foldlM f b = l.foldlM f b := by
  simp [List.foldlM_map, h]

theorem items_tidyWith_methods (nested : List Json) (o : Object) :
    Object.items (tidyWith nested o) "Methods" = (Object.items o "Methods").map (overMembers tidyMethod) := by
  rw [tidyWith, items_congr (Object.get?_change_of_ne (by decide) _ _), items_change_map (by simp [rules])]

theorem items_tidyWith_nested (o : Object) :
    Object.items (tidyWith (tidyTypes (Object.items o "NestedTypes")) o) "NestedTypes" =
      tidyTypes (Object.items o "NestedTypes") := by
  rw [tidyWith, Object.items, Object.array?_change, Object.array?_congr (Object.get?_change_of_ne (by decide) _ _),
    array?_fit (by simp [rules]), Object.items]
  cases Object.array? o "NestedTypes" with
  | none => rw [Option.map_none, Option.getD_none, tidyTypes]
  | some vs => rfl

theorem decode_tidyWith (nested : List Json) (o : Object) :
    TypeDecl.decode (tidyWith nested o) = TypeDecl.decode o := by
  have hget : ∀ key, key ≠ "Methods" → key ≠ "NestedTypes" →
      Object.get? (tidyWith nested o) key = Object.get? (fit .type o) key := by
    intro key hmethods hnested
    rw [tidyWith, Object.get?_change_of_ne hnested, Object.get?_change_of_ne hmethods]
  refine TypeDecl.decode_congr ?_ ?_
  · simp only [List.forall_mem_cons]
    refine ⟨?_, ?_, ?_, by simp⟩
    all_goals
      exact (Object.text?_congr (hget _ (by decide) (by decide))).trans (text?_fit (by simp [rules]))
  · simp only [List.forall_mem_cons]
    refine ⟨?_, ?_, ?_, ?_, by simp⟩
    all_goals
      exact (hget _ (by decide) (by decide)).trans (get?_fit (by simp [rules]))

theorem readType_tidy {v : Json} (hnested : ∀ m enclosing bad d, Draft.readTypes m enclosing bad d
      (tidyTypes (Object.items v.members "NestedTypes")) =
        Draft.readTypes m enclosing bad d (Object.items v.members "NestedTypes"))
    (m : ModuleId) (enclosing : Option TypeId) (bad : SchemaError) (d : Draft) :
    Draft.readType m enclosing bad d (tidyType v) = Draft.readType m enclosing bad d v := by
  cases v with
  | obj o =>
    simp only [Json.members] at hnested
    rw [tidyType, Draft.readType, Draft.readType, decode_tidyWith, items_tidyWith_methods, items_tidyWith_nested]
    simp only [foldlM_map_congr (readMethod_tidy _ _), hnested]
  | _ => simp [tidyType]

theorem readTypes_tidy (vs : List Json) : ∀ m enclosing bad d,
    Draft.readTypes m enclosing bad d (tidyTypes vs) = Draft.readTypes m enclosing bad d vs := by
  induction vs using nestedInduction with
  | nil =>
    intro m enclosing bad d
    rw [tidyTypes]
  | cons v vs ihNested ihRest =>
    intro m enclosing bad d
    rw [tidyTypes, Draft.readTypes, Draft.readTypes, readType_tidy ihNested]
    simp only [ihRest]

theorem items_tidyModule (o : Object) : Object.items (tidyModule o) "Types" = tidyTypes (Object.items o "Types") := by
  rw [tidyModule, Object.items_change _ (by rw [tidyTypes]), Object.items,
    Object.array?_congr (Object.get?_change_of_ne (by decide) _ _), array?_fit (by simp [rules]), Object.items]

theorem object?_tidyModule (o : Object) :
    Object.object? (tidyModule o) "EntryPoint" = (Object.object? o "EntryPoint").map tidyReference := by
  rw [tidyModule, Object.object?_congr (Object.get?_change_of_ne (by decide) _ _), Object.object?_change,
    object?_fit (by simp [rules])]

theorem readEntry_tidy (m : ModuleId) (name : String) (o : Object) (d : Draft) :
    Draft.readEntry m name (tidyModule o) d = Draft.readEntry m name o d := by
  rw [Draft.readEntry, object?_tidyModule, Draft.readEntry]
  cases Object.object? o "EntryPoint" with
  | none => rfl
  | some r => simp only [Option.map_some, decode_tidyReference]

theorem readModule_tidy (d : Draft) (x : Json) :
    Draft.readModule d (overMembers tidyModule x) = Draft.readModule d x := by
  cases x with
  | obj o =>
    have hname : Object.name? (tidyModule o) "Name" = Object.name? o "Name" := by
      rw [Object.name?, tidyModule, Object.text?_congr (Object.get?_change_of_ne (by decide) _ _),
        Object.text?_congr (Object.get?_change_of_ne (by decide) _ _), text?_fit (by simp [rules]), Object.name?]
    simp only [overMembers, Draft.readModule, hname, readEntry_tidy, items_tidyModule, readTypes_tidy]
  | _ => rfl

/-- A description is read in the same way without the members that are passed over for their kind. -/
theorem readDocument_tidy (d : Draft) (v : Json) : Draft.readDocument d (tidy v) = Draft.readDocument d v := by
  cases v with
  | obj o =>
    have hmodules :
        Object.array? (Object.change o "Modules" (overItems (List.map (overMembers tidyModule)))) "Modules" =
        (Object.array? o "Modules").map (List.map (overMembers tidyModule)) := Object.array?_change ..
    rw [tidy, overMembers, Draft.readDocument, hmodules, Draft.readDocument]
    cases Object.array? o "Modules" with
    | none => rfl
    | some entries => exact foldlM_map_congr readModule_tidy entries d
  | _ => rfl

/-! ### Nothing of another kind is left -/

/-- The object obeys the format as far as that is not checked. -/
def Tidied (x : Role × Object) : Prop := ∀ r ∈ rules x.2 x.1, r.checked = false → Obeys x.2 r

theorem instruction_checked (o : Object) : ∀ r ∈ rules o .instruction, r.checked = true := by
  simp only [rules]
  split <;> simp

theorem kind_ne_strings (role : Role) (o : Object) : ∀ r ∈ rules o role, r.checked = false → r.kind ≠ .strings := by
  cases role with
  | instruction =>
    intro r hr hchecked
    simp [instruction_checked o r hr] at hchecked
  | _ => simp [rules]

/-- Which members are not checked depends on the role alone. -/
theorem mem_rules_of_not_checked {role : Role} {o o' : Object} {r : Rule} (hr : r ∈ rules o role)
    (hchecked : r.checked = false) : r ∈ rules o' role := by
  cases role with
  | instruction => simp [instruction_checked o r hr] at hchecked
  | _ => exact hr

theorem tidied_fit (role : Role) (o : Object) : Tidied (role, fit role o) := by
  intro r hr hchecked w hw
  rcases get?_fit_cases role o r.key with ⟨hsame, hkeep⟩ | ⟨hnone, -⟩
  · by_contra hkind
    refine Bool.eq_false_iff.mp hkeep (List.any_eq_true.mpr ⟨r, mem_rules_of_not_checked hr hchecked, ?_⟩)
    simpa [hchecked, ← hsame, hw] using hkind
  · simp [hnone] at hw

/-- Changes inside of arrays and objects leave the kinds of the members, lists of strings apart. -/
theorem Tidied.change {role : Role} {o : Object} (h : Tidied (role, o)) (key : String) {f : Json → Json}
    (hf : ∀ kind w, kind ≠ Kind.strings → kind.fits (f w) = kind.fits w) : Tidied (role, Object.change o key f) := by
  intro r hr hchecked w hw
  have hobeys := h r (mem_rules_of_not_checked hr hchecked) hchecked
  by_cases hkey : r.key = key
  · simp only [hkey, Object.get?_change] at hw
    obtain ⟨w', hw', rfl⟩ := Option.map_eq_some_iff.mp hw
    rw [hf _ _ (kind_ne_strings role _ r hr hchecked)]
    exact hobeys w' (hkey ▸ hw')
  · simp only [Object.get?_change_of_ne hkey] at hw
    exact hobeys w hw

theorem fits_overItems (f : List Json → List Json) (kind : Kind) (w : Json) (h : kind ≠ .strings) :
    kind.fits (overItems f w) = kind.fits w := by
  cases w with
  | arr items => cases kind <;> simp_all [overItems, Kind.fits]
  | _ => rfl

theorem fits_overMembers (f : Object → Object) (kind : Kind) (w : Json) :
    kind.fits (overMembers f w) = kind.fits w := by
  cases w with
  | obj o => cases kind <;> rfl
  | _ => rfl

theorem tidied_reference (o : Object) : Tidied (.reference, tidyReference o) := tidied_fit .reference o

theorem tidied_method (o : Object) : Tidied (.method, tidyMethod o) :=
  ((tidied_fit .method o).change _ (fits_overItems _)).change _ (fits_overItems _)

theorem tidied_type (nested : List Json) (o : Object) : Tidied (.type, tidyWith nested o) :=
  ((tidied_fit .type o).change _ (fits_overItems _)).change _ (fits_overItems _)

theorem tidied_module (o : Object) : Tidied (.module, tidyModule o) :=
  ((tidied_fit .module o).change _ fun kind w _ => fits_overMembers _ kind w).change _ (fits_overItems _)

theorem tidied_overMembers {role : Role} {f : Object → Object} (h : ∀ o, Tidied (role, f o)) (x : Json) :
    Tidied (role, (overMembers f x).members) := by
  cases x with
  | obj o => exact h o
  | _ =>
    intro r _ _ w hw
    simp [overMembers, Json.members, Object.get?] at hw

theorem tidied_instructionObjects (x : Json) : ∀ y ∈ instructionObjects (overMembers tidyInstruction x), Tidied y := by
  intro y hy
  rcases List.mem_cons.mp hy with rfl | hy
  · intro r hr hchecked
    simp [instruction_checked _ r hr] at hchecked
  · split at hy
    · obtain ⟨r, hr, rfl⟩ := List.mem_map.mp hy
      cases x with
      | obj o =>
        rw [overMembers, Json.members, tidyInstruction, Object.object?_change, Option.mem_toList,
          Option.map_eq_some_iff] at hr
        obtain ⟨r', -, rfl⟩ := hr
        exact tidied_reference r'
      | _ => simp [overMembers, Json.members, Object.object?, Object.get?] at hr
    · simp at hy

theorem items_overMembers {f : Object → Object} {key : String} {g : List Json → List Json} (hg : g [] = [])
    (h : ∀ o, Object.items (f o) key = g (Object.items o key)) (x : Json) :
    Object.items (overMembers f x).members key = g (Object.items x.members key) := by
  cases x with
  | obj o => exact h o
  | _ => simpa [overMembers, Json.members, Object.items, Object.array?, Object.get?] using hg.symm

theorem items_tidyMethod_body (o : Object) :
    Object.items (tidyMethod o) "Body" = (Object.items o "Body").map (overMembers tidyInstruction) := by
  rw [Object.items, Object.array?, get?_tidyMethod_body, Object.items, Object.array?]
  cases Object.get? o "Body" with
  | none => rfl
  | some w => cases w <;> rfl

theorem tidied_methodObjects (x : Json) : ∀ y ∈ methodObjects (overMembers tidyMethod x), Tidied y := by
  intro y hy
  rw [methodObjects, items_overMembers List.map_nil items_tidyMethod_overrides,
    items_overMembers List.map_nil items_tidyMethod_body] at hy
  simp only [List.cons_append, List.mem_cons, List.mem_append, List.mem_map, List.mem_flatMap] at hy
  rcases hy with rfl | (⟨z, ⟨z', -, rfl⟩, rfl⟩ | ⟨m, -, rfl⟩) | ⟨z, ⟨z', -, rfl⟩, hy⟩
  · exact tidied_overMembers tidied_method x
  · exact tidied_overMembers tidied_reference z'
  · simp [Tidied, rules]
  · exact tidied_instructionObjects z' y hy

theorem tidied_typeObjects (x : Json) : ∀ y ∈ typeObjects (tidyType x), Tidied y := by
  intro y hy
  cases x with
  | obj o =>
    rw [tidyType, typeObjects, Json.members, items_tidyWith_methods, List.mem_cons, List.mem_flatMap] at hy
    rcases hy with rfl | ⟨z, hz, hy⟩
    · exact tidied_type _ o
    · obtain ⟨z', -, rfl⟩ := List.mem_map.mp hz
      exact tidied_methodObjects z' y hy
  | _ =>
    simp only [tidyType, typeObjects, Json.members, Object.items, Object.array?, Object.get?, List.lookup_nil,
      Option.getD_none, List.flatMap_nil, List.mem_singleton] at hy
    subst hy
    intro r _ _ w hw
    simp [Object.get?] at hw

theorem tidied_moduleObjects (x : Json) : ∀ y ∈ moduleObjects (overMembers tidyModule x), Tidied y := by
  intro y hy
  rcases List.mem_cons.mp hy with rfl | hy
  · exact tidied_overMembers tidied_module x
  · obtain ⟨r, hr, rfl⟩ := List.mem_map.mp hy
    cases x with
    | obj o =>
      rw [overMembers, Json.members, object?_tidyModule, Option.mem_toList, Option.map_eq_some_iff] at hr
      obtain ⟨r', -, rfl⟩ := hr
      exact tidied_reference r'
    | _ => simp [overMembers, Json.members, Object.object?, Object.get?] at hr

theorem value_of_mem_entriesFrom (vs : List Json) : ∀ {s : Scope} {i : Nat} {e : TypeEntry},
    e ∈ entriesFrom s i (tidyTypes vs) → ∃ w, e.value = tidyType w := by
  induction vs using nestedInduction with
  | nil => simp [tidyTypes, entriesFrom]
  | cons v vs ihNested ihRest =>
    intro s i e he
    rw [tidyTypes] at he
    rcases mem_entriesFrom_cons.mp he with rfl | he | he
    · exact ⟨v, rfl⟩
    · cases v with
      | obj o =>
        rw [tidyType, Json.members, items_tidyWith_nested] at he
        exact ihNested he
      | _ => simp [tidyType, Json.members, Object.items, Object.array?, Object.get?, entriesFrom] at he
    · exact ihRest he

theorem value_of_mem_moduleEntries {e : TypeEntry} : ∀ {xs : List Json} {m : ModuleId},
    e ∈ moduleEntries m (xs.map (overMembers tidyModule)) → ∃ w, e.value = tidyType w
  | [], _, he => by simp [moduleEntries] at he
  | x :: xs, m, he => by
      rw [List.map_cons, moduleEntries, items_overMembers (by rw [tidyTypes]) items_tidyModule] at he
      rcases List.mem_append.mp he with he | he
      · exact value_of_mem_entriesFrom _ he
      · exact value_of_mem_moduleEntries he

/-- Without the members that are passed over for their kind, a description obeys the format as far as that is not
    checked. -/
theorem tidied_contributing (v : Json) : ∀ x ∈ contributing (tidy v), Tidied x := by
  have hmodules : modules (tidy v) = (modules v).map (overMembers tidyModule) := by
    rw [modules, tidy, items_overMembers List.map_nil fun o => Object.items_change "Modules" List.map_nil o, modules]
  intro x hx
  rcases List.mem_append.mp hx with hx | hx
  · obtain ⟨y, hy, hx⟩ := List.mem_flatMap.mp hx
    rw [hmodules] at hy
    obtain ⟨y', -, rfl⟩ := List.mem_map.mp hy
    exact tidied_moduleObjects y' x hx
  · obtain ⟨e, he, hx⟩ := List.mem_flatMap.mp hx
    have hentry := (keptTypes_sublist _).subset he
    rw [typeEntries, hmodules] at hentry
    obtain ⟨w, hw⟩ := value_of_mem_moduleEntries hentry
    rw [hw] at hx
    exact tidied_typeObjects w x hx

/-! ### Kinds in a description that is read -/

theorem ofDocument_tidy (source : String) (v : Json) :
    Program.ofDocument source (tidy v) = Program.ofDocument source v := by
  rw [Program.ofDocument, Draft.readValue, readDocument_tidy, Program.ofDocument, Draft.readValue]

/-- In a description that is read, all checked members of the objects that the program is made from have values of
    their kinds. The other members whose values are of other kinds might as well be missing: without them the
    description obeys the whole format, and it is read with the same result. -/
theorem ofText_kinds {parse : Json.Parser} {text : String} {v : Json} (hv : parse text = some v) (source : String) :
    Program.ofDocument source (tidy v) = Program.ofText parse source text ∧
      ∀ d, Program.ofText parse source text = .ok d →
        (∀ x ∈ contributing v, ∀ r ∈ rules x.2 x.1, r.checked = true → Obeys x.2 r) ∧
          ∀ x ∈ contributing (tidy v), ∀ r ∈ rules x.2 x.1, Obeys x.2 r := by
  have htext : Program.ofText parse source text = Program.ofDocument source v := by
    rw [Program.ofText, Draft.readText, hv, Program.ofDocument]
  rw [htext, ofDocument_tidy]
  refine ⟨rfl, fun d hd => ⟨(describes_of_ofDocument hd).checked, ?_⟩⟩
  intro x hx r hr
  cases hchecked : r.checked with
  | true => exact (describes_of_ofDocument ((ofDocument_tidy source v).trans hd)).checked x hx r hr hchecked
  | false => exact tidied_contributing v x hx r hr hchecked

/-- A module with an object in place of the list of its types. -/
def misplacedText : String :=
  "\x7b\"Modules\":[" ++ "\x7b\"Name\":\"A.dll\"," ++ "\"Types\":\x7b\"Name\":\"T\"\x7d\x7d]\x7d"

/-- Its value. -/
def misplaced : Json :=
  .obj [("Modules", .arr [.obj [("Name", .str "A.dll"), ("Types", .obj [("Name", .str "T")])]])]

theorem ofText?_misplacedText : Json.ofText? misplacedText = some misplaced := by
  unfold misplacedText
  rw [ofText?_eq, String.toList_append, String.toList_append]
  simp only [String.reduceToList]
  rfl

theorem exists_ofText_misplacedText :
    ∃ d, Program.ofText Json.ofText? "<string>" misplacedText = .ok d ∧ d.program.types.size = 0 := by
  have hread : (Program.ofDocument "<string>" misplaced).toOption.any (fun d => d.program.types.size == 0) = true := by
    decide +kernel
  obtain ⟨d, hd, hlost⟩ := exists_ofText ofText?_misplacedText hread
  exact ⟨d, hd, beq_iff_eq.mp hlost⟩

theorem ofText_kinds_misplaced : ∃ d, Program.ofText Json.ofText? "<string>" misplacedText = .ok d ∧
    Program.ofDocument "<string>" (tidy misplaced) = .ok d ∧
    modules (tidy misplaced) = [.obj [("Name", .str "A.dll")]] ∧
    ∀ x ∈ contributing (tidy misplaced), ∀ r ∈ rules x.2 x.1, Obeys x.2 r := by
  obtain ⟨d, hd, -⟩ := exists_ofText_misplacedText
  obtain ⟨hsame, hkinds⟩ := ofText_kinds ofText?_misplacedText "<string>"
  exact ⟨d, hd, hsame.trans hd, rfl, (hkinds d hd).2⟩

/-- The description is read although the value under a key is not of its kind, and the type in it is lost. -/
theorem not_obeys_misplaced :
    ∃ d, Program.ofText Json.ofText? "<string>" misplacedText = .ok d ∧ d.program.types.size = 0 ∧
    ∃ x ∈ contributing misplaced, ∃ r ∈ rules x.2 x.1, ¬ Obeys x.2 r := by
  obtain ⟨d, hd, hlost⟩ := exists_ofText_misplacedText
  refine ⟨d, hd, hlost, (.module, [("Name", .str "A.dll"), ("Types", .obj [("Name", .str "T")])]), ?_,
    ⟨"Types", .array, false⟩, by simp [rules], ?_⟩
  · exact List.mem_append_left _ (List.mem_flatMap.mpr ⟨_, List.mem_cons_self, List.mem_cons_self⟩)
  · intro h
    have hkind := h (.obj [("Name", .str "T")]) rfl
    simp [Kind.fits] at hkind

end Description

end CallGraphs
