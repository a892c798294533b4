import Mathlib.Data.List.Lex
import Mathlib.Data.List.Nodup
import CallGraphs.Description.Draft

/-! The types of a description in the order of its text. An item of a list of types has an address: the numbers of
    the module, of the type in the module, and of the nested types on the way down. A walk through the text meets a
    type before those nested in it and the items of a list one after the other, so it meets the addresses in
    ascending order (`typeEntries_sorted`), and none twice. An item counts if the types around it count and no earlier
    one that counts has its full name. -/

namespace CallGraphs

open Json (Object)

/-- The members of an object; none for a value of another kind. -/
def Json.members : Json → Object
  | .obj o => o
  | _ => []

namespace Description

/-! ### Items in their places -/

/-- The numbers of the items on the way down to an item. -/
abbrev Address := List Nat

/-- An item of a list of types, in its place. -/
structure TypeEntry where
  moduleId : ModuleId
  address : Address
  around : List Address
  ns : String
  fullName : String
  value : Json

/-- Where a list of types stands: in a module, or inside the types at the addresses `around`, outermost first. The
    innermost of these has the namespace and full name `outer`. -/
structure Scope where
  moduleId : ModuleId
  address : Address
  around : List Address
  outer : Option (String × String)

/-- The types of a module. -/
def Scope.ofModule (m : ModuleId) : Scope := { moduleId := m, address := [m], around := [], outer := none }

/-- The types nested in a type. -/
def TypeEntry.scope (e : TypeEntry) : Scope :=
  { moduleId := e.moduleId, address := e.address, around := e.around ++ [e.address], outer := some (e.ns, e.fullName) }

/-- The namespace and full name of an item: they come from the type around it, or else from its own members. -/
def Scope.names (s : Scope) (value : Json) : String × String :=
  let name := (Object.name? value.members "Name").getD ""
  match s.outer with
  | some (ns, fullName) => (ns, fullName ++ "/" ++ name)
  | none =>
    let ns := (Object.text? value.members "Namespace").getD ""
    (ns, if ns = "" then name else ns ++ "." ++ name)

/-- The item with number `i` of a list of types. -/
def Scope.entry (s : Scope) (i : Nat) (value : Json) : TypeEntry :=
  { moduleId := s.moduleId, address := s.address ++ [i], around := s.around, ns := (s.names value).1,
    fullName := (s.names value).2, value }

/-! ### The walk through the text -/

mutual

/-- An item and the items nested in it. -/
def entriesAt (s : Scope) (i : Nat) : Json → List TypeEntry
  | .obj o => s.entry i (.obj o) :: entriesFrom (s.entry i (.obj o)).scope 0 (Object.items o "NestedTypes")
  | v => [s.entry i v]
termination_by v => sizeOf v
decreasing_by
  have := Object.sizeOf_items o "NestedTypes"
  simp only [Json.obj.sizeOf_spec]
  omega

/-- The items of a list, the first one with number `i`, each before the items nested in it. -/
def entriesFrom (s : Scope) (i : Nat) : List Json → List TypeEntry
  | [] => []
  | v :: vs => entriesAt s i v ++ entriesFrom s (i + 1) vs
termination_by vs => sizeOf vs

end

/-- The entries of the list of modules. -/
def modules (v : Json) : List Json := Object.items v.members "Modules"

/-- The types of some modules, the first one with number `m`. -/
def moduleEntries (m : ModuleId) : List Json → List TypeEntry
  | [] => []
  | x :: xs => entriesFrom (.ofModule m) 0 (Object.items x.members "Types") ++ moduleEntries (m + 1) xs

/-- The types of a description in the order of its text. -/
def typeEntries (v : Json) : List TypeEntry := moduleEntries 0 (modules v)

/-! ### First definitions -/

/-- An item counts next to those that count so far: the types around it do, and its full name is free. -/
def Counts (kept : List TypeEntry) (e : TypeEntry) : Prop :=
  (∀ a ∈ e.around, a ∈ kept.map (·.address)) ∧ e.fullName ∉ kept.map (·.fullName)

instance (kept : List TypeEntry) (e : TypeEntry) : Decidable (Counts kept e) := inferInstanceAs (Decidable (_ ∧ _))

/-- Add an item if it counts. -/
def keep (kept : List TypeEntry) (e : TypeEntry) : List TypeEntry := if Counts kept e then kept ++ [e] else kept

/-- The types that count, in the order of the text. -/
def keptTypes (v : Json) : List TypeEntry := (typeEntries v).foldl keep []

/-! ### Induction along the nesting -/

theorem sizeOf_nested (v : Json) : sizeOf (Object.items v.members "NestedTypes") ≤ sizeOf v := by
  cases v with
  | obj o =>
    have := Object.sizeOf_items o "NestedTypes"
    simp [Json.members]
    omega
  | _ => simp [Json.members, Object.items, Object.array?, Object.get?]

/-- What passes from the nested types of an item and from the items after it to the list holds of every list. -/
@[elab_as_elim]
theorem nestedInduction {motive : List Json → Prop} (nil : motive [])
    (cons : ∀ v vs, motive (Object.items v.members "NestedTypes") → motive vs → motive (v :: vs)) :
    ∀ vs, motive vs
  | [] => nil
  | v :: vs => cons v vs (nestedInduction nil cons _) (nestedInduction nil cons vs)
termination_by vs => sizeOf vs
decreasing_by
  · have := sizeOf_nested v
    rw [List.cons.sizeOf_spec]
    omega
  · rw [List.cons.sizeOf_spec]
    omega

theorem entriesAt_eq (s : Scope) (i : Nat) (v : Json) :
    entriesAt s i v = s.entry i v :: entriesFrom (s.entry i v).scope 0 (Object.items v.members "NestedTypes") := by
  cases v with
  | obj o => rw [entriesAt, Json.members]
  | _ => simp [entriesAt, Json.members, Object.items, Object.array?, Object.get?, entriesFrom]

theorem mem_entriesFrom_cons {s : Scope} {i : Nat} {v : Json} {vs : List Json} {e : TypeEntry} :
    e ∈ entriesFrom s i (v :: vs) ↔ e = s.entry i v ∨
      e ∈ entriesFrom (s.entry i v).scope 0 (Object.items v.members "NestedTypes") ∨ e ∈ entriesFrom s (i + 1) vs := by
  rw [entriesFrom, entriesAt_eq, List.cons_append, List.mem_cons, List.mem_append]

/-- What holds of the items of a list and passes from a type to those nested in it holds of all that the walk meets. -/
theorem entriesFrom_forall {P : TypeEntry → Prop} (hnested : ∀ e j w, P e → P (e.scope.entry j w)) (vs : List Json) :
    ∀ (s : Scope) (i : Nat), (∀ j w, i ≤ j → P (s.entry j w)) → ∀ e ∈ entriesFrom s i vs, P e := by
  induction vs using nestedInduction with
  | nil => simp [entriesFrom]
  | cons v vs ihNested ihRest =>
    intro s i h e he
    rcases mem_entriesFrom_cons.mp he with rfl | he | he
    · exact h i v (Nat.le_refl i)
    · exact ihNested _ 0 (fun j w _ => hnested _ j w (h i v (Nat.le_refl i))) e he
    · exact ihRest s (i + 1) (fun j w hj => h j w (Nat.le_of_succ_le hj)) e he

/-! ### Addresses -/

/-- The address of an item starts with that of its list and goes on with a number. -/
theorem address_of_mem_entriesFrom {s : Scope} {vs : List Json} {i : Nat} {e : TypeEntry}
    (he : e ∈ entriesFrom s i vs) :
    ∃ j rest, i ≤ j ∧ e.address = s.address ++ j :: rest := by
  refine entriesFrom_forall (P := fun e => ∃ j rest, i ≤ j ∧ e.address = s.address ++ j :: rest) ?_ vs s i ?_ e he
  · rintro e k w ⟨j, rest, hj, haddress⟩
    exact ⟨j, rest ++ [k], hj, by simp [Scope.entry, TypeEntry.scope, haddress]⟩
  · intro j w hj
    exact ⟨j, [], hj, rfl⟩

/-- What is nested in a type has it around. -/
theorem mem_around_of_mem_entriesFrom {a : Address} {s : Scope} {vs : List Json} {i : Nat} {e : TypeEntry}
    (ha : a ∈ s.around) (he : e ∈ entriesFrom s i vs) : a ∈ e.around := by
  refine entriesFrom_forall (P := fun e => a ∈ e.around) ?_ vs s i (fun _ _ _ => ha) e he
  intro e j w h
  exact List.mem_append_left _ h

theorem lt_append_cons (a : Address) (j : Nat) (rest : Address) : a < a ++ j :: rest := by
  simpa using List.append_left_lt (List.nil_lt_cons j rest)

theorem append_cons_lt {a : Address} {i j : Nat} (h : i < j) (rest rest' : Address) :
    a ++ i :: rest < a ++ j :: rest' :=
  List.append_left_lt (List.cons_lt_cons_iff.mpr (.inl h))

/-- The walk meets the items of a list in the order of their addresses. -/
theorem entriesFrom_sorted (vs : List Json) : ∀ (s : Scope) (i : Nat),
    (entriesFrom s i vs).Pairwise fun e e' => e.address < e'.address := by
  induction vs using nestedInduction with
  | nil => simp [entriesFrom]
  | cons v vs ihNested ihRest =>
    intro s i
    rw [entriesFrom, entriesAt_eq, List.cons_append, List.pairwise_cons, List.pairwise_append]
    refine ⟨?_, ihNested _ 0, ihRest s (i + 1), ?_⟩
    · intro e he
      rcases List.mem_append.mp he with he | he
      · obtain ⟨j, rest, -, haddress⟩ := address_of_mem_entriesFrom he
        rw [haddress]
        exact lt_append_cons _ j rest
      · obtain ⟨j, rest, hj, haddress⟩ := address_of_mem_entriesFrom he
        rw [haddress]
        exact append_cons_lt hj [] rest
    · intro e he e' he'
      obtain ⟨k, rest, -, haddress⟩ := address_of_mem_entriesFrom he
      obtain ⟨j, rest', hj, haddress'⟩ := address_of_mem_entriesFrom he'
      rw [haddress, haddress']
      simpa [Scope.entry, TypeEntry.scope] using append_cons_lt (a := s.address) hj (k :: rest) rest'

theorem address_of_mem_moduleEntries {e : TypeEntry} : ∀ {xs : List Json} {m : ModuleId}, e ∈ moduleEntries m xs →
    ∃ j i rest, m ≤ j ∧ e.address = j :: i :: rest
  | [], _, h => by simp [moduleEntries] at h
  | x :: xs, m, h => by
      rcases List.mem_append.mp h with h | h
      · obtain ⟨i, rest, -, haddress⟩ := address_of_mem_entriesFrom h
        exact ⟨m, i, rest, Nat.le_refl m, haddress⟩
      · obtain ⟨j, i, rest, hj, haddress⟩ := address_of_mem_moduleEntries h
        exact ⟨j, i, rest, Nat.le_of_succ_le hj, haddress⟩

theorem moduleEntries_sorted : ∀ (xs : List Json) (m : ModuleId),
    (moduleEntries m xs).Pairwise fun e e' => e.address < e'.address
  | [], _ => .nil
  | x :: xs, m => by
      refine List.pairwise_append.mpr ⟨entriesFrom_sorted _ _ 0, moduleEntries_sorted xs (m + 1), ?_⟩
      intro e he e' he'
      obtain ⟨k, rest, -, haddress⟩ := address_of_mem_entriesFrom he
      obtain ⟨j, i, rest', hj, haddress'⟩ := address_of_mem_moduleEntries he'
      rw [haddress, haddress']
      exact append_cons_lt (a := []) hj (k :: rest) (i :: rest')

/-- The walk through a description meets its types in the order of their addresses. -/
theorem typeEntries_sorted (v : Json) : (typeEntries v).Pairwise fun e e' => e.address < e'.address :=
  moduleEntries_sorted (modules v) 0

/-- In ascending order no address comes twice. -/
theorem nodup_of_sorted {l : List TypeEntry} (h : l.Pairwise fun e e' => e.address < e'.address) :
    (l.map (·.address)).Nodup := by
  refine List.pairwise_map.mpr (h.imp ?_)
  intro e e' hlt heq
  rw [heq] at hlt
  exact List.lt_irrefl _ hlt

theorem eq_of_address_eq {v : Json} {e e' : TypeEntry} (he : e ∈ typeEntries v) (he' : e' ∈ typeEntries v)
    (h : e.address = e'.address) : e = e' :=
  List.inj_on_of_nodup_map (nodup_of_sorted (typeEntries_sorted v)) he he' h

/-! ### Where an item stands -/

/-- An item of a description belongs to the list of a module or is directly nested in another item. -/
def Located (entries : List TypeEntry) (count : Nat) (e : TypeEntry) : Prop :=
  (∃ m i w, m < count ∧ e = (Scope.ofModule m).entry i w) ∨ ∃ x ∈ entries, ∃ i w, e = x.scope.entry i w

theorem located_of_mem_entriesFrom (vs : List Json) : ∀ {s : Scope} {i : Nat} {e : TypeEntry}, e ∈ entriesFrom s i vs →
    (∃ j w, e = s.entry j w) ∨ ∃ x ∈ entriesFrom s i vs, ∃ j w, e = x.scope.entry j w := by
  induction vs using nestedInduction with
  | nil => simp [entriesFrom]
  | cons v vs ihNested ihRest =>
    intro s i e he
    rcases mem_entriesFrom_cons.mp he with rfl | he | he
    · exact .inl ⟨i, v, rfl⟩
    · rcases ihNested he with ⟨j, w, rfl⟩ | ⟨x, hx, hplace⟩
      · exact .inr ⟨_, mem_entriesFrom_cons.mpr (.inl rfl), j, w, rfl⟩
      · exact .inr ⟨x, mem_entriesFrom_cons.mpr (.inr (.inl hx)), hplace⟩
    · rcases ihRest he with hplace | ⟨x, hx, hplace⟩
      · exact .inl hplace
      · exact .inr ⟨x, mem_entriesFrom_cons.mpr (.inr (.inr hx)), hplace⟩

theorem located_of_mem_moduleEntries {e : TypeEntry} : ∀ {xs : List Json} {m : ModuleId}, e ∈ moduleEntries m xs →
    Located (moduleEntries m xs) (m + xs.length) e
  | [], _, h => by simp [moduleEntries] at h
  | x :: xs, m, h => by
      rcases List.mem_append.mp h with h | h
      · rcases located_of_mem_entriesFrom _ h with ⟨i, w, rfl⟩ | ⟨y, hy, hplace⟩
        · exact .inl ⟨m, i, w, by simp, rfl⟩
        · exact .inr ⟨y, List.mem_append_left _ hy, hplace⟩
      · rcases located_of_mem_moduleEntries h with ⟨n, i, w, hn, rfl⟩ | ⟨y, hy, hplace⟩
        · exact .inl ⟨n, i, w, by simp; omega, rfl⟩
        · exact .inr ⟨y, List.mem_append_right _ hy, hplace⟩

theorem located {v : Json} {e : TypeEntry} (he : e ∈ typeEntries v) :
    Located (typeEntries v) (modules v).length e := by
  simpa [typeEntries] using located_of_mem_moduleEntries he

/-! ### What counts -/

theorem foldl_keep_sublist : ∀ (l kept : List TypeEntry), (l.foldl keep kept).Sublist (kept ++ l)
  | [], kept => by simp
  | e :: l, kept => by
      have hstep : (keep kept e).Sublist (kept ++ [e]) := by
        unfold keep
        split
        · exact List.Sublist.refl _
        · exact List.sublist_append_left kept [e]
      have hrest := (foldl_keep_sublist l (keep kept e)).trans (hstep.append_right l)
      simpa using hrest

theorem keptTypes_sublist (v : Json) : (keptTypes v).Sublist (typeEntries v) := by
  simpa [keptTypes] using foldl_keep_sublist (typeEntries v) []

end Description

end CallGraphs
