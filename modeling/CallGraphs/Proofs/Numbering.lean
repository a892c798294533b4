import CallGraphs.Proofs.Reading

/-! Types are numbered in the order of the text. The address of a nested type extends that of the type around it, and
    positions compare as addresses do, so the walk from the types of the modules down to the nested ones, module after
    module, meets the positions one after the other (`Reflects.allTypes_eq_range`). So do the methods, type after type
    (`Reflects.methodsOf_eq_range`). -/

namespace CallGraphs

namespace Forest

variable {kids : Nat → List Nat} {address : Nat → List Nat} {n : Nat}

/-- The nodes below `n` compare as their addresses do, and the children of a node extend its address by one number, in
    ascending order. -/
structure Addressed (kids : Nat → List Nat) (address : Nat → List Nat) (n : Nat) : Prop where
  lt_iff : ∀ t < n, ∀ u < n, (address t < address u ↔ t < u)
  child : ∀ t < n, ∀ u ∈ kids t, u < n ∧ ∃ k, address u = address t ++ [k]
  sorted : ∀ t, (kids t).Pairwise (· < ·)

namespace Addressed

theorem prefix_of_mem (h : Addressed kids address n) : ∀ {depth t x : Nat}, t < n → x ∈ preorder kids depth t →
    x < n ∧ address t <+: address x
  | 0, t, x, ht, hx => by
      obtain rfl := List.mem_singleton.mp hx
      exact ⟨ht, List.prefix_rfl⟩
  | depth + 1, t, x, ht, hx => by
      rcases List.mem_cons.mp hx with rfl | hx
      · exact ⟨ht, List.prefix_rfl⟩
      · obtain ⟨u, hu, hx⟩ := List.mem_flatMap.mp hx
        obtain ⟨hun, k, hk⟩ := h.child t ht u hu
        obtain ⟨hxn, hgrows⟩ := h.prefix_of_mem hun hx
        exact ⟨hxn, (hk ▸ List.prefix_append (address t) [k]).trans hgrows⟩

/-- Where two addresses part, everything below the smaller one comes before everything below the other. -/
theorem lt_of_part (h : Addressed kids address n) {base : List Nat} {i j a b x y depth : Nat} (ha : a < n) (hb : b < n)
    (hi : base ++ [i] <+: address a) (hj : base ++ [j] <+: address b) (hij : i < j) (hx : x ∈ preorder kids depth a)
    (hy : y ∈ preorder kids depth b) : x < y := by
  obtain ⟨hxn, hax⟩ := h.prefix_of_mem ha hx
  obtain ⟨hyn, hby⟩ := h.prefix_of_mem hb hy
  obtain ⟨rest, hrest⟩ := hi.trans hax
  obtain ⟨rest', hrest'⟩ := hj.trans hby
  refine (h.lt_iff x hxn y hyn).mp ?_
  rw [← hrest, ← hrest', List.append_assoc, List.append_assoc]
  exact Description.append_cons_lt hij rest rest'

/-- A list of nodes that extend one address by one number, in ascending order, is walked in ascending order. -/
theorem flatMap_sorted (h : Addressed kids address n) {depth : Nat} {base : List Nat} {l : List Nat}
    (hl : ∀ u ∈ l, u < n ∧ ∃ k, address u = base ++ [k]) (hsorted : l.Pairwise (· < ·))
    (hdown : ∀ u < n, (preorder kids depth u).Pairwise (· < ·)) :
    (l.flatMap (preorder kids depth)).Pairwise (· < ·) := by
  refine List.pairwise_flatMap.mpr ⟨fun u hu => hdown u (hl u hu).1, ?_⟩
  refine hsorted.imp_of_mem ?_
  intro a b ha hb hab x hx y hy
  obtain ⟨han, i, hi⟩ := hl a ha
  obtain ⟨hbn, j, hj⟩ := hl b hb
  have hlt := (h.lt_iff a han b hbn).mpr hab
  rw [hi, hj] at hlt
  have hij : i < j := by
    rcases Nat.lt_trichotomy i j with hij | rfl | hji
    · exact hij
    · exact absurd hlt (List.lt_irrefl _)
    · exact absurd hlt (List.lt_asymm (Description.append_cons_lt hji [] []))
  have hia : base ++ [i] <+: address a := hi ▸ List.prefix_rfl
  have hjb : base ++ [j] <+: address b := hj ▸ List.prefix_rfl
  exact h.lt_of_part han hbn hia hjb hij hx hy

theorem preorder_sorted (h : Addressed kids address n) : ∀ (depth t : Nat), t < n →
    (preorder kids depth t).Pairwise (· < ·)
  | 0, t, _ => List.pairwise_singleton _ t
  | depth + 1, t, ht => by
      refine List.pairwise_cons.mpr ⟨?_, h.flatMap_sorted (h.child t ht) (h.sorted t) (h.preorder_sorted depth)⟩
      intro x hx
      obtain ⟨u, hu, hx⟩ := List.mem_flatMap.mp hx
      obtain ⟨hun, k, hk⟩ := h.child t ht u hu
      obtain ⟨hxn, rest, hrest⟩ := h.prefix_of_mem hun hx
      refine (h.lt_iff t ht x hxn).mp ?_
      rw [← hrest, hk, List.append_assoc]
      exact Description.lt_append_cons _ k rest

end Addressed

end Forest

namespace Description.Reflects

variable {kept : List TypeEntry} {p : Program}

theorem enclosingOf? (h : Reflects kept p) {t : TypeId} {e : TypeEntry} (he : kept[t]? = some e) :
    p.enclosingOf? t = e.enclosing kept := by
  obtain ⟨o, decl, -, -, hidentity⟩ := h.types t e he
  obtain ⟨ty, hty, heq⟩ := Option.map_eq_some_iff.mp hidentity
  rw [Program.enclosingOf?, hty, Option.bind_some]
  exact congrArg TypeDef.Identity.enclosing heq

theorem moduleOf? (h : Reflects kept p) {t : TypeId} {e : TypeEntry} (he : kept[t]? = some e) :
    p.moduleOf? t = some e.moduleId := by
  obtain ⟨o, decl, -, -, hidentity⟩ := h.types t e he
  obtain ⟨ty, hty, heq⟩ := Option.map_eq_some_iff.mp hidentity
  rw [Program.moduleOf?, hty, Option.map_some]
  exact congrArg (fun x => some x.moduleId) heq

theorem exists_entry (h : Reflects kept p) {t : TypeId} (ht : t < p.types.size) : ∃ e, kept[t]? = some e := by
  rw [h.typeCount] at ht
  exact ⟨kept[t], List.getElem?_eq_getElem ht⟩

/-- The address of the type at a position. -/
def addressAt (kept : List TypeEntry) (t : TypeId) : Address := (kept[t]?.map (·.address)).getD []

theorem addressAt_eq {t : TypeId} {e : TypeEntry} (he : kept[t]? = some e) : addressAt kept t = e.address := by
  simp [addressAt, he]

/-- A nested type stands one step below the type around it. -/
theorem address_of_mem_nestedOf (h : Reflects kept p) {v : Json} (hkept : kept.Sublist (typeEntries v)) {t u : TypeId}
    (hu : u ∈ p.nestedOf t) : u < p.types.size ∧ ∃ k, addressAt kept u = addressAt kept t ++ [k] := by
  have henclosing := h.wellFormed.mem_nestedOf.mp hu
  have hlt := Program.enclosingOf?_lt henclosing
  obtain ⟨e, he⟩ := h.exists_entry hlt
  rw [h.enclosingOf? he] at henclosing
  obtain ⟨x, hx, hlast⟩ := enclosing_eq_some henclosing
  refine ⟨hlt, ?_⟩
  rw [addressAt_eq he, addressAt_eq hx]
  rcases located (hkept.subset (List.mem_of_getElem? he)) with ⟨m, i, w, -, rfl⟩ | ⟨y, -, i, w, rfl⟩
  · simp [Scope.entry, Scope.ofModule] at hlast
  · have hy : y.address = x.address := by simpa [Scope.entry, TypeEntry.scope] using hlast
    exact ⟨i, by rw [← hy]; rfl⟩

/-- A type that is not nested stands one step below its module. -/
theorem address_of_mem_topTypes (h : Reflects kept p) {v : Json} (hkept : kept.Sublist (typeEntries v)) {m : ModuleId}
    {u : TypeId} (hu : u ∈ p.topTypes m) : u < p.types.size ∧ ∃ k, addressAt kept u = [m] ++ [k] := by
  obtain ⟨hmodule, htop⟩ := h.wellFormed.mem_topTypes.mp hu
  have hlt := Program.moduleOf?_lt hmodule
  obtain ⟨e, he⟩ := h.exists_entry hlt
  rw [h.moduleOf? he] at hmodule
  rw [h.enclosingOf? he] at htop
  refine ⟨hlt, ?_⟩
  rw [addressAt_eq he]
  have hmem := List.mem_of_getElem? he
  rcases located (hkept.subset hmem) with ⟨m', i, w, -, rfl⟩ | ⟨y, -, i, w, rfl⟩
  · obtain rfl : m' = m := Option.some.inj hmodule
    exact ⟨i, rfl⟩
  · have hlast : (y.scope.entry i w).around.getLast? = some y.address := by simp [Scope.entry, TypeEntry.scope]
    rw [TypeEntry.enclosing, hlast, Option.bind_some, ← Option.not_isSome_iff_eq_none, List.isSome_idxOf?] at htop
    exact absurd (h.closed _ hmem y.address (List.mem_of_getLast? hlast)) htop

theorem addressed (h : Reflects kept p) {v : Json} (hkept : kept.Sublist (typeEntries v)) :
    Forest.Addressed p.nestedOf (addressAt kept) p.types.size := by
  have hsorted := (typeEntries_sorted v).sublist hkept
  refine ⟨?_, fun t _ u hu => h.address_of_mem_nestedOf hkept hu, ?_⟩
  · have hmono : ∀ t u : Nat, t < u → u < p.types.size → addressAt kept t < addressAt kept u := by
      intro t u htu hu
      rw [h.typeCount] at hu
      have ht := Nat.lt_trans htu hu
      rw [addressAt_eq (List.getElem?_eq_getElem ht), addressAt_eq (List.getElem?_eq_getElem hu)]
      exact List.pairwise_iff_getElem.mp hsorted t u ht hu htu
    intro t ht u hu
    refine ⟨fun hlt => ?_, fun htu => hmono t u htu hu⟩
    rcases Nat.lt_trichotomy t u with htu | rfl | hut
    · exact htu
    · exact absurd hlt (List.lt_irrefl _)
    · exact absurd hlt (List.lt_asymm (hmono u t hut ht))
  · intro t
    rw [h.wellFormed.nested]
    exact List.pairwise_lt_range.filter _

/-- The walk through the types of all modules meets the positions in their order. -/
theorem allTypes_eq_range (h : Reflects kept p) {v : Json} (hkept : kept.Sublist (typeEntries v)) :
    (List.range p.modules.size).flatMap p.allTypes = List.range p.types.size := by
  have haddressed := h.addressed hkept
  have hsorted : ((List.range p.modules.size).flatMap p.allTypes).Pairwise (· < ·) := by
    refine List.pairwise_flatMap.mpr ⟨fun m _ => ?_, ?_⟩
    · refine haddressed.flatMap_sorted (fun u hu => h.address_of_mem_topTypes hkept hu) ?_
        fun u hu => haddressed.preorder_sorted _ u hu
      rw [h.wellFormed.top]
      exact List.pairwise_lt_range.filter _
    · refine List.pairwise_lt_range.imp ?_
      intro m m' hm x hx y hy
      obtain ⟨a, ha, hx⟩ := List.mem_flatMap.mp hx
      obtain ⟨b, hb, hy⟩ := List.mem_flatMap.mp hy
      obtain ⟨han, i, hi⟩ := h.address_of_mem_topTypes hkept ha
      obtain ⟨hbn, j, hj⟩ := h.address_of_mem_topTypes hkept hb
      have him : [] ++ [m] <+: addressAt kept a := hi ▸ List.prefix_append [m] [i]
      have hjm : [] ++ [m'] <+: addressAt kept b := hj ▸ List.prefix_append [m'] [j]
      exact haddressed.lt_of_part han hbn him hjm hm hx hy
  refine h.wellFormed.allTypes_perm.eq_of_pairwise ?_ hsorted List.pairwise_lt_range
  intro a b _ _ hab hba
  exact absurd hab (Nat.lt_asymm hba)

/-! ### Methods -/

theorem ownerOf? (h : Reflects kept p) {m : MethodId} {t : TypeId} {x : Json}
    (hx : (methodEntries kept)[m]? = some (t, x)) : p.ownerOf? m = some t := by
  obtain ⟨-, decl, -, -, hdecl⟩ := h.methods m t x hx
  obtain ⟨d, hd, heq⟩ := Option.map_eq_some_iff.mp hdecl
  rw [Program.ownerOf?, hd, Option.map_some]
  exact congrArg (fun entry => some entry.2) heq

/-- The methods of the types that count stand in the order of their types. -/
theorem methodEntries_sorted (kept : List TypeEntry) : (methodEntries kept).Pairwise fun a b => a.1 ≤ b.1 := by
  refine List.pairwise_flatMap.mpr ⟨fun e _ => ?_, ?_⟩
  · exact List.pairwise_map.mpr (List.pairwise_of_forall fun _ _ => Nat.le_refl e.2)
  · have hpositions : kept.zipIdx.Pairwise fun a b => a.2 < b.2 := by
      rw [← List.pairwise_map, List.zipIdx_map_snd]
      exact List.pairwise_lt_range'
    refine hpositions.imp ?_
    intro a b hab x hx y hy
    obtain ⟨-, -, rfl⟩ := List.mem_map.mp hx
    obtain ⟨-, -, rfl⟩ := List.mem_map.mp hy
    exact Nat.le_of_lt hab

/-- A later method belongs to the same type or to a later one. -/
theorem owner_mono (h : Reflects kept p) {m m' : MethodId} {t t' : TypeId} (hm : p.ownerOf? m = some t)
    (hm' : p.ownerOf? m' = some t') (hlt : m < m') : t ≤ t' := by
  have hbound' : m' < (methodEntries kept).length := h.methodCount ▸ Program.ownerOf?_lt hm'
  have hbound : m < (methodEntries kept).length := Nat.lt_trans hlt hbound'
  have hsorted := List.pairwise_iff_getElem.mp (methodEntries_sorted kept) m m' hbound hbound' hlt
  rw [h.ownerOf? (List.getElem?_eq_getElem hbound)] at hm
  rw [h.ownerOf? (List.getElem?_eq_getElem hbound')] at hm'
  exact Option.some.inj hm ▸ Option.some.inj hm' ▸ hsorted

/-- The methods of all types, type by type, are the positions in their order. -/
theorem methodsOf_eq_range (h : Reflects kept p) :
    (List.range p.types.size).flatMap p.methodsOf = List.range p.methods.size := by
  have hsorted : ((List.range p.types.size).flatMap p.methodsOf).Pairwise (· < ·) := by
    refine List.pairwise_flatMap.mpr ⟨fun t _ => ?_, ?_⟩
    · rw [h.wellFormed.methods]
      exact List.pairwise_lt_range.filter _
    · refine List.pairwise_lt_range.imp ?_
      intro t t' ht x hx y hy
      have hx' := h.wellFormed.mem_methodsOf.mp hx
      have hy' := h.wellFormed.mem_methodsOf.mp hy
      rcases Nat.lt_trichotomy x y with hlt | rfl | hgt
      · exact hlt
      · exact absurd (Option.some.inj (hx'.symm.trans hy')) (Nat.ne_of_lt ht)
      · exact absurd (h.owner_mono hy' hx' hgt) (Nat.not_le_of_lt ht)
  refine h.wellFormed.methods_perm.eq_of_pairwise ?_ hsorted List.pairwise_lt_range
  intro a b _ _ hab hba
  exact absurd hab (Nat.lt_asymm hba)

end Description.Reflects

end CallGraphs
