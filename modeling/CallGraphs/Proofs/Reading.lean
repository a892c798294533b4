import CallGraphs.Proofs.Building
import CallGraphs.Proofs.Decoding
import CallGraphs.Proofs.Entries

/-! Reading a list of types, which goes down into the nested types, is one pass over its items in the order of the text
    (`readTypes_onePass`). The pass carries the addresses of the items that it has kept, and an item is read only if the
    item around it is among them. Each step preserves that the types and methods of the program are those of the items
    that count (`Reflects`), so the whole pass does. -/

namespace CallGraphs

open Json (Object)

/-! ### Methods -/

namespace Draft

theorem readMethod_ok {t : TypeId} {name : String} {d d' : Draft} {x : Json} (h : readMethod t name d x = .ok d') :
    ∃ o decl, x = .obj o ∧ MethodDecl.decode o (d.program.typeName t) = .ok decl ∧
      d' = { d with program := (d.program.addMethod t decl).2 } := by
  cases x with
  | obj o =>
    rw [readMethod, bind_eq_ok] at h
    obtain ⟨decl, hdecl, hd'⟩ := h
    exact ⟨o, decl, rfl, check_eq_ok.mp hdecl, (pure_eq_ok.mp hd').symm⟩
  | _ => simp [readMethod, check] at h

end Draft

/-- What a description says of the modules themselves: their names and entry points. -/
def Program.heads (p : Program) : Array (String × Option MethodRef) := p.modules.map fun d => (d.name, d.entryRef)

theorem Program.size_heads (p : Program) : p.heads.size = p.modules.size := Array.size_map

theorem Program.withType_heads {p : Program} {m : ModuleId} {decl : TypeDecl} {enclosing : Option TypeId} :
    (p.withType m decl enclosing).heads = p.heads := by
  cases enclosing with
  | some e => rfl
  | none =>
    refine Array.ext_getElem? fun i => ?_
    rw [heads, heads, Array.getElem?_map, Array.getElem?_map, withType, enlist, map_getElem?_modify]
    exact fun _ => rfl

/-- The second program has the methods `xs` of the type `t` in addition, in this order. -/
structure Program.Gains (t : TypeId) (xs : List Json) (p q : Program) : Prop where
  modules : q.modules = p.modules
  types : q.types.size = p.types.size
  identityOf? : ∀ i, q.identityOf? i = p.identityOf? i
  methods : q.methods.size = p.methods.size + xs.length
  earlier : ∀ m x, p.declarationOf? m = some x → q.declarationOf? m = some x
  later : ∀ j x, xs[j]? = some x → ∃ o decl, x = .obj o ∧
    MethodDecl.decode o (p.typeName t) = .ok decl ∧ q.declarationOf? (p.methods.size + j) = some (decl, t)
  wellFormed : t < p.types.size → p.WellFormed → q.WellFormed

theorem Program.Gains.heads {t : TypeId} {xs : List Json} {p q : Program} (h : Gains t xs p q) : q.heads = p.heads := by
  rw [Program.heads, h.modules, Program.heads]

theorem Program.typeName_congr {p q : Program} {t u : TypeId} (h : q.identityOf? u = p.identityOf? t) :
    q.typeName u = p.typeName t :=
  congrArg (Option.getD · "") (fullNameOf?_congr h)

theorem Draft.readMethods_gains {t : TypeId} {name : String} : ∀ {xs : List Json} {d d' : Draft},
    xs.foldlM (readMethod t name) d = .ok d' → Program.Gains t xs d.program d'.program
  | [], d, d', h => by
      obtain rfl := pure_eq_ok.mp h
      exact ⟨rfl, rfl, fun _ => rfl, rfl, fun _ _ hm => hm, by simp, fun _ hp => hp⟩
  | x :: xs, d, d', h => by
      rw [List.foldlM_cons, bind_eq_ok] at h
      obtain ⟨d₁, hfirst, hrest⟩ := h
      obtain ⟨o, decl, rfl, hdecl, rfl⟩ := readMethod_ok hfirst
      have hg := readMethods_gains hrest
      have hidentity := Program.addMethod_identityOf? d.program t decl
      have hlast : (d.program.addMethod t decl).2.declarationOf? d.program.methods.size = some (decl, t) := by
        simp [Program.declarationOf?, Program.addMethod]
      have hsize : (d.program.addMethod t decl).2.methods.size = d.program.methods.size + 1 := by
        simp [Program.addMethod]
      refine ⟨hg.modules, ?_, ?_, ?_, ?_, ?_, ?_⟩
      · rw [hg.types]
        simp [Program.addMethod]
      · intro i
        rw [hg.identityOf?, hidentity]
      · rw [hg.methods, hsize, List.length_cons]
        omega
      · intro m x hm
        exact hg.earlier m x (Program.map_getElem?_push hm { decl with owner := t })
      · intro j x hj
        cases j with
        | zero =>
          obtain rfl : Json.obj o = x := by simpa using hj
          exact ⟨o, decl, rfl, hdecl, hg.earlier _ _ hlast⟩
        | succ j =>
          obtain ⟨o', decl', hx, hdecl', hm⟩ := hg.later j x hj
          rw [Program.typeName_congr (hidentity t)] at hdecl'
          rw [hsize, Nat.add_assoc, Nat.add_comm 1 j] at hm
          exact ⟨o', decl', hx, hdecl', hm⟩
      · intro ht hp
        refine hg.wellFormed ?_ (Program.addMethod_wellFormed hp ht decl)
        simpa [Program.addMethod] using ht

/-! ### One pass over all items -/

namespace Description

/-- Read a type without those nested in it. Gives the position of the new type, none if its full name is taken. -/
def readOwn (d : Draft) (m : ModuleId) (enclosing : Option TypeId) (o : Object) : Option (Option TypeId × Draft) :=
  (TypeDecl.decode o).toOption.bind fun decl =>
    match d.program.addType? m decl enclosing with
    | none => some (none, d.note (d.program.duplicateType m decl enclosing))
    | some (t, p) =>
      ((Object.items o "Methods").foldlM (Draft.readMethod t decl.name) { d with program := p }).toOption.map
        (some t, ·)

/-- A type is refused with a notice, or it is added together with its methods. -/
theorem readOwn_cases {d d' : Draft} {m : ModuleId} {enclosing r : Option TypeId} {o : Object}
    (h : readOwn d m enclosing o = some (r, d')) : ∃ decl, TypeDecl.decode o = .ok decl ∧
      ((d.program.typeNamed? (d.program.place decl enclosing).2 ≠ none ∧ r = none ∧
          d' = d.note (d.program.duplicateType m decl enclosing)) ∨
        d.program.typeNamed? (d.program.place decl enclosing).2 = none ∧ r = some d.program.types.size ∧
          Program.Gains d.program.types.size (Object.items o "Methods") (d.program.withType m decl enclosing)
            d'.program) := by
  obtain ⟨decl, hdecl, h⟩ := Option.bind_eq_some_iff.mp h
  refine ⟨decl, toOption_eq_some.mp hdecl, ?_⟩
  rw [Program.addType?_eq] at h
  cases hname : d.program.typeNamed? (d.program.place decl enclosing).2 with
  | some u =>
    left
    simp only [hname, Option.isSome_some, if_true, Option.some.injEq, Prod.mk.injEq] at h
    exact ⟨by simp, h.1.symm, h.2.symm⟩
  | none =>
    right
    simp only [hname, Option.isSome_none, Bool.false_eq_true, if_false, Option.map_eq_some_iff] at h
    obtain ⟨d₁, hmethods, heq⟩ := h
    obtain ⟨rfl, rfl⟩ := Prod.mk.inj heq
    exact ⟨rfl, rfl, Draft.readMethods_gains (toOption_eq_some.mp hmethods)⟩

/-- Read one item in a pass over all of them. The addresses of the types that count so far are at hand, in the order
    of their positions. What stands inside a type that does not count is passed over. -/
def readItem (s : Draft × List Address) (e : TypeEntry) : Option (Draft × List Address) :=
  if ∀ a ∈ e.around, a ∈ s.2 then
    match e.value with
    | .obj o =>
      (readOwn s.1 e.moduleId (e.around.getLast?.bind s.2.idxOf?) o).map fun
        | (none, d) => (d, s.2)
        | (some _, d) => (d, s.2 ++ [e.address])
    | _ => none
  else some s

theorem readItem_of_outside {d : Draft} {K : List Address} {e : TypeEntry} {a : Address} (ha : a ∈ e.around)
    (hK : a ∉ K) :
    readItem (d, K) e = some (d, K) :=
  if_neg fun h => hK (h a ha)

theorem foldlM_readItem_outside {d : Draft} {K : List Address} {a : Address} (hK : a ∉ K) : ∀ {l : List TypeEntry},
    (∀ e ∈ l, a ∈ e.around) → l.foldlM readItem (d, K) = some (d, K)
  | [], _ => rfl
  | e :: l, h => by
      rw [List.foldlM_cons, readItem_of_outside (h e List.mem_cons_self) hK]
      exact foldlM_readItem_outside hK fun x hx => h x (List.mem_cons_of_mem e hx)

/-- An item is passed over or refused with a notice, or it is added together with its methods. -/
theorem readItem_cases {d : Draft} {K : List Address} {e : TypeEntry} {enclosing : Option TypeId}
    {s : Draft × List Address} (henclosing : e.around.getLast?.bind K.idxOf? = enclosing)
    (h : readItem (d, K) e = some s) :
    ((¬ ∀ a ∈ e.around, a ∈ K) ∧ s = (d, K)) ∨
    (∀ a ∈ e.around, a ∈ K) ∧ ∃ o decl, e.value = .obj o ∧ TypeDecl.decode o = .ok decl ∧
      ((d.program.typeNamed? (d.program.place decl enclosing).2 ≠ none ∧
          s = (d.note (d.program.duplicateType e.moduleId decl enclosing), K)) ∨
        d.program.typeNamed? (d.program.place decl enclosing).2 = none ∧ s.2 = K ++ [e.address] ∧
          Program.Gains d.program.types.size (Object.items o "Methods")
            (d.program.withType e.moduleId decl enclosing) s.1.program) := by
  subst henclosing
  unfold readItem at h
  split at h
  · rename_i haround
    split at h
    · rename_i o hvalue
      obtain ⟨⟨r, d'⟩, hown, rfl⟩ := Option.map_eq_some_iff.mp h
      obtain ⟨decl, hdecl, ⟨htaken, rfl, rfl⟩ | ⟨hfree, rfl, hg⟩⟩ := readOwn_cases hown
      · exact .inr ⟨haround, o, decl, hvalue, hdecl, .inl ⟨htaken, rfl⟩⟩
      · exact .inr ⟨haround, o, decl, hvalue, hdecl, .inr ⟨hfree, rfl, hg⟩⟩
    · simp at h
  · rename_i houtside
    exact .inl ⟨houtside, (Option.some.inj h).symm⟩

/-- There are as many addresses as types. -/
def Numbers (s : Draft × List Address) : Prop := s.2.length = s.1.program.types.size

theorem readItem_kept {s s' : Draft × List Address} {e : TypeEntry} (hs : Numbers s) (h : readItem s e = some s') :
    Numbers s' ∧ s'.1.program.heads = s.1.program.heads ∧ (s'.2 = s.2 ∨ s'.2 = s.2 ++ [e.address]) := by
  rcases readItem_cases rfl h with ⟨-, rfl⟩ | ⟨-, o, decl, -, -, ⟨-, rfl⟩ | ⟨-, hK, hg⟩⟩
  · exact ⟨hs, rfl, .inl rfl⟩
  · exact ⟨hs, rfl, .inl rfl⟩
  · refine ⟨?_, hg.heads.trans Program.withType_heads, .inr hK⟩
    rw [Numbers, hK, hg.types, Program.withType_size, List.length_append, hs]
    rfl

/-- Over a pass the modules stay, and the addresses only grow, by addresses of the items. -/
theorem foldlM_readItem_kept : ∀ {l : List TypeEntry} {s s' : Draft × List Address}, Numbers s →
    l.foldlM readItem s = some s' →
    Numbers s' ∧ s'.1.program.heads = s.1.program.heads ∧ s.2 <+: s'.2 ∧ s'.2.Sublist (s.2 ++ l.map (·.address))
  | [], s, s', hs, h => by
      obtain rfl := Option.some.inj h
      exact ⟨hs, rfl, List.prefix_rfl, by simp⟩
  | e :: l, s, s', hs, h => by
      rw [List.foldlM_cons] at h
      obtain ⟨s₁, hfirst, hrest⟩ := Option.bind_eq_some_iff.mp h
      obtain ⟨hs₁, hheads, hcases⟩ := readItem_kept hs hfirst
      obtain ⟨hs', hheads', hgrows, hsublist⟩ := foldlM_readItem_kept hs₁ hrest
      refine ⟨hs', hheads'.trans hheads, ?_⟩
      rcases hcases with hsame | hmore
      · rw [hsame] at hgrows hsublist
        refine ⟨hgrows, hsublist.trans ?_⟩
        exact (List.sublist_cons_self _ _).append_left s.2
      · rw [hmore] at hgrows hsublist
        refine ⟨(List.prefix_append _ _).trans hgrows, ?_⟩
        simpa using hsublist

theorem idxOf?_append_of_mem {K : List Address} {a : Address} (h : a ∈ K) (L : List Address) :
    (K ++ L).idxOf? a = K.idxOf? a := by
  obtain ⟨i, hi⟩ := Option.isSome_iff_exists.mp (List.isSome_idxOf?.mpr h)
  rw [hi]
  rw [List.idxOf?] at hi ⊢
  rw [List.findIdx?_append, hi]
  rfl

theorem idxOf?_concat {K : List Address} {a : Address} (h : a ∉ K) : (K ++ [a]).idxOf? a = some K.length := by
  have hnone : K.idxOf? a = none := by
    rw [← Option.not_isSome_iff_eq_none, List.isSome_idxOf?]
    exact h
  rw [List.idxOf?] at hnone ⊢
  rw [List.findIdx?_append, hnone]
  simp

/-- Reading an item is reading the type itself and then, if it is new, what is nested in it. -/
theorem readType_obj (m : ModuleId) (enclosing : Option TypeId) (bad : SchemaError) (d : Draft) (o : Object) :
    ∃ bad', (Draft.readType m enclosing bad d (.obj o)).toOption = (readOwn d m enclosing o).bind fun r =>
      match r.1 with
      | none => some r.2
      | some t => (Draft.readTypes m (some t) bad' r.2 (Object.items o "NestedTypes")).toOption := by
  rw [Draft.readType, toOption_bind, Draft.toOption_check, readOwn]
  cases TypeDecl.decode o with
  | error fault => exact ⟨bad, rfl⟩
  | ok decl =>
    refine ⟨.nestedNotObject (.type decl.name), ?_⟩
    rw [show (Except.ok decl : Except SchemaError TypeDecl).toOption = some decl from rfl, Option.bind_some,
      Option.bind_some]
    cases d.program.addType? m decl enclosing with
    | none => rfl
    | some new => simp only [toOption_bind, Option.bind_map, Function.comp_def]

/-- Reading the items of a list of types, in whatever state, is one pass over them in the order of the text. -/
def OnePass (vs : List Json) : Prop :=
  ∀ (s : Scope) (i : Nat) (d : Draft) (K : List Address) (bad : SchemaError), Numbers (d, K) → s.around ⊆ K →
    (K ++ (entriesFrom s i vs).map (·.address)).Nodup →
    (Draft.readTypes s.moduleId (s.around.getLast?.bind K.idxOf?) bad d vs).toOption =
      ((entriesFrom s i vs).foldlM readItem (d, K)).map Prod.fst

theorem readType_onePass {v : Json} (hnested : OnePass (Object.items v.members "NestedTypes")) (s : Scope) (i : Nat)
    (d : Draft) (K : List Address) (bad : SchemaError) (hnumbers : Numbers (d, K)) (haround : s.around ⊆ K)
    (hnodup : (K ++ (entriesAt s i v).map (·.address)).Nodup) :
    (Draft.readType s.moduleId (s.around.getLast?.bind K.idxOf?) bad d v).toOption =
      ((entriesAt s i v).foldlM readItem (d, K)).map Prod.fst := by
  have hhere : ∀ a ∈ (s.entry i v).around, a ∈ (d, K).2 := haround
  cases v with
  | obj o =>
    rw [entriesAt_eq] at hnodup ⊢
    obtain ⟨bad', hread⟩ := readType_obj s.moduleId (s.around.getLast?.bind K.idxOf?) bad d o
    have hentry : readItem (d, K) (s.entry i (.obj o)) =
        (readOwn d s.moduleId (s.around.getLast?.bind K.idxOf?) o).map fun
          | (none, d) => (d, K)
          | (some _, d) => (d, K ++ [s.address ++ [i]]) := if_pos hhere
    have hnew : s.address ++ [i] ∉ K := by
      intro hmem
      exact List.disjoint_of_nodup_append hnodup hmem List.mem_cons_self
    rw [hread, List.foldlM_cons, hentry]
    cases hown : readOwn d s.moduleId (s.around.getLast?.bind K.idxOf?) o with
    | none => rfl
    | some r =>
      obtain ⟨r, d'⟩ := r
      obtain ⟨decl, -, ⟨-, rfl, rfl⟩ | ⟨-, rfl, hg⟩⟩ := readOwn_cases hown
      · -- a duplicate: nothing nested in it is read, and the pass goes over all of it
        show some _ = Option.map _ (List.foldlM _ _ _)
        rw [foldlM_readItem_outside hnew fun e he => mem_around_of_mem_entriesFrom List.mem_concat_self he]
        rfl
      · -- a new type: its address is the last one, so its position is the number of addresses before it
        have hlast : ((s.entry i (.obj o)).scope.around.getLast?.bind (K ++ [s.address ++ [i]]).idxOf?) =
            some d.program.types.size := by
          rw [← show K.length = d.program.types.size from hnumbers, ← idxOf?_concat hnew]
          simp [Scope.entry, TypeEntry.scope]
        have hpass := hnested (s.entry i (.obj o)).scope 0 d' (K ++ [s.address ++ [i]]) bad' ?_ ?_ ?_
        · rw [hlast] at hpass
          exact hpass
        · rw [Numbers, hg.types, Program.withType_size, List.length_append,
            show K.length = d.program.types.size from hnumbers]
          rfl
        · exact List.append_subset.mpr ⟨List.subset_append_of_subset_left _ haround, List.subset_append_right _ _⟩
        · simpa [Scope.entry] using hnodup
  | _ =>
    rw [entriesAt_eq, List.foldlM_cons, readItem, if_pos hhere]
    simp [Draft.readType, Draft.check, Scope.entry, Except.toOption]

/-- Reading a list of types is one pass over the items in the order of the text. -/
theorem readTypes_onePass (vs : List Json) : OnePass vs := by
  induction vs using nestedInduction with
  | nil =>
    intro s i d K bad _ _ _
    rw [Draft.readTypes, entriesFrom]
    rfl
  | cons v vs ihNested ihRest =>
    intro s i d K bad hnumbers haround hnodup
    rw [entriesFrom, List.map_append, ← List.append_assoc] at hnodup
    have hfirst := readType_onePass ihNested s i d K bad hnumbers haround hnodup.of_append_left
    rw [Draft.readTypes, toOption_bind, hfirst, entriesFrom, List.foldlM_append, Option.bind_map]
    cases hpass : (entriesAt s i v).foldlM readItem (d, K) with
    | none => rfl
    | some s' =>
      obtain ⟨d', K'⟩ := s'
      obtain ⟨hnumbers', -, ⟨more, rfl⟩, hsublist⟩ := foldlM_readItem_kept hnumbers hpass
      have hrest := ihRest s (i + 1) d' (K ++ more) bad hnumbers' (List.subset_append_of_subset_left _ haround)
        (hnodup.sublist (hsublist.append_right _))
      -- the position of the type around is the same as before
      have hposition : s.around.getLast?.bind (K ++ more).idxOf? = s.around.getLast?.bind K.idxOf? := by
        cases hlast : s.around.getLast? with
        | none => rfl
        | some a => exact idxOf?_append_of_mem (haround (List.mem_of_getLast? hlast)) more
      rw [hposition] at hrest
      exact hrest

/-! ### What has been read -/

/-- The methods of the types that count, each with the position of its type, in the order of the text. -/
def methodEntries (kept : List TypeEntry) : List (TypeId × Json) :=
  kept.zipIdx.flatMap fun (e, t) => (Object.items e.value.members "Methods").map (t, ·)

/-- The position of the type that an item is nested in. -/
def TypeEntry.enclosing (e : TypeEntry) (kept : List TypeEntry) : Option TypeId :=
  e.around.getLast?.bind (kept.map (·.address)).idxOf?

/-- The types and methods of a program are those that count, in the order of the text. -/
structure Reflects (kept : List TypeEntry) (p : Program) : Prop where
  wellFormed : p.WellFormed
  closed : ∀ e ∈ kept, ∀ a ∈ e.around, a ∈ kept.map (·.address)
  typeCount : p.types.size = kept.length
  types : ∀ t e, kept[t]? = some e → ∃ o decl, e.value = .obj o ∧ TypeDecl.decode o = .ok decl ∧
    p.identityOf? t = some ⟨{ decl with ns := e.ns }, e.fullName, e.moduleId, e.enclosing kept⟩
  methodCount : p.methods.size = (methodEntries kept).length
  methods : ∀ m t x, (methodEntries kept)[m]? = some (t, x) → ∃ o decl, x = .obj o ∧
    MethodDecl.decode o (p.typeName t) = .ok decl ∧ p.declarationOf? m = some (decl, t)

theorem enclosing_eq_some {e : TypeEntry} {kept : List TypeEntry} {t : TypeId} (h : e.enclosing kept = some t) :
    ∃ x, kept[t]? = some x ∧ e.around.getLast? = some x.address := by
  obtain ⟨a, ha, hidx⟩ := Option.bind_eq_some_iff.mp h
  obtain ⟨hlt, hget, -⟩ := List.idxOf?_eq_some_iff.mp hidx
  rw [List.length_map] at hlt
  refine ⟨kept[t], List.getElem?_eq_getElem hlt, ?_⟩
  rw [ha, ← hget, List.getElem_map]

theorem enclosing_append {e : TypeEntry} {kept : List TypeEntry} (h : ∀ a ∈ e.around, a ∈ kept.map (·.address))
    (more : List TypeEntry) : e.enclosing (kept ++ more) = e.enclosing kept := by
  unfold TypeEntry.enclosing
  cases hlast : e.around.getLast? with
  | none => rfl
  | some a =>
    rw [List.map_append]
    exact idxOf?_append_of_mem (h a (List.mem_of_getLast? hlast)) _

theorem methodEntries_concat (kept : List TypeEntry) (e : TypeEntry) : methodEntries (kept ++ [e]) =
    methodEntries kept ++ (Object.items e.value.members "Methods").map (kept.length, ·) := by
  simp [methodEntries, List.zipIdx_append]

namespace Reflects

variable {kept : List TypeEntry} {p : Program}

theorem fullNameOf? (h : Reflects kept p) {t : TypeId} {e : TypeEntry} (he : kept[t]? = some e) :
    p.fullNameOf? t = some e.fullName := by
  obtain ⟨o, decl, -, -, hidentity⟩ := h.types t e he
  obtain ⟨ty, hty, heq⟩ := Option.map_eq_some_iff.mp hidentity
  rw [Program.fullNameOf?, hty, Option.map_some]
  exact congrArg (fun x => some x.fullName) heq

theorem nsOf? (h : Reflects kept p) {t : TypeId} {e : TypeEntry} (he : kept[t]? = some e) :
    p.nsOf? t = some e.ns := by
  obtain ⟨o, decl, -, -, hidentity⟩ := h.types t e he
  obtain ⟨ty, hty, heq⟩ := Option.map_eq_some_iff.mp hidentity
  rw [Program.nsOf?, hty, Option.map_some]
  exact congrArg (fun x => some x.decl.ns) heq

/-- A full name is taken if a type that counts has it. -/
theorem typeNamed?_eq_none (h : Reflects kept p) {n : String} :
    p.typeNamed? n = none ↔ n ∉ kept.map (·.fullName) := by
  rw [Program.typeNamed?_eq_none]
  constructor
  · intro hfree hmem
    obtain ⟨e, he, rfl⟩ := List.mem_map.mp hmem
    obtain ⟨t, ht⟩ := List.mem_iff_getElem?.mp he
    exact hfree t (h.fullNameOf? ht)
  · intro hfree t ht
    have hlt : t < kept.length := h.typeCount ▸ Program.fullNameOf?_lt ht
    have hname := h.fullNameOf? (List.getElem?_eq_getElem hlt)
    rw [ht] at hname
    exact hfree (List.mem_map.mpr ⟨kept[t], List.getElem_mem hlt, (Option.some.inj hname).symm⟩)

/-- A type gets the namespace and the full name that the text gives it. -/
theorem place_eq (h : Reflects kept p) {v : Json} (hkept : ∀ x ∈ kept, x ∈ typeEntries v) {e : TypeEntry}
    (he : e ∈ typeEntries v) (haround : ∀ a ∈ e.around, a ∈ kept.map (·.address)) {o : Object} {decl : TypeDecl}
    (hvalue : e.value = .obj o) (hdecl : TypeDecl.decode o = .ok decl) :
    p.place decl (e.enclosing kept) = (e.ns, e.fullName) := by
  obtain ⟨hname, hns, -⟩ := TypeDecl.decode_ok hdecl
  rcases located he with ⟨m, i, w, -, rfl⟩ | ⟨x, hx, i, w, rfl⟩
  · obtain rfl : w = .obj o := hvalue
    simp [Program.place, TypeEntry.enclosing, Scope.entry, Scope.names, Scope.ofModule, Json.members, hname, hns]
  · obtain rfl : w = .obj o := hvalue
    have hlast : (x.scope.entry i (.obj o)).around.getLast? = some x.address := by simp [Scope.entry, TypeEntry.scope]
    have hmem := haround x.address (List.mem_of_getLast? hlast)
    obtain ⟨t, ht⟩ := Option.isSome_iff_exists.mp (List.isSome_idxOf?.mpr hmem)
    have henclosing : (x.scope.entry i (.obj o)).enclosing kept = some t := by
      rw [TypeEntry.enclosing, hlast]
      exact ht
    obtain ⟨y, hy, haddress⟩ := enclosing_eq_some henclosing
    obtain rfl : y = x := by
      rw [hlast] at haddress
      exact eq_of_address_eq (hkept y (List.mem_of_getElem? hy)) hx (Option.some.inj haddress).symm
    obtain ⟨ty, hty, hns'⟩ := Option.map_eq_some_iff.mp (h.nsOf? hy)
    obtain ⟨ty', hty', hname'⟩ := Option.map_eq_some_iff.mp (h.fullNameOf? hy)
    obtain rfl : ty = ty' := Option.some.inj (hty.symm.trans hty')
    rw [henclosing, Program.place, Option.bind_some, hty]
    simp [Scope.entry, Scope.names, TypeEntry.scope, Json.members, hname, hns', hname']

theorem enclosing_lt (h : Reflects kept p) {e : TypeEntry} : ∀ o ∈ e.enclosing kept, o < p.types.size := by
  intro o ho
  obtain ⟨x, hx, -⟩ := enclosing_eq_some ho
  rw [h.typeCount]
  exact (List.getElem?_eq_some_iff.mp hx).1

section Concat

variable {e : TypeEntry} {o : Object} {decl : TypeDecl} {q : Program}

theorem concat_identityOf? (hg : Program.Gains p.types.size (Object.items o "Methods")
    (p.withType e.moduleId decl (e.enclosing kept)) q) {t : TypeId} (ht : t ≠ p.types.size) :
    q.identityOf? t = p.identityOf? t :=
  (hg.identityOf? t).trans (Program.withType_identityOf? ht)

theorem concat_types (h : Reflects kept p) (haround : ∀ a ∈ e.around, a ∈ kept.map (·.address))
    (hvalue : e.value = .obj o)
    (hdecl : TypeDecl.decode o = .ok decl) (hplace : p.place decl (e.enclosing kept) = (e.ns, e.fullName))
    (hg : Program.Gains p.types.size (Object.items o "Methods") (p.withType e.moduleId decl (e.enclosing kept)) q)
    (t : TypeId) (x : TypeEntry) (hx : (kept ++ [e])[t]? = some x) :
    ∃ o decl, x.value = .obj o ∧ TypeDecl.decode o = .ok decl ∧
      q.identityOf? t = some ⟨{ decl with ns := x.ns }, x.fullName, x.moduleId, x.enclosing (kept ++ [e])⟩ := by
  rcases Nat.lt_or_ge t kept.length with hlt | hge
  · rw [List.getElem?_append_left hlt] at hx
    obtain ⟨o', decl', hvalue', hdecl', hx'⟩ := h.types t x hx
    refine ⟨o', decl', hvalue', hdecl', ?_⟩
    rw [concat_identityOf? hg (Nat.ne_of_lt (h.typeCount ▸ hlt)), hx',
      enclosing_append (h.closed x (List.mem_of_getElem? hx))]
  · obtain ⟨rfl, rfl⟩ : t = p.types.size ∧ e = x := by
      rw [List.getElem?_append_right hge, List.getElem?_singleton] at hx
      split at hx
      · rename_i hzero
        exact ⟨h.typeCount ▸ Nat.le_antisymm (Nat.le_of_sub_eq_zero hzero) hge, Option.some.inj hx⟩
      · simp at hx
    refine ⟨o, decl, hvalue, hdecl, ?_⟩
    rw [hg.identityOf?, Program.identityOf?, Program.withType_last h.enclosing_lt, enclosing_append haround]
    simp [Program.typeAt, TypeDef.identity, hplace]

theorem concat_methods (h : Reflects kept p)
    (hg : Program.Gains p.types.size (Object.items o "Methods") (p.withType e.moduleId decl (e.enclosing kept)) q)
    (m : MethodId) (t : TypeId) (x : Json)
    (hx : (methodEntries kept ++ (Object.items o "Methods").map (p.types.size, ·))[m]? = some (t, x)) :
    ∃ o decl, x = .obj o ∧ MethodDecl.decode o (q.typeName t) = .ok decl ∧ q.declarationOf? m = some (decl, t) := by
  rcases Nat.lt_or_ge m (methodEntries kept).length with hlt | hge
  · rw [List.getElem?_append_left hlt] at hx
    obtain ⟨o', decl', hvalue', hdecl', hm⟩ := h.methods m t x hx
    have ht : t < p.types.size := by
      obtain ⟨y, hy, heq⟩ := Option.map_eq_some_iff.mp hm
      refine h.wellFormed.owner m t ?_
      rw [Program.ownerOf?, hy, Option.map_some]
      exact congrArg some (Prod.mk.inj heq).2
    refine ⟨o', decl', hvalue', ?_, ?_⟩
    · rw [Program.typeName_congr (concat_identityOf? hg (Nat.ne_of_lt ht))]
      exact hdecl'
    · refine hg.earlier m _ ?_
      rw [Program.declarationOf?, Program.withType_methods]
      exact hm
  · rw [List.getElem?_append_right hge, List.getElem?_map] at hx
    obtain ⟨y, hy, heq⟩ := Option.map_eq_some_iff.mp hx
    obtain ⟨rfl, rfl⟩ := Prod.mk.inj heq
    obtain ⟨o', decl', hvalue', hdecl', hm⟩ := hg.later _ y hy
    refine ⟨o', decl', hvalue', ?_, ?_⟩
    · rw [Program.typeName_congr (hg.identityOf? p.types.size)]
      exact hdecl'
    · rw [Program.withType_methods, h.methodCount, Nat.add_sub_cancel' hge] at hm
      exact hm

/-- One more type that counts, with its methods. -/
theorem concat (h : Reflects kept p) (haround : ∀ a ∈ e.around, a ∈ kept.map (·.address)) (hvalue : e.value = .obj o)
    (hdecl : TypeDecl.decode o = .ok decl) (hplace : p.place decl (e.enclosing kept) = (e.ns, e.fullName))
    (hmodule : e.moduleId < p.modules.size) (hfree : p.typeNamed? e.fullName = none)
    (hg : Program.Gains p.types.size (Object.items o "Methods") (p.withType e.moduleId decl (e.enclosing kept)) q) :
    Reflects (kept ++ [e]) q := by
  have hmethods : methodEntries (kept ++ [e]) =
      methodEntries kept ++ (Object.items o "Methods").map (p.types.size, ·) := by
    rw [methodEntries_concat, hvalue, h.typeCount]
    rfl
  refine ⟨?_, ?_, ?_, h.concat_types haround hvalue hdecl hplace hg, ?_, ?_⟩
  · refine hg.wellFormed (by simp [Program.withType_size]) ?_
    exact Program.withType_wellFormed h.wellFormed hmodule h.enclosing_lt (by rw [hplace]; exact hfree)
  · intro x hx a ha
    rw [List.map_append]
    refine List.mem_append_left _ ?_
    rcases List.mem_append.mp hx with hx | hx
    · exact h.closed x hx a ha
    · rw [List.mem_singleton.mp hx] at ha
      exact haround a ha
  · rw [hg.types, Program.withType_size, List.length_append, h.typeCount]
    rfl
  · rw [hg.methods, Program.withType_methods, hmethods, List.length_append, List.length_map, h.methodCount]
  · rw [hmethods]
    exact h.concat_methods hg

end Concat

/-- Reading an item keeps program and text in step. -/
theorem readItem {v : Json} {d : Draft} (h : Reflects kept d.program) (hkept : ∀ x ∈ kept, x ∈ typeEntries v)
    {e : TypeEntry} (he : e ∈ typeEntries v) (hmodule : e.moduleId < d.program.modules.size) {s : Draft × List Address}
    (hread : readItem (d, kept.map (·.address)) e = some s) :
    s.2 = (keep kept e).map (·.address) ∧ Reflects (keep kept e) s.1.program := by
  have henclosing : e.around.getLast?.bind (kept.map (·.address)).idxOf? = e.enclosing kept := rfl
  rcases readItem_cases henclosing hread with ⟨houtside, rfl⟩ | ⟨haround, o, decl, hvalue, hdecl, hcases⟩
  · have hkeep : keep kept e = kept := if_neg fun hcounts => houtside hcounts.1
    rw [hkeep]
    exact ⟨rfl, h⟩
  · have hplace := h.place_eq hkept he haround hvalue hdecl
    rw [hplace] at hcases
    rcases hcases with ⟨htaken, rfl⟩ | ⟨hfree, hK, hg⟩
    · have hkeep : keep kept e = kept := if_neg fun hcounts => htaken (h.typeNamed?_eq_none.mpr hcounts.2)
      rw [hkeep]
      exact ⟨rfl, h⟩
    · have hkeep : keep kept e = kept ++ [e] := if_pos ⟨haround, h.typeNamed?_eq_none.mp hfree⟩
      rw [hkeep]
      exact ⟨by rw [hK, List.map_append]; rfl, h.concat haround hvalue hdecl hplace hmodule hfree hg⟩

theorem numbers {d : Draft} (h : Reflects kept d.program) : Numbers (d, kept.map (·.address)) := by
  rw [Numbers, h.typeCount, List.length_map]

theorem keep_subset {l : List TypeEntry} {e : TypeEntry} (hkept : ∀ x ∈ kept, x ∈ l) (he : e ∈ l) :
    ∀ x ∈ keep kept e, x ∈ l := by
  unfold keep
  split
  · intro x hx
    rcases List.mem_append.mp hx with hx | hx
    · exact hkept x hx
    · exact List.mem_singleton.mp hx ▸ he
  · exact hkept

/-- So does a pass over many items. -/
theorem foldlM_readItem {v : Json} : ∀ {l kept : List TypeEntry} {d : Draft} {s : Draft × List Address},
    Reflects kept d.program → (∀ x ∈ kept, x ∈ typeEntries v) →
    (∀ e ∈ l, e ∈ typeEntries v ∧ e.moduleId < d.program.modules.size) →
    l.foldlM Description.readItem (d, kept.map (·.address)) = some s →
    s.2 = (l.foldl keep kept).map (·.address) ∧ Reflects (l.foldl keep kept) s.1.program
  | [], kept, d, s, h, _, _, hread => by
      obtain rfl := Option.some.inj hread
      exact ⟨rfl, h⟩
  | e :: l, kept, d, s, h, hkept, hl, hread => by
      rw [List.foldlM_cons] at hread
      obtain ⟨⟨d', K⟩, hfirst, hrest⟩ := Option.bind_eq_some_iff.mp hread
      obtain ⟨he, hmodule⟩ := hl e List.mem_cons_self
      obtain ⟨rfl, h'⟩ := h.readItem hkept he hmodule hfirst
      have hsize : d'.program.modules.size = d.program.modules.size := by
        rw [← Program.size_heads, (readItem_kept h.numbers hfirst).2.1, Program.size_heads]
      rw [List.foldl_cons]
      exact foldlM_readItem h' (keep_subset hkept he) (fun x hx => hsize ▸ hl x (List.mem_cons_of_mem e hx)) hrest

end Reflects

end Description

end CallGraphs
