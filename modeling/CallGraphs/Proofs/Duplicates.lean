import CallGraphs.Proofs.Declaring
import CallGraphs.Proofs.Members

/-! What stands in a type that does not count has no effect. Such a type has the name of an earlier one, or is nested in
    one that has. With any other object in its place that gives the same name, the pass over the text is in the same
    state at every item (`foldlM_readItem_exchange`), so the same program is read. -/

namespace CallGraphs

open Json (Object)

/-! ### Other values in a description -/

/-- The description with the value `new` at the end of a path. A step of the path goes to an item of the list under
    a key. -/
def Json.replaceAt (new : Json) : List (String × Nat) → Json → Json
  | [], _ => new
  | (key, i) :: path, .obj o => .obj (Object.change o key (overItems (List.modify · i fun v => replaceAt new path v)))
  | _, v => v

namespace Description

/-- The path to the item with an address. -/
def pathTo : Address → List (String × Nat)
  | m :: i :: rest => ("Modules", m) :: ("Types", i) :: rest.map ("NestedTypes", ·)
  | _ => []

/-- A type can be read from the object, and it has the names that the item has. -/
structure Namesake (e : TypeEntry) (o : Object) : Prop where
  readable : ∃ decl, TypeDecl.decode o = .ok decl
  name : Object.text? o "Name" = Object.text? e.value.members "Name"
  ns : Object.text? o "Namespace" = Object.text? e.value.members "Namespace"

/-! ### Reading in place of another item -/

theorem entry_eq {s : Scope} {i : Nat} {w : Json} {o : Object}
    (hname : Object.text? o "Name" = Object.text? w.members "Name")
    (hns : Object.text? o "Namespace" = Object.text? w.members "Namespace") :
    s.entry i (.obj o) = { s.entry i w with value := .obj o } := by
  simp only [Scope.entry, Scope.names, Object.name?, ← hname, ← hns]
  rfl

/-- A type is read in the same way whatever is nested in it. -/
theorem entry_overNested (s : Scope) (i : Nat) (o : Object) (f : Json → Json) :
    (s.entry i (.obj (Object.change o "NestedTypes" f))).scope = (s.entry i (.obj o)).scope ∧
      ∀ st, readItem st (s.entry i (.obj (Object.change o "NestedTypes" f))) = readItem st (s.entry i (.obj o)) := by
  have hget : ∀ key, key ≠ "NestedTypes" → Object.get? (Object.change o "NestedTypes" f) key = Object.get? o key :=
    fun key hne => Object.get?_change_of_ne hne f o
  have htext : ∀ key, key ≠ "NestedTypes" → Object.text? (Object.change o "NestedTypes" f) key = Object.text? o key :=
    fun key hne => Object.text?_congr (hget key hne)
  have hdecode : TypeDecl.decode (Object.change o "NestedTypes" f) = TypeDecl.decode o :=
    TypeDecl.decode_congr (by simp [htext]) (by simp [hget])
  have hmethods : Object.items (Object.change o "NestedTypes" f) "Methods" = Object.items o "Methods" :=
    congrArg (Option.getD · []) (Object.array?_congr (hget "Methods" (by decide)))
  rw [entry_eq (w := Json.obj o) (htext "Name" (by decide)) (htext "Namespace" (by decide))]
  refine ⟨rfl, fun st => ?_⟩
  have hown : ∀ m enclosing,
      readOwn st.1 m enclosing (Object.change o "NestedTypes" f) = readOwn st.1 m enclosing o := by
    intro m enclosing
    simp only [readOwn, hdecode, hmethods]
  unfold readItem
  simp only [hown]
  rfl

/-- A type that does not count can be exchanged for one of its names. -/
theorem readItem_namesake {st st' : Draft × List Address} {e : TypeEntry} {o : Object} (ho : Namesake e o)
    (h : readItem st e = some st') (hout : e.address ∉ st'.2) : readItem st { e with value := .obj o } = some st' := by
  obtain ⟨d, K⟩ := st
  rcases readItem_cases rfl h with ⟨houtside, rfl⟩ | ⟨haround, o₀, decl, hvalue, hdecl, ⟨htaken, rfl⟩ | ⟨-, hK, -⟩⟩
  · exact if_neg houtside
  · obtain ⟨decl', hdecl'⟩ := ho.readable
    have hnames : decl'.name = decl.name ∧ decl'.ns = decl.ns := by
      obtain ⟨hname, hns, -⟩ := TypeDecl.decode_ok hdecl
      obtain ⟨hname', hns', -⟩ := TypeDecl.decode_ok hdecl'
      rw [Object.name?, ho.name, hvalue] at hname'
      rw [ho.ns, hvalue] at hns'
      exact ⟨Option.some.inj (hname'.symm.trans hname), hns'.symm.trans hns⟩
    have hplace : ∀ enclosing, d.program.place decl' enclosing = d.program.place decl enclosing := by
      intro enclosing
      rw [Program.place, hnames.1, hnames.2, Program.place]
    have hown : readOwn d e.moduleId (e.around.getLast?.bind K.idxOf?) o =
        some (none, d.note (d.program.duplicateType e.moduleId decl (e.around.getLast?.bind K.idxOf?))) := by
      rw [readOwn, hdecl', show (Except.ok decl' : Except SchemaError TypeDecl).toOption = some decl' from rfl,
        Option.bind_some, Program.addType?_eq, hplace, if_pos (Option.isSome_iff_ne_none.mpr htaken),
        Program.duplicateType, hplace]
      rfl
    show (if ∀ a ∈ e.around, a ∈ K then Option.map _ _ else _) = _
    rw [if_pos haround, hown]
    rfl
  · rw [hK] at hout
    simp at hout

/-! ### Reading another description -/

/-- The items of a list with the one exchanged whose address goes on with `k` and `rest`. -/
def exchange (new : Json) (i k : Nat) (rest : Address) (vs : List Json) : List Json :=
  vs.modify (k - i) (Json.replaceAt new (rest.map ("NestedTypes", ·)))

theorem exchange_later {new : Json} {i k : Nat} {rest : Address} {w : Json} {vs : List Json} (h : i < k) :
    exchange new i k rest (w :: vs) = w :: exchange new (i + 1) k rest vs := by
  have hk : k - i = (k - (i + 1)) + 1 := by omega
  rw [exchange, hk, List.modify_succ_cons, exchange]

theorem exchange_here {new : Json} {i : Nat} {rest : Address} {w : Json} {vs : List Json} :
    exchange new i i rest (w :: vs) = Json.replaceAt new (rest.map ("NestedTypes", ·)) w :: vs := by
  rw [exchange, Nat.sub_self, List.modify_zero_cons]

/-- A pass over a list in which an item that does not count is exchanged. -/
theorem foldlM_readItem_exchange {e : TypeEntry} {o : Object} (ho : Namesake e o) (vs : List Json) :
    ∀ {s : Scope} {i k : Nat} {rest : Address} {st st' : Draft × List Address}, e ∈ entriesFrom s i vs →
    e.address = s.address ++ k :: rest → Numbers st → (entriesFrom s i vs).foldlM readItem st = some st' →
    e.address ∉ st'.2 → (entriesFrom s i (exchange (.obj o) i k rest vs)).foldlM readItem st = some st' := by
  induction vs using nestedInduction with
  | nil => simp [entriesFrom]
  | cons w vs ihNested ihRest =>
    intro s i k rest st st' he haddress hst hread hout
    rw [entriesFrom, List.foldlM_append] at hread
    obtain ⟨st₂, hfirst, hlast⟩ := Option.bind_eq_some_iff.mp hread
    rw [entriesAt_eq, List.foldlM_cons] at hfirst
    obtain ⟨st₁, hentry, hnested⟩ := Option.bind_eq_some_iff.mp hfirst
    have hst₁ := (readItem_kept hst hentry).1
    obtain ⟨hst₂, -, hgrows₂, -⟩ := foldlM_readItem_kept hst₁ hnested
    obtain ⟨-, -, hgrows', -⟩ := foldlM_readItem_kept hst₂ hlast
    have hout₂ : e.address ∉ st₂.2 := fun hmem => hout (hgrows'.subset hmem)
    have hout₁ : e.address ∉ st₁.2 := fun hmem => hout₂ (hgrows₂.subset hmem)
    rcases mem_entriesFrom_cons.mp he with rfl | he | he
    · -- the item itself: what is nested in it is passed over, before and after
      obtain ⟨rfl, rfl⟩ : i = k ∧ rest = [] := by simpa [Scope.entry, eq_comm] using haddress
      have hinside : ∀ l, (entriesFrom (s.entry i w).scope 0 l).foldlM readItem st₁ = some st₁ := by
        intro l
        refine foldlM_readItem_outside hout₁ fun x hx => ?_
        exact mem_around_of_mem_entriesFrom List.mem_concat_self hx
      obtain rfl : st₁ = st₂ := Option.some.inj ((hinside _).symm.trans hnested)
      rw [exchange_here, List.map_nil, Json.replaceAt, entriesFrom, entriesAt_eq, List.cons_append, List.foldlM_cons,
        entry_eq (w := w) ho.name ho.ns, readItem_namesake ho hentry hout₁]
      refine (List.foldlM_append.trans ?_)
      rw [show ({ s.entry i w with value := .obj o } : TypeEntry).scope = (s.entry i w).scope from rfl, hinside]
      exact hlast
    · -- inside this type, which is read as before
      obtain ⟨j, rest', -, hinside⟩ := address_of_mem_entriesFrom he
      obtain ⟨rfl, rfl⟩ : i = k ∧ j :: rest' = rest := by
        rw [haddress] at hinside
        simpa [Scope.entry, TypeEntry.scope, eq_comm] using hinside
      cases w with
      | obj ow =>
        have hnested' := ihNested he hinside hst₁ hnested hout₂
        obtain ⟨hscope, hread'⟩ := entry_overNested s i ow
          (Json.overItems (List.modify · j (Json.replaceAt (.obj o) (rest'.map ("NestedTypes", ·)))))
        rw [exchange_here, List.map_cons, Json.replaceAt, entriesFrom, entriesAt_eq, List.cons_append, List.foldlM_cons,
          hread', hentry, hscope]
        show (List.foldlM readItem st₁ (_ ++ _)) = _
        rw [List.foldlM_append, Json.members, Object.items_change]
        · exact (congrArg (Option.bind · _) hnested').trans hlast
        · exact List.modify_nil _ _
      | _ => simp [Json.members, Object.items, Object.array?, Object.get?, entriesFrom] at he
    · obtain ⟨j, rest', hj, hlater⟩ := address_of_mem_entriesFrom he
      obtain ⟨rfl, rfl⟩ : j = k ∧ rest' = rest := by
        rw [haddress] at hlater
        simpa [eq_comm] using hlater
      rw [exchange_later hj, entriesFrom, List.foldlM_append, entriesAt_eq, List.foldlM_cons, hentry]
      show ((entriesFrom _ _ _).foldlM readItem st₁ >>= _) = _
      rw [hnested]
      exact ihRest he haddress hst₂ hlast hout

theorem foldlM_readPart_grows : ∀ {l : List Part} {st st' : Draft × List Address}, Numbers st →
    l.foldlM readPart st = some st' → st.2 <+: st'.2
  | [], _, _, _, h => by
      obtain rfl := Option.some.inj h
      exact List.prefix_rfl
  | part :: l, st, st', hst, h => by
      rw [List.foldlM_cons] at h
      obtain ⟨st₁, hfirst, hrest⟩ := Option.bind_eq_some_iff.mp h
      cases part with
      | head x =>
        obtain ⟨head, -, rfl⟩ := Option.map_eq_some_iff.mp hfirst
        have hst₁ : Numbers ({ st.1 with program := withModule st.1.program head }, st.2) := hst
        have hgrows := foldlM_readPart_grows hst₁ hrest
        exact hgrows
      | type e =>
        obtain ⟨hst₁, -, hsame | hmore⟩ := readItem_kept hst hfirst
        · exact hsame ▸ foldlM_readPart_grows hst₁ hrest
        · exact (List.prefix_append _ _).trans (hmore ▸ foldlM_readPart_grows hst₁ hrest)

/-- What a description says of a module itself does not depend on its types. -/
theorem headOf?_overTypes (o : Object) (f : Json → Json) :
    headOf? (.obj (Object.change o "Types" f)) = headOf? (.obj o) := by
  have hget : ∀ key, key ≠ "Types" → Object.get? (Object.change o "Types" f) key = Object.get? o key :=
    fun key hne => Object.get?_change_of_ne hne f o
  simp only [headOf?, Json.members, Object.name?, Object.text?_congr (hget "Name" (by decide)),
    Object.object?_congr (hget "EntryPoint" (by decide))]

/-- A pass over modules in which a type that does not count is exchanged. -/
theorem foldlM_readPart_exchange {e : TypeEntry} {o : Object} (ho : Namesake e o) : ∀ {xs : List Json} {m k i : Nat}
    {rest : Address} {st st' : Draft × List Address}, e ∈ moduleEntries m xs → e.address = k :: i :: rest → Numbers st →
    (partsFrom m xs).foldlM readPart st = some st' → e.address ∉ st'.2 →
    (partsFrom m (xs.modify (k - m) (Json.replaceAt (.obj o) (("Types", i) :: rest.map ("NestedTypes", ·))))).foldlM
      readPart st = some st'
  | [], _, _, _, _, _, _, he, _, _, _, _ => by simp [moduleEntries] at he
  | x :: xs, m, k, i, rest, st, st', he, haddress, hst, hread, hout => by
      rw [partsFrom, List.cons_append, List.foldlM_cons] at hread
      obtain ⟨st₁, hhead, hread⟩ := Option.bind_eq_some_iff.mp hread
      rw [List.foldlM_append, foldlM_readPart_type] at hread
      obtain ⟨st₂, htypes, hlast⟩ := Option.bind_eq_some_iff.mp hread
      have hst₁ : Numbers st₁ := by
        obtain ⟨head, -, rfl⟩ := Option.map_eq_some_iff.mp hhead
        exact hst
      have hst₂ := (foldlM_readItem_kept hst₁ htypes).1
      rcases List.mem_append.mp he with he | he
      · obtain ⟨j, rest', -, hinside⟩ := address_of_mem_entriesFrom he
        obtain ⟨rfl, rfl, rfl⟩ : m = k ∧ j = i ∧ rest' = rest := by
          rw [haddress] at hinside
          simpa [Scope.ofModule, eq_comm] using hinside
        cases x with
        | obj ox =>
          have hout₂ : e.address ∉ st₂.2 := fun hmem => hout ((foldlM_readPart_grows hst₂ hlast).subset hmem)
          have htypes' := foldlM_readItem_exchange ho _ he hinside hst₁ htypes hout₂
          rw [Nat.sub_self, List.modify_zero_cons, Json.replaceAt, partsFrom, List.cons_append, List.foldlM_cons,
            readPart, headOf?_overTypes]
          refine (congrArg (Option.bind · _) hhead).trans ?_
          show List.foldlM readPart st₁ (_ ++ _) = _
          rw [List.foldlM_append, foldlM_readPart_type, Json.members, Object.items_change]
          · exact (congrArg (Option.bind · _) htypes').trans hlast
          · exact List.modify_nil _ _
        | _ => simp [Json.members, Object.items, Object.array?, Object.get?, entriesFrom] at he
      · obtain ⟨j, i', rest', hj, hlater⟩ := address_of_mem_moduleEntries he
        obtain ⟨rfl, -⟩ : j = k ∧ i' :: rest' = i :: rest := by
          rw [haddress] at hlater
          simpa [eq_comm] using hlater
        have hsub : j - m = (j - (m + 1)) + 1 := (Nat.sub_add_cancel (Nat.sub_pos_of_lt hj)).symm
        rw [hsub, List.modify_succ_cons, partsFrom, List.cons_append, List.foldlM_cons]
        refine (congrArg (Option.bind · _) hhead).trans ?_
        show List.foldlM readPart st₁ (_ ++ _) = _
        rw [List.foldlM_append, foldlM_readPart_type]
        refine (congrArg (Option.bind · _) htypes).trans ?_
        exact foldlM_readPart_exchange ho he haddress hst₂ hlast hout

/-- Reading keeps exactly the first definitions, in the order of the text: the modules, the types that count and their
    methods get their positions in that order and have the fields that their objects give, and a type that does not
    count may hold anything in place of what it holds. -/
theorem ofText_firstDefinitions {parse : Json.Parser} {source text : String} {d : Draft}
    (h : Program.ofText parse source text = .ok d) :
    ∃ v, parse text = some v ∧ Describes v d.program ∧ Declared v d.program ∧
      ∀ e ∈ typeEntries v, e.address ∉ (keptTypes v).map (·.address) → ∀ o, Namesake e o →
        Program.ofDocument source (Json.replaceAt (.obj o) (pathTo e.address) v) = .ok d := by
  obtain ⟨v, hv, hdocument⟩ := ofText_eq_ok.mp h
  obtain ⟨d₀, hread, rfl⟩ := ofDocument_eq_ok.mp hdocument
  obtain ⟨ov, entries, K, rfl, hentries, hpass⟩ := readDocument_eq_ok.mp hread
  obtain ⟨hK, hdescribes⟩ := describes_of_foldlM_readPart hentries hpass
  refine ⟨_, hv, hdescribes.finalize, hdescribes.finalize.declared, ?_⟩
  intro e he hout o ho
  have hmodules : modules (.obj ov) = entries := by simp [modules, Json.members, Object.items, hentries]
  rw [typeEntries, hmodules] at he
  obtain ⟨k, i, rest, -, haddress⟩ := address_of_mem_moduleEntries he
  rw [haddress, pathTo, Json.replaceAt]
  have hstart : Numbers ({}, []) := rfl
  have hpass' := foldlM_readPart_exchange ho he haddress hstart hpass (hK ▸ hout)
  refine ofDocument_eq_ok.mpr ⟨d₀, readDocument_eq_ok.mpr ⟨_, _, K, rfl, ?_, hpass'⟩, rfl⟩
  rw [Object.array?_change, hentries]
  rfl

/-- The text of a description in which a module has a type of a name that an earlier one took. -/
def mergedText : String :=
  "\x7b\"Modules\":[" ++
    "\x7b\"Name\":\"A\",\"Types\":[" ++
      "\x7b\"Name\":\"T\",\"Methods\":[\x7b\"Name\":\"f\",\"IsStatic\":true," ++
        "\"Body\":[\x7b\"OpCode\":\"newarr\",\"Type\":\"V\"\x7d]\x7d]," ++
        "\"NestedTypes\":[\x7b\"Name\":\"U\"\x7d]\x7d]\x7d," ++
    "\x7b\"Name\":\"B\",\"Types\":[" ++
      "\x7b\"Name\":\"T\",\"Methods\":[\x7b\"Name\":\"g\"\x7d]\x7d," ++
      "\x7b\"Name\":\"V\",\"Methods\":[\x7b\"Name\":\"h\"\x7d]\x7d]\x7d]\x7d"

/-- Its value. -/
def merged : Json :=
  .obj [("Modules", .arr [
    .obj [("Name", .str "A"), ("Types", .arr [
      .obj [("Name", .str "T"), ("Methods", .arr [.obj [("Name", .str "f"), ("IsStatic", .bool true),
        ("Body", .arr [.obj [("OpCode", .str "newarr"), ("Type", .str "V")]])]]),
        ("NestedTypes", .arr [.obj [("Name", .str "U")]])]])],
    .obj [("Name", .str "B"), ("Types", .arr [
      .obj [("Name", .str "T"), ("Methods", .arr [.obj [("Name", .str "g")]])],
      .obj [("Name", .str "V"), ("Methods", .arr [.obj [("Name", .str "h")]])]])]])]

theorem ofText_firstDefinitions_merged : ∃ d, Program.ofText Json.ofText? "merged" mergedText = .ok d ∧
    Describes merged d.program ∧ Declared merged d.program ∧
    (keptTypes merged).map (·.fullName) = ["T", "T/U", "V"] ∧
    d.program.methods.toList.map (fun m => (m.name, m.owner, m.isStatic, m.body)) =
      [("f", 0, true, some [.onType .newarr "V"]), ("h", 2, false, none)] ∧
    Program.ofDocument "merged" (Json.replaceAt (.obj [("Name", .str "T"), ("BaseType", .str "V"),
      ("NestedTypes", .arr [.obj [("Name", .str "W")]])]) [("Modules", 1), ("Types", 0)] merged) = .ok d := by
  have hvalue : Json.ofText? mergedText = some merged := by
    unfold mergedText
    rw [ofText?_eq]
    simp only [String.toList_append, String.reduceToList]
    set_option maxRecDepth 4000 in rfl
  have hread : ∃ d, Program.ofText Json.ofText? "merged" mergedText = .ok d ∧
      decide (d.program.methods.toList.map (fun m => (m.name, m.owner, m.isStatic, m.body)) =
        [("f", 0, true, some [.onType .newarr "V"]), ("h", 2, false, none)]) = true :=
    exists_ofText hvalue (by decide +kernel)
  obtain ⟨d, htext, hmethods⟩ := hread
  have hitem : ∃ e ∈ typeEntries merged, e.address = [1, 0] ∧ e.address ∉ (keptTypes merged).map (·.address) ∧
      Object.text? e.value.members "Name" = some "T" ∧ Object.text? e.value.members "Namespace" = none := by
    decide +kernel
  obtain ⟨e, he, haddress, hout, hname, hns⟩ := hitem
  obtain ⟨v, hv, hdescribes, hdeclared, hexchange⟩ := ofText_firstDefinitions htext
  obtain rfl : v = merged := Option.some.inj (hv.symm.trans hvalue)
  have hread' := hexchange e he hout [("Name", .str "T"), ("BaseType", .str "V"),
    ("NestedTypes", .arr [.obj [("Name", .str "W")]])] ⟨⟨_, rfl⟩, hname.symm, hns.symm⟩
  rw [haddress] at hread'
  exact ⟨d, htext, hdescribes, hdeclared, by decide +kernel, of_decide_eq_true hmethods, hread'⟩

end Description

end CallGraphs
