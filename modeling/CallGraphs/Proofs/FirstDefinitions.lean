import CallGraphs.Description.Load
import CallGraphs.Proofs.Numbering

/-! A description is read into the first definitions that it gives. Modules and types are parts of one pass over the
    text (`readDocument_eq_ok`), and what the pass has built is described by the text (`Describes`): one module for each
    entry, the types that count and their methods, all in the order of the text. Binding names does not change this. -/

namespace CallGraphs

open Json (Object)

namespace Description

/-! ### Modules -/

/-- What an entry of the list of modules says of the module itself. -/
def headOf? (x : Json) : Option (String × Option MethodRef) :=
  (Object.name? x.members "Name").bind fun name =>
    ((Object.object? x.members "EntryPoint").mapM fun r => MethodRef.decode r (.entryPoint name)).toOption.map (name, ·)

/-- The program with one more module, which has no types yet. -/
def withModule (p : Program) (head : String × Option MethodRef) : Program :=
  { p with modules := p.modules.push { name := head.1, entryRef := head.2 } }

/-- Naming the entry point of a module that was just added. -/
theorem setEntry_addModule (p : Program) (name : String) (ref : MethodRef) :
    (p.addModule name).2.setEntry p.modules.size ref = withModule p (name, some ref) := by
  have hmodules : (p.modules.push { name }).modify p.modules.size (fun d => { d with entryRef := some ref }) =
      p.modules.push { name, entryRef := some ref } := by
    refine Array.ext_getElem? fun i => ?_
    rw [Array.getElem?_modify, Array.getElem?_push, Array.getElem?_push]
    split
    · rename_i hi
      rw [if_pos hi.symm, if_pos hi.symm]
      rfl
    · rename_i hi
      rw [if_neg (Ne.symm hi), if_neg (Ne.symm hi)]
  exact congrArg (fun ms => { p with modules := ms }) hmodules

theorem readEntry_toOption (name : String) (o : Object) (d : Draft) :
    (Draft.readEntry d.program.modules.size name o { d with program := (d.program.addModule name).2 }).toOption =
      ((Object.object? o "EntryPoint").mapM fun r => MethodRef.decode r (.entryPoint name)).toOption.map
        fun entry => { d with program := withModule d.program (name, entry) } := by
  rw [Draft.readEntry]
  cases Object.object? o "EntryPoint" with
  | none => rfl
  | some r =>
    rw [toOption_bind, Draft.toOption_check, Option.mapM_some, map_eq_pure_bind, toOption_bind]
    cases MethodRef.decode r (.entryPoint name) with
    | error fault => rfl
    | ok ref => exact congrArg (fun p => some { d with program := p }) (setEntry_addModule d.program name ref)

/-- Reading a module adds its head and then reads its types. -/
theorem readModule_toOption (d : Draft) (x : Json) : ∃ bad, (d.readModule x).toOption =
    (headOf? x).bind fun head => (Draft.readTypes d.program.modules.size none bad
      { d with program := withModule d.program head } (Object.items x.members "Types")).toOption := by
  cases x with
  | obj o =>
    rw [Draft.readModule, headOf?, Json.members]
    cases Object.name? o "Name" with
    | none => exact ⟨.notAnObject, rfl⟩
    | some name =>
      refine ⟨.typeNotObject name, ?_⟩
      show (Draft.readEntry d.program.modules.size name o { d with program := (d.program.addModule name).2 } >>=
        _).toOption = _
      rw [toOption_bind, readEntry_toOption, Option.bind_map, Option.bind_some, Option.bind_map]
      rfl
  | _ => exact ⟨.notAnObject, rfl⟩

/-! ### One pass over a whole description -/

/-- What a description is read by: the head of a module, or a type. -/
inductive Part where
  | head (x : Json)
  | type (e : TypeEntry)

/-- The parts of some modules, the first one with number `m`, in the order of the text. -/
def partsFrom (m : ModuleId) : List Json → List Part
  | [] => []
  | x :: xs =>
    .head x :: (entriesFrom (.ofModule m) 0 (Object.items x.members "Types")).map .type ++ partsFrom (m + 1) xs

/-- Read one part. -/
def readPart (s : Draft × List Address) : Part → Option (Draft × List Address)
  | .head x => (headOf? x).map fun head => ({ s.1 with program := withModule s.1.program head }, s.2)
  | .type e => readItem s e

theorem foldlM_readPart_type (l : List TypeEntry) (s : Draft × List Address) :
    (l.map Part.type).foldlM readPart s = l.foldlM readItem s :=
  List.foldlM_map

theorem heads_withModule (p : Program) (head : String × Option MethodRef) :
    (withModule p head).heads = p.heads.push head :=
  Array.map_push

theorem size_of_heads_push {p q : Program} {head : String × Option MethodRef} (h : q.heads = p.heads.push head) :
    q.modules.size = p.modules.size + 1 := by
  rw [← Program.size_heads, h, Array.size_push, Program.size_heads]

/-- Reading modules is one pass over their parts in the order of the text. -/
theorem readModules_onePass : ∀ (xs : List Json) (d : Draft) (K : List Address), Numbers (d, K) →
    (K ++ (moduleEntries d.program.modules.size xs).map (·.address)).Nodup →
    (xs.foldlM Draft.readModule d).toOption =
      ((partsFrom d.program.modules.size xs).foldlM readPart (d, K)).map Prod.fst
  | [], _, _, _, _ => rfl
  | x :: xs, d, K, hnumbers, hnodup => by
      obtain ⟨bad, hmodule⟩ := readModule_toOption d x
      rw [moduleEntries, List.map_append, ← List.append_assoc] at hnodup
      rw [List.foldlM_cons, toOption_bind, hmodule, partsFrom, List.cons_append, List.foldlM_cons, readPart]
      cases headOf? x with
      | none => rfl
      | some head =>
        have hnumbers₁ : Numbers ({ d with program := withModule d.program head }, K) := hnumbers
        have htypes := readTypes_onePass (Object.items x.members "Types") (.ofModule d.program.modules.size) 0 _ K bad
          hnumbers₁ (List.nil_subset K) hnodup.of_append_left
        show Option.bind (Draft.readTypes _ _ _ _ _).toOption _ = Option.map _ (List.foldlM _ _ _)
        rw [List.foldlM_append, foldlM_readPart_type]
        refine (congrArg (Option.bind · _) htypes).trans ?_
        rw [Option.bind_map]
        cases hpass : (entriesFrom (.ofModule d.program.modules.size) 0 (Object.items x.members "Types")).foldlM
            readItem ({ d with program := withModule d.program head }, K) with
        | none => rfl
        | some s =>
          obtain ⟨d', K'⟩ := s
          obtain ⟨hnumbers', hheads, -, hsublist⟩ := foldlM_readItem_kept hnumbers₁ hpass
          have hsize : d'.program.modules.size = d.program.modules.size + 1 :=
            size_of_heads_push (hheads.trans (heads_withModule _ _))
          have hrest := readModules_onePass xs d' K' hnumbers'
            (by rw [hsize]; exact hnodup.sublist (hsublist.append_right _))
          rw [hsize] at hrest
          exact hrest

/-! ### What has been read of a description -/

theorem Reflects.of_sameOutline {kept : List TypeEntry} {p q : Program} (h : Reflects kept p)
    (hq : Program.SameOutline p q) (hmethods : ∀ m, q.declarationOf? m = p.declarationOf? m) : Reflects kept q := by
  refine ⟨h.wellFormed.of_sameOutline hq, h.closed, hq.types.trans h.typeCount, ?_, hq.methods.trans h.methodCount, ?_⟩
  · intro t e he
    rw [hq.identityOf?]
    exact h.types t e he
  · intro m t x hx
    rw [Program.typeName_congr (hq.identityOf? t), hmethods]
    exact h.methods m t x hx

theorem withModule_sameOutline (p : Program) (head : String × Option MethodRef) :
    Program.SameOutline p (withModule p head) := by
  refine ⟨by simp [withModule], rfl, rfl, fun _ => rfl, fun _ => rfl, fun _ => rfl, ?_, fun _ => rfl⟩
  intro d
  simp only [Program.topTypes, withModule, Array.getElem?_push]
  split
  · rename_i hd
    simp [hd]
  · rfl

theorem Reflects.empty : Reflects [] {} :=
  ⟨Program.WellFormed.empty, by simp, rfl, by simp, rfl, by simp [methodEntries]⟩

theorem moduleId_of_mem_entriesFrom {s : Scope} {vs : List Json} {i : Nat} {e : TypeEntry}
    (he : e ∈ entriesFrom s i vs) :
    e.moduleId = s.moduleId :=
  entriesFrom_forall (P := fun e => e.moduleId = s.moduleId) (fun _ _ _ h => h) vs s i (fun _ _ _ => rfl) e he

/-- A pass over the parts of some modules adds their heads and keeps types and methods in step with the text. -/
theorem Reflects.foldlM_readPart {v : Json} : ∀ {xs : List Json} {kept : List TypeEntry} {d : Draft}
    {s : Draft × List Address}, Reflects kept d.program → (∀ x ∈ kept, x ∈ typeEntries v) →
    (∀ e ∈ moduleEntries d.program.modules.size xs, e ∈ typeEntries v) →
    (partsFrom d.program.modules.size xs).foldlM readPart (d, kept.map (·.address)) = some s →
    s.2 = ((moduleEntries d.program.modules.size xs).foldl keep kept).map (·.address) ∧
      Reflects ((moduleEntries d.program.modules.size xs).foldl keep kept) s.1.program ∧
      ∃ heads, xs.mapM headOf? = some heads ∧ s.1.program.heads = d.program.heads ++ heads
  | [], kept, d, s, h, _, _, hread => by
      obtain rfl := Option.some.inj hread
      exact ⟨rfl, h, [], rfl, by simp⟩
  | x :: xs, kept, d, s, h, hkept, hentries, hread => by
      rw [partsFrom, List.cons_append, List.foldlM_cons] at hread
      obtain ⟨s₁, hhead, hread⟩ := Option.bind_eq_some_iff.mp hread
      obtain ⟨head, hx, rfl⟩ := Option.map_eq_some_iff.mp hhead
      rw [List.foldlM_append, foldlM_readPart_type] at hread
      obtain ⟨⟨d', K'⟩, htypes, hrest⟩ := Option.bind_eq_some_iff.mp hread
      have h₁ : Reflects kept (withModule d.program head) :=
        h.of_sameOutline (withModule_sameOutline _ head) fun _ => rfl
      obtain ⟨hnumbers', hheads, -, -⟩ := foldlM_readItem_kept (h₁.numbers (d := { d with program := _ })) htypes
      replace hheads := hheads.trans (heads_withModule d.program head)
      have hsize := size_of_heads_push hheads
      have hhere : ∀ e ∈ entriesFrom (.ofModule d.program.modules.size) 0 (Object.items x.members "Types"),
          e ∈ typeEntries v ∧ e.moduleId < (withModule d.program head).modules.size := by
        intro e he
        refine ⟨hentries e (List.mem_append_left _ he), ?_⟩
        rw [moduleId_of_mem_entriesFrom he]
        simp [withModule, Scope.ofModule]
      obtain ⟨rfl, h'⟩ := h₁.foldlM_readItem (d := { d with program := _ }) hkept hhere htypes
      rw [← hsize] at hrest
      have hkept' : ∀ y ∈ (entriesFrom (.ofModule d.program.modules.size) 0 (Object.items x.members "Types")).foldl keep
          kept, y ∈ typeEntries v := by
        intro y hy
        rcases List.mem_append.mp ((foldl_keep_sublist _ kept).subset hy) with hy | hy
        · exact hkept y hy
        · exact (hhere y hy).1
      obtain ⟨hK, hfinal, heads, hxs, hheads'⟩ := h'.foldlM_readPart hkept'
        (by rw [hsize]; exact fun e he => hentries e (List.mem_append_right _ he)) hrest
      rw [hsize] at hK hfinal
      rw [moduleEntries, List.foldl_append]
      refine ⟨hK, hfinal, head :: heads, ?_, ?_⟩
      · simp [hx, hxs]
      · rw [hheads', hheads]
        simp

/-! ### Whole descriptions -/

/-- What a program has of a description: its modules, and the types that count with their methods, all in the order
    of the text. -/
structure Describes (v : Json) (p : Program) : Prop where
  modules : (modules v).mapM headOf? = some p.heads.toList
  counted : Reflects (keptTypes v) p
  inOrder : (List.range p.modules.size).flatMap p.allTypes = List.range p.types.size

/-- A description is read in one pass over its parts. -/
theorem readDocument_eq_ok {v : Json} {d : Draft} : Draft.readDocument {} v = .ok d ↔
    ∃ o entries K, v = .obj o ∧ Object.array? o "Modules" = some entries ∧
      (partsFrom 0 entries).foldlM readPart ({}, []) = some (d, K) := by
  have hpass : ∀ entries, (entries.foldlM Draft.readModule {}).toOption =
      ((partsFrom 0 entries).foldlM readPart ({}, [])).map Prod.fst := by
    intro entries
    exact readModules_onePass entries {} [] rfl (nodup_of_sorted (moduleEntries_sorted entries 0))
  constructor
  · intro h
    cases v with
    | obj o =>
      rw [Draft.readDocument] at h
      cases hentries : Object.array? o "Modules" with
      | none => simp [hentries, Draft.check] at h
      | some entries =>
        simp only [hentries] at h
        rw [← toOption_eq_some, hpass, Option.map_eq_some_iff] at h
        obtain ⟨⟨d', K⟩, hread, rfl⟩ := h
        exact ⟨o, entries, K, rfl, hentries, hread⟩
    | _ => simp [Draft.readDocument, Draft.check] at h
  · rintro ⟨o, entries, K, rfl, hentries, hread⟩
    simp only [Draft.readDocument, hentries]
    rw [← toOption_eq_some, hpass, hread]
    rfl

theorem ofDocument_eq_ok {source : String} {v : Json} {d : Draft} :
    Program.ofDocument source v = .ok d ↔ ∃ d₀, Draft.readDocument {} v = .ok d₀ ∧ d₀.finish = d := by
  rw [Program.ofDocument, Draft.readValue]
  cases Draft.readDocument {} v <;> simp [Except.map]

theorem ofText_eq_ok {parse : Json.Parser} {source text : String} {d : Draft} :
    Program.ofText parse source text = .ok d ↔
      ∃ v, parse text = some v ∧ Program.ofDocument source v = .ok d := by
  rw [Program.ofText, Draft.readText]
  cases parse text with
  | none => simp [Draft.check, Except.map]
  | some v => simp [Program.ofDocument]

/-- Binding names changes nothing that the text says. -/
theorem Describes.finalize {v : Json} {p : Program} (h : Describes v p) : Describes v p.finalize := by
  have houtline := Program.finalize_sameOutline p
  have hcounted : Reflects (keptTypes v) p.finalize := by
    refine h.counted.of_sameOutline houtline fun m => ?_
    simp only [Program.declarationOf?, Program.finalize, Program.bindDefinitions, Array.getElem?_map, Option.map_map]
    rfl
  refine ⟨?_, hcounted, hcounted.allTypes_eq_range (keptTypes_sublist v)⟩
  rw [h.modules, Program.heads, Program.heads, Program.finalize, Array.map_map]
  rfl

/-- The pass over a description ends with the types that count, and the program has what the text says. -/
theorem describes_of_foldlM_readPart {o : Object} {entries : List Json} {s : Draft × List Address}
    (hentries : Object.array? o "Modules" = some entries)
    (hread : (partsFrom 0 entries).foldlM readPart ({}, []) = some s) :
    s.2 = (keptTypes (.obj o)).map (·.address) ∧ Describes (.obj o) s.1.program := by
  have hmodules : modules (.obj o) = entries := by simp [modules, Json.members, Object.items, hentries]
  have htypes : typeEntries (.obj o) = moduleEntries 0 entries := by rw [typeEntries, hmodules]
  obtain ⟨hK, hcounted, heads, hmap, hheads⟩ := Reflects.empty.foldlM_readPart (d := {}) (v := .obj o) (by simp)
    (fun e he => htypes ▸ he) hread
  have hkept : keptTypes (.obj o) = (moduleEntries 0 entries).foldl keep [] := by rw [keptTypes, htypes]
  refine ⟨hkept ▸ hK, ?_, hkept ▸ hcounted, ?_⟩
  · rw [hmodules, hmap, hheads]
    simp [Program.heads]
  · exact (hkept ▸ hcounted : Reflects (keptTypes (.obj o)) _).allTypes_eq_range (keptTypes_sublist _)

/-- A program that is read from a description is described by it. -/
theorem describes_of_ofDocument {source : String} {v : Json} {d : Draft} (h : Program.ofDocument source v = .ok d) :
    Describes v d.program := by
  obtain ⟨d₀, hread, rfl⟩ := ofDocument_eq_ok.mp h
  obtain ⟨o, entries, K, rfl, hentries, hpass⟩ := readDocument_eq_ok.mp hread
  exact (describes_of_foldlM_readPart hentries hpass).2.finalize

/-- The value of a text, character by character. -/
theorem ofText?_eq (text : String) : Json.ofText? text =
    (text.toList.foldlM Json.Lexer.step {} >>= Json.Lexer.close).map List.reverse >>= Json.ofTokens? := rfl

/-- What is computed from the value of a text holds of what is read from the text. -/
theorem exists_ofText {parse : Json.Parser} {source text : String} {v : Json} {P : Draft → Bool}
    (hv : parse text = some v) (h : (Program.ofDocument source v).toOption.any P = true) :
    ∃ d, Program.ofText parse source text = .ok d ∧ P d = true := by
  obtain ⟨d, hd, hP⟩ := (Option.any_eq_true _ _).mp h
  exact ⟨d, ofText_eq_ok.mpr ⟨v, hv, toOption_eq_some.mp hd⟩, hP⟩

end Description

end CallGraphs
