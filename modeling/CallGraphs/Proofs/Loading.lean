import Mathlib.Logic.Relation
import CallGraphs.Description.Load
import CallGraphs.Proofs.Reading

/-! Reading is editing. Whatever a reader does to a program is one of the calls that change programs, made on modules
    and types that exist, and the types that it adds have names. So what is proved of finalized programs holds of every
    program that is loaded, from a text, from a file or from a directory (`Loaded.finalized`). -/

namespace CallGraphs

open Json (Object)

namespace Program

variable {p q : Program}

/-! ### Edits one after the other -/

/-- A type that the edit adds has a name. -/
def Edit.Named : Edit → Prop
  | .addType _ decl _ => decl.name ≠ ""
  | _ => True

/-- One allowed edit leads from `p` to `q`. -/
def EditStep (p q : Program) : Prop := ∃ e : Edit, e.Allowed p ∧ e.Named ∧ p.edit e = q

/-- Allowed edits lead from `p` to `q`. -/
def Edited : Program → Program → Prop := Relation.ReflTransGen EditStep

/-- No full name is empty. -/
def Titled (p : Program) : Prop := ∀ t, p.fullNameOf? t ≠ some ""

theorem place_ne (p : Program) {decl : TypeDecl} (h : decl.name ≠ "") (enclosing : Option TypeId) :
    (p.place decl enclosing).2 ≠ "" := by
  rw [place]
  split
  · simp
  · split
    · exact h
    · simp

theorem Titled.of_identityOf? (h : p.Titled) (hq : ∀ t, q.identityOf? t = p.identityOf? t) : q.Titled := by
  intro t
  rw [fullNameOf?_congr (hq t)]
  exact h t

theorem Titled.edit (h : p.Titled) : ∀ {e : Edit}, e.Allowed p → e.Named → (p.edit e).Titled
  | .addModule _, _, _ => h
  | .addType m decl enclosing, ⟨_, henclosing⟩, hname => by
      rw [edit_addType]
      split
      · exact h
      · intro t
        by_cases ht : t = p.types.size
        · rw [ht, fullNameOf?, withType_last henclosing]
          exact fun hempty => p.place_ne hname enclosing (Option.some.inj hempty)
        · rw [fullNameOf?_congr (withType_identityOf? ht)]
          exact h t
  | .addMethod t decl, _, _ => h.of_identityOf? (addMethod_identityOf? p t decl)
  | .setEntry _ _, _, _ => h
  | .finalize, _, _ => h.of_identityOf? (finalize_sameOutline p).identityOf?

namespace Edited

theorem keeps (h : p.Edited q) : Keeps p q := by
  induction h with
  | refl => exact Keeps.refl p
  | tail _ hstep ih =>
    obtain ⟨e, -, -, rfl⟩ := hstep
    exact ih.trans (edit_keeps _ e)

theorem titled (h : p.Edited q) (hp : p.Titled) : q.Titled := by
  induction h with
  | refl => exact hp
  | tail _ hstep ih =>
    obtain ⟨e, hallowed, hname, rfl⟩ := hstep
    exact ih.edit hallowed hname

theorem exists_edits (h : p.Edited q) : ∃ edits, AllAllowed p edits ∧ edits.foldl edit p = q := by
  induction h using Relation.ReflTransGen.head_induction_on with
  | refl => exact ⟨[], trivial, rfl⟩
  | head hstep _ ih =>
    obtain ⟨e, hallowed, -, rfl⟩ := hstep
    obtain ⟨edits, hedits, hq⟩ := ih
    exact ⟨e :: edits, ⟨hallowed, hedits⟩, hq⟩

theorem modules_lt {m : ModuleId} (h : p.Edited q) (hm : m < p.modules.size) : m < q.modules.size := by
  have hname : q.moduleName? m = some p.modules[m].name := h.keeps.modules m _ (by simp [moduleName?, hm])
  obtain ⟨d, hd, -⟩ := Option.map_eq_some_iff.mp hname
  exact (Array.getElem?_eq_some_iff.mp hd).1

theorem types_lt {t : TypeId} (h : p.Edited q) (ht : t < p.types.size) : t < q.types.size := by
  have hidentity : q.identityOf? t = some p.types[t].identity := h.keeps.types t _ (by simp [identityOf?, ht])
  obtain ⟨ty, hty, -⟩ := Option.map_eq_some_iff.mp hidentity
  exact (Array.getElem?_eq_some_iff.mp hty).1

end Edited

end Program

/-! ### Readers -/

theorem TypeDecl.name_ne_of_decode {o : Object} {decl : TypeDecl} (h : decode o = .ok decl) : decl.name ≠ "" := by
  intro hempty
  obtain ⟨hname, -⟩ := decode_ok h
  simp [Object.name?, hempty, Option.filter_eq_some_iff] at hname

namespace Draft

variable {ε α : Type} {I : Program → Prop}

/-- Edits do not undo the condition. -/
def Lasting (I : Program → Prop) : Prop := ∀ p q : Program, p.Edited q → I p → I q

/-- On programs with the condition, a reader that succeeds makes allowed edits only. -/
def Edits (I : Program → Prop) (f : Draft → Except (Halt ε) Draft) : Prop :=
  ∀ d d', I d.program → f d = .ok d' → d.program.Edited d'.program

theorem Edits.bind {f g : Draft → Except (Halt ε) Draft} (hI : Lasting I) (hf : Edits I f) (hg : Edits I g) :
    Edits I fun d => f d >>= g := by
  intro d d' hd h
  obtain ⟨d₁, hfirst, hrest⟩ := bind_eq_ok.mp h
  have hedited := hf d d₁ hd hfirst
  exact hedited.trans (hg d₁ d' (hI _ _ hedited hd) hrest)

theorem Edits.foldlM {f : Draft → α → Except (Halt ε) Draft} (hI : Lasting I) (hf : ∀ a, Edits I (f · a)) (l : List α) :
    Edits I (l.foldlM f ·) := by
  induction l with
  | nil =>
    intro d d' _ h
    obtain rfl := pure_eq_ok.mp h
    exact .refl
  | cons a l ih =>
    simp only [List.foldlM_cons]
    exact (hf a).bind hI ih

theorem readMethod_edits (t : TypeId) (name : String) (x : Json) :
    Edits (fun p => t < p.types.size) (readMethod t name · x) := by
  intro d d' ht h
  obtain ⟨o, decl, -, -, rfl⟩ := readMethod_ok h
  exact .single ⟨.addMethod t decl, ht, trivial, rfl⟩

/-- The module and the type around exist. -/
def Room (m : ModuleId) (enclosing : Option TypeId) (p : Program) : Prop :=
  m < p.modules.size ∧ ∀ o ∈ enclosing, o < p.types.size

theorem room_lasting (m : ModuleId) (enclosing : Option TypeId) : Lasting (Room m enclosing) :=
  fun _ _ h hp => ⟨h.modules_lt hp.1, fun o ho => h.types_lt (hp.2 o ho)⟩

theorem readType_edits {v : Json} (hnested : ∀ m enclosing bad,
      Edits (Room m enclosing) (readTypes m enclosing bad · (Object.items v.members "NestedTypes")))
    (m : ModuleId) (enclosing : Option TypeId) (bad : SchemaError) :
    Edits (Room m enclosing) (readType m enclosing bad · v) := by
  intro d d' hroom h
  cases v with
  | obj o =>
    simp only [readType] at h
    obtain ⟨decl, hdecl, h⟩ := bind_eq_ok.mp h
    have hnamed := TypeDecl.name_ne_of_decode (check_eq_ok.mp hdecl)
    rw [Program.addType?_eq] at h
    cases htaken : (d.program.typeNamed? (d.program.place decl enclosing).2).isSome with
    | true =>
      simp only [htaken, if_true] at h
      obtain rfl := pure_eq_ok.mp h
      exact .refl
    | false =>
      simp only [htaken, Bool.false_eq_true, if_false] at h
      have hadd : d.program.Edited (d.program.withType m decl enclosing) :=
        .single ⟨.addType m decl enclosing, hroom, hnamed, by rw [Program.edit_addType, htaken]; rfl⟩
      -- the new type is the next one, and it is there for its methods and the types nested in it
      have hnew : d.program.types.size < (d.program.withType m decl enclosing).types.size := by
        rw [Program.withType_size]
        exact Nat.lt_succ_self _
      have hinside : Room m (some d.program.types.size) (d.program.withType m decl enclosing) :=
        ⟨hadd.modules_lt hroom.1, by simpa using hnew⟩
      have hmethods := Edits.foldlM (fun _ _ h => h.types_lt)
        (readMethod_edits d.program.types.size decl.name) (Object.items o "Methods")
      have hrest := Edits.bind (room_lasting m (some d.program.types.size))
        (fun d d' hd => hmethods d d' (hd.2 _ rfl)) (hnested m _ (.nestedNotObject (.type decl.name)))
      exact hadd.trans (hrest _ d' hinside h)
  | _ => simp [readType, check] at h

theorem readTypes_edits (vs : List Json) :
    ∀ m enclosing bad, Edits (Room m enclosing) (readTypes m enclosing bad · vs) := by
  induction vs using Description.nestedInduction with
  | nil =>
    intro m enclosing bad d d' _ h
    simp only [readTypes, Except.ok.injEq] at h
    exact h ▸ .refl
  | cons v vs ihNested ihRest =>
    intro m enclosing bad
    simp only [readTypes]
    exact (readType_edits ihNested m enclosing bad).bind (room_lasting m enclosing) (ihRest m enclosing bad)

theorem readEntry_edits (m : ModuleId) (name : String) (o : Object) : Edits (Room m none) (readEntry m name o) := by
  intro d d' hroom h
  rw [readEntry] at h
  cases hentry : Object.object? o "EntryPoint" with
  | none =>
    simp only [hentry, Except.ok.injEq] at h
    exact h ▸ .refl
  | some r =>
    simp only [hentry, bind_eq_ok] at h
    obtain ⟨ref, -, h⟩ := h
    obtain rfl := pure_eq_ok.mp h
    exact .single ⟨.setEntry m ref, hroom.1, trivial, rfl⟩

theorem readModule_edits (x : Json) : Edits (fun _ => True) (readModule · x) := by
  intro d d' _ h
  cases x with
  | obj o =>
    simp only [readModule] at h
    cases hname : Object.name? o "Name" with
    | none => simp [hname, check] at h
    | some name =>
      simp only [hname] at h
      have hadd : d.program.EditStep (d.program.addModule name).2 := ⟨.addModule name, trivial, trivial, rfl⟩
      have hroom : Room d.program.modules.size none (d.program.addModule name).2 := by simp [Room, Program.addModule]
      have hrest := Edits.bind (room_lasting d.program.modules.size none) (readEntry_edits _ name o)
        (readTypes_edits (Object.items o "Types") _ none (.typeNotObject name))
      exact .head hadd (hrest _ d' hroom h)
  | _ => simp [readModule, check] at h

theorem readDocument_edits (v : Json) : Edits (fun _ => True) (readDocument · v) := by
  intro d d' _ h
  cases v with
  | obj o =>
    simp only [readDocument] at h
    cases hentries : Object.array? o "Modules" with
    | none => simp [hentries, check] at h
    | some entries =>
      simp only [hentries] at h
      exact Edits.foldlM (fun _ _ _ h => h) readModule_edits entries d d' trivial h
  | _ => simp [readDocument, check] at h

theorem readText_edits (parse : Json.Parser) (source text : String) :
    Edits (fun _ => True) (readText parse source · text) := by
  intro d d' _ h
  simp only [readText] at h
  cases hvalue : parse text with
  | none => simp [hvalue, check] at h
  | some v =>
    simp only [hvalue, readValue] at h
    cases hread : d.readDocument v with
    | error halt => simp [hread] at h
    | ok d₁ =>
      simp only [hread, Except.ok.injEq] at h
      exact readDocument_edits v d d' trivial (hread.trans (congrArg Except.ok h))

theorem readFile_edits (parse : Json.Parser) (files : FileAccess) (path : String) :
    Edits (fun _ => True) (readFile parse files · path) := by
  intro d d' _ h
  simp only [readFile] at h
  cases hread : files.read path with
  | error why => simp [hread, check] at h
  | ok text =>
    simp only [hread] at h
    exact readText_edits parse path text d d' trivial h

theorem readListed_edits (parse : Json.Parser) (files : FileAccess) (path : String) :
    Edits (fun _ => True) (readListed parse files · path) :=
  fun d d' _ h => readFile_edits parse files path (d.note _) d' trivial h

end Draft

/-! ### Loaded programs -/

namespace Program

/-- The program was loaded from a text, from a file, or from all description files below a directory, whatever the
    parser and the files. -/
inductive Loaded : Program → Prop
  | text {parse : Json.Parser} {source text : String} {d : Draft} : ofText parse source text = .ok d → Loaded d.program
  | file {parse : Json.Parser} {files : FileAccess} {path : String} {d : Draft} :
      ofFile parse files path = .ok d → Loaded d.program
  | directory {parse : Json.Parser} {files : FileAccess} {dir : String} {d : Draft} :
      ofDirectory parse files dir = .ok d → Loaded d.program

theorem exists_of_map_finish {ε : Type} {x : Except ε Draft} {d : Draft} (h : x.map Draft.finish = .ok d) :
    ∃ d₀, x = .ok d₀ ∧ d.program = d₀.program.finalize := by
  cases x with
  | error e => simp [Except.map] at h
  | ok d₀ =>
    simp only [Except.map, Except.ok.injEq] at h
    exact ⟨d₀, rfl, h ▸ rfl⟩

/-- A loaded program is the binding of what allowed edits have made of the empty program. -/
theorem Loaded.exists_edited {p : Program} (h : p.Loaded) : ∃ q, Edited {} q ∧ p = q.finalize := by
  cases h with
  | text h =>
    obtain ⟨d₀, hread, hp⟩ := exists_of_map_finish h
    exact ⟨d₀.program, Draft.readText_edits _ _ _ {} d₀ trivial hread, hp⟩
  | file h =>
    obtain ⟨d₀, hread, hp⟩ := exists_of_map_finish h
    exact ⟨d₀.program, Draft.readFile_edits _ _ _ {} d₀ trivial hread, hp⟩
  | @directory parse files dir d h =>
    rw [ofDirectory] at h
    split at h
    · obtain ⟨d₀, hread, hp⟩ := exists_of_map_finish h
      have hedits := Draft.Edits.foldlM (fun _ _ _ h => h) (Draft.readListed_edits parse files)
        (descriptionFiles files dir)
      exact ⟨d₀.program, hedits _ d₀ trivial hread, hp⟩
    · simp [Draft.check] at h

theorem Loaded.finalized {p : Program} (h : p.Loaded) : p.Finalized := by
  obtain ⟨q, hq, rfl⟩ := h.exists_edited
  obtain ⟨edits, hallowed, rfl⟩ := hq.exists_edits
  exact ⟨edits, hallowed, rfl⟩

theorem Loaded.titled {p : Program} (h : p.Loaded) : p.Titled := by
  obtain ⟨q, hq, rfl⟩ := h.exists_edited
  have hempty : Titled {} := fun t => by simp [fullNameOf?]
  exact (hq.titled hempty).of_identityOf? (finalize_sameOutline q).identityOf?

end Program

end CallGraphs
