import Mathlib.Data.String.Basic
import CallGraphs.Proofs.FirstDefinitions
import CallGraphs.Proofs.Loading

/-! Reading all description files below a directory is reading one description, which has the modules of all of them
    in the order of the paths. The notices given on the way have no influence on what is read, and the paths have one
    ascending order, whatever order the scan of the directory has found them in. So every loaded program has one
    description (`Program.Loaded.describes`). -/

namespace CallGraphs

open Json (Object)

/-! ### Reading without an ear for the notices -/

namespace Draft

variable {ε α : Type}

/-- What reading gives, the notices apart. -/
def bare : Except (Halt ε) Draft → Except ε Program
  | .ok d => .ok d.program
  | .error halt => .error halt.cause

/-- The notices given before make no difference. -/
def Deaf (f : Draft → Except (Halt ε) Draft) : Prop := ∀ d d', d.program = d'.program → bare (f d) = bare (f d')

theorem bare_bind {f : Draft → Except (Halt ε) Draft} (hf : Deaf f) {x y : Except (Halt ε) Draft}
    (h : bare x = bare y) :
    bare (x >>= f) = bare (y >>= f) := by
  cases x with
  | error halt =>
    cases y with
    | error halt' => exact h
    | ok d' => simp [bare] at h
  | ok d =>
    cases y with
    | error halt' => simp [bare] at h
    | ok d' =>
      simp only [bare, Except.ok.injEq] at h
      exact hf d d' h

theorem Deaf.bind {f g : Draft → Except (Halt ε) Draft} (hf : Deaf f) (hg : Deaf g) : Deaf fun d => f d >>= g :=
  fun d d' h => bare_bind hg (hf d d' h)

theorem Deaf.foldlM {f : Draft → α → Except (Halt ε) Draft} (hf : ∀ a, Deaf (f · a)) : ∀ l : List α, Deaf (l.foldlM f ·)
  | [] => by
      intro d d' h
      exact congrArg Except.ok h
  | a :: l => by
      simp only [List.foldlM_cons]
      exact (hf a).bind (foldlM hf l)

theorem readMethod_deaf (t : TypeId) (name : String) (x : Json) : Deaf (readMethod t name · x) := by
  intro d d' h
  cases x with
  | obj o =>
    simp only [readMethod, h]
    cases MethodDecl.decode o (d'.program.typeName t) with
    | error fault => rfl
    | ok decl => rfl
  | _ => rfl

theorem readType_deaf {v : Json} (hnested : ∀ m enclosing bad,
      Deaf (readTypes m enclosing bad · (Object.items v.members "NestedTypes")))
    (m : ModuleId) (enclosing : Option TypeId) (bad : SchemaError) : Deaf (readType m enclosing bad · v) := by
  intro d d' h
  cases v with
  | obj o =>
    simp only [readType, h]
    cases TypeDecl.decode o with
    | error fault => rfl
    | ok decl =>
      cases hadd : d'.program.addType? m decl enclosing with
      | none => simp only [check, bind, Except.bind, hadd, pure, Except.pure, bare, note, h]
      | some new =>
        simp only [check, bind, Except.bind, hadd]
        have hmethods := Deaf.foldlM (readMethod_deaf new.1 decl.name) (Object.items o "Methods")
        exact (hmethods.bind (hnested m (some new.1) (.nestedNotObject (.type decl.name)))) { d with program := new.2 }
          { d' with program := new.2 } rfl
  | _ => simp [readType, check, bare]

theorem readTypes_deaf (vs : List Json) : ∀ m enclosing bad, Deaf (readTypes m enclosing bad · vs) := by
  induction vs using Description.nestedInduction with
  | nil =>
    intro m enclosing bad d d' h
    simp only [readTypes, bare, h]
  | cons v vs ihNested ihRest =>
    intro m enclosing bad
    simp only [readTypes]
    exact (readType_deaf ihNested m enclosing bad).bind (ihRest m enclosing bad)

theorem readEntry_deaf (m : ModuleId) (name : String) (o : Object) : Deaf (readEntry m name o) := by
  intro d d' h
  rw [readEntry, readEntry]
  cases Object.object? o "EntryPoint" with
  | none => exact congrArg Except.ok h
  | some r =>
    simp only [h]
    cases MethodRef.decode r (.entryPoint name) with
    | error fault => rfl
    | ok ref => rfl

theorem readModule_deaf (x : Json) : Deaf (readModule · x) := by
  intro d d' h
  cases x with
  | obj o =>
    simp only [readModule, h]
    cases Object.name? o "Name" with
    | none => rfl
    | some name =>
      exact (readEntry_deaf _ name o).bind (readTypes_deaf _ _ none (.typeNotObject name)) _ _ rfl
  | _ => rfl

end Draft

/-! ### Files one after the other -/

/-- The entries of the list of modules in a file that holds a description. -/
def FileAccess.moduleEntries? (parse : Json.Parser) (files : FileAccess) (path : String) : Option (List Json) :=
  (files.read path).toOption.bind fun text => (parse text).bind fun
    | .obj o => Object.array? o "Modules"
    | _ => none

/-- What a load comes to: a program, or else the rule that a description breaks. Where the description comes from and
    what is noted on the way is left out. -/
def verdict : Except (Halt LoadError) Draft → Except (Option SchemaError) Program
  | .ok d => .ok d.program
  | .error ⟨.schema _ fault, _⟩ => .error (some fault)
  | .error _ => .error none

theorem verdict_map_finish (x : Except (Halt LoadError) Draft) :
    verdict (x.map Draft.finish) = (verdict x).map Program.finalize := by
  cases x with
  | ok d => rfl
  | error halt =>
    obtain ⟨cause, notices⟩ := halt
    cases cause <;> rfl

/-- A load comes to the same as the reading of some modules. -/
def Agree (x : Except (Halt LoadError) Draft) (y : Except (Halt SchemaError) Draft) : Prop :=
  verdict x = (Draft.bare y).mapError some

theorem Agree.bind {x : Except (Halt LoadError) Draft} {y : Except (Halt SchemaError) Draft}
    {f : Draft → Except (Halt LoadError) Draft} {g : Draft → Except (Halt SchemaError) Draft} (h : Agree x y)
    (hfg : ∀ d d', d.program = d'.program → Agree (f d) (g d')) : Agree (x >>= f) (y >>= g) := by
  cases x with
  | ok d =>
    cases y with
    | ok d' => exact hfg d d' (by simpa [Agree, verdict, Draft.bare, Except.mapError] using h)
    | error halt' => simp [Agree, verdict, Draft.bare, Except.mapError] at h
  | error halt =>
    cases y with
    | ok d' =>
      obtain ⟨cause, notices⟩ := halt
      cases cause <;> simp [Agree, verdict, Draft.bare, Except.mapError] at h
    | error halt' => exact h

/-- A value is read by its modules. -/
theorem readValue_agree {o : Object} {entries : List Json} (h : Object.array? o "Modules" = some entries)
    (source : String)
    {d d' : Draft} (hd : d.program = d'.program) :
    Agree (d.readValue source (.obj o)) (entries.foldlM Draft.readModule d') := by
  rw [Agree, ← Draft.Deaf.foldlM Draft.readModule_deaf entries d d' hd]
  simp only [Draft.readValue, Draft.readDocument, h]
  cases entries.foldlM Draft.readModule d <;> rfl

/-- A file is read by its modules. -/
theorem readListed_agree {parse : Json.Parser} {files : FileAccess} {path : String} {entries : List Json}
    (h : files.moduleEntries? parse path = some entries) {d d' : Draft} (hd : d.program = d'.program) :
    Agree (d.readListed parse files path) (entries.foldlM Draft.readModule d') := by
  obtain ⟨text, htext, h⟩ := Option.bind_eq_some_iff.mp h
  obtain ⟨v, hv, h⟩ := Option.bind_eq_some_iff.mp h
  cases v with
  | obj o =>
    simp only [Draft.readListed, Draft.readFile, toOption_eq_some.mp htext, Draft.readText, hv]
    exact readValue_agree h path hd
  | _ => simp at h

/-- Files are read by the modules of all of them. -/
theorem foldlM_readListed_agree {parse : Json.Parser} {files : FileAccess} : ∀ {paths : List String}
    {entries : List (List Json)}, paths.mapM (files.moduleEntries? parse) = some entries →
    ∀ {d d' : Draft}, d.program = d'.program →
    Agree (paths.foldlM (Draft.readListed parse files) d) (entries.flatten.foldlM Draft.readModule d')
  | [], entries, h, d, d', hd => by
      obtain rfl : [] = entries := by simpa using h
      exact congrArg Except.ok hd
  | path :: paths, entries, h, d, d', hd => by
      rw [List.mapM_cons] at h
      obtain ⟨first, hfirst, h⟩ := Option.bind_eq_some_iff.mp h
      obtain ⟨rest, hrest, h⟩ := Option.bind_eq_some_iff.mp h
      obtain rfl : first :: rest = entries := Option.some.inj h
      rw [List.foldlM_cons, List.flatten_cons, List.foldlM_append]
      exact (readListed_agree hfirst hd).bind fun d₁ d₁' hd₁ => foldlM_readListed_agree hrest hd₁

/-! ### Loaded programs -/

/-- Only a file with a list of modules can be read. -/
theorem exists_moduleEntries? {parse : Json.Parser} {files : FileAccess} {path : String} {d d' : Draft}
    (h : d.readListed parse files path = .ok d') : ∃ entries, files.moduleEntries? parse path = some entries := by
  simp only [Draft.readListed, Draft.readFile] at h
  cases htext : files.read path with
  | error why => simp [htext, Draft.check] at h
  | ok text =>
    simp only [htext, Draft.readText] at h
    cases hv : parse text with
    | none => simp [hv, Draft.check] at h
    | some v =>
      simp only [hv, Draft.readValue] at h
      cases v with
      | obj o =>
        cases hentries : Object.array? o "Modules" with
        | none => simp [Draft.readDocument, hentries, Draft.check] at h
        | some entries => exact ⟨entries, by simp [FileAccess.moduleEntries?, htext, hv, hentries, Except.toOption]⟩
      | _ => simp [Draft.readDocument, Draft.check] at h

theorem exists_mapM_moduleEntries? {parse : Json.Parser} {files : FileAccess} : ∀ {paths : List String} {d d' : Draft},
    paths.foldlM (Draft.readListed parse files) d = .ok d' →
      ∃ entries, paths.mapM (files.moduleEntries? parse) = some entries
  | [], _, _, _ => ⟨[], rfl⟩
  | path :: paths, d, d', h => by
      rw [List.foldlM_cons] at h
      obtain ⟨d₁, hfirst, hrest⟩ := bind_eq_ok.mp h
      obtain ⟨first, hfirst⟩ := exists_moduleEntries? hfirst
      obtain ⟨rest, hrest⟩ := exists_mapM_moduleEntries? hrest
      exact ⟨first :: rest, by simp [hfirst, hrest]⟩

theorem Agree.exists_ok {d : Draft} {y : Except (Halt SchemaError) Draft} (h : Agree (.ok d) y) :
    ∃ d', y = .ok d' ∧ d'.program = d.program := by
  cases y with
  | ok d' => exact ⟨d', rfl, by simpa [Agree, verdict, Draft.bare, Except.mapError] using h.symm⟩
  | error halt => simp [Agree, verdict, Draft.bare, Except.mapError] at h

/-- Every loaded program has a description: the text it was read from, or one with the modules of all files. -/
theorem Program.Loaded.describes {p : Program} (hp : p.Loaded) : ∃ v, Description.Describes v p := by
  cases hp with
  | text h =>
    obtain ⟨v, -, hv⟩ := Description.ofText_eq_ok.mp h
    exact ⟨v, Description.describes_of_ofDocument hv⟩
  | @file parse files path d h =>
    rw [Program.ofFile, Draft.readFile] at h
    cases htext : files.read path with
    | error why => simp [htext, Draft.check, Except.map] at h
    | ok text =>
      rw [htext] at h
      obtain ⟨v, -, hv⟩ := Description.ofText_eq_ok.mp h
      exact ⟨v, Description.describes_of_ofDocument hv⟩
  | @directory parse files dir d h =>
    rw [Program.ofDirectory] at h
    split at h
    · obtain ⟨d₀, hread, hp⟩ := exists_of_map_finish h
      obtain ⟨entries, hentries⟩ := exists_mapM_moduleEntries? hread
      have hagree : Agree (.ok d₀) (entries.flatten.foldlM Draft.readModule {}) :=
        hread ▸ foldlM_readListed_agree hentries rfl
      obtain ⟨d₁, hmerged, hsame⟩ := hagree.exists_ok
      have hdocument : Program.ofDocument dir (.obj [("Modules", .arr entries.flatten)]) = .ok d₁.finish :=
        Description.ofDocument_eq_ok.mpr ⟨d₁, hmerged, rfl⟩
      refine ⟨.obj [("Modules", .arr entries.flatten)], ?_⟩
      rw [hp, ← hsame]
      exact Description.describes_of_ofDocument hdocument
    · simp [Draft.check] at h

/-! ### The order of the paths -/

theorem mergeSort_sorted (l : List String) : (l.mergeSort fun a b => decide (a ≤ b)).Pairwise (· ≤ ·) := by
  refine (List.pairwise_mergeSort ?_ ?_ l).imp of_decide_eq_true
  · intro a b c hab hbc
    exact decide_eq_true (le_trans (of_decide_eq_true hab) (of_decide_eq_true hbc))
  · intro a b
    simpa using le_total a b

/-- Paths have one ascending order. -/
theorem mergeSort_eq {l paths : List String} (hperm : paths.Perm l) (hsorted : paths.Pairwise (· ≤ ·)) :
    l.mergeSort (fun a b => decide (a ≤ b)) = paths := by
  refine List.Perm.eq_of_pairwise ?_ (mergeSort_sorted l) hsorted ((List.mergeSort_perm l _).trans hperm.symm)
  intro a b _ _ hab hba
  exact le_antisymm hab hba

/-! ### The order of the files -/

theorem lookup_perm {l l' : List (Location × String)} (h : l.Perm l') (a : Location) :
    (l.map Prod.fst).Nodup → l'.lookup a = l.lookup a := by
  induction h with
  | nil => exact fun _ => rfl
  | cons x _ ih =>
    intro hnodup
    obtain ⟨location, text⟩ := x
    simp only [List.lookup_cons]
    rw [ih (List.nodup_cons.mp hnodup).2]
  | swap x y l =>
    intro hnodup
    obtain ⟨location, text⟩ := x
    obtain ⟨location', text'⟩ := y
    have hne : location' ≠ location := by
      intro heq
      exact (List.nodup_cons.mp hnodup).1 (heq ▸ List.mem_cons_self)
    simp only [List.lookup_cons]
    by_cases hx : a = location
    · simp [hx, beq_false_of_ne hne.symm]
    · simp [beq_false_of_ne hx]
  | trans h₁ _ ih₁ ih₂ =>
    intro hnodup
    exact (ih₂ ((h₁.map Prod.fst).nodup_iff.mp hnodup)).trans (ih₁ hnodup)

/-- The same files, given in another order by a scan. -/
structure FileAccess.Rescanned (files files' : FileAccess) : Prop where
  isDir : files'.isDir = files.isDir
  below : ∀ dir, (files.below dir).Perm (files'.below dir)
  read : files'.read = files.read

namespace FileAccess.Rescanned

variable {files files' : FileAccess}

theorem descriptionFiles (h : Rescanned files files') (dir : String) :
    CallGraphs.descriptionFiles files' dir = CallGraphs.descriptionFiles files dir := by
  have hdescription : isDescription files' = isDescription files := by
    funext path
    rw [isDescription, isDescription, h.isDir]
  rw [CallGraphs.descriptionFiles, hdescription]
  exact mergeSort_eq ((List.mergeSort_perm _ _).trans ((h.below dir).filter _)) (mergeSort_sorted _)

theorem ofDirectory (h : Rescanned files files') (parse : Json.Parser) (dir : String) :
    Program.ofDirectory parse files' dir = Program.ofDirectory parse files dir := by
  have hlisted : Draft.readListed parse files' = Draft.readListed parse files := by
    funext d path
    rw [Draft.readListed, Draft.readListed, Draft.readFile, Draft.readFile, h.read]
  rw [Program.ofDirectory, Program.ofDirectory, h.isDir, h.descriptionFiles, hlisted]

end FileAccess.Rescanned

/-- The same tree, with its files listed in another order. -/
structure FileTree.Reordered (t t' : FileTree) : Prop where
  dirs : t'.dirs = t.dirs
  files : t.files.Perm t'.files
  distinct : (t.files.map Prod.fst).Nodup

namespace FileTree.Reordered

variable {t t' : FileTree}

theorem entry? (h : Reordered t t') (l : Location) : t'.entry? l = t.entry? l := by
  rw [FileTree.entry?, FileTree.entry?, lookup_perm h.files l h.distinct, isDirAt, isDirAt, h.dirs, h.files.any_eq]

theorem locate (h : Reordered t t') (path : String) : t'.locate path = t.locate path := by
  have hfollow : t'.follow = t.follow := by
    funext l part
    rw [follow, follow, h.entry?]
  rw [FileTree.locate, FileTree.locate, followAll, followAll, hfollow]

theorem isDir (h : Reordered t t') : t'.isDir = t.isDir := by
  funext path
  rw [FileTree.isDir, FileTree.isDir, h.locate, funext h.entry?]

theorem read (h : Reordered t t') : t'.read = t.read := by
  funext path
  rw [FileTree.read, FileTree.read, h.locate, funext h.entry?]

theorem rescanned (h : Reordered t t') : t.access.Rescanned t'.access := by
  refine ⟨h.isDir, fun dir => ?_, h.read⟩
  show (t.below dir).Perm (t'.below dir)
  rw [below, below, h.locate]
  cases t.locate dir with
  | error why => exact List.Perm.refl _
  | ok l => exact h.files.filterMap _

end FileTree.Reordered

/-! ### A directory as one description -/

/-- Reading the description files below a directory comes to the same as reading one description with the modules of
    all of them in the order of the paths, and the order in which the files are found makes no difference. -/
theorem ofDirectory_merges {parse : Json.Parser} {files : FileAccess} {dir : String} (hdir : files.isDir dir = true)
    {paths : List String} (hfound : paths.Perm ((files.below dir).filter (isDescription files)))
    (hsorted : paths.Pairwise (· ≤ ·)) {entries : List (List Json)}
    (hentries : paths.mapM (files.moduleEntries? parse) = some entries) :
    (∀ source o, Object.array? o "Modules" = some entries.flatten →
      verdict (Program.ofDirectory parse files dir) = verdict (Program.ofDocument source (.obj o)) ∧
      ∀ text, parse text = some (.obj o) →
        verdict (Program.ofDirectory parse files dir) = verdict (Program.ofText parse source text)) ∧
    ∀ files', files.Rescanned files' → Program.ofDirectory parse files' dir = Program.ofDirectory parse files dir := by
  refine ⟨fun source o ho => ?_, fun files' h => h.ofDirectory parse dir⟩
  have hdocument : verdict (Program.ofDirectory parse files dir) = verdict (Program.ofDocument source (.obj o)) := by
    have hread : Agree (paths.foldlM (Draft.readListed parse files) (Draft.note {} (Program.scanNotice dir paths)))
        (entries.flatten.foldlM Draft.readModule {}) := foldlM_readListed_agree hentries rfl
    have hvalue : Agree (Draft.readValue source {} (.obj o)) (entries.flatten.foldlM Draft.readModule {}) :=
      readValue_agree ho source rfl
    rw [Program.ofDirectory, if_pos hdir, descriptionFiles, mergeSort_eq hfound hsorted, Program.ofDocument,
      verdict_map_finish, verdict_map_finish, hread, hvalue]
  refine ⟨hdocument, fun text htext => ?_⟩
  rw [hdocument, Program.ofText, Draft.readText, htext, Program.ofDocument]

/-- A description of a type whose base type is described elsewhere. -/
def derivedText : String :=
  "\x7b\"Modules\":[" ++ "\x7b\"Name\":\"A\",\"Types\":[" ++ "\x7b\"Name\":\"T\",\"BaseType\":\"U\"\x7d]\x7d]\x7d"

/-- A description of that base type. -/
def baseText : String := "\x7b\"Modules\":[" ++ "\x7b\"Name\":\"B\",\"Types\":[" ++ "\x7b\"Name\":\"U\"\x7d]\x7d]\x7d"

/-- The two in files of a directory, one of them in a directory of its own, found in some order. -/
def splitFiles : FileTree :=
  { files := [(["d", "s", "b.json"], baseText), (["d", "n.txt"], "-"), (["d", "a.json"], derivedText)] }

/-- The modules of the two. -/
def splitEntries : List (List Json) := [
  [.obj [("Name", .str "A"), ("Types", .arr [.obj [("Name", .str "T"), ("BaseType", .str "U")]])]],
  [.obj [("Name", .str "B"), ("Types", .arr [.obj [("Name", .str "U")]])]]]

theorem ofDirectory_merges_split :
    (∃ p, verdict (Program.ofDirectory Json.ofText? splitFiles.access "d") = .ok p ∧
      verdict (Program.ofDocument "merged" (.obj [("Modules", .arr splitEntries.flatten)])) = .ok p ∧
      p.types.toList.map (fun ty => (ty.fullName, ty.base)) = [("T", some 1), ("U", none)]) ∧
    Program.ofDirectory Json.ofText? (FileTree.access ⟨splitFiles.files.reverse, []⟩) "d" =
      Program.ofDirectory Json.ofText? splitFiles.access "d" := by
  have hderived : Json.ofText? derivedText = some (.obj [("Modules", .arr [
      .obj [("Name", .str "A"), ("Types", .arr [.obj [("Name", .str "T"), ("BaseType", .str "U")]])]])]) := by
    unfold derivedText
    rw [Description.ofText?_eq, String.toList_append, String.toList_append]
    simp only [String.reduceToList]
    rfl
  have hbase : Json.ofText? baseText = some (.obj [("Modules", .arr [
      .obj [("Name", .str "B"), ("Types", .arr [.obj [("Name", .str "U")]])]])]) := by
    unfold baseText
    rw [Description.ofText?_eq, String.toList_append, String.toList_append]
    simp only [String.reduceToList]
    rfl
  have hfirst : (splitFiles.access.read "d/a.json").toOption = some derivedText := by decide +kernel
  have hsecond : (splitFiles.access.read "d/s/b.json").toOption = some baseText := by decide +kernel
  have hentries : ["d/a.json", "d/s/b.json"].mapM (splitFiles.access.moduleEntries? Json.ofText?) =
      some splitEntries := by
    simp only [List.mapM_cons, List.mapM_nil, FileAccess.moduleEntries?, hfirst, hsecond, Option.bind_some, hderived,
      hbase]
    rfl
  have hreordered : splitFiles.Reordered ⟨splitFiles.files.reverse, []⟩ :=
    ⟨rfl, (List.reverse_perm _).symm, by decide +kernel⟩
  have hdir : splitFiles.access.isDir "d" = true := by decide +kernel
  have hfound : ["d/a.json", "d/s/b.json"].Perm
      ((splitFiles.access.below "d").filter (isDescription splitFiles.access)) := by
    decide +kernel
  obtain ⟨hmerges, horder⟩ := ofDirectory_merges hdir hfound (by decide +kernel) hentries
  refine ⟨?_, horder _ hreordered.rescanned⟩
  rw [(hmerges "merged" [("Modules", .arr splitEntries.flatten)] rfl).1]
  have hprogram : (verdict (Program.ofDocument "merged" (.obj [("Modules", .arr splitEntries.flatten)]))).toOption.any
      (fun p => p.types.toList.map (fun ty => (ty.fullName, ty.base)) == [("T", some 1), ("U", none)]) = true := by
    decide +kernel
  obtain ⟨p, hp, htypes⟩ := (Option.any_eq_true _ _).mp hprogram
  exact ⟨p, toOption_eq_some.mp hp, toOption_eq_some.mp hp, beq_iff_eq.mp htypes⟩

end CallGraphs
