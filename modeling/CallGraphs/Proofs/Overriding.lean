import CallGraphs.Proofs.FirstDefinitions
import CallGraphs.Proofs.Members
import CallGraphs.Settings

/-! Changes to settings are edits of the settings document. An option that is given stands for a member of the
    document, and to change the settings is to read the document with these members replaced
    (`ofDocument_edit`), faults included. Reading accepts no empty path and an option does not set one, so that the
    check after the changes never fails. -/

namespace CallGraphs

open Json (Object)

namespace Json.Object

/-- The object with new members in place of those with the same keys. -/
def revise (o new : Object) : Object := new ++ only o fun key => (get? new key).isNone

theorem get?_append (o o' : Object) (key : String) : get? (o ++ o') key = (get? o key).or (get? o' key) :=
  List.lookup_append

theorem get?_revise (o new : Object) (key : String) : get? (revise o new) key = (get? new key).or (get? o key) := by
  rw [revise, get?_append, get?_only]
  cases get? new key <;> rfl

end Json.Object

namespace Overrides

/-! ### The edited document -/

/-- A member, if it is given. -/
def member (key : String) (given : Bool) (v : Json) : Object := if given then [(key, v)] else []

/-- The members that the given options stand for. -/
def members (o : Overrides) : Object :=
  member "Algorithm" (o.algorithm != "") (.str o.algorithm) ++
  member "EntrypointStrategy" (o.strategy != "") (.str o.strategy) ++
  member "Namespaces" (!o.namespaces.isEmpty) (.arr (o.namespaces.map .str)) ++
  member "JsonOutputPath" (o.jsonPath != "") (.str o.jsonPath) ++
  member "DotOutputPath" (o.dotPath != "") (.str o.dotPath) ++
  member "DotEdgeLimit" (0 ≤ o.dotLimit) (.num (.whole o.dotLimit))

/-- The document with the given options in it. -/
def edit (o : Overrides) : Json → Json := Json.overMembers fun ms => Object.revise ms o.members

theorem get?_member (k : String) (given : Bool) (v : Json) (key : String) :
    Object.get? (member k given v) key = if key = k ∧ given = true then some v else none := by
  have hnone : Object.get? [] key = none := rfl
  cases given with
  | false => simp [member, hnone]
  | true => simp [member, Object.get?_cons, hnone]

variable {o : Overrides} {ms : Object} {s : Settings}

/-! ### Reading the edited document -/

/-- The options whose values are texts, with the keys of their members. -/
def texts (o : Overrides) : List (String × String) :=
  [("Algorithm", o.algorithm), ("EntrypointStrategy", o.strategy), ("JsonOutputPath", o.jsonPath),
    ("DotOutputPath", o.dotPath)]

theorem text?_edit {key : String} (given : String) (h : (key, given) ∈ o.texts) :
    Object.text? (ms.revise o.members) key = if given = "" then Object.text? ms key else some given := by
  have hmember : Object.get? (ms.revise o.members) key =
      if given = "" then Object.get? ms key else some (.str given) := by
    simp only [texts, List.mem_cons, List.not_mem_nil, Prod.mk.injEq, or_false] at h
    rcases h with ⟨rfl, rfl⟩ | ⟨rfl, rfl⟩ | ⟨rfl, rfl⟩ | ⟨rfl, rfl⟩ <;>
      split <;> simp_all [Object.get?_revise, members, Object.get?_append, get?_member]
  split at hmember
  · rename_i hnone
    rw [if_pos hnone, Object.text?_congr hmember]
  · rename_i hgiven
    rw [if_neg hgiven, Object.text?, hmember]

theorem decodePath_binary (missing : SettingsFault) :
    decodePath (ms.revise o.members) "BinaryPath" missing = decodePath ms "BinaryPath" missing := by
  have hmember : Object.get? (ms.revise o.members) "BinaryPath" = Object.get? ms "BinaryPath" := by
    simp [Object.get?_revise, members, Object.get?_append, get?_member]
  rw [decodePath, Object.name?, Object.text?_congr hmember, ← Object.name?, ← decodePath]

theorem decodeAlgorithm_edit (h : decodeAlgorithm ms = .ok s.algorithm) :
    decodeAlgorithm (ms.revise o.members) = o.algorithmOf s := by
  rw [decodeAlgorithm, text?_edit o.algorithm (by simp [texts]), algorithmOf]
  by_cases hgiven : o.algorithm = ""
  · rw [if_pos hgiven, if_pos hgiven, ← h, decodeAlgorithm]
  · rw [if_neg hgiven, if_neg hgiven]

theorem decodeStrategy_edit (h : decodeStrategy ms = .ok s.strategy) :
    decodeStrategy (ms.revise o.members) = o.strategyOf s := by
  rw [decodeStrategy, text?_edit o.strategy (by simp [texts]), strategyOf]
  by_cases hgiven : o.strategy = ""
  · rw [if_pos hgiven, if_pos hgiven, ← h, decodeStrategy]
  · rw [if_neg hgiven, if_neg hgiven]

theorem decodePath_json {missing : SettingsFault} (h : decodePath ms "JsonOutputPath" missing = .ok s.jsonPath) :
    decodePath (ms.revise o.members) "JsonOutputPath" missing =
      .ok (if o.jsonPath = "" then s.jsonPath else o.jsonPath) := by
  rw [decodePath, Object.name?, text?_edit o.jsonPath (by simp [texts])]
  by_cases hgiven : o.jsonPath = ""
  · rw [if_pos hgiven, if_pos hgiven, ← h, decodePath, Object.name?]
  · have hname : (some o.jsonPath).filter (· != "") = some o.jsonPath := by simp [hgiven]
    rw [if_neg hgiven, if_neg hgiven, hname]

theorem dotPath_edit : (Object.text? (ms.revise o.members) "DotOutputPath").getD "" =
    if o.dotPath = "" then (Object.text? ms "DotOutputPath").getD "" else o.dotPath := by
  rw [text?_edit o.dotPath (by simp [texts])]
  split <;> rfl

theorem mapM_str {f : Json → Except SettingsFault String} (hf : ∀ s, f (.str s) = .ok s) :
    ∀ l : List String, (l.map Json.str).mapM f = .ok l
  | [] => rfl
  | s :: l => by
      rw [List.map_cons, List.mapM_cons, hf, mapM_str hf l]
      rfl

theorem decodeNamespaces_edit (h : decodeNamespaces ms = .ok s.namespaces) : decodeNamespaces (ms.revise o.members) =
    .ok (if o.namespaces.isEmpty then s.namespaces else o.namespaces) := by
  have hmember : Object.get? (ms.revise o.members) "Namespaces" =
      if o.namespaces.isEmpty then Object.get? ms "Namespaces" else some (.arr (o.namespaces.map .str)) := by
    split <;> simp_all [Object.get?_revise, members, Object.get?_append, get?_member]
  rw [decodeNamespaces, hmember]
  by_cases hgiven : o.namespaces.isEmpty
  · rw [if_pos hgiven, if_pos hgiven, ← h, decodeNamespaces]
  · rw [if_neg hgiven, if_neg hgiven]
    exact mapM_str (fun _ => rfl) o.namespaces

theorem decodeLimit_edit (hlimit : o.dotLimit < Nat.pow 2 63) (h : decodeLimit ms = .ok s.dotLimit) :
    decodeLimit (ms.revise o.members) = .ok (if o.dotLimit < 0 then s.dotLimit else o.dotLimit.toNat) := by
  have hmember : Object.get? (ms.revise o.members) "DotEdgeLimit" =
      if o.dotLimit < 0 then Object.get? ms "DotEdgeLimit" else some (.num (.whole o.dotLimit)) := by
    by_cases hgiven : o.dotLimit < 0
    · simp [Object.get?_revise, members, Object.get?_append, get?_member, hgiven, Int.not_le.mpr hgiven]
    · simp [Object.get?_revise, members, Object.get?_append, get?_member, hgiven, Int.not_lt.mp hgiven]
  rw [decodeLimit, hmember]
  by_cases hgiven : o.dotLimit < 0
  · rw [if_pos hgiven, if_pos hgiven, ← h, decodeLimit]
  · rw [if_neg hgiven, if_neg hgiven]
    obtain ⟨n, hn⟩ := Int.eq_ofNat_of_zero_le (Int.not_lt.mp hgiven)
    -- digits alone are exact as long as they fit
    have hfits : (Json.num (.whole o.dotLimit)).integer? = some (.ofNat n) := by
      have hfit : Numeral.fit64 n = some (n : Int) := by
        rw [Numeral.fit64, if_pos (by omega)]
      rw [hn, Json.integer?, Numeral.integer?, hfit]
      rfl
    have hnat : o.dotLimit.toNat = n := by omega
    simp only [hfits, hnat]

end Overrides

namespace Settings

variable {s t : Settings} {v : Json} {o : Overrides}

/-- What a document has if it is read. -/
theorem ofDocument_ok (h : ofDocument v = .ok s) : ∃ ms, v = .obj ms ∧
    decodePath ms "BinaryPath" .noBinaryPath = .ok s.binaryPath ∧ decodeNamespaces ms = .ok s.namespaces ∧
    decodeAlgorithm ms = .ok s.algorithm ∧ decodeStrategy ms = .ok s.strategy ∧
    decodePath ms "JsonOutputPath" .noJsonPath = .ok s.jsonPath ∧ decodeLimit ms = .ok s.dotLimit ∧
    (Object.text? ms "DotOutputPath").getD "" = s.dotPath := by
  cases v with
  | obj ms =>
    simp only [ofDocument, bind_eq_ok, pure_eq_ok] at h
    obtain ⟨binaryPath, hbinary, namespaces, hnamespaces, algorithm, halgorithm, strategy, hstrategy, jsonPath, hjson,
      dotLimit, hlimit, rfl⟩ := h
    exact ⟨ms, rfl, hbinary, hnamespaces, halgorithm, hstrategy, hjson, hlimit, rfl⟩
  | _ => simp [ofDocument] at h

/-- To change the settings is to read the edited document. -/
theorem ofDocument_edit (hlimit : o.dotLimit < Nat.pow 2 63) (h : ofDocument v = .ok s) :
    ofDocument (o.edit v) = o.change s := by
  obtain ⟨ms, rfl, hbinary, hnamespaces, halgorithm, hstrategy, hjson, hdotLimit, hdot⟩ := ofDocument_ok h
  -- all members but the names of algorithm and strategy are good, so that these two decide in their order
  show ofDocument (.obj (Object.revise ms o.members)) = o.change s
  rw [ofDocument, Overrides.decodePath_binary, hbinary, Overrides.decodeNamespaces_edit hnamespaces,
    Overrides.decodeAlgorithm_edit halgorithm, Overrides.decodeStrategy_edit hstrategy, Overrides.decodePath_json hjson,
    Overrides.decodeLimit_edit hlimit hdotLimit, Overrides.dotPath_edit, hdot]
  rfl

theorem decodePath_ne {ms : Object} {key path : String} {missing : SettingsFault}
    (h : decodePath ms key missing = .ok path) : path ≠ "" := by
  rw [decodePath] at h
  split at h
  · cases h
  · rename_i name hname
    obtain rfl := Except.ok.inj h
    rw [Object.name?, Option.filter_eq_some_iff] at hname
    exact bne_iff_ne.mp hname.2

/-- Settings that are read have the paths that a run cannot do without. -/
theorem validate_of_ofDocument (h : ofDocument v = .ok s) : s.validate = .ok () := by
  obtain ⟨ms, -, hbinary, -, -, -, hjson, -⟩ := ofDocument_ok h
  rw [validate, if_neg (decodePath_ne hbinary), if_neg (decodePath_ne hjson)]

theorem ofText_eq_ok {parse : Json.Parser} {source text : String} :
    ofText parse source text = .ok s ↔ ∃ v, parse text = some v ∧ ofDocument v = .ok s := by
  rw [ofText]
  cases parse text with
  | none => simp
  | some v =>
    simp only [ofValue, Option.some.injEq, exists_eq_left']
    cases ofDocument v <;> simp

end Settings

namespace Overrides

variable {o : Overrides} {s : Settings} {v : Json}

theorem apply_eq_ok (hlimit : o.dotLimit < Nat.pow 2 63) (h : Settings.ofDocument v = .ok s) {t : Settings} :
    o.apply s = .ok t ↔ Settings.ofDocument (o.edit v) = .ok t := by
  have hedit := Settings.ofDocument_edit hlimit h
  rw [hedit, apply]
  cases hchange : o.change s with
  | error what => simp
  | ok changed => simp [Settings.validate_of_ofDocument (hedit.trans hchange)]

/-- Settings that were read are changed successfully exactly if the document is accepted with the given options in it,
    and then to the settings that it gives; a fault is the same in both cases. The check of the paths that follows the
    changes never fails. A limit has 32 bits as an option; here it is enough that a document can write it. -/
theorem apply_iff_edited {parse : Json.Parser} {source text : String} (h : Settings.ofText parse source text = .ok s)
    (o : Overrides) (hlimit : o.dotLimit < Nat.pow 2 63) : ∃ v, parse text = some v ∧
    Settings.ofDocument (o.edit v) = o.change s ∧
    (∀ t, o.apply s = .ok t ↔ Settings.ofDocument (o.edit v) = .ok t) ∧
    (∀ source' text', parse text' = some (o.edit v) →
      ∀ t, o.apply s = .ok t ↔ Settings.ofText parse source' text' = .ok t) ∧
    ∀ t, o.change s = .ok t → t.validate = .ok () := by
  obtain ⟨v, hv, hs⟩ := Settings.ofText_eq_ok.mp h
  have hedit := Settings.ofDocument_edit hlimit hs
  refine ⟨v, hv, hedit, fun t => apply_eq_ok hlimit hs, fun source' text' htext t => ?_, fun t ht => ?_⟩
  · rw [apply_eq_ok hlimit hs, Settings.ofText_eq_ok, htext]
    simp
  · exact Settings.validate_of_ofDocument (hedit.trans ht)

/-- A settings document with a path and a limit of its own for the DOT graph. -/
def nightlyText : String :=
  "\x7b\"BinaryPath\":\"bin\"," ++ "\"Namespaces\":[\"A\"]," ++ "\"Algorithm\":\"cha\"," ++
    "\"EntrypointStrategy\":\"ALL\"," ++ "\"JsonOutputPath\":\"o/g.json\"," ++ "\"DotEdgeLimit\":7\x7d"

/-- Its value. -/
def nightly : Json :=
  .obj [("BinaryPath", .str "bin"), ("Namespaces", .arr [.str "A"]), ("Algorithm", .str "cha"),
    ("EntrypointStrategy", .str "ALL"), ("JsonOutputPath", .str "o/g.json"), ("DotEdgeLimit", .num (.whole 7))]

/-- The settings that it gives. -/
def nightlySettings : Settings where
  binaryPath := "bin"
  namespaces := ["A"]
  algorithm := .cha
  strategy := .all
  jsonPath := "o/g.json"
  dotLimit := 7

/-- Options that change the algorithm, the namespaces, a path and the limit. -/
def nightlyOverrides : Overrides where
  algorithm := "rtA"
  namespaces := ["B", ""]
  jsonPath := "h.json"
  dotLimit := 0

/-- The document with the options in it. -/
def nightlyEditedText : String :=
  "\x7b\"Algorithm\":\"rtA\"," ++ "\"Namespaces\":[\"B\",\"\"]," ++ "\"JsonOutputPath\":\"h.json\"," ++
    "\"DotEdgeLimit\":0," ++ "\"BinaryPath\":\"bin\"," ++ "\"EntrypointStrategy\":\"ALL\"\x7d"

/-- The settings with the options in them. -/
def nightlyChanged : Settings :=
  { nightlySettings with algorithm := .rta, namespaces := ["B", ""], jsonPath := "h.json", dotLimit := 0 }

theorem apply_iff_edited_nightly :
    Settings.ofText Json.ofText? "nightly" nightlyText = .ok nightlySettings ∧
    nightlyOverrides.dotLimit < Nat.pow 2 63 ∧ nightlyOverrides.apply nightlySettings = .ok nightlyChanged ∧
    Settings.ofDocument (nightlyOverrides.edit nightly) = .ok nightlyChanged ∧
    Settings.ofText Json.ofText? "edited" nightlyEditedText = .ok nightlyChanged ∧
    nightlyChanged.validate = .ok () := by
  have hvalue : Json.ofText? nightlyText = some nightly := by
    unfold nightlyText
    rw [Description.ofText?_eq]
    simp only [String.toList_append, String.reduceToList]
    rfl
  have hedited : Json.ofText? nightlyEditedText = some (nightlyOverrides.edit nightly) := by
    unfold nightlyEditedText
    rw [Description.ofText?_eq]
    simp only [String.toList_append, String.reduceToList]
    rfl
  have hsettings : Settings.ofText Json.ofText? "nightly" nightlyText = .ok nightlySettings :=
    Settings.ofText_eq_ok.mpr ⟨nightly, hvalue, by rfl⟩
  have hlimit : nightlyOverrides.dotLimit < Nat.pow 2 63 := by decide
  have hchange : nightlyOverrides.change nightlySettings = .ok nightlyChanged := by rfl
  obtain ⟨v, hv, hfaults, hdocument, htext, hvalid⟩ := apply_iff_edited hsettings nightlyOverrides hlimit
  obtain rfl : nightly = v := Option.some.inj (hvalue.symm.trans hv)
  have happly := (hdocument nightlyChanged).mpr (hfaults.trans hchange)
  exact ⟨hsettings, hlimit, happly, hfaults.trans hchange, (htext _ _ hedited _).mp happly, hvalid _ hchange⟩

end Overrides

end CallGraphs
