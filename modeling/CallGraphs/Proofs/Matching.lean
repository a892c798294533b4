import CallGraphs.Dispatch.Matching
import CallGraphs.Proofs.BaseNames

/-! Matching as an order on methods. A return type fits another one if it has the same name or if both are types of the
    program and the first derives from the second (`Loaded.resultFits_iff`). Derivation is a relation of positions and
    can be composed, whatever the number of steps on either side, so what fits a method that fits the target fits the
    target (`Loaded.fits_trans`). Return types that fit each other in both directions are the same, or derive from each
    other and then from themselves (`Loaded.resultFits_antisymm`). -/

namespace CallGraphs.Program

variable {p : Program} {a b c : String} {m o t : MethodDef}

/-! ### Return types -/

/-- Both names are names of types, and the first type derives from the second. -/
def Refines (p : Program) (a b : String) : Prop :=
  ∃ s t, p.typeNamed? a = some s ∧ p.typeNamed? b = some t ∧ p.Derives s t

/-- The name is that of a type that derives from itself. -/
def OnCycle (p : Program) (a : String) : Prop := ∃ t, p.typeNamed? a = some t ∧ p.Derives t t

theorem Refines.trans (h : p.Refines a b) (h' : p.Refines b c) : p.Refines a c := by
  obtain ⟨s, t, hs, ht, hst⟩ := h
  obtain ⟨t', u, ht', hu, htu⟩ := h'
  obtain rfl : t = t' := Option.some.inj (ht.symm.trans ht')
  exact ⟨s, u, hs, hu, hst.trans htu⟩

theorem refines_self_iff : p.Refines a a ↔ p.OnCycle a := by
  constructor
  · rintro ⟨s, t, hs, ht, hst⟩
    obtain rfl : s = t := Option.some.inj (hs.symm.trans ht)
    exact ⟨s, hs, hst⟩
  · rintro ⟨t, ht, hcycle⟩
    exact ⟨t, t, ht, ht, hcycle⟩

theorem typeName_of_typeNamed? {t : TypeId} (h : p.typeNamed? a = some t) : p.typeName t = a := by
  have hname : p.typeName t = (p.fullNameOf? t).getD "" := rfl
  rw [hname, fullNameOf?_of_typeNamed? h, Option.getD_some]

theorem Loaded.resultFits_iff (hp : p.Loaded) : p.resultFits a b = true ↔ a = b ∨ p.Refines a b := by
  rw [resultFits, Bool.or_eq_true, beq_iff_eq]
  refine or_congr_right ?_
  cases hs : p.typeNamed? a with
  | none => simp [Refines, hs]
  | some s =>
    cases ht : p.typeNamed? b with
    | none => simp [Refines, ht]
    | some t =>
      have hiff : p.derivesFrom s b = true ↔ p.Derives s t := by
        rw [← typeName_of_typeNamed? ht]
        exact hp.derivesFrom_iff (fullNameOf?_lt (fullNameOf?_of_typeNamed? ht))
      simp [Refines, hs, ht, hiff]

theorem Loaded.resultFits_trans (hp : p.Loaded) (h : p.resultFits a b = true) (h' : p.resultFits b c = true) :
    p.resultFits a c = true := by
  rw [hp.resultFits_iff] at h h' ⊢
  rcases h with rfl | h
  · exact h'
  · rcases h' with rfl | h'
    · exact .inr h
    · exact .inr (h.trans h')

/-- Two different return types that fit each other lie on a cycle. -/
theorem Loaded.resultFits_antisymm (hp : p.Loaded) (h : p.resultFits a b = true) (h' : p.resultFits b a = true) :
    a = b ∨ p.OnCycle a ∧ p.OnCycle b := by
  rw [hp.resultFits_iff] at h h'
  rcases h with rfl | h
  · exact .inl rfl
  · rcases h' with rfl | h'
    · exact .inl rfl
    · exact .inr ⟨refines_self_iff.mp (h.trans h'), refines_self_iff.mp (h'.trans h)⟩

/-! ### Methods -/

theorem fits_iff_resultFits :
    p.fits m t = true ↔ m.name = t.name ∧ m.params = t.params ∧ p.resultFits m.result t.result = true := by
  rw [fits, Bool.and_eq_true, Bool.and_eq_true, beq_iff_eq, beq_iff_eq, and_assoc]

theorem fits_refl (p : Program) (m : MethodDef) : p.fits m m = true := by
  simp [fits, resultFits]

theorem Loaded.fits_trans (hp : p.Loaded) (h : p.fits m o = true) (h' : p.fits o t = true) : p.fits m t = true := by
  obtain ⟨hname, hparams, hresult⟩ := fits_iff_resultFits.mp h
  obtain ⟨hname', hparams', hresult'⟩ := fits_iff_resultFits.mp h'
  exact fits_iff_resultFits.mpr ⟨hname.trans hname', hparams.trans hparams', hp.resultFits_trans hresult hresult'⟩

/-- What one replacement after the other leads to fits as well. -/
theorem Loaded.fits_of_chain (hp : p.Loaded) (h : Relation.ReflTransGen (fun m t => p.fits m t = true) m t) :
    p.fits m t = true := by
  induction h with
  | refl => exact p.fits_refl m
  | tail _ hlast ih => exact hp.fits_trans ih hlast

/-- In a loaded program matching is a preorder: a method fits the target exactly if name and parameters agree and the
    return type is the same or one derived from it; every method fits itself, and a method that is led to the target by
    any number of replacements fits the target. Methods that fit each other have the same return type, unless their
    return types lie on a cycle. -/
theorem fits_preorder (p : Program) (hp : p.Loaded) :
    (∀ m t, p.fits m t = true ↔
      m.name = t.name ∧ m.params = t.params ∧ (m.result = t.result ∨ p.Refines m.result t.result)) ∧
    (∀ m, p.fits m m = true) ∧
    (∀ m o t, p.fits m o = true → p.fits o t = true → p.fits m t = true) ∧
    (∀ m t, Relation.ReflTransGen (fun m t => p.fits m t = true) m t → p.fits m t = true) ∧
    (∀ m t, p.fits m t = true → p.fits t m = true →
      m.result = t.result ∨ p.OnCycle m.result ∧ p.OnCycle t.result) := by
  refine ⟨fun m t => ?_, p.fits_refl, fun _ _ _ => hp.fits_trans, fun _ _ => hp.fits_of_chain, fun m t h h' => ?_⟩
  · rw [fits_iff_resultFits, hp.resultFits_iff]
  · obtain ⟨-, -, hresult⟩ := fits_iff_resultFits.mp h
    obtain ⟨-, -, hresult'⟩ := fits_iff_resultFits.mp h'
    exact hp.resultFits_antisymm hresult hresult'

/-- Two types that derive from each other and a type below them, each with a method that returns its own type. -/
def broodText : String :=
  "\x7b\"Modules\":[\x7b\"Name\":\"M\"," ++ "\"Types\":[" ++
    "\x7b\"Name\":\"Egg\",\"BaseType\":\"Hen\"," ++
      "\"Methods\":[\x7b\"Name\":\"Copy\",\"ReturnType\":\"Egg\"\x7d]\x7d," ++
    "\x7b\"Name\":\"Hen\",\"BaseType\":\"Egg\"," ++
      "\"Methods\":[\x7b\"Name\":\"Copy\",\"ReturnType\":\"Hen\"\x7d]\x7d," ++
    "\x7b\"Name\":\"Chick\",\"BaseType\":\"Egg\"," ++
      "\"Methods\":[\x7b\"Name\":\"Copy\",\"ReturnType\":\"Chick\"\x7d]\x7d]\x7d]\x7d"

/-- Its value. -/
def brood : Json :=
  .obj [("Modules", .arr [.obj [("Name", .str "M"), ("Types", .arr [
    .obj [("Name", .str "Egg"), ("BaseType", .str "Hen"),
      ("Methods", .arr [.obj [("Name", .str "Copy"), ("ReturnType", .str "Egg")]])],
    .obj [("Name", .str "Hen"), ("BaseType", .str "Egg"),
      ("Methods", .arr [.obj [("Name", .str "Copy"), ("ReturnType", .str "Hen")]])],
    .obj [("Name", .str "Chick"), ("BaseType", .str "Egg"),
      ("Methods", .arr [.obj [("Name", .str "Copy"), ("ReturnType", .str "Chick")]])]])]])]

/-- The method of a type in it. -/
def copying (owner : TypeId) (result : String) : MethodDef :=
  { name := "Copy", result, owner, fullName := some (result ++ " " ++ result ++ "::Copy()") }

theorem fits_preorder_brood : ∃ d, ofText Json.ofText? "brood" broodText = .ok d ∧ d.program.Loaded ∧
    let egg := copying 0 "Egg"
    let hen := copying 1 "Hen"
    let chick := copying 2 "Chick"
    d.program.methods.toList = [egg, hen, chick] ∧
    d.program.fits chick egg = true ∧ d.program.fits egg hen = true ∧ d.program.fits chick hen = true ∧
    d.program.fits egg chick = false ∧
    d.program.fits hen egg = true ∧ d.program.OnCycle "Egg" ∧ d.program.OnCycle "Hen" := by
  have hvalue : Json.ofText? broodText = some brood := by
    unfold broodText
    rw [Description.ofText?_eq]
    simp only [String.toList_append, String.reduceToList]
    set_option maxRecDepth 2000 in rfl
  obtain ⟨d, hd, hfacts⟩ := Description.exists_ofText hvalue (by decide +kernel :
    (ofDocument "brood" brood).toOption.any (fun d => decide (
      d.program.methods.toList = [copying 0 "Egg", copying 1 "Hen", copying 2 "Chick"] ∧
      d.program.fits (copying 2 "Chick") (copying 0 "Egg") = true ∧
      d.program.fits (copying 0 "Egg") (copying 1 "Hen") = true ∧
      d.program.fits (copying 0 "Egg") (copying 2 "Chick") = false ∧
      d.program.fits (copying 1 "Hen") (copying 0 "Egg") = true)) = true)
  obtain ⟨hmethods, hchick, hegg, hback, hhen⟩ := of_decide_eq_true hfacts
  have hloaded : d.program.Loaded := .text hd
  obtain ⟨-, -, htrans, -, hmutual⟩ := fits_preorder d.program hloaded
  obtain ⟨hcycle, hcycle'⟩ := (hmutual _ _ hegg hhen).resolve_left (by decide)
  exact ⟨d, hd, hloaded, hmethods, hchick, hegg, htrans _ _ _ hchick hegg, hback, hhen, hcycle, hcycle'⟩

end CallGraphs.Program
