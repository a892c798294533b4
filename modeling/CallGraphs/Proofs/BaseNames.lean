import CallGraphs.Proofs.Derivation
import CallGraphs.Proofs.FirstDefinitions
import CallGraphs.Proofs.Loading

/-! Derivation by name. A test by name asks whether a type on the chain of another one names a certain base type. In a
    loaded program full names are never empty and each belongs to one type, so a type names another one as its base type
    exactly if it is bound to it (`names_iff_baseOf`). The chain is cut after a number of steps, but what a longer walk
    would meet has come up by then, also on a cycle (`mem_chain_iff`). So the test by name and derivation by position
    agree (`derivesFrom_exact`). -/

namespace CallGraphs

namespace Program

variable {p : Program} {s t : TypeId}

/-- The cut of a chain leaves out nothing. -/
theorem BasesExist.mem_chain_iff (hp : p.BasesExist) :
    t ∈ p.chain s ↔ s < p.types.size ∧ Relation.ReflTransGen p.BaseLink s t :=
  hp.mem_climb_iff (Nat.le_succ _)

/-- To name a type as base type is to be bound to it. -/
theorem Loaded.names_iff_baseOf (hp : p.Loaded) (ht : t < p.types.size) :
    (p.types[s]?.map fun ty => ty.baseName == p.typeName t).getD false = true ↔ p.baseOf s = some t := by
  have hname : p.fullNameOf? t = some (p.typeName t) := by simp [fullNameOf?, typeName, ht]
  have htitle : p.typeName t ≠ "" := fun hempty => hp.titled t (hname.trans (congrArg some hempty))
  rw [baseOf]
  cases hty : p.types[s]? with
  | none => simp
  | some ty =>
    rw [Option.map_some, Option.getD_some, beq_iff_eq, Option.bind_some, hp.finalized.bound.base s ty t hty, hname]
    constructor
    · intro hbase
      exact ⟨hbase ▸ htitle, ht, congrArg some hbase.symm⟩
    · rintro ⟨-, -, hbase⟩
      exact (Option.some.inj hbase).symm

/-- The test by name is derivation by position. -/
theorem Loaded.derivesFrom_iff (hp : p.Loaded) (ht : t < p.types.size) :
    p.derivesFrom s (p.typeName t) = true ↔ p.Derives s t := by
  rw [derivesFrom, List.any_eq_true, Derives, Relation.TransGen.tail'_iff]
  refine exists_congr fun x => ?_
  rw [hp.names_iff_baseOf ht, hp.finalized.basesExist.mem_chain_iff, and_assoc]
  refine and_iff_right_of_imp ?_
  rintro ⟨hreach, hbase⟩
  obtain ⟨k, hk⟩ := derives_iff.mp (Relation.TransGen.tail' hreach hbase)
  exact lt_of_ancestor?_succ hk

/-- In a loaded program the test by name is derivation by position, over any number of steps and on cycles as well. For
    a type whose chain ends it is membership in the list of subtypes. -/
theorem derivesFrom_exact (p : Program) (hp : p.Loaded) (s t : TypeId) (ht : t < p.types.size) :
    (p.derivesFrom s (p.typeName t) = true ↔ p.Derives s t) ∧
    (p.Ends t → (p.derivesFrom s (p.typeName t) = true ↔ s ∈ (Hierarchy.ofProgram p).subtypesOf t)) := by
  have hiff : p.derivesFrom s (p.typeName t) = true ↔ p.Derives s t := hp.derivesFrom_iff ht
  refine ⟨hiff, fun hends => ?_⟩
  rw [hiff, Hierarchy.mem_subtypesOf_iff_derives hp.finalized.basesExist, and_iff_left hends]

/-- Two types that derive from each other, a type below them, and a type with a base type of its own. -/
def henhouseText : String :=
  "\x7b\"Modules\":[\x7b\"Name\":\"M\"," ++ "\"Types\":[" ++ "\x7b\"Name\":\"Egg\",\"BaseType\":\"Hen\"\x7d," ++
    "\x7b\"Name\":\"Hen\",\"BaseType\":\"Egg\"\x7d," ++ "\x7b\"Name\":\"Chick\",\"BaseType\":\"Egg\"\x7d," ++
    "\x7b\"Name\":\"Cat\",\"BaseType\":\"Pet\"\x7d," ++ "\x7b\"Name\":\"Pet\"\x7d]\x7d]\x7d"

/-- Its value. -/
def henhouse : Json :=
  .obj [("Modules", .arr [.obj [("Name", .str "M"), ("Types", .arr [
    .obj [("Name", .str "Egg"), ("BaseType", .str "Hen")],
    .obj [("Name", .str "Hen"), ("BaseType", .str "Egg")],
    .obj [("Name", .str "Chick"), ("BaseType", .str "Egg")],
    .obj [("Name", .str "Cat"), ("BaseType", .str "Pet")],
    .obj [("Name", .str "Pet")]])]])]

theorem derivesFrom_exact_henhouse : ∃ d, ofText Json.ofText? "henhouse" henhouseText = .ok d ∧ d.program.Loaded ∧
    d.program.typeName 1 = "Hen" ∧ d.program.Derives 2 1 ∧ d.program.Derives 1 1 ∧
    (Hierarchy.ofProgram d.program).subtypesOf 1 = [] ∧ d.program.Ends 4 ∧
    3 ∈ (Hierarchy.ofProgram d.program).subtypesOf 4 := by
  have hvalue : Json.ofText? henhouseText = some henhouse := by
    unfold henhouseText
    rw [Description.ofText?_eq, String.toList_append, String.toList_append, String.toList_append,
      String.toList_append, String.toList_append, String.toList_append]
    simp only [String.reduceToList]
    set_option maxRecDepth 2000 in rfl
  obtain ⟨d, hd, hfacts⟩ := Description.exists_ofText hvalue (by decide +kernel :
    (ofDocument "henhouse" henhouse).toOption.any (fun d => decide (d.program.types.size = 5 ∧
      d.program.typeName 1 = "Hen" ∧ d.program.typeName 4 = "Pet" ∧
      d.program.derivesFrom 2 "Hen" = true ∧ d.program.derivesFrom 1 "Hen" = true ∧
      d.program.derivesFrom 3 "Pet" = true ∧ d.program.baseOf 4 = none ∧
      (Hierarchy.ofProgram d.program).subtypesOf 1 = [])) = true)
  obtain ⟨hsize, hhen, hpet, hchick, hself, hcat, hroot, hnone⟩ := of_decide_eq_true hfacts
  have hloaded : d.program.Loaded := .text hd
  have hends : d.program.Ends 4 := ⟨4, .refl, hroot⟩
  have hlt : 1 < d.program.types.size := by omega
  have hlt' : 4 < d.program.types.size := by omega
  rw [← hhen] at hchick hself
  rw [← hpet] at hcat
  exact ⟨d, hd, hloaded, hhen, (derivesFrom_exact d.program hloaded 2 1 hlt).1.mp hchick,
    (derivesFrom_exact d.program hloaded 1 1 hlt).1.mp hself, hnone, hends,
    ((derivesFrom_exact d.program hloaded 3 4 hlt').2 hends).mp hcat⟩

end Program

end CallGraphs
