import CallGraphs.Graph.Export
import CallGraphs.Proofs.FirstDefinitions
import CallGraphs.Proofs.Loading
import CallGraphs.Proofs.Operations
import CallGraphs.Proofs.Signatures

/-! Exported call graphs, read back. An exported graph names its methods, and of the methods with one full name a
    look-up finds the first. So reading back always succeeds, and it gives the graph itself exactly if every method of
    the graph is the first of its name. In a program with plain names in which no type declares a signature twice, all
    methods are. -/

namespace CallGraphs

namespace Program

variable {p : Program} {m : MethodId}

/-! ### Methods by full name -/

/-- The methods have the full names that their signatures and types give. -/
def Named (p : Program) : Prop := ∀ (m : MethodId) x, p.methods[m]? = some x →
  x.fullName = some (x.toSignature.fullName (p.typeName x.owner))

theorem finalize_named (p : Program) : p.finalize.Named := by
  intro m x hx
  simp only [finalize, bindDefinitions, Array.getElem?_map] at hx
  obtain ⟨x, -, rfl⟩ := Option.map_eq_some_iff.mp hx
  have hname : p.finalize.typeName x.owner = p.typeName x.owner := by
    simp only [typeName, finalize, bindDefinitions, Array.getElem?_map, Option.map_map]
    rfl
  show some _ = some (x.toSignature.fullName (p.finalize.typeName x.owner))
  rw [hname]

theorem Named.fullName (h : p.Named) (hm : m < p.methods.size) : p.methods[m].fullName = some (p.methodName m) := by
  have hname := h m p.methods[m] (Array.getElem?_eq_getElem hm)
  rw [methodName, Array.getElem?_eq_getElem hm, Option.bind_some, hname, Option.getD_some]

/-- The method is the first one with its full name. -/
def FirstOfName (p : Program) (m : MethodId) : Prop := ∀ m' < m, p.methodName m' ≠ p.methodName m

/-- The method that is found by the full name of a method. -/
def namesake (p : Program) (m : MethodId) : MethodId := (p.methodNamed? (p.methodName m)).getD m

theorem Named.methodNamed?_iff (h : p.Named) {k : MethodId} : p.methodNamed? (p.methodName m) = some k ↔
    k < p.methods.size ∧ p.methodName k = p.methodName m ∧ p.FirstOfName k := by
  rw [methodNamed?, Array.findIdx?_eq_some_iff_getElem]
  constructor
  · rintro ⟨hk, hname, hfirst⟩
    rw [h.fullName hk, beq_iff_eq, Option.some.injEq] at hname
    refine ⟨hk, hname, fun j hj heq => hfirst j hj ?_⟩
    rw [h.fullName (Nat.lt_trans hj hk), heq, hname, beq_iff_eq]
  · rintro ⟨hk, hname, hfirst⟩
    refine ⟨hk, ?_, fun j hj heq => hfirst j hj ?_⟩
    · rw [h.fullName hk, hname, beq_iff_eq]
    · rw [h.fullName (Nat.lt_trans hj hk), beq_iff_eq, Option.some.injEq] at heq
      rw [heq, hname]

theorem Named.methodNamed? (h : p.Named) (hm : m < p.methods.size) :
    p.methodNamed? (p.methodName m) = some (p.namesake m) := by
  cases hfound : p.methodNamed? (p.methodName m) with
  | some k => rw [namesake, hfound, Option.getD_some]
  | none =>
    have hnone := Array.findIdx?_eq_none_iff.mp hfound _ (Array.getElem_mem hm)
    simp [h.fullName hm] at hnone

theorem Named.namesake_first (h : p.Named) (hm : m < p.methods.size) :
    p.methodName (p.namesake m) = p.methodName m ∧ p.FirstOfName (p.namesake m) :=
  (h.methodNamed?_iff.mp (h.methodNamed? hm)).2

theorem Named.namesake_eq_self (h : p.Named) (hm : m < p.methods.size) : p.namesake m = m ↔ p.FirstOfName m := by
  rw [← Option.some_inj, ← h.methodNamed? hm, h.methodNamed?_iff]
  exact ⟨fun hself => hself.2.2, fun hfirst => ⟨hm, rfl, hfirst⟩⟩

/-- The parts of the full names can be told apart, and no type declares a signature twice. -/
def PlainlyNamed (p : Program) : Prop :=
  (∀ x ∈ p.methods.toList, x.toSignature.Plain (p.typeName x.owner)) ∧
    (p.methods.toList.map fun x => (x.owner, x.toSignature)).Nodup

instance (p : Program) : Decidable p.PlainlyNamed := inferInstanceAs (Decidable (_ ∧ _))

theorem WellFormed.fullNameOf?_owner (h : p.WellFormed) (hm : m < p.methods.size) :
    p.fullNameOf? p.methods[m].owner = some (p.typeName p.methods[m].owner) := by
  have howner := h.owner m p.methods[m].owner (by rw [ownerOf?, Array.getElem?_eq_getElem hm, Option.map_some])
  rw [fullNameOf?, typeName, Array.getElem?_eq_getElem howner, Option.map_some, Option.getD_some]

theorem PlainlyNamed.firstOfName (hp : p.PlainlyNamed) (h : p.Named) (hwf : p.WellFormed) (hm : m < p.methods.size) :
    p.FirstOfName m := by
  intro m' hlt heq
  have hm' := Nat.lt_trans hlt hm
  have hplain : ∀ {k : MethodId} (hk : k < p.methods.size),
      p.methods[k].toSignature.Plain (p.typeName p.methods[k].owner) :=
    fun hk => hp.1 _ (Array.mem_toList_iff.mpr (Array.getElem_mem hk))
  have hfull : ∀ {k : MethodId} (hk : k < p.methods.size),
      p.methodName k = p.methods[k].toSignature.fullName (p.typeName p.methods[k].owner) :=
    fun hk => Option.some.inj ((h.fullName hk).symm.trans (h _ _ (Array.getElem?_eq_getElem hk)))
  rw [hfull hm', hfull hm] at heq
  obtain ⟨hsignature, hname⟩ := Signature.fullName_injective (hplain hm') (hplain hm) heq
  have howner := hwf.names _ _ _ (hwf.fullNameOf?_owner hm') (hname ▸ hwf.fullNameOf?_owner hm)
  -- one type declares one signature in both places
  refine Nat.ne_of_lt hlt ((List.getElem?_inj (by simpa using hm') hp.2).mp ?_)
  simp only [List.getElem?_map, Array.getElem?_toList, Array.getElem?_eq_getElem hm', Array.getElem?_eq_getElem hm,
    Option.map_some, howner, hsignature]

/-! ### Calls lead to methods of the program -/

theorem firstMethod?_lt {t : TypeId} {test : MethodDef → Bool} (h : p.firstMethod? t test = some m) :
    m < p.methods.size := by
  obtain ⟨-, x, -, -, hx, -⟩ := firstMethod?_eq_some h
  exact (Array.getElem?_eq_some_iff.mp hx).1

theorem Calls.lt {c : MethodId} (h : p.Calls m c) : c < p.methods.size := by
  cases h with
  | handover hto =>
    obtain ⟨-, -, -, -, hdriver⟩ := hto
    exact firstMethod?_lt (driver?_eq_some.mpr hdriver)
  | call _ hr => exact resolve?_lt hr
  | ldftn _ hr => exact resolve?_lt hr
  | newobj _ hr => exact resolve?_lt hr

end Program

namespace Dispatch

theorem runOn_lt {p : Program} {target c : MethodId} {m : MethodDef} {r : TypeId} (htarget : target < p.methods.size)
    (h : runOn p target m r = some c) : c < p.methods.size := by
  -- what runs is found in a type on the chain, or it is the target
  have hfound : ∀ {f : TypeId → Option MethodId} {l : List TypeId} {k : MethodId},
      (∀ t k, f t = some k → k < p.methods.size) → l.findSome? f = some k → k < p.methods.size := by
    intro f l k hf hk
    obtain ⟨t, -, ht⟩ := List.exists_of_findSome?_eq_some hk
    exact hf t k ht
  unfold runOn runOnInterface runOnClass at h
  split at h
  · split at h
    · rename_i hi
      exact hfound (fun _ _ => Program.firstMethod?_lt) (h ▸ hi)
    · split at h
      · exact Option.some.inj h ▸ htarget
      · cases h
  · split at h
    · rename_i ho
      exact hfound (fun _ _ => Program.firstMethod?_lt) (h ▸ ho)
    · split at h
      · exact Option.some.inj h ▸ htarget
      · cases h

theorem candidates_lt {d : Dispatch} {live : LiveTypes} {target c : MethodId} (h : c ∈ d.candidates live target) :
    c < d.program.methods.size := by
  unfold candidates at h
  split at h
  · obtain ⟨m, hm, hc⟩ := mem_byHierarchy.mp h
    have htarget := (Array.getElem?_eq_some_iff.mp hm).1
    rcases hc with hc | hc
    · exact eq_target_of_mem_declaredCandidate hc ▸ htarget
    · rcases mem_replacements.mp hc with ⟨-, t, -, ht⟩ | ⟨-, -, t, -, ht⟩
      · exact Program.firstMethod?_lt ht
      · exact Program.firstMethod?_lt ht
  · obtain ⟨m, hm, ⟨-, r, -, -, hrun⟩ | ⟨-, -, rfl⟩⟩ := mem_byLive.mp h
    · exact runOn_lt (Array.getElem?_eq_some_iff.mp hm).1 hrun
    · exact (Array.getElem?_eq_some_iff.mp hm).1

end Dispatch

/-! ### Graphs of a program -/

namespace CallGraph

/-- The method is in the graph: it has a node, or it calls or is called. -/
def Mentions (g : CallGraph) (m : MethodId) : Prop :=
  m ∈ g.nodes.map (·.method) ∨ ∃ e ∈ g.edges, m = e.caller ∨ m = e.callee

/-- The graph is about methods of the program, with their full names, and has each node and each edge once. -/
structure Depicts (p : Program) (g : CallGraph) : Prop where
  within : ∀ m, g.Mentions m → m < p.methods.size
  signature : ∀ n ∈ g.nodes, n.signature = p.methodName n.method
  nodes : (g.nodes.map (·.method)).Nodup
  edges : g.edges.Nodup

end CallGraph

theorem Loop.edges_nodup_step {d : Dispatch} {x y : Loop} (hx : x.scan.graph.edges.Nodup) (h : step? d x = some y) :
    y.scan.graph.edges.Nodup := by
  rcases step?_cases h with ⟨m, rest, -, rfl⟩ | ⟨-, -, -, rfl⟩
  · exact Scan.visit_edges_nodup (s := { x.scan with queue := rest }) m hx
  · exact Scan.resolveSites_edges_nodup (s := x.scan.note _) hx

theorem Analysis.run_depicts (d : Dispatch) (seeds : List MethodId) :
    CallGraph.Depicts d.program (run d seeds).scan.graph := by
  have hkept := run_kept d seeds
  have hlt : ∀ {m}, d.program.HasBody m → m < d.program.methods.size :=
    fun ⟨_, hx, _⟩ => (Array.getElem?_eq_some_iff.mp hx).1
  -- calls between methods of the program are closed under the scanning rules, and the analysis finds the least such
  have hclosed : Findings.Closed d seeds ⟨{m | m < d.program.methods.size},
      {e | e.caller < d.program.methods.size ∧ e.callee < d.program.methods.size}, Set.univ⟩ :=
    ⟨fun _ _ => hlt, fun _ _ _ _ => hlt, fun _ _ hm hc => ⟨hm, hc.lt⟩, fun _ _ _ _ => Set.mem_univ _,
      fun _ _ _ hm _ ⟨_, _, hc⟩ => ⟨hm, Dispatch.candidates_lt hc⟩⟩
  obtain ⟨-, hedges, -⟩ := findings_le hclosed
  refine ⟨?_, ?_, hkept.distinct, ?_⟩
  · rintro m (hm | ⟨e, he, rfl | rfl⟩)
    · exact hlt (hkept.bodied m hm)
    · exact (hedges he).1
    · exact (hedges he).2
  · intro n hn
    rw [hkept.described] at hn
    obtain ⟨m, -, rfl⟩ := List.mem_map.mp hn
    rfl
  · have hstart : (Loop.start d seeds).scan.graph.edges.Nodup := List.nodup_nil
    obtain ⟨x, hx, -, hrun⟩ := Loop.run_induction (P := fun x => x.scan.graph.edges.Nodup) hstart
      fun x y => Loop.edges_nodup_step
    rw [hrun]
    exact hx

namespace CallGraph

/-! ### Reading back -/

open Json

/-- The methods that the nodes of an exported graph name. -/
def readNodes (p : Program) (v : Json) : Option (List MethodId) :=
  (Object.items v.members "Nodes").mapM fun x => (Object.text? x.members "Signature").bind p.methodNamed?

/-- The calls that the edges of an exported graph name. -/
def readEdges (p : Program) (v : Json) : Option (List Edge) :=
  (Object.items v.members "Edges").mapM fun x => do
    let caller ← (Object.text? x.members "Caller").bind p.methodNamed?
    let callee ← (Object.text? x.members "Callee").bind p.methodNamed?
    return ⟨caller, callee⟩

/-- Read back, the exported graph is the graph itself; and it has no node and no edge twice. -/
structure Identified (p : Program) (g : CallGraph) : Prop where
  nodes : readNodes p (g.json p) = some (g.nodes.map (·.method))
  edges : readEdges p (g.json p) = some g.edges
  nodesOnce : (Object.items (g.json p).members "Nodes").Nodup
  edgesOnce : (Object.items (g.json p).members "Edges").Nodup

theorem items_nodes_json (p : Program) (g : CallGraph) :
    Object.items (g.json p).members "Nodes" = g.nodes.map jsonNode := rfl

theorem items_edges_json (p : Program) (g : CallGraph) :
    Object.items (g.json p).members "Edges" = g.edges.map (jsonEdge p) := rfl

theorem mapM_map_eq_some {α β γ : Type} {f : α → β} {read : β → Option γ} {back : α → γ} : ∀ {l : List α},
    (∀ x ∈ l, read (f x) = some (back x)) → (l.map f).mapM read = some (l.map back)
  | [], _ => rfl
  | a :: l, h => by
      rw [List.map_cons, List.mapM_cons, h a List.mem_cons_self,
        mapM_map_eq_some fun x hx => h x (List.mem_cons_of_mem a hx)]
      rfl

variable {p : Program} {g : CallGraph}

theorem Depicts.readNodes (h : Depicts p g) (hp : p.Named) :
    readNodes p (g.json p) = some (g.nodes.map fun n => p.namesake n.method) := by
  refine mapM_map_eq_some fun n hn => ?_
  show p.methodNamed? n.signature = _
  rw [h.signature n hn, hp.methodNamed? (h.within _ (.inl (List.mem_map_of_mem hn)))]

theorem Depicts.readEdges (h : Depicts p g) (hp : p.Named) :
    readEdges p (g.json p) = some (g.edges.map fun e => ⟨p.namesake e.caller, p.namesake e.callee⟩) := by
  refine mapM_map_eq_some fun e he => ?_
  have hcaller := hp.methodNamed? (h.within _ (.inr ⟨e, he, .inl rfl⟩))
  have hcallee := hp.methodNamed? (h.within _ (.inr ⟨e, he, .inr rfl⟩))
  show ((p.methodNamed? (p.methodName e.caller)).bind fun caller =>
    (p.methodNamed? (p.methodName e.callee)).bind fun callee => some (Edge.mk caller callee)) = _
  rw [hcaller, hcallee]
  rfl

/-- With the first methods of their names only, different nodes and different edges have different exports. -/
theorem Depicts.identified (h : Depicts p g) (hp : p.Named) (hfirst : ∀ m, g.Mentions m → p.FirstOfName m) :
    Identified p g := by
  have hself : ∀ m, g.Mentions m → p.namesake m = m := fun m hm =>
    (hp.namesake_eq_self (h.within m hm)).mpr (hfirst m hm)
  have hname : ∀ m m', g.Mentions m → g.Mentions m' → p.methodName m = p.methodName m' → m = m' := by
    intro m m' hm hm' heq
    rw [← hself m hm, ← hself m' hm', ← Option.some_inj, ← hp.methodNamed? (h.within m hm),
      ← hp.methodNamed? (h.within m' hm'), heq]
  have hnode : ∀ n ∈ g.nodes, g.Mentions n.method := fun n hn => .inl (List.mem_map_of_mem hn)
  have hedge : ∀ e ∈ g.edges, g.Mentions e.caller ∧ g.Mentions e.callee :=
    fun e he => ⟨.inr ⟨e, he, .inl rfl⟩, .inr ⟨e, he, .inr rfl⟩⟩
  refine ⟨?_, ?_, ?_, ?_⟩
  · rw [h.readNodes hp]
    exact congrArg some (List.map_congr_left fun n hn => hself _ (hnode n hn))
  · rw [h.readEdges hp]
    refine congrArg some ((List.map_congr_left fun e he => ?_).trans (List.map_id g.edges))
    rw [hself _ (hedge e he).1, hself _ (hedge e he).2]
    rfl
  · rw [items_nodes_json]
    refine h.nodes.of_map.map_on fun n hn n' hn' heq => List.inj_on_of_nodup_map h.nodes hn hn' ?_
    refine hname _ _ (hnode n hn) (hnode n' hn') ?_
    rw [← h.signature n hn, ← h.signature n' hn']
    simp_all [jsonNode]
  · rw [items_edges_json]
    refine h.edges.map_on fun e he e' he' heq => ?_
    have hends : p.methodName e.caller = p.methodName e'.caller ∧ p.methodName e.callee = p.methodName e'.callee := by
      simpa [jsonEdge] using heq
    have hcaller := hname _ _ (hedge e he).1 (hedge e' he').1 hends.1
    have hcallee := hname _ _ (hedge e he).2 (hedge e' he').2 hends.2
    cases e
    cases e'
    simp_all

theorem Depicts.identified_iff (h : Depicts p g) (hp : p.Named) :
    Identified p g ↔ ∀ m, g.Mentions m → p.FirstOfName m := by
  refine ⟨fun hid m hm => (hp.namesake_eq_self (h.within m hm)).mp ?_, h.identified hp⟩
  rcases hm with hm | ⟨e, he, hm⟩
  · obtain ⟨n, hn, rfl⟩ := List.mem_map.mp hm
    have hback := (h.readNodes hp).symm.trans hid.nodes
    exact List.map_inj_left.mp (Option.some.inj hback) n hn
  · have hback := (h.readEdges hp).symm.trans (hid.edges.trans (congrArg some (List.map_id g.edges).symm))
    have hself := List.map_inj_left.mp (Option.some.inj hback) e he
    rcases hm with rfl | rfl
    · exact congrArg Edge.caller hself
    · exact congrArg Edge.callee hself

/-- The call graph of a program that was loaded, exported and read back: for each method comes the first one with its
    full name. So the export identifies the graph exactly if all its methods are the first of their names, as they are
    in a program with plain names and no signature twice in a type. -/
theorem json_readBack {p : Program} (h : p.Loaded) (a : Algorithm) (seeds : List MethodId) :
    let g := (Analysis.run (.ofProgram p a) seeds).scan.graph
    readNodes p (g.json p) = some (g.nodes.map fun n => p.namesake n.method) ∧
    readEdges p (g.json p) = some (g.edges.map fun e => ⟨p.namesake e.caller, p.namesake e.callee⟩) ∧
    (∀ m, g.Mentions m → p.methodName (p.namesake m) = p.methodName m ∧ p.FirstOfName (p.namesake m)) ∧
    (Identified p g ↔ ∀ m, g.Mentions m → p.FirstOfName m) ∧
    (p.PlainlyNamed → Identified p g) := by
  intro g
  have hwf : p.WellFormed := h.finalized.wellFormed
  have hp : p.Named := by
    obtain ⟨q, -, rfl⟩ := h.exists_edited
    exact q.finalize_named
  have hg : Depicts p g := Analysis.run_depicts (.ofProgram p a) seeds
  refine ⟨hg.readNodes hp, hg.readEdges hp, fun m hm => hp.namesake_first (hg.within m hm), hg.identified_iff hp,
    fun hplain => hg.identified hp fun m hm => ?_⟩
  exact hplain.firstOfName hp hwf (hg.within m hm)

/-- A type with two methods of one name, of which the second calls the first. -/
def overloadsText : String :=
  "\x7b\"Modules\":[\x7b\"Name\":\"A\"," ++ "\"Types\":[\x7b\"Name\":\"T\"," ++ "\"Methods\":[" ++
    "\x7b\"Name\":\"f\",\"Body\":[]\x7d," ++ "\x7b\"Name\":\"f\",\"Parameters\":[\"A\"]," ++
      "\"Body\":[\x7b\"OpCode\":\"call\"," ++ "\"Method\":\x7b\"DeclaringType\":\"T\"," ++
        "\"Name\":\"f\"\x7d\x7d]\x7d" ++ "]\x7d]\x7d]\x7d"

/-- Its value. -/
def overloads : Json :=
  .obj [("Modules", .arr [.obj [("Name", .str "A"), ("Types", .arr [.obj [("Name", .str "T"), ("Methods", .arr [
    .obj [("Name", .str "f"), ("Body", .arr [])],
    .obj [("Name", .str "f"), ("Parameters", .arr [.str "A"]), ("Body", .arr [
      .obj [("OpCode", .str "call"), ("Method", .obj [("DeclaringType", .str "T"), ("Name", .str "f")])]])]])]])]])]

theorem json_readBack_overloads :
    ∃ d, Program.ofText Json.ofText? "overloads" overloadsText = .ok d ∧ d.program.PlainlyNamed ∧
    let g := (Analysis.run (.ofProgram d.program .rta) [1]).scan.graph
    g.nodes.map (·.signature) = ["System.Void T::f(A)", "System.Void T::f()"] ∧ g.edges = [⟨1, 0⟩] ∧
      Identified d.program g := by
  have hvalue : Json.ofText? overloadsText = some overloads := by
    unfold overloadsText
    rw [Description.ofText?_eq, String.toList_append, String.toList_append, String.toList_append,
      String.toList_append, String.toList_append, String.toList_append, String.toList_append, String.toList_append]
    simp only [String.reduceToList]
    set_option maxRecDepth 2000 in rfl
  obtain ⟨d, hd, hfacts⟩ := Description.exists_ofText hvalue (by decide +kernel :
    (Program.ofDocument "overloads" overloads).toOption.any (fun d => decide (d.program.PlainlyNamed ∧
      (Analysis.run (.ofProgram d.program .rta) [1]).scan.graph.nodes.map (·.signature) =
        ["System.Void T::f(A)", "System.Void T::f()"] ∧
      (Analysis.run (.ofProgram d.program .rta) [1]).scan.graph.edges = [⟨1, 0⟩])) = true)
  obtain ⟨hplain, hnodes, hedges⟩ := of_decide_eq_true hfacts
  exact ⟨d, hd, hplain, hnodes, hedges, (json_readBack (.text hd) .rta [1]).2.2.2.2 hplain⟩

/-- A type with two methods of one name, of which the first takes a parameter with a comma in the name of its type. -/
def commasText : String :=
  "\x7b\"Modules\":[\x7b\"Name\":\"A.dll\"," ++ "\"Types\":[\x7b\"Name\":\"T\"," ++ "\"Methods\":[" ++
    "\x7b\"Name\":\"f\",\"Parameters\":[\"A,B\"]," ++ "\"Body\":[]\x7d," ++
      "\x7b\"Name\":\"f\",\"Parameters\":[\"A\",\"B\"]," ++ "\"Body\":[]\x7d" ++ "]\x7d]\x7d]\x7d"

/-- Its value. -/
def commas : Json :=
  .obj [("Modules", .arr [.obj [("Name", .str "A.dll"), ("Types", .arr [.obj [("Name", .str "T"), ("Methods", .arr [
    .obj [("Name", .str "f"), ("Parameters", .arr [.str "A,B"]), ("Body", .arr [])],
    .obj [("Name", .str "f"), ("Parameters", .arr [.str "A", .str "B"]), ("Body", .arr [])]])]])]])]

/-- Two methods can have one full name. Then their nodes are exported alike, and both are read back as the first. -/
theorem not_identified_commas : ∃ d, Program.ofText Json.ofText? "commas" commasText = .ok d ∧
    let g := (Analysis.run (.ofProgram d.program .cha) [1, 0]).scan.graph
    g.nodes.map (·.method) = [1, 0] ∧ readNodes d.program (g.json d.program) = some [0, 0] ∧
      (∃ x, Object.items (g.json d.program).members "Nodes" = [x, x]) ∧ ¬ Identified d.program g := by
  have hvalue : Json.ofText? commasText = some commas := by
    unfold commasText
    rw [Description.ofText?_eq, String.toList_append, String.toList_append, String.toList_append,
      String.toList_append, String.toList_append, String.toList_append, String.toList_append]
    simp only [String.reduceToList]
    rfl
  obtain ⟨d, hd, hfacts⟩ := Description.exists_ofText hvalue (by decide +kernel :
    (Program.ofDocument "commas" commas).toOption.any (fun d =>
      let g := (Analysis.run (.ofProgram d.program .cha) [1, 0]).scan.graph
      decide (g.nodes = [⟨1, "A.dll", "", "System.Void T::f(A,B)"⟩, ⟨0, "A.dll", "", "System.Void T::f(A,B)"⟩] ∧
        readNodes d.program (g.json d.program) = some [0, 0])) = true)
  obtain ⟨hnodes, hread⟩ := of_decide_eq_true hfacts
  refine ⟨d, hd, by rw [hnodes]; rfl, hread, ⟨_, by rw [items_nodes_json, hnodes]; rfl⟩, fun hid => ?_⟩
  have hback := hread.symm.trans hid.nodes
  rw [hnodes] at hback
  simp at hback

end CallGraph

end CallGraphs
