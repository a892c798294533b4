import CallGraphs.Proofs.Growth
import CallGraphs.Proofs.Loop
import CallGraphs.Proofs.Rules

/-! The records of a search agree with one another. Marks, nodes and the count of methods looked at say the
    same; the problems are those of the methods looked at, method after method; and the virtual calls are the
    ones that these methods make, each once. Looking at a method extends all records at the same time, and
    resolving virtual calls again touches none of them. -/

namespace CallGraphs.Scan

/-- The methods that were looked at, in the order of the nodes. -/
def looked (s : Scan) : List MethodId := s.graph.nodes.map (·.method)

/-- The problems of a method: they depend on the program and the method alone. -/
def problemsOf (p : Program) (m : MethodId) : List Problem := (effectsOf p m).flatMap (Effect.problems m)

/-- The records agree. -/
structure Kept (p : Program) (s : Scan) : Prop where
  size : s.visited.size = p.methods.size
  described : s.graph.nodes = s.looked.map (Node.ofMethod p)
  distinct : s.looked.Nodup
  marked : ∀ m, s.isVisited m = true ↔ m ∈ s.looked
  bodied : ∀ m ∈ s.looked, p.HasBody m
  scanned : s.scanned = s.looked.length
  problems : s.problems = s.looked.flatMap (problemsOf p)
  sitesDistinct : s.sites.Nodup
  sites : ∀ x, x ∈ s.sites ↔ x.caller ∈ s.looked ∧ p.Dispatches x.caller x.target

/-! ### What a visit records -/

theorem foldl_apply_problems (d : Dispatch) (m : MethodId) : ∀ (l : List Effect) (s : Scan),
    (l.foldl (apply d m) s).problems = s.problems ++ l.flatMap (Effect.problems m)
  | [], s => by simp
  | e :: l, s => by
      rw [List.foldl_cons, foldl_apply_problems d m l, apply_problems, List.flatMap_cons, List.append_assoc]

theorem mem_sites_foldl_apply {d : Dispatch} {m : MethodId} {x : Site} : ∀ {l : List Effect} {s : Scan},
    x ∈ (l.foldl (apply d m) s).sites ↔ x ∈ s.sites ∨ x.caller = m ∧ .dispatch x.target ∈ l
  | [], s => by simp
  | e :: l, s => by
      rw [List.foldl_cons, mem_sites_foldl_apply, mem_sites_apply, or_assoc, ← and_or_left, List.mem_cons,
        eq_comm (a := e)]

theorem addSite_nodup {s : Scan} (site : Site) (h : s.sites.Nodup) : (s.addSite site).sites.Nodup := by
  unfold addSite
  split
  · exact h
  · rename_i hnew
    rw [← List.concat_eq_append]
    exact h.concat hnew

theorem apply_sites_nodup (d : Dispatch) (m : MethodId) {s : Scan} (e : Effect) (h : s.sites.Nodup) :
    (apply d m s e).sites.Nodup := by
  cases e with
  | note n => exact h
  | problem kind reference => exact h
  | construct t => rw [apply, construct_eq]; exact h
  | call c => rw [apply, (addCall_callsOnly m s c).sites]; exact h
  | dispatch t => rw [apply, (resolveSite_callsOnly d _ _).sites]; exact addSite_nodup _ h

theorem canVisit_iff {p : Program} {s : Scan} {m : MethodId} :
    s.canVisit p m = true ↔ p.HasBody m ∧ s.visited[m]? = some false := by
  unfold canVisit Program.HasBody
  cases p.methods[m]? <;> simp [MethodDecl.hasBody]

theorem visit_marks {d : Dispatch} {s : Scan} {m : MethodId} (h : s.canVisit d.program m = true) :
    (visit d s m).marks = (s.mark d.program m).marks := by
  rw [visit, if_pos h]
  exact foldl_keeps marks _ (apply_marks d m) _ _

theorem apply_looked (d : Dispatch) (m : MethodId) (s : Scan) (e : Effect) :
    (apply d m s e).looked = s.looked := by
  have hnodes : (apply d m s e).graph.nodes = s.graph.nodes := congrArg (·.1) (apply_marks d m s e)
  rw [looked, hnodes, looked]

theorem mem_looked_of_mark {p : Program} {s : Scan} {m x : MethodId} (h : x ∈ (s.mark p m).looked) :
    x ∈ s.looked ∨ x = m := by
  have hnodes : (s.mark p m).graph.nodes = (s.graph.addNode (.ofMethod p m)).2.nodes := rfl
  rw [looked, hnodes, CallGraph.addNode_nodes] at h
  split at h
  · exact .inl h
  · simpa [looked, Node.ofMethod] using h

theorem Kept.not_mem_looked {p : Program} {s : Scan} {m : MethodId} (hk : Kept p s)
    (h : s.canVisit p m = true) : m ∉ s.looked := by
  rw [← hk.marked m, isVisited, (canVisit_iff.mp h).2]
  decide

/-- Looking at a method adds its node at the end. -/
theorem visit_looked {d : Dispatch} {s : Scan} {m : MethodId} (hk : Kept d.program s)
    (h : s.canVisit d.program m = true) :
    (visit d s m).graph.nodes = s.graph.nodes ++ [.ofMethod d.program m] ∧
      (visit d s m).looked = s.looked ++ [m] := by
  have hnodes : (visit d s m).graph.nodes = (s.mark d.program m).graph.nodes :=
    congrArg (·.1) (visit_marks h)
  have hadd : (s.mark d.program m).graph.nodes = s.graph.nodes ++ [.ofMethod d.program m] :=
    (s.graph.addNode_nodes _).trans (if_neg (hk.not_mem_looked h))
  refine ⟨hnodes.trans hadd, ?_⟩
  rw [looked, hnodes, hadd]
  simp [looked, Node.ofMethod]

theorem mark_isVisited {p : Program} {s : Scan} {m : MethodId} (h : s.canVisit p m = true) (x : MethodId) :
    (s.mark p m).isVisited x = true ↔ x = m ∨ s.isVisited x = true := by
  obtain ⟨hlt, -⟩ := Array.getElem?_eq_some_iff.mp (canVisit_iff.mp h).2
  show ((s.visited.setIfInBounds m true)[x]? == some true) = true ↔ x = m ∨ s.isVisited x = true
  rw [isVisited, Array.getElem?_setIfInBounds]
  by_cases hx : m = x
  · subst hx
    simp [hlt]
  · simp [hx, Ne.symm hx]

theorem visit_isVisited {d : Dispatch} {s : Scan} {m : MethodId} (h : s.canVisit d.program m = true)
    (x : MethodId) : (visit d s m).isVisited x = true ↔ x = m ∨ s.isVisited x = true := by
  rw [← mark_isVisited h x, isVisited, isVisited, visit_visited d s m h]
  rfl

/-- A method with a body that cannot be looked at has been looked at. -/
theorem isVisited_of_not_canVisit {p : Program} {s : Scan} {m : MethodId}
    (hsize : s.visited.size = p.methods.size) (hbody : p.HasBody m) (h : s.canVisit p m = false) :
    s.isVisited m = true := by
  have hlt : m < s.visited.size := by
    obtain ⟨x, hx, -⟩ := hbody
    rw [hsize]
    exact (Array.getElem?_eq_some_iff.mp hx).1
  have hnot : ¬ s.visited[m]? = some false := by
    intro hf
    rw [canVisit_iff.mpr ⟨hbody, hf⟩] at h
    exact absurd h (by decide)
  rw [isVisited]
  rw [Array.getElem?_eq_getElem hlt] at hnot ⊢
  simpa using hnot

/-! ### Every step keeps the records in agreement -/

namespace Kept

theorem of_callsOnly {p : Program} {s s' : Scan} (h : Kept p s) (hc : CallsOnly s s') : Kept p s' := by
  have hlooked : s'.looked = s.looked := by rw [looked, looked, hc.nodes]
  refine ⟨by rw [hc.visited]; exact h.size, by rw [hc.nodes, hlooked]; exact h.described,
    by rw [hlooked]; exact h.distinct, ?_, by rw [hlooked]; exact h.bodied,
    by rw [hc.scanned, hlooked]; exact h.scanned, by rw [hc.problems, hlooked]; exact h.problems,
    by rw [hc.sites]; exact h.sitesDistinct, by rw [hc.sites, hlooked]; exact h.sites⟩
  intro m
  rw [hc.isVisited, hlooked]
  exact h.marked m

theorem visit {d : Dispatch} {s : Scan} (hk : Kept d.program s) (m : MethodId) :
    Kept d.program (visit d s m) := by
  cases h : s.canVisit d.program m with
  | false => rw [visit_of_not_canVisit h]; exact hk
  | true =>
    obtain ⟨hnodes, hlooked⟩ := visit_looked hk h
    have hscanned : (Scan.visit d s m).scanned = s.scanned + 1 := congrArg (·.2.2) (visit_marks h)
    have hproblems : (Scan.visit d s m).problems = s.problems ++ problemsOf d.program m := by
      rw [Scan.visit, if_pos h, foldl_apply_problems]
      rfl
    have hsites : ∀ x, x ∈ (Scan.visit d s m).sites ↔
        x ∈ s.sites ∨ x.caller = m ∧ d.program.Dispatches x.caller x.target := by
      intro x
      rw [Scan.visit, if_pos h, mem_sites_foldl_apply]
      refine or_congr Iff.rfl (and_congr_right fun hx => ?_)
      rw [hx, Program.dispatch_mem_effectsOf]
    refine ⟨?_, ?_, ?_, ?_, ?_, ?_, ?_, ?_, ?_⟩
    · rw [visit_visited d s m h, Array.size_setIfInBounds]
      exact hk.size
    · rw [hnodes, hlooked, List.map_append, ← hk.described]
      rfl
    · rw [hlooked, ← List.concat_eq_append]
      exact hk.distinct.concat (hk.not_mem_looked h)
    · intro x
      rw [visit_isVisited h, hlooked, List.mem_append, List.mem_singleton, hk.marked x, or_comm]
    · intro x hx
      rw [hlooked, List.mem_append, List.mem_singleton] at hx
      rcases hx with hx | rfl
      · exact hk.bodied x hx
      · exact (canVisit_iff.mp h).1
    · rw [hscanned, hlooked, List.length_append, hk.scanned]
      rfl
    · rw [hproblems, hlooked, List.flatMap_append, hk.problems]
      simp
    · exact visit_induction h (P := fun s => s.sites.Nodup) hk.sitesDistinct
        fun s e _ hs => apply_sites_nodup d m e hs
    · intro x
      rw [hsites, hk.sites, hlooked, List.mem_append, List.mem_singleton]
      tauto

theorem start (p : Program) : Kept p (Scan.start p) := by
  refine ⟨by simp [Scan.start], rfl, List.nodup_nil, ?_, by simp [looked, Scan.start], rfl, rfl, List.nodup_nil,
    by simp [looked, Scan.start]⟩
  intro m
  simp [isVisited, looked, Scan.start, Array.getElem?_replicate]

end Kept

end CallGraphs.Scan

namespace CallGraphs

theorem Loop.kept_start (d : Dispatch) (seeds : List MethodId) :
    Scan.Kept d.program (Loop.start d seeds).scan :=
  (Scan.Kept.start d.program).of_callsOnly ⟨rfl, rfl, rfl, rfl, rfl, rfl⟩

theorem Loop.kept_step {d : Dispatch} {x y : Loop} (hx : Scan.Kept d.program x.scan)
    (h : step? d x = some y) : Scan.Kept d.program y.scan := by
  rcases step?_cases h with ⟨m, rest, -, rfl⟩ | ⟨-, -, -, rfl⟩
  · have hrest : Scan.Kept d.program { x.scan with queue := rest } :=
      hx.of_callsOnly ⟨rfl, rfl, rfl, rfl, rfl, rfl⟩
    exact hrest.visit m
  · exact hx.of_callsOnly ((Scan.note_callsOnly _ _).trans (Scan.resolveSites_callsOnly d _))

/-- The records of a finished analysis agree. -/
theorem Analysis.run_kept (d : Dispatch) (seeds : List MethodId) : Scan.Kept d.program (run d seeds).scan := by
  obtain ⟨x, hx, -, hrun⟩ := Loop.run_induction (P := fun x => Scan.Kept d.program x.scan)
    (Loop.kept_start d seeds) fun x y => Loop.kept_step
  rw [hrun]
  exact hx.of_callsOnly (Scan.note_callsOnly _ _)

end CallGraphs
