import CallGraphs.Proofs.Bookkeeping
import CallGraphs.Proofs.Firsts

/-! The order of a call graph is breadth first. Read the seeds and then the callees of the edges, and keep each
    method with a body where it comes up first: these are the nodes, in their order. While the analysis runs, the
    methods looked at and then the queue read the same as the seeds and the callees found so far (`Ordered`): a
    callee goes on the queue when its first edge is recorded, or it has come up before. In class hierarchy
    analysis every method has all its edges in one place (`Grouped`), since none is looked at again. -/

namespace CallGraphs

namespace Program

instance (p : Program) : DecidablePred p.HasBody := fun m =>
  decidable_of_iff ((p.methods[m]?.map (·.hasBody)).getD false = true) (by
    unfold HasBody
    cases p.methods[m]? <;> simp [MethodDecl.hasBody])

/-- The methods of a list that have a body. -/
def bodied (p : Program) (l : List MethodId) : List MethodId := l.filter (p.HasBody ·)

theorem mem_bodied {p : Program} {l : List MethodId} {m : MethodId} : m ∈ p.bodied l ↔ m ∈ l ∧ p.HasBody m := by
  simp [bodied]

theorem bodied_append (p : Program) (l l' : List MethodId) : p.bodied (l ++ l') = p.bodied l ++ p.bodied l' :=
  List.filter_append l l'

theorem bodied_cons_of_hasBody {p : Program} {m : MethodId} (h : p.HasBody m) (l : List MethodId) :
    p.bodied (m :: l) = m :: p.bodied l := List.filter_cons_of_pos (by simpa using h)

theorem bodied_cons_of_not_hasBody {p : Program} {m : MethodId} (h : ¬ p.HasBody m) (l : List MethodId) :
    p.bodied (m :: l) = p.bodied l := List.filter_cons_of_neg (by simpa using h)

/-- Whether or not it has a body, the same method can follow on lists with the same first occurrences. -/
theorem eraseDups_bodied_congr (p : Program) {l l' : List MethodId} (h : l.eraseDups = l'.eraseDups) (m : MethodId) :
    (l ++ p.bodied [m]).eraseDups = (l' ++ p.bodied [m]).eraseDups := by
  by_cases hm : p.HasBody m
  · rw [bodied_cons_of_hasBody hm]
    exact Firsts.eraseDups_concat_congr h m
  · rw [bodied_cons_of_not_hasBody hm]
    simpa [bodied] using h

/-- A method that is there already adds nothing. -/
theorem eraseDups_bodied_of_mem (p : Program) {l : List MethodId} {m : MethodId} (h : p.HasBody m → m ∈ l) :
    (l ++ p.bodied [m]).eraseDups = l.eraseDups := by
  by_cases hm : p.HasBody m
  · rw [bodied_cons_of_hasBody hm]
    exact Firsts.eraseDups_concat_of_mem (h hm)
  · rw [bodied_cons_of_not_hasBody hm]
    simp [bodied]

end Program

namespace Scan

/-! ### First come, first served -/

/-- The seeds and then the callees, in the order of the edges. -/
def mentioned (seeds : List MethodId) (s : Scan) : List MethodId := seeds ++ s.graph.edges.map (·.callee)

/-- Marked methods are looked at; and of the methods with a body, those looked at and then those on the queue
    come up in the same order as in the seeds and the callees. -/
structure Ordered (p : Program) (seeds : List MethodId) (s : Scan) : Prop where
  marked : ∀ m, s.isVisited m = true → m ∈ s.looked
  firsts : (p.bodied (s.mentioned seeds)).eraseDups = (s.looked ++ p.bodied s.queue).eraseDups

variable {p : Program} {seeds : List MethodId} {s : Scan}

/-- A recorded call mentions its callee, for the first time or again. -/
theorem addCall_mentioned (p : Program) (seeds : List MethodId) (s : Scan) (caller c : MethodId) :
    (p.bodied ((addCall caller s c).mentioned seeds)).eraseDups =
      (p.bodied (s.mentioned seeds) ++ p.bodied [c]).eraseDups := by
  rw [mentioned, addCall_edges]
  split
  · rename_i hold
    have hc : c ∈ s.mentioned seeds := by
      have hcallee := List.mem_map_of_mem (f := (·.callee)) hold
      exact List.mem_append_right seeds hcallee
    exact (p.eraseDups_bodied_of_mem fun hbody => Program.mem_bodied.mpr ⟨hc, hbody⟩).symm
  · rw [List.map_append, ← List.append_assoc, Program.bodied_append]
    rfl

/-- The callee goes on the queue, or it has been looked at. -/
theorem addCall_awaiting (hmarked : ∀ m, s.isVisited m = true → m ∈ s.looked) (caller c : MethodId) :
    (s.looked ++ p.bodied (addCall caller s c).queue).eraseDups =
      (s.looked ++ p.bodied s.queue ++ p.bodied [c]).eraseDups := by
  rw [addCall_queue]
  split
  · rename_i hvisited
    exact (p.eraseDups_bodied_of_mem fun _ => List.mem_append_left _ (hmarked c hvisited)).symm
  · rw [Program.bodied_append, ← List.append_assoc]

namespace Ordered

theorem addCall (h : Ordered p seeds s) (caller c : MethodId) : Ordered p seeds (addCall caller s c) := by
  have hcalls := addCall_callsOnly caller s c
  have hlooked : (Scan.addCall caller s c).looked = s.looked := by rw [looked, hcalls.nodes, looked]
  refine ⟨fun m hm => ?_, ?_⟩
  · rw [hlooked]
    exact h.marked m (by rwa [hcalls.isVisited] at hm)
  · rw [hlooked, addCall_mentioned, addCall_awaiting h.marked]
    exact p.eraseDups_bodied_congr h.firsts c

theorem resolveSite {d : Dispatch} (h : Ordered p seeds s) (site : Site) :
    Ordered p seeds (resolveSite d s site) := by
  have hnoted : Ordered p seeds (s.note (d.notice s.live site.target)) := ⟨h.marked, h.firsts⟩
  rw [resolveSite_eq]
  exact List.foldlRecOn (motive := Ordered p seeds) _ _ hnoted fun _ hs c _ => hs.addCall site.caller c

theorem apply {d : Dispatch} (h : Ordered p seeds s) (m : MethodId) (e : Effect) :
    Ordered p seeds (apply d m s e) := by
  cases e with
  | note n => exact ⟨h.marked, h.firsts⟩
  | problem kind reference => exact ⟨h.marked, h.firsts⟩
  | construct t =>
    rw [Scan.apply, construct_eq]
    exact ⟨h.marked, h.firsts⟩
  | call c => exact h.addCall m c
  | dispatch t =>
    have hsite : Ordered p seeds (s.addSite ⟨m, t⟩) := by
      rw [addSite_eq]
      exact ⟨h.marked, h.firsts⟩
    exact hsite.resolveSite ⟨m, t⟩

/-- The method at the head of the queue moves to the end of the methods looked at, unless it has no body or is
    among them. -/
theorem visit {d : Dispatch} {m : MethodId} {rest : List MethodId} (hk : Kept d.program s)
    (h : Ordered d.program seeds s) (hq : s.queue = m :: rest) :
    Ordered d.program seeds (visit d { s with queue := rest } m) := by
  have hkept : Kept d.program { s with queue := rest } := hk.of_callsOnly ⟨rfl, rfl, rfl, rfl, rfl, rfl⟩
  have hfirsts := h.firsts
  rw [hq] at hfirsts
  cases hcan : canVisit d.program { s with queue := rest } m with
  | true =>
    have hbody := (canVisit_iff.mp hcan).1
    have hlooked : (mark d.program { s with queue := rest } m).looked = s.looked ++ [m] := by
      have hmark := congrArg (·.1.map Node.method) (visit_marks hcan)
      exact hmark.symm.trans (visit_looked hkept hcan).2
    refine visit_induction hcan ⟨fun x hx => ?_, ?_⟩ fun s e _ hs => hs.apply m e
    · rw [hlooked, List.mem_append, List.mem_singleton]
      rcases (mark_isVisited hcan x).mp hx with rfl | hx
      · exact .inr rfl
      · exact .inl (h.marked x hx)
    · rw [Program.bodied_cons_of_hasBody hbody, List.append_cons] at hfirsts
      rw [hlooked, mentioned, mark_edges]
      exact hfirsts
  | false =>
    rw [visit_of_not_canVisit hcan]
    refine ⟨h.marked, hfirsts.trans ?_⟩
    by_cases hbody : d.program.HasBody m
    · have hm := h.marked m (isVisited_of_not_canVisit hk.size hbody hcan)
      rw [Program.bodied_cons_of_hasBody hbody]
      exact Firsts.eraseDups_append_cons hm _
    · rw [Program.bodied_cons_of_not_hasBody hbody]
      rfl

theorem reopen {d : Dispatch} (h : Ordered p seeds s) (k : Nat) : Ordered p seeds (reopen d s k) := by
  have hnoted : ∀ {s : Scan} (n : Notice), Ordered p seeds s → Ordered p seeds (s.note n) :=
    fun _ hs => ⟨hs.marked, hs.firsts⟩
  rw [Scan.reopen]
  obtain ⟨n, heq⟩ := resolveSites_snd d (s.note _)
  rw [heq]
  exact hnoted n (List.foldlRecOn (motive := Ordered p seeds) _ _ (hnoted _ h) fun _ hs site _ =>
    hs.resolveSite site)

end Ordered

/-! ### Edges of one method in one place -/

/-- The edges are those of the methods looked at, method after method. -/
def Grouped (s : Scan) : Prop := s.graph.edges = s.looked.flatMap fun m => s.graph.edges.filter (·.caller == m)

/-- The edges that a visit appends are the edges of the method, which had none. -/
theorem Grouped.visit {d : Dispatch} {s : Scan} (hk : Kept d.program s) (h : Grouped s) (m : MethodId) :
    Grouped (visit d s m) := by
  cases hcan : s.canVisit d.program m with
  | false =>
    rw [visit_of_not_canVisit hcan]
    exact h
  | true =>
    have hnew := hk.not_mem_looked hcan
    obtain ⟨more, hedges, hmore⟩ := (visit_growsBy d s m).edges
    have hold : ∀ x ∈ s.looked, (s.graph.edges ++ more).filter (·.caller == x) =
        s.graph.edges.filter (·.caller == x) := by
      intro x hx
      have hnone : more.filter (·.caller == x) = [] := by
        refine List.filter_eq_nil_iff.mpr fun e he => ?_
        have hne : m ≠ x := fun heq => hnew (heq ▸ hx)
        simpa [hmore e he] using hne
      rw [List.filter_append, hnone, List.append_nil]
    have hown : (s.graph.edges ++ more).filter (·.caller == m) = more := by
      have hnone : s.graph.edges.filter (·.caller == m) = [] := by
        refine List.filter_eq_nil_iff.mpr fun e he => ?_
        rw [h] at he
        obtain ⟨x, hx, he⟩ := List.mem_flatMap.mp he
        obtain rfl : e.caller = x := by simpa using (List.mem_filter.mp he).2
        have hne : e.caller ≠ m := fun heq => hnew (heq ▸ hx)
        simpa using hne
      have hall : more.filter (·.caller == m) = more :=
        List.filter_eq_self.mpr fun e he => by simpa using hmore e he
      rw [List.filter_append, hnone, hall, List.nil_append]
    rw [Grouped, hedges, (visit_looked hk hcan).2, List.flatMap_append, List.flatMap_singleton, hown,
      List.flatMap_congr hold, ← h]

end Scan

/-- The edges of a method, from its callees. -/
theorem CallGraph.map_callees (g : CallGraph) (m : MethodId) :
    (g.callees m).map (Edge.mk m) = g.edges.filter (·.caller == m) := by
  rw [CallTables.callees, g.agree.targets, List.map_map]
  refine (List.map_congr_left fun e he => ?_).trans (List.map_id _)
  obtain rfl : e.caller = m := by simpa using (List.mem_filter.mp he).2
  rfl

namespace Loop

/-- What holds of the order while the machine runs. -/
structure InOrder (d : Dispatch) (seeds : List MethodId) (x : Loop) : Prop where
  kept : Scan.Kept d.program x.scan
  ordered : Scan.Ordered d.program seeds x.scan
  grouped : d.algorithm = .cha → x.scan.Grouped

theorem inOrder_start (d : Dispatch) (seeds : List MethodId) : InOrder d seeds (start d seeds) := by
  refine ⟨kept_start d seeds, ⟨fun m hm => ((kept_start d seeds).marked m).mp hm, ?_⟩, fun _ => rfl⟩
  simp [Scan.mentioned, Scan.looked, start, Analysis.opening, Scan.start, Scan.note]

theorem inOrder_step {d : Dispatch} {seeds : List MethodId} {x y : Loop} (hx : InOrder d seeds x)
    (h : step? d x = some y) : InOrder d seeds y := by
  have hkept := kept_step hx.kept h
  rcases step?_cases h with ⟨m, rest, hq, rfl⟩ | ⟨-, ha, -, rfl⟩
  · have hrest : Scan.Kept d.program { x.scan with queue := rest } :=
      hx.kept.of_callsOnly ⟨rfl, rfl, rfl, rfl, rfl, rfl⟩
    refine ⟨hkept, hx.ordered.visit hx.kept hq, fun hcha => ?_⟩
    exact Scan.Grouped.visit hrest (hx.grouped hcha) m
  · exact ⟨hkept, hx.ordered.reopen _, fun hcha => absurd (ha.symm.trans hcha) (by decide)⟩

end Loop

/-- The nodes of the result are the methods with a body in the seeds and then in the callees of the edges, each
    where it comes up first. In class hierarchy analysis the edges are the calls of the nodes, node after node. -/
theorem Analysis.run_breadthFirst (p : Program) (a : Algorithm) (seeds : List MethodId) :
    let g := (run (.ofProgram p a) seeds).scan.graph
    g.nodes.map (·.method) = ((seeds ++ g.edges.map (·.callee)).filter (p.HasBody ·)).eraseDups ∧
    (a = .cha → g.edges = g.nodes.flatMap fun n => (g.callees n.method).map (Edge.mk n.method)) := by
  have hstart := Loop.inOrder_start (.ofProgram p a) seeds
  obtain ⟨x, ⟨hkept, hordered, hgrouped⟩, hend, hrun⟩ := Loop.run_induction hstart fun x y => Loop.inOrder_step
  have hqueue : x.scan.queue = [] := (Loop.step?_eq_none.mp hend).1
  have hgraph : (run (.ofProgram p a) seeds).scan.graph = x.scan.graph := by
    rw [hrun]
    rfl
  intro g
  refine ⟨?_, fun ha => ?_⟩
  · have hempty : x.scan.looked ++ p.bodied x.scan.queue = x.scan.looked := by rw [hqueue]; exact List.append_nil _
    have hfirsts : (p.bodied (x.scan.mentioned seeds)).eraseDups = x.scan.looked :=
      hordered.firsts.trans ((congrArg _ hempty).trans (Firsts.eraseDups_of_nodup hkept.distinct))
    rw [Scan.mentioned, Scan.looked, ← hgraph] at hfirsts
    exact hfirsts.symm
  · have hedges : g.edges = x.scan.looked.flatMap fun m => g.edges.filter (·.caller == m) := by
      have hcha := hgrouped ha
      rwa [Scan.Grouped, ← hgraph] at hcha
    rw [Scan.looked, ← hgraph, List.flatMap_map] at hedges
    simpa [CallGraph.map_callees] using hedges

end CallGraphs
