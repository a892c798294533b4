import CallGraphs.Program.Build
import CallGraphs.Proofs.Firsts
import CallGraphs.Proofs.Fixpoint

/-! Resolving the virtual calls again. Every virtual call asks for a call of each of its candidates, and several may ask
    for the same one, or for one that is already there. The graph takes each call once, so what is appended are the
    first occurrences of the calls that it lacks (`addEdges_eq`), and their number is the number of requests that the
    graph grants one after the other. The types known by now do not change meanwhile; so a second time all requests are
    for calls that are there, and nothing happens (`resolveSites_idempotent`). -/

namespace CallGraphs

namespace CallGraph

/-- Add one more edge, and count it if the graph did not have it. -/
def countEdge (x : Nat × CallGraph) (e : Edge) : Nat × CallGraph :=
  (if (x.2.addEdge e).1 then x.1 + 1 else x.1, (x.2.addEdge e).2)

/-- Add edges one after the other, and count those that the graph did not have. -/
def addEdges (g : CallGraph) (l : List Edge) : Nat × CallGraph := l.foldl countEdge (0, g)

/-- The first occurrences of the edges that the graph does not have. -/
def lacking (g : CallGraph) (l : List Edge) : List Edge := (l.filter fun e => !g.hasEdge e).eraseDups

variable {g : CallGraph} {l : List Edge}

theorem mem_lacking {e : Edge} : e ∈ g.lacking l ↔ e ∈ l ∧ e ∉ g.edges := by
  simp [lacking, hasEdge_eq]

theorem lacking_concat (l : List Edge) (e : Edge) :
    g.lacking (l ++ [e]) = if e ∈ g.edges ∨ e ∈ l then g.lacking l else g.lacking l ++ [e] := by
  rw [lacking, List.filter_append]
  by_cases hold : e ∈ g.edges
  · have hdrop : ([e].filter fun e => !g.hasEdge e) = [] := by simp [hasEdge_eq, hold]
    rw [hdrop, List.append_nil, if_pos (.inl hold), lacking]
  · have hkeep : ([e].filter fun e => !g.hasEdge e) = [e] := by simp [hasEdge_eq, hold]
    rw [hkeep]
    by_cases hmem : e ∈ l
    · have hmem' : e ∈ l.filter fun e => !g.hasEdge e := by simp [hasEdge_eq, hold, hmem]
      rw [Firsts.eraseDups_concat_of_mem hmem', if_pos (.inr hmem), lacking]
    · have hmem' : e ∉ l.filter fun e => !g.hasEdge e := fun hin => hmem (List.mem_filter.mp hin).1
      rw [Firsts.eraseDups_concat_of_not_mem hmem', if_neg (not_or.mpr ⟨hold, hmem⟩), lacking]

theorem addEdges_concat (l : List Edge) (e : Edge) : g.addEdges (l ++ [e]) = countEdge (g.addEdges l) e := by
  rw [addEdges, List.foldl_concat, ← addEdges]

theorem countEdge_of_mem {x : Nat × CallGraph} {e : Edge} (h : e ∈ x.2.edges) : countEdge x e = x := by
  rw [countEdge, x.2.addEdge_of_mem h]
  rfl

/-- Added edges are appended where they occur first, and each of these is counted. -/
theorem addEdges_eq (g : CallGraph) (l : List Edge) :
    (g.addEdges l).1 = (g.lacking l).length ∧ (g.addEdges l).2.edges = g.edges ++ g.lacking l := by
  induction l using List.reverseRecOn with
  | nil => simp [addEdges, lacking]
  | append_singleton l e ih =>
    have hmem : e ∈ (g.addEdges l).2.edges ↔ e ∈ g.edges ∨ e ∈ l := by
      rw [ih.2, List.mem_append, mem_lacking]
      tauto
    rw [addEdges_concat, lacking_concat]
    by_cases h : e ∈ g.edges ∨ e ∈ l
    · rw [if_pos h, countEdge_of_mem (hmem.mpr h)]
      exact ih
    · obtain ⟨hnew, hedges⟩ := (g.addEdges l).2.addEdge_of_not_mem (mt hmem.mp h)
      rw [if_neg h, countEdge, hnew, hedges, ih.1, ih.2]
      simp

/-- Edges that are all there change nothing. -/
theorem addEdges_of_subset (h : ∀ e ∈ l, e ∈ g.edges) : g.addEdges l = (0, g) := by
  induction l using List.reverseRecOn with
  | nil => rfl
  | append_singleton l e ih =>
    rw [List.forall_mem_append, List.forall_mem_singleton] at h
    rw [addEdges_concat, ih h.1, countEdge_of_mem h.2]

theorem foldl_countEdge (n : Nat) (g : CallGraph) (l : List Edge) :
    l.foldl countEdge (n, g) = (n + (g.addEdges l).1, (g.addEdges l).2) := by
  induction l using List.reverseRecOn with
  | nil => rfl
  | append_singleton l e ih =>
    rw [List.foldl_concat, ih, addEdges_concat, countEdge, countEdge]
    split <;> rfl

end CallGraph

namespace Scan

variable {d : Dispatch} {s : Scan}

/-! ### What is asked for -/

/-- The calls of all candidates of all virtual calls, one after the other, under the types known by now. -/
def requests (d : Dispatch) (s : Scan) : List Edge :=
  s.sites.flatMap fun x => (d.candidates s.live x.target).map (Edge.mk x.caller)

theorem mem_requests {e : Edge} :
    e ∈ s.requests d ↔ ∃ x ∈ s.sites, ∃ c ∈ d.candidates s.live x.target, e = ⟨x.caller, c⟩ := by
  simp [requests, eq_comm]

/-- What is counted and recorded for the candidates of one virtual call. -/
theorem dispatch_addEdges (d : Dispatch) (s : Scan) (site : Site) :
    ((dispatch d s site).1, (dispatch d s site).2.graph) =
      s.graph.addEdges ((d.candidates s.live site.target).map (Edge.mk site.caller)) := by
  have hcalls : ∀ (cs : List MethodId) (x : Nat × Scan),
      ((cs.foldl (countCall site.caller) x).1, (cs.foldl (countCall site.caller) x).2.graph) =
        (cs.map (Edge.mk site.caller)).foldl CallGraph.countEdge (x.1, x.2.graph) := by
    intro cs
    induction cs with
    | nil => exact fun _ => rfl
    | cons c cs ih =>
      intro x
      have hone : ((countCall site.caller x c).1, (countCall site.caller x c).2.graph) =
          CallGraph.countEdge (x.1, x.2.graph) ⟨site.caller, c⟩ :=
        Prod.ext rfl (addCall_graph site.caller x.2 c)
      rw [List.foldl_cons, ih, hone, List.map_cons, List.foldl_cons]
  exact hcalls _ _

theorem foldl_countSite_addEdges (d : Dispatch) (live : LiveTypes) : ∀ (sites : List Site) (x : Nat × Scan),
    x.2.live = live → ((sites.foldl (countSite d) x).1, (sites.foldl (countSite d) x).2.graph) =
      (sites.flatMap fun site => (d.candidates live site.target).map (Edge.mk site.caller)).foldl
        CallGraph.countEdge (x.1, x.2.graph)
  | [], _, _ => rfl
  | site :: sites, x, hlive => by
      have hone : ((countSite d x site).1, (countSite d x site).2.graph) =
          ((d.candidates live site.target).map (Edge.mk site.caller)).foldl CallGraph.countEdge (x.1, x.2.graph) := by
        rw [CallGraph.foldl_countEdge, ← hlive, ← dispatch_addEdges]
        rfl
      -- the types stay as they are, so the later virtual calls have the same candidates
      have hnext : (countSite d x site).2.live = live := (resolveSite_live d x.2 site).trans hlive
      rw [List.foldl_cons, foldl_countSite_addEdges d live sites _ hnext, hone, List.flatMap_cons, List.foldl_append]

/-- To resolve all virtual calls is to add all calls that they ask for, and the count is the count of the graph. -/
theorem resolveSites_addEdges (d : Dispatch) (s : Scan) :
    ((resolveSites d s).1, (resolveSites d s).2.graph) = s.graph.addEdges (s.requests d) :=
  foldl_countSite_addEdges d s.live s.sites (0, s) rfl

/-- Where every candidate is called already, nothing is added. -/
theorem resolveSites_of_settled (h : Settled d s.live s) :
    (resolveSites d s).1 = 0 ∧ (resolveSites d s).2.graph = s.graph := by
  have hthere : ∀ e ∈ s.requests d, e ∈ s.graph.edges := by
    intro e he
    obtain ⟨x, hx, c, hc, rfl⟩ := mem_requests.mp he
    exact h x hx c hc
  exact Prod.ext_iff.mp ((resolveSites_addEdges d s).trans (CallGraph.addEdges_of_subset hthere))

/-! ### States of a search -/

/-- The states that a search can be brought into: look at methods, put them on the queue and take them off, resolve the
    virtual calls, and note types that are instantiated elsewhere. -/
inductive Reachable (d : Dispatch) : Scan → Prop
  | start : Reachable d (start d.program)
  | scan {s : Scan} (m : MethodId) : Reachable d s → Reachable d (s.visit d m)
  | enqueue {s : Scan} (m : MethodId) : Reachable d s → Reachable d (s.enqueue m)
  | dequeue {s s' : Scan} {m : MethodId} : Reachable d s → s.dequeue? = some (m, s') → Reachable d s'
  | resolve {s : Scan} : Reachable d s → Reachable d (s.resolveSites d).2
  | instantiate {s : Scan} (t : TypeId) : Reachable d s → Reachable d (s.instantiate t)

theorem dequeue?_eq_some {s' : Scan} {m : MethodId} :
    s.dequeue? = some (m, s') ↔ ∃ rest, s.queue = m :: rest ∧ s' = { s with queue := rest } := by
  unfold dequeue?
  cases s.queue with
  | nil => simp
  | cons x rest => simp [eq_comm]

/-- Virtual calls always have the candidates that need no instantiated type. -/
theorem Reachable.settled (h : Reachable d s) : Settled d [] s := by
  induction h with
  | start => simp [Settled, Scan.start]
  | scan m _ ih => exact ih.visit (List.nil_subset _) m
  | enqueue m _ ih => exact ih
  | dequeue _ hq ih =>
    obtain ⟨rest, -, rfl⟩ := dequeue?_eq_some.mp hq
    exact ih
  | resolve _ ih => exact ih.resolveSites
  | instantiate t _ ih => exact ih

/-- Resolving the virtual calls again appends the calls that they ask for and the graph lacks, and says how many these
    are; nothing else that has been found changes. Then every candidate of every virtual call is called, so doing it
    once more adds nothing. With class hierarchy analysis nothing is ever added. -/
theorem resolveSites_idempotent (d : Dispatch) (s : Scan) (hs : Reachable d s) :
    let count := (s.resolveSites d).1
    let resolved := (s.resolveSites d).2
    (count, resolved.graph) = s.graph.addEdges (s.requests d) ∧
    resolved.graph.edges = s.graph.edges ++ s.graph.lacking (s.requests d) ∧
    count = (s.graph.lacking (s.requests d)).length ∧
    CallsOnly s resolved ∧
    (∀ x ∈ resolved.sites, ∀ c ∈ d.candidates resolved.live x.target, ⟨x.caller, c⟩ ∈ resolved.graph.edges) ∧
    (resolved.resolveSites d).1 = 0 ∧ (resolved.resolveSites d).2.graph = resolved.graph ∧
    (d.algorithm = .cha → count = 0 ∧ resolved.graph = s.graph) := by
  intro count resolved
  have hadd := resolveSites_addEdges d s
  obtain ⟨hcount, hedges⟩ := s.graph.addEdges_eq (s.requests d)
  rw [← hadd] at hcount hedges
  have hcalls := resolveSites_callsOnly d s
  have hsettled : Settled d resolved.live resolved := by
    rw [hcalls.live]
    exact resolveSites_settled d s
  obtain ⟨hzero, hsame⟩ := resolveSites_of_settled hsettled
  refine ⟨hadd, hedges, hcount, hcalls, hsettled, hzero, hsame, fun ha => ?_⟩
  -- by class hierarchy the candidates do not depend on the types
  have hcha : Settled d s.live s := fun x hx c hc => hs.settled x hx c (by simpa [Dispatch.candidates, ha] using hc)
  exact resolveSites_of_settled hcha

/-- A dog is created and made to speak, once as any animal and once directly. A cat would have to come from
    elsewhere. -/
def pets : Program := Program.finalize {
  modules := #[{ name := "App.dll", types := [0, 1, 2, 3] }]
  types := #[
    { name := "Animal", fullName := "Animal", moduleId := 0, methods := [0] },
    { name := "Dog", fullName := "Dog", baseName := "Animal", moduleId := 0, methods := [1, 2] },
    { name := "Cat", fullName := "Cat", baseName := "Animal", moduleId := 0, methods := [3] },
    { name := "App", fullName := "App", moduleId := 0, methods := [4] }]
  methods := #[
    { name := "Speak", owner := 0, isVirtual := true, isAbstract := true, isNewSlot := true },
    { name := ".ctor", owner := 1, body := some [] },
    { name := "Speak", owner := 1, isVirtual := true, body := some [] },
    { name := "Speak", owner := 2, isVirtual := true, body := some [] },
    { name := "Main", owner := 3, isStatic := true, body := some [
      .onMethod .newobj { name := ".ctor", owner := "Dog" },
      .onMethod .callvirt { name := "Speak", owner := "Animal" },
      .onMethod .call { name := "Speak", owner := "Dog" },
      .onMethod .callvirt { name := "Speak", owner := "Cat" }] }] }

/-- Two virtual calls ask for the cat, and one call is new. By class hierarchy the cat was called before. -/
theorem resolveSites_idempotent_pets :
    let d := Dispatch.ofProgram pets .rta
    let s := (visit d (start pets) 4).instantiate 2
    let resolved := (s.resolveSites d).2
    let cha := Dispatch.ofProgram pets .cha
    Reachable d s ∧ s.graph.edges = [⟨4, 1⟩, ⟨4, 2⟩] ∧ s.requests d = [⟨4, 2⟩, ⟨4, 3⟩, ⟨4, 3⟩] ∧
    (s.resolveSites d).1 = 1 ∧ resolved.graph.edges = s.graph.edges ++ [⟨4, 3⟩] ∧ CallsOnly s resolved ∧
    (resolved.resolveSites d).1 = 0 ∧ (resolved.resolveSites d).2.graph = resolved.graph ∧
    Reachable cha (visit cha (start pets) 4) ∧ ((visit cha (start pets) 4).resolveSites cha).1 = 0 := by
  intro d s resolved cha
  -- the method goes through the queue
  have hqueued : Reachable d ((start pets).enqueue 4) := Reachable.start.enqueue 4
  have hs : Reachable d s := ((hqueued.dequeue rfl).scan 4).instantiate 2
  have hrequests : s.requests d = [⟨4, 2⟩, ⟨4, 3⟩, ⟨4, 3⟩] := by decide +kernel
  have hlacking : s.graph.lacking [⟨4, 2⟩, ⟨4, 3⟩, ⟨4, 3⟩] = [⟨4, 3⟩] := by decide +kernel
  obtain ⟨-, hedges, hcount, hcalls, -, hzero, hsame, -⟩ := resolveSites_idempotent d s hs
  rw [hrequests, hlacking] at hedges hcount
  have hs' : Reachable cha (visit cha (start pets) 4) := Reachable.start.scan 4
  obtain ⟨-, -, -, -, -, -, -, hcha⟩ := resolveSites_idempotent cha _ hs'
  exact ⟨hs, by decide +kernel, hrequests, hcount, hedges, hcalls, hzero, hsame, hs', (hcha rfl).1⟩

end Scan

end CallGraphs
