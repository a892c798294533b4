import Mathlib.Data.List.Nodup
import CallGraphs.Analysis

/-! What each operation of a search does to what has been found and to the queue, said once for every
    operation. Recording a call touches the edges and the queue alone; resolving a virtual call is recording
    the calls of its candidates; and an effect adds its callees, its type, its virtual call or its problem. -/

namespace CallGraphs

namespace Effect

/-- The methods that an effect calls, given the instantiated types. -/
def callees (d : Dispatch) (live : LiveTypes) : Effect → List MethodId
  | .call c => [c]
  | .dispatch t => d.candidates live t
  | _ => []

/-- The problems that an effect of the method `m` reports. -/
def problems (m : MethodId) : Effect → List Problem
  | .problem kind reference => [⟨kind, m, reference⟩]
  | _ => []

end Effect

namespace Scan

/-! ### Recording calls -/

/-- Nothing but edges, queue and notices differs. -/
structure CallsOnly (s s' : Scan) : Prop where
  nodes : s'.graph.nodes = s.graph.nodes
  sites : s'.sites = s.sites
  live : s'.live = s.live
  problems : s'.problems = s.problems
  visited : s'.visited = s.visited
  scanned : s'.scanned = s.scanned

namespace CallsOnly

theorem refl (s : Scan) : CallsOnly s s := ⟨rfl, rfl, rfl, rfl, rfl, rfl⟩

theorem trans {s s' s'' : Scan} (h : CallsOnly s s') (h' : CallsOnly s' s'') : CallsOnly s s'' :=
  ⟨h'.nodes.trans h.nodes, h'.sites.trans h.sites, h'.live.trans h.live, h'.problems.trans h.problems,
    h'.visited.trans h.visited, h'.scanned.trans h.scanned⟩

theorem foldl {α : Type} {f : Scan → α → Scan} (h : ∀ s a, CallsOnly s (f s a)) :
    ∀ (l : List α) (s : Scan), CallsOnly s (l.foldl f s)
  | [], s => refl s
  | a :: l, s => (h s a).trans (foldl h l (f s a))

theorem isVisited {s s' : Scan} (h : CallsOnly s s') (m : MethodId) : s'.isVisited m = s.isVisited m := by
  rw [Scan.isVisited, Scan.isVisited, h.visited]

end CallsOnly

theorem addCall_callsOnly (caller : MethodId) (s : Scan) (callee : MethodId) :
    CallsOnly s (addCall caller s callee) := by
  have hgraph : (s.graph.addEdge ⟨caller, callee⟩).2.nodes = s.graph.nodes := s.graph.addEdge_nodes _
  unfold addCall tryCall
  dsimp only
  split <;> exact ⟨hgraph, rfl, rfl, rfl, rfl, rfl⟩

theorem addCall_graph (caller : MethodId) (s : Scan) (callee : MethodId) :
    (addCall caller s callee).graph = (s.graph.addEdge ⟨caller, callee⟩).2 := by
  unfold addCall tryCall; dsimp only; split <;> rfl

theorem addCall_edges (caller : MethodId) (s : Scan) (callee : MethodId) :
    (addCall caller s callee).graph.edges =
      if ⟨caller, callee⟩ ∈ s.graph.edges then s.graph.edges else s.graph.edges ++ [⟨caller, callee⟩] := by
  rw [addCall_graph]
  split
  · rename_i h
    rw [s.graph.addEdge_of_mem h]
  · rename_i h
    exact (s.graph.addEdge_of_not_mem h).2

theorem addCall_queue (caller : MethodId) (s : Scan) (callee : MethodId) :
    (addCall caller s callee).queue = if s.isVisited callee then s.queue else s.queue ++ [callee] := by
  unfold addCall tryCall isVisited
  dsimp only
  split <;> rfl

theorem mem_edges_addCall {caller callee : MethodId} {s : Scan} {x : Edge} :
    x ∈ (addCall caller s callee).graph.edges ↔ x ∈ s.graph.edges ∨ x = ⟨caller, callee⟩ := by
  rw [addCall_edges]
  split
  · rename_i h
    constructor
    · exact .inl
    · rintro (hx | rfl)
      · exact hx
      · exact h
  · simp

theorem mem_queue_addCall {caller callee : MethodId} {s : Scan} {x : MethodId} :
    x ∈ (addCall caller s callee).queue ↔ x ∈ s.queue ∨ x = callee ∧ s.isVisited x = false := by
  rw [addCall_queue]
  split
  · rename_i h
    constructor
    · exact .inl
    · rintro (hx | ⟨rfl, hx⟩)
      · exact hx
      · simp [h] at hx
  · rename_i h
    simp only [List.mem_append, List.mem_singleton]
    constructor
    · rintro (hx | rfl)
      · exact .inl hx
      · exact .inr ⟨rfl, by simpa using h⟩
    · rintro (hx | ⟨rfl, -⟩)
      · exact .inl hx
      · exact .inr rfl

theorem foldl_addCall_callsOnly (caller : MethodId) (cs : List MethodId) (s : Scan) :
    CallsOnly s (cs.foldl (addCall caller) s) := .foldl (addCall_callsOnly caller) cs s

theorem mem_edges_foldl_addCall {caller : MethodId} {x : Edge} :
    ∀ {cs : List MethodId} {s : Scan}, x ∈ (cs.foldl (addCall caller) s).graph.edges ↔
      x ∈ s.graph.edges ∨ ∃ c ∈ cs, x = ⟨caller, c⟩
  | [], s => by simp
  | c :: cs, s => by
      rw [List.foldl_cons, mem_edges_foldl_addCall, mem_edges_addCall, or_assoc]
      simp

theorem mem_queue_foldl_addCall {caller x : MethodId} :
    ∀ {cs : List MethodId} {s : Scan}, x ∈ (cs.foldl (addCall caller) s).queue ↔
      x ∈ s.queue ∨ x ∈ cs ∧ s.isVisited x = false
  | [], s => by simp
  | c :: cs, s => by
      rw [List.foldl_cons, mem_queue_foldl_addCall, mem_queue_addCall,
        (addCall_callsOnly caller s c).isVisited, or_assoc, List.mem_cons, or_and_right]

/-! ### Resolving virtual calls -/

theorem note_callsOnly (s : Scan) (n : Notice) : CallsOnly s (s.note n) := ⟨rfl, rfl, rfl, rfl, rfl, rfl⟩

theorem resolveSite_callsOnly (d : Dispatch) (s : Scan) (site : Site) :
    CallsOnly s (resolveSite d s site) := by
  rw [resolveSite_eq]
  exact (note_callsOnly s _).trans (foldl_addCall_callsOnly site.caller _ _)

theorem resolveSites_callsOnly (d : Dispatch) (s : Scan) : CallsOnly s (resolveSites d s).2 := by
  obtain ⟨n, heq⟩ := resolveSites_snd d s
  rw [heq]
  exact (CallsOnly.foldl (resolveSite_callsOnly d) s.sites s).trans (note_callsOnly _ _)

theorem mem_edges_resolveSite {d : Dispatch} {s : Scan} {site : Site} {x : Edge} :
    x ∈ (resolveSite d s site).graph.edges ↔
      x ∈ s.graph.edges ∨ ∃ c ∈ d.candidates s.live site.target, x = ⟨site.caller, c⟩ := by
  rw [resolveSite_eq]
  exact mem_edges_foldl_addCall

theorem mem_queue_resolveSite {d : Dispatch} {s : Scan} {site : Site} {x : MethodId} :
    x ∈ (resolveSite d s site).queue ↔
      x ∈ s.queue ∨ x ∈ d.candidates s.live site.target ∧ s.isVisited x = false := by
  rw [resolveSite_eq]
  exact mem_queue_foldl_addCall

theorem mem_edges_foldl_resolveSite {d : Dispatch} {x : Edge} :
    ∀ {sites : List Site} {s : Scan}, x ∈ (sites.foldl (resolveSite d) s).graph.edges ↔
      x ∈ s.graph.edges ∨ ∃ site ∈ sites, ∃ c ∈ d.candidates s.live site.target, x = ⟨site.caller, c⟩
  | [], s => by simp
  | site :: sites, s => by
      rw [List.foldl_cons, mem_edges_foldl_resolveSite, mem_edges_resolveSite,
        (resolveSite_callsOnly d s site).live, or_assoc]
      simp

theorem mem_queue_foldl_resolveSite {d : Dispatch} {x : MethodId} :
    ∀ {sites : List Site} {s : Scan}, x ∈ (sites.foldl (resolveSite d) s).queue ↔
      x ∈ s.queue ∨ (∃ site ∈ sites, x ∈ d.candidates s.live site.target) ∧ s.isVisited x = false
  | [], s => by simp
  | site :: sites, s => by
      rw [List.foldl_cons, mem_queue_foldl_resolveSite, mem_queue_resolveSite,
        (resolveSite_callsOnly d s site).live, (resolveSite_callsOnly d s site).isVisited, or_assoc,
        ← or_and_right]
      simp

/-- Resolving all virtual calls again adds the calls of their candidates under the types known by now. -/
theorem mem_edges_resolveSites {d : Dispatch} {s : Scan} {x : Edge} :
    x ∈ (resolveSites d s).2.graph.edges ↔
      x ∈ s.graph.edges ∨ ∃ site ∈ s.sites, ∃ c ∈ d.candidates s.live site.target, x = ⟨site.caller, c⟩ := by
  obtain ⟨n, heq⟩ := resolveSites_snd d s
  rw [heq]
  exact mem_edges_foldl_resolveSite

theorem mem_queue_resolveSites {d : Dispatch} {s : Scan} {x : MethodId} :
    x ∈ (resolveSites d s).2.queue ↔
      x ∈ s.queue ∨ (∃ site ∈ s.sites, x ∈ d.candidates s.live site.target) ∧ s.isVisited x = false := by
  obtain ⟨n, heq⟩ := resolveSites_snd d s
  rw [heq]
  exact mem_queue_foldl_resolveSite

/-! ### Effects -/

theorem addSite_eq (s : Scan) (site : Site) : s.addSite site = { s with sites := (s.addSite site).sites } := by
  unfold addSite; split <;> rfl

theorem construct_eq (p : Program) (s : Scan) (t : TypeId) :
    construct p s t =
      { s with live := (construct p s t).live, notices := (construct p s t).notices } := by
  unfold construct
  split
  · rfl
  · split <;> rfl

theorem mem_sites_addSite {s : Scan} {site x : Site} :
    x ∈ (s.addSite site).sites ↔ x ∈ s.sites ∨ x = site := by
  unfold addSite
  split
  · rename_i h
    constructor
    · exact .inl
    · rintro (hx | rfl)
      · exact hx
      · exact h
  · simp

theorem mem_live_construct {p : Program} {s : Scan} {t x : TypeId} :
    x ∈ (construct p s t).live ↔ x ∈ s.live ∨ x = t ∧ t < p.types.size := by
  unfold construct
  split
  · rename_i h
    have hge : ¬ t < p.types.size := by simpa using h
    simp [hge]
  · rename_i ty h
    have hlt : t < p.types.size := (Array.getElem?_eq_some_iff.mp h).1
    by_cases hmem : t ∈ s.live
    · rw [if_pos hmem]
      constructor
      · exact .inl
      · rintro (hx | ⟨rfl, -⟩)
        · exact hx
        · exact hmem
    · rw [if_neg hmem]
      simp [instantiate, LiveTypes.add_of_not_mem hmem, note, hlt]

/-- The record of which methods were looked at. -/
def marks (s : Scan) : List Node × Array Bool × Nat := (s.graph.nodes, s.visited, s.scanned)

theorem CallsOnly.marks {s s' : Scan} (h : CallsOnly s s') : s'.marks = s.marks := by
  rw [Scan.marks, Scan.marks, h.nodes, h.visited, h.scanned]

theorem apply_marks (d : Dispatch) (m : MethodId) (s : Scan) (e : Effect) :
    (apply d m s e).marks = s.marks := by
  cases e with
  | note n => rfl
  | problem kind reference => rfl
  | construct t => rw [apply, construct_eq]; rfl
  | call c => exact (addCall_callsOnly m s c).marks
  | dispatch t => rw [apply, (resolveSite_callsOnly d _ _).marks, addSite_eq]; rfl

theorem apply_problems (d : Dispatch) (m : MethodId) (s : Scan) (e : Effect) :
    (apply d m s e).problems = s.problems ++ e.problems m := by
  cases e with
  | note n => simp [apply, note, Effect.problems]
  | problem kind reference => rfl
  | construct t => rw [apply, construct_eq]; simp [Effect.problems]
  | call c => rw [apply, (addCall_callsOnly m s c).problems]; simp [Effect.problems]
  | dispatch t =>
    rw [apply, (resolveSite_callsOnly d _ _).problems, addSite_eq]; simp [Effect.problems]

theorem mem_live_apply {d : Dispatch} {m : MethodId} {s : Scan} {e : Effect} {x : TypeId} :
    x ∈ (apply d m s e).live ↔ x ∈ s.live ∨ e = .construct x ∧ x < d.program.types.size := by
  cases e with
  | note n => simp [apply, note]
  | problem kind reference => simp [apply, report, note]
  | construct t =>
    rw [apply, mem_live_construct, Effect.construct.injEq]
    constructor <;> rintro (hx | ⟨rfl, hlt⟩)
    · exact .inl hx
    · exact .inr ⟨rfl, hlt⟩
    · exact .inl hx
    · exact .inr ⟨rfl, hlt⟩
  | call c => rw [apply, (addCall_callsOnly m s c).live]; simp
  | dispatch t => rw [apply, (resolveSite_callsOnly d _ _).live, addSite_live]; simp

theorem mem_sites_apply {d : Dispatch} {m : MethodId} {s : Scan} {e : Effect} {x : Site} :
    x ∈ (apply d m s e).sites ↔ x ∈ s.sites ∨ x.caller = m ∧ e = .dispatch x.target := by
  cases e with
  | note n => simp [apply, note]
  | problem kind reference => simp [apply, report, note]
  | construct t => rw [apply, construct_eq]; simp
  | call c => rw [apply, (addCall_callsOnly m s c).sites]; simp
  | dispatch t =>
    rw [apply, (resolveSite_callsOnly d _ _).sites, mem_sites_addSite, Effect.dispatch.injEq]
    cases x
    simp [eq_comm]

theorem mem_edges_apply {d : Dispatch} {m : MethodId} {s : Scan} {e : Effect} {x : Edge} :
    x ∈ (apply d m s e).graph.edges ↔ x ∈ s.graph.edges ∨ ∃ c ∈ e.callees d s.live, x = ⟨m, c⟩ := by
  cases e with
  | note n => simp [apply, note, Effect.callees]
  | problem kind reference => simp [apply, report, note, Effect.callees]
  | construct t => rw [apply, construct_eq]; simp [Effect.callees]
  | call c => simp [apply, mem_edges_addCall, Effect.callees]
  | dispatch t => rw [apply, mem_edges_resolveSite, addSite_eq]; rfl

theorem mem_queue_apply {d : Dispatch} {m : MethodId} {s : Scan} {e : Effect} {x : MethodId} :
    x ∈ (apply d m s e).queue ↔ x ∈ s.queue ∨ x ∈ e.callees d s.live ∧ s.isVisited x = false := by
  cases e with
  | note n => simp [apply, note, Effect.callees]
  | problem kind reference => simp [apply, report, note, Effect.callees]
  | construct t => rw [apply, construct_eq]; simp [Effect.callees]
  | call c => simp [apply, mem_queue_addCall, Effect.callees]
  | dispatch t => rw [apply, mem_queue_resolveSite, addSite_eq]; rfl

/-! ### Looking at a method -/

theorem visit_of_not_canVisit {d : Dispatch} {s : Scan} {m : MethodId}
    (h : s.canVisit d.program m = false) : visit d s m = s := by
  simp [visit, h]

/-- What holds once a method is marked and is preserved by each of its effects holds after the visit. -/
theorem visit_induction {d : Dispatch} {s : Scan} {m : MethodId} {P : Scan → Prop}
    (hcan : s.canVisit d.program m = true) (hmark : P (s.mark d.program m))
    (happly : ∀ s, ∀ e ∈ effectsOf d.program m, P s → P (apply d m s e)) : P (visit d s m) := by
  rw [visit, if_pos hcan]
  exact List.foldlRecOn _ _ hmark fun s hs e he => happly s e he hs

end Scan

end CallGraphs
