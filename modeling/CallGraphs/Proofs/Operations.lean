import CallGraphs.Proofs.Fixpoint

/-! A search driven by hand. Its operations can come in any order: look at a method, queued or not; put one on the
    queue; take the next one off and look at it; resolve the virtual calls again; note a type that is instantiated
    elsewhere. Whatever the order, nodes, marks and counts agree, calls start at nodes and are recorded once, no
    callee with a body is forgotten, and class hierarchy analysis has every candidate of every virtual call
    (`operations_consistent`). -/

namespace CallGraphs.Scan

/-- An operation on a search. -/
inductive Operation where
  | scan (m : MethodId)
  | enqueue (m : MethodId)
  | next
  | resolve
  | instantiate (t : TypeId)
  deriving DecidableEq

/-- The state after an operation. With an empty queue there is no next method, and nothing happens. -/
def perform (d : Dispatch) (s : Scan) : Operation → Scan
  | .scan m => s.visit d m
  | .enqueue m => s.enqueue m
  | .next =>
    match s.dequeue? with
    | none => s
    | some (m, rest) => rest.visit d m
  | .resolve => (s.resolveSites d).2
  | .instantiate t => s.instantiate t

/-- What has been found is consistent: the nodes are the methods looked at, which have bodies and are counted;
    calls and virtual calls start at nodes and are recorded once; a callee with a body has a node or is on the
    queue; and with class hierarchy analysis every candidate of a virtual call is a call. -/
structure Consistent (d : Dispatch) (s : Scan) : Prop where
  visited : ∀ m, s.graph.hasNode m = true ↔ s.isVisited m = true
  nodesDistinct : (s.graph.nodes.map (·.method)).Nodup
  bodied : ∀ n ∈ s.graph.nodes, d.program.HasBody n.method
  scanned : s.scanned = s.graph.nodes.length
  edgeCallers : ∀ e ∈ s.graph.edges, s.graph.hasNode e.caller = true
  siteCallers : ∀ x ∈ s.sites, s.graph.hasNode x.caller = true
  edgesDistinct : s.graph.edges.Nodup
  sitesDistinct : s.sites.Nodup
  callees : ∀ e ∈ s.graph.edges, d.program.HasBody e.callee →
    s.graph.hasNode e.callee = true ∨ e.callee ∈ s.queue
  candidates : d.algorithm = .cha → ∀ x ∈ s.sites, ∀ c ∈ d.candidates s.live x.target,
    ⟨x.caller, c⟩ ∈ s.graph.edges

/-! ### Calls are recorded once -/

theorem addCall_edges_nodup {caller callee : MethodId} {s : Scan} (h : s.graph.edges.Nodup) :
    (addCall caller s callee).graph.edges.Nodup := by
  rw [addCall_edges]
  split
  · exact h
  · rename_i hnew
    rw [← List.concat_eq_append]
    exact h.concat hnew

theorem resolveSite_edges_nodup {d : Dispatch} {s : Scan} (site : Site) (h : s.graph.edges.Nodup) :
    (resolveSite d s site).graph.edges.Nodup := by
  rw [resolveSite_eq]
  exact List.foldlRecOn (motive := fun s : Scan => s.graph.edges.Nodup) _ _ h fun _ hs _ _ => addCall_edges_nodup hs

theorem apply_edges_nodup {d : Dispatch} {m : MethodId} {s : Scan} (e : Effect) (h : s.graph.edges.Nodup) :
    (apply d m s e).graph.edges.Nodup := by
  cases e with
  | note n => exact h
  | problem kind reference => exact h
  | construct t => rw [apply, construct_eq]; exact h
  | call c => exact addCall_edges_nodup h
  | dispatch t =>
    refine resolveSite_edges_nodup _ ?_
    rw [addSite_eq]
    exact h

theorem visit_edges_nodup {d : Dispatch} {s : Scan} (m : MethodId) (h : s.graph.edges.Nodup) :
    (visit d s m).graph.edges.Nodup := by
  cases hcan : s.canVisit d.program m with
  | false => rw [visit_of_not_canVisit hcan]; exact h
  | true =>
    have hmark : (s.mark d.program m).graph.edges.Nodup := by rw [mark_edges]; exact h
    exact visit_induction (P := fun s => s.graph.edges.Nodup) hcan hmark fun s e _ hs => apply_edges_nodup e hs

theorem resolveSites_edges_nodup {d : Dispatch} {s : Scan} (h : s.graph.edges.Nodup) :
    (resolveSites d s).2.graph.edges.Nodup := by
  obtain ⟨n, heq⟩ := resolveSites_snd d s
  rw [heq]
  exact List.foldlRecOn (motive := fun s : Scan => s.graph.edges.Nodup) _ _ h fun _ hs site _ =>
    resolveSite_edges_nodup site hs

/-! ### What every operation preserves -/

/-- What is true after every operation, whichever came before. Virtual calls have the candidates that need no
    instantiated type; with class hierarchy analysis these are all of them. -/
structure Maintained (d : Dispatch) (s : Scan) : Prop where
  kept : Kept d.program s
  distinct : s.graph.edges.Nodup
  callers : ∀ e ∈ s.graph.edges, e.caller ∈ s.looked
  covered : Covered d.program [] s
  settled : Settled d [] s

theorem Maintained.start (d : Dispatch) : Maintained d (Scan.start d.program) := by
  refine ⟨Kept.start d.program, List.nodup_nil, by simp [Scan.start], ?_, by simp [Settled, Scan.start]⟩
  intro x hx
  simp [Scan.start] at hx

theorem Maintained.enqueue {d : Dispatch} {s : Scan} (h : Maintained d s) (m : MethodId) :
    Maintained d (s.enqueue m) := by
  refine ⟨h.kept.of_callsOnly ⟨rfl, rfl, rfl, rfl, rfl, rfl⟩, h.distinct, h.callers, ?_, h.settled⟩
  intro x hx hbody
  exact (h.covered x hx hbody).imp_right (List.mem_append_left [m])

theorem Maintained.instantiate {d : Dispatch} {s : Scan} (h : Maintained d s) (t : TypeId) :
    Maintained d (s.instantiate t) := by
  obtain ⟨hsize, hdescribed, hdistinct, hmarked, hbodied, hscanned, hproblems, hsitesDistinct, hsites⟩ := h.kept
  exact ⟨⟨hsize, hdescribed, hdistinct, hmarked, hbodied, hscanned, hproblems, hsitesDistinct, hsites⟩,
    h.distinct, h.callers, h.covered, h.settled⟩

/-- Looking at the method at the head of the queue. -/
theorem Maintained.next {d : Dispatch} {s : Scan} {m : MethodId} {rest : List MethodId} (h : Maintained d s)
    (hq : s.queue = m :: rest) : Maintained d (visit d { s with queue := rest } m) := by
  have hkept : Kept d.program { s with queue := rest } := h.kept.of_callsOnly ⟨rfl, rfl, rfl, rfl, rfl, rfl⟩
  have hsettled : Settled d [] { s with queue := rest } := h.settled
  refine ⟨hkept.visit m, visit_edges_nodup m h.distinct, ?_, h.covered.visit h.kept hq,
    hsettled.visit (List.nil_subset _) m⟩
  cases hcan : canVisit d.program { s with queue := rest } m with
  | false =>
    rw [visit_of_not_canVisit hcan]
    exact h.callers
  | true =>
    intro e he
    obtain ⟨more, hmore, hcaller⟩ := (visit_growsBy d { s with queue := rest } m).edges
    rw [(visit_looked hkept hcan).2, List.mem_append, List.mem_singleton]
    rw [hmore] at he
    rcases List.mem_append.mp he with he | he
    · exact .inl (h.callers e he)
    · exact .inr (hcaller e he)

/-- A method can be looked at without having been queued: it is as if it came first on the queue. -/
theorem Maintained.scan {d : Dispatch} {s : Scan} (h : Maintained d s) (m : MethodId) :
    Maintained d (visit d s m) := by
  have hfirst : Maintained d { s with queue := m :: s.queue } := by
    refine ⟨h.kept.of_callsOnly ⟨rfl, rfl, rfl, rfl, rfl, rfl⟩, h.distinct, h.callers, ?_, h.settled⟩
    intro x hx hbody
    exact (h.covered x hx hbody).imp_right (List.mem_cons_of_mem m)
  exact hfirst.next rfl

theorem Maintained.resolve {d : Dispatch} {s : Scan} (h : Maintained d s) :
    Maintained d (resolveSites d s).2 := by
  have hcalls := resolveSites_callsOnly d s
  refine ⟨h.kept.of_callsOnly hcalls, resolveSites_edges_nodup h.distinct, ?_, h.covered.resolveSites,
    h.settled.resolveSites⟩
  intro e he
  rw [looked, hcalls.nodes]
  rcases mem_edges_resolveSites.mp he with he | ⟨x, hx, c, -, rfl⟩
  · exact h.callers e he
  · exact ((h.kept.sites x).mp hx).1

theorem Maintained.perform {d : Dispatch} {s : Scan} (h : Maintained d s) (op : Operation) :
    Maintained d (perform d s op) := by
  cases op with
  | scan m => exact h.scan m
  | enqueue m => exact h.enqueue m
  | next =>
    cases hq : s.queue with
    | nil => simpa [Scan.perform, dequeue?, hq] using h
    | cons m rest => simpa [Scan.perform, dequeue?, hq] using h.next hq
  | resolve => exact h.resolve
  | instantiate t => exact h.instantiate t

/-- What every operation preserves holds after all of them. -/
theorem Maintained.foldl {d : Dispatch} (ops : List Operation) :
    Maintained d (ops.foldl (Scan.perform d) (Scan.start d.program)) :=
  List.foldlRecOn ops (Scan.perform d) (Maintained.start d) fun _ h op _ => h.perform op

theorem Maintained.consistent {d : Dispatch} {s : Scan} (h : Maintained d s) : Consistent d s := by
  have hnode : ∀ m, m ∈ s.looked → s.graph.hasNode m = true := fun m hm => hasNode_iff.mpr hm
  refine ⟨fun m => hasNode_iff.trans (h.kept.marked m).symm, h.kept.distinct, ?_, ?_,
    fun e he => hnode _ (h.callers e he), fun x hx => hnode _ ((h.kept.sites x).mp hx).1, h.distinct,
    h.kept.sitesDistinct, ?_, ?_⟩
  · intro n hn
    exact h.kept.bodied n.method (List.mem_map_of_mem hn)
  · rw [h.kept.scanned, looked, List.length_map]
  · intro e he hbody
    refine (h.covered e.callee (.inr ⟨e, he, rfl⟩) hbody).imp_left fun hv => ?_
    exact hnode _ ((h.kept.marked _).mp hv)
  · intro ha x hx c hc
    refine h.settled x hx c ?_
    simpa [Dispatch.candidates, ha] using hc

theorem perform_grows (d : Dispatch) (s : Scan) (op : Operation) : Grows s (perform d s op) := by
  cases op with
  | scan m => exact visit_grows d s m
  | enqueue m => exact .of_callsOnly ⟨rfl, rfl, rfl, rfl, rfl, rfl⟩ List.prefix_rfl
  | next =>
    cases hq : s.queue with
    | nil => simpa [perform, dequeue?, hq] using Grows.refl s
    | cons m rest =>
      have hrest : Grows s { s with queue := rest } :=
        .of_callsOnly ⟨rfl, rfl, rfl, rfl, rfl, rfl⟩ List.prefix_rfl
      simpa [perform, dequeue?, hq] using hrest.trans (visit_grows d _ m)
  | resolve => exact resolveSites_grows d s
  | instantiate t =>
    have hlive : s.live <+: (s.live.add t).2 := by
      unfold LiveTypes.add
      split
      · exact List.prefix_rfl
      · exact List.prefix_append _ _
    exact ⟨List.prefix_rfl, List.prefix_rfl, List.prefix_rfl, hlive, List.prefix_rfl⟩

/-- After any operations in any order, with either algorithm, what has been found is consistent. Each further
    operation only appends to it, and looking at a method appends no calls or virtual calls by other methods. -/
theorem operations_consistent (p : Program) (a : Algorithm) (ops : List Operation) :
    let d := Dispatch.ofProgram p a
    let s := ops.foldl (perform d) (start p)
    Consistent d s ∧ (∀ op, Grows s (perform d s op)) ∧ ∀ m, GrowsBy m s (perform d s (.scan m)) := by
  intro d s
  exact ⟨(Maintained.foldl (d := d) ops).consistent, perform_grows d s, visit_growsBy d s⟩

end CallGraphs.Scan
