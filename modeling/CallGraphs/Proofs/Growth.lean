import Mathlib.Data.List.Infix
import CallGraphs.Proofs.Steps

/-! Every operation only appends: nodes, edges, virtual calls, instantiated types and problems of an earlier
    state stand, in the same order, in front of what a later state has. The edges and virtual calls that looking
    at a method appends are calls by this method. -/

namespace CallGraphs.Scan

/-- The later state has all that the earlier one had found, in front of what is new. -/
structure Grows (s s' : Scan) : Prop where
  nodes : s.graph.nodes <+: s'.graph.nodes
  edges : s.graph.edges <+: s'.graph.edges
  sites : s.sites <+: s'.sites
  live : s.live <+: s'.live
  problems : s.problems <+: s'.problems

namespace Grows

theorem refl (s : Scan) : Grows s s :=
  ⟨List.prefix_rfl, List.prefix_rfl, List.prefix_rfl, List.prefix_rfl, List.prefix_rfl⟩

theorem trans {s s' s'' : Scan} (h : Grows s s') (h' : Grows s' s'') : Grows s s'' :=
  ⟨h.nodes.trans h'.nodes, h.edges.trans h'.edges, h.sites.trans h'.sites, h.live.trans h'.live,
    h.problems.trans h'.problems⟩

theorem foldl {α : Type} {f : Scan → α → Scan} (h : ∀ s a, Grows s (f s a)) :
    ∀ (l : List α) (s : Scan), Grows s (l.foldl f s)
  | [], s => refl s
  | a :: l, s => (h s a).trans (foldl h l (f s a))

/-- Where only calls were recorded, there is nothing to show but for the edges. -/
theorem of_callsOnly {s s' : Scan} (h : CallsOnly s s') (hedges : s.graph.edges <+: s'.graph.edges) :
    Grows s s' :=
  ⟨by rw [h.nodes], hedges, by rw [h.sites], by rw [h.live], by rw [h.problems]⟩

end Grows

theorem note_grows (s : Scan) (n : Notice) : Grows s (s.note n) :=
  .of_callsOnly (note_callsOnly s n) List.prefix_rfl

theorem addCall_grows (caller : MethodId) (s : Scan) (callee : MethodId) :
    Grows s (addCall caller s callee) := by
  refine .of_callsOnly (addCall_callsOnly caller s callee) ?_
  rw [addCall_edges]
  split
  · exact List.prefix_rfl
  · exact List.prefix_append _ _

theorem resolveSite_grows (d : Dispatch) (s : Scan) (site : Site) : Grows s (resolveSite d s site) := by
  rw [resolveSite_eq]
  exact (note_grows s _).trans (.foldl (addCall_grows site.caller) _ _)

theorem resolveSites_grows (d : Dispatch) (s : Scan) : Grows s (resolveSites d s).2 := by
  obtain ⟨n, heq⟩ := resolveSites_snd d s
  rw [heq]
  exact (Grows.foldl (resolveSite_grows d) s.sites s).trans (note_grows _ _)

theorem reopen_grows (d : Dispatch) (s : Scan) (k : Nat) : Grows s (reopen d s k) :=
  (note_grows s _).trans (resolveSites_grows d _)

theorem addSite_grows (s : Scan) (site : Site) : Grows s (s.addSite site) := by
  unfold addSite
  split
  · exact .refl s
  · exact ⟨List.prefix_rfl, List.prefix_rfl, List.prefix_append _ _, List.prefix_rfl, List.prefix_rfl⟩

theorem construct_grows (p : Program) (s : Scan) (t : TypeId) : Grows s (construct p s t) := by
  obtain ⟨more, hlive, -⟩ := construct_live p s t
  have hearlier : s.live <+: (construct p s t).live := ⟨more, hlive.symm⟩
  rw [construct_eq]
  exact ⟨List.prefix_rfl, List.prefix_rfl, List.prefix_rfl, hearlier, List.prefix_rfl⟩

theorem apply_grows (d : Dispatch) (m : MethodId) (s : Scan) (e : Effect) : Grows s (apply d m s e) := by
  cases e with
  | note n => exact note_grows s n
  | problem kind reference =>
    exact ⟨List.prefix_rfl, List.prefix_rfl, List.prefix_rfl, List.prefix_rfl, List.prefix_append _ _⟩
  | construct t => exact construct_grows d.program s t
  | call c => exact addCall_grows m s c
  | dispatch t => exact (addSite_grows s _).trans (resolveSite_grows d _ _)

theorem mark_edges (p : Program) (s : Scan) (m : MethodId) : (s.mark p m).graph.edges = s.graph.edges :=
  s.graph.addNode_edges _

theorem mark_grows (p : Program) (s : Scan) (m : MethodId) : Grows s (s.mark p m) := by
  have hnodes : s.graph.nodes <+: (s.graph.addNode (.ofMethod p m)).2.nodes := by
    rw [CallGraph.addNode_nodes]
    split
    · exact List.prefix_rfl
    · exact List.prefix_append _ _
  exact ⟨hnodes, by rw [mark_edges], List.prefix_rfl, List.prefix_rfl, List.prefix_rfl⟩

theorem visit_grows (d : Dispatch) (s : Scan) (m : MethodId) : Grows s (visit d s m) := by
  unfold visit
  split
  · exact (mark_grows d.program s m).trans (.foldl (apply_grows d m) _ _)
  · exact .refl s

/-! ### Whose calls are appended -/

/-- The edges and virtual calls that are new in the later state are calls by the method `m`. -/
structure GrowsBy (m : MethodId) (s s' : Scan) : Prop where
  edges : ∃ more, s'.graph.edges = s.graph.edges ++ more ∧ ∀ e ∈ more, e.caller = m
  sites : ∃ more, s'.sites = s.sites ++ more ∧ ∀ x ∈ more, x.caller = m

namespace GrowsBy

variable {m : MethodId}

theorem of_eq {s s' : Scan} (hedges : s'.graph.edges = s.graph.edges) (hsites : s'.sites = s.sites) :
    GrowsBy m s s' :=
  ⟨⟨[], by simp [hedges], by simp⟩, ⟨[], by simp [hsites], by simp⟩⟩

theorem trans {s s' s'' : Scan} (h : GrowsBy m s s') (h' : GrowsBy m s' s'') : GrowsBy m s s'' := by
  obtain ⟨⟨edges, hedges, hcaller⟩, sites, hsites, hsite⟩ := h
  obtain ⟨⟨edges', hedges', hcaller'⟩, sites', hsites', hsite'⟩ := h'
  refine ⟨⟨edges ++ edges', by rw [hedges', hedges, List.append_assoc], ?_⟩,
    ⟨sites ++ sites', by rw [hsites', hsites, List.append_assoc], ?_⟩⟩
  · exact List.forall_mem_append.mpr ⟨hcaller, hcaller'⟩
  · exact List.forall_mem_append.mpr ⟨hsite, hsite'⟩

theorem foldl {α : Type} {f : Scan → α → Scan} (h : ∀ s a, GrowsBy m s (f s a)) :
    ∀ (l : List α) (s : Scan), GrowsBy m s (l.foldl f s)
  | [], _ => of_eq rfl rfl
  | a :: l, s => (h s a).trans (foldl h l (f s a))

end GrowsBy

theorem addCall_growsBy (m : MethodId) (s : Scan) (c : MethodId) : GrowsBy m s (addCall m s c) := by
  have hsites : ∃ more, (addCall m s c).sites = s.sites ++ more ∧ ∀ x ∈ more, x.caller = m :=
    ⟨[], by simp [(addCall_callsOnly m s c).sites], by simp⟩
  refine ⟨?_, hsites⟩
  rw [addCall_edges]
  split
  · exact ⟨[], by simp, by simp⟩
  · exact ⟨[⟨m, c⟩], rfl, by simp⟩

theorem apply_growsBy (d : Dispatch) (m : MethodId) (s : Scan) (e : Effect) : GrowsBy m s (apply d m s e) := by
  cases e with
  | note n => exact .of_eq rfl rfl
  | problem kind reference => exact .of_eq rfl rfl
  | construct t =>
    rw [apply, construct_eq]
    exact .of_eq rfl rfl
  | call c => exact addCall_growsBy m s c
  | dispatch t =>
    have hsite : GrowsBy m s (s.addSite ⟨m, t⟩) := by
      unfold addSite
      split
      · exact .of_eq rfl rfl
      · exact ⟨⟨[], by simp, by simp⟩, ⟨[⟨m, t⟩], rfl, by simp⟩⟩
    have hnote : GrowsBy m (s.addSite ⟨m, t⟩) ((s.addSite ⟨m, t⟩).note (d.notice (s.addSite ⟨m, t⟩).live t)) :=
      .of_eq rfl rfl
    rw [apply, resolveSite_eq]
    exact hsite.trans (hnote.trans (.foldl (addCall_growsBy m) _ _))

/-- Looking at a method appends no calls by other methods. -/
theorem visit_growsBy (d : Dispatch) (s : Scan) (m : MethodId) : GrowsBy m s (visit d s m) := by
  unfold visit
  split
  · have hmark : GrowsBy m s (s.mark d.program m) := .of_eq (mark_edges d.program s m) rfl
    exact hmark.trans (.foldl (apply_growsBy d m) _ _)
  · exact .of_eq rfl rfl

end CallGraphs.Scan
