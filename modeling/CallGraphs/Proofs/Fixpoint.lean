import Mathlib.Order.Bounds.Basic
import CallGraphs.Program.Build
import CallGraphs.Proofs.Bookkeeping
import CallGraphs.Proofs.Candidates

/-! The analysis computes a least fixpoint. Methods looked at, calls and instantiated types are closed under
    the scanning rules, with virtual calls resolved under the types that are instantiated in the end, and any
    other closed findings contain them. Closure is four facts that every step keeps: the records agree, what
    a method does is recorded, a callee with a body is looked at or queued, and every virtual call has its
    candidates under the types of the last round. When the machine ends these are all the types there are. -/

namespace CallGraphs

/-- What an analysis can find, as sets: methods looked at, calls, instantiated types. -/
@[ext] structure Findings where
  nodes : Set MethodId
  edges : Set Edge
  types : Set TypeId

namespace Findings

/-- One finds no more than the other. -/
instance : LE Findings := ⟨fun F G => F.nodes ⊆ G.nodes ∧ F.edges ⊆ G.edges ∧ F.types ⊆ G.types⟩

/-- Nothing is missing: seeds and callees with a body are looked at, and a method that is looked at has its
    direct calls, its created types, and the calls of all candidates of its virtual calls under the types. -/
structure Closed (d : Dispatch) (seeds : List MethodId) (F : Findings) : Prop where
  seed : ∀ m ∈ seeds, d.program.HasBody m → m ∈ F.nodes
  callee : ∀ m c, m ∈ F.nodes → ⟨m, c⟩ ∈ F.edges → d.program.HasBody c → c ∈ F.nodes
  call : ∀ m c, m ∈ F.nodes → d.program.Calls m c → ⟨m, c⟩ ∈ F.edges
  create : ∀ m t, m ∈ F.nodes → d.program.Creates m t → t ∈ F.types
  dispatch : ∀ m t c, m ∈ F.nodes → d.program.Dispatches m t → c ∈ d.candidatesUnder F.types t →
    ⟨m, c⟩ ∈ F.edges

/-- In closed findings a method that is looked at has the calls of each of its effects. -/
theorem Closed.edge {d : Dispatch} {seeds : List MethodId} {F : Findings} (hF : Closed d seeds F)
    {m c : MethodId} {e : Effect} {live : LiveTypes} (hm : m ∈ F.nodes) (he : e ∈ Scan.effectsOf d.program m)
    (hlive : ∀ t ∈ live, t ∈ F.types) (hc : c ∈ e.callees d live) : ⟨m, c⟩ ∈ F.edges := by
  cases e with
  | note n => simp [Effect.callees] at hc
  | problem kind reference => simp [Effect.callees] at hc
  | construct t => simp [Effect.callees] at hc
  | call c' =>
    obtain rfl : c = c' := by simpa [Effect.callees] using hc
    exact hF.call m c hm (Program.call_mem_effectsOf.mp he)
  | dispatch t => exact hF.dispatch m t c hm (Program.dispatch_mem_effectsOf.mp he) ⟨live, hlive, hc⟩

theorem Closed.of_subset {d : Dispatch} {seeds seeds' : List MethodId} {F : Findings}
    (hF : F.Closed d seeds') (h : seeds ⊆ seeds') : F.Closed d seeds :=
  ⟨fun m hm => hF.seed m (h hm), hF.callee, hF.call, hF.create, hF.dispatch⟩

end Findings

namespace Scan

/-- What has been found by now. -/
def findings (s : Scan) : Findings :=
  ⟨{m | s.graph.hasNode m = true}, {e | e ∈ s.graph.edges}, {t | t ∈ s.live}⟩

theorem hasNode_iff {s : Scan} {m : MethodId} : s.graph.hasNode m = true ↔ m ∈ s.looked := s.graph.hasNode_iff

/-! ### What a method does is recorded -/

/-- The direct call or the type that an effect of `m` stands for is recorded. -/
def Recorded (s : Scan) (m : MethodId) : Effect → Prop
  | .call c => ⟨m, c⟩ ∈ s.graph.edges
  | .construct t => t ∈ s.live
  | _ => True

theorem Recorded.mono {s s' : Scan} {m : MethodId} {e : Effect} (hs : Grows s s') (h : Recorded s m e) :
    Recorded s' m e := by
  cases e with
  | call c => exact hs.edges.subset h
  | construct t => exact hs.live.subset h
  | _ => trivial

theorem apply_recorded (d : Dispatch) {m : MethodId} (s : Scan) {e : Effect}
    (he : e ∈ effectsOf d.program m) : Recorded (apply d m s e) m e := by
  cases e with
  | call c => exact mem_edges_apply.mpr (.inr ⟨c, by simp [Effect.callees], rfl⟩)
  | construct t => exact mem_live_apply.mpr (.inr ⟨rfl, (Program.construct_mem_effectsOf.mp he).lt⟩)
  | _ => trivial

theorem foldl_apply_recorded (d : Dispatch) {m : MethodId} :
    ∀ (l : List Effect) (s : Scan), (∀ e ∈ l, e ∈ effectsOf d.program m) →
      ∀ e ∈ l, Recorded (l.foldl (apply d m) s) m e
  | e' :: l, s, hl, e, he => by
      rcases List.mem_cons.mp he with rfl | he
      · exact (apply_recorded d s (hl e he)).mono (.foldl (apply_grows d m) l _)
      · exact foldl_apply_recorded d l _ (fun e he => hl e (List.mem_cons_of_mem _ he)) e he

/-- All effects of the methods looked at are recorded. -/
def Explored (p : Program) (s : Scan) : Prop := ∀ m ∈ s.looked, ∀ e ∈ effectsOf p m, Recorded s m e

theorem Explored.visit {d : Dispatch} {s : Scan} (hk : Kept d.program s) (h : Explored d.program s)
    (m : MethodId) : Explored d.program (visit d s m) := by
  cases hcan : s.canVisit d.program m with
  | false => rw [visit_of_not_canVisit hcan]; exact h
  | true =>
    intro x hx e he
    rw [(visit_looked hk hcan).2, List.mem_append, List.mem_singleton] at hx
    rcases hx with hx | rfl
    · exact (h x hx e he).mono (visit_grows d s m)
    · rw [Scan.visit, if_pos hcan]
      exact foldl_apply_recorded d _ _ (fun _ he => he) e he

/-! ### Callees with a body are looked at or queued -/

/-- Every seed and every callee with a body has been looked at or is on the queue. -/
def Covered (p : Program) (seeds : List MethodId) (s : Scan) : Prop :=
  ∀ x, (x ∈ seeds ∨ ∃ e ∈ s.graph.edges, e.callee = x) → p.HasBody x → s.isVisited x = true ∨ x ∈ s.queue

theorem isVisited_apply (d : Dispatch) (m : MethodId) (s : Scan) (e : Effect) (x : MethodId) :
    (apply d m s e).isVisited x = s.isVisited x := by
  rw [isVisited, apply_visited, isVisited]

theorem Covered.apply {d : Dispatch} {seeds : List MethodId} {s : Scan} (h : Covered d.program seeds s)
    (m : MethodId) (e : Effect) : Covered d.program seeds (apply d m s e) := by
  intro x hx hbody
  rw [isVisited_apply, mem_queue_apply]
  have hold : (x ∈ seeds ∨ ∃ e ∈ s.graph.edges, e.callee = x) → s.isVisited x = true ∨ x ∈ s.queue :=
    fun hx => h x hx hbody
  rcases hx with hx | ⟨y, hy, rfl⟩
  · exact (hold (.inl hx)).imp_right .inl
  · rcases mem_edges_apply.mp hy with hy | ⟨c, hc, rfl⟩
    · exact (hold (.inr ⟨y, hy, rfl⟩)).imp_right .inl
    · cases hv : s.isVisited c with
      | true => exact .inl rfl
      | false => exact .inr (.inr ⟨hc, rfl⟩)

/-- The method taken off the queue is looked at now, unless it has no body or was looked at before. -/
theorem Covered.visit {d : Dispatch} {seeds : List MethodId} {s : Scan} {m : MethodId} {rest : List MethodId}
    (hk : Kept d.program s) (h : Covered d.program seeds s) (hq : s.queue = m :: rest) :
    Covered d.program seeds (visit d { s with queue := rest } m) := by
  cases hcan : canVisit d.program { s with queue := rest } m with
  | true =>
    refine visit_induction hcan ?_ fun s e _ hs => hs.apply m e
    intro x hx hbody
    rw [mark_edges] at hx
    rw [mark_isVisited hcan]
    rcases h x hx hbody with hv | hin
    · exact .inl (.inr hv)
    · rcases List.mem_cons.mp (hq ▸ hin) with rfl | hin
      · exact .inl (.inl rfl)
      · exact .inr hin
  | false =>
    rw [visit_of_not_canVisit hcan]
    intro x hx hbody
    rcases h x hx hbody with hv | hin
    · exact .inl hv
    · rcases List.mem_cons.mp (hq ▸ hin) with rfl | hin
      · exact .inl (isVisited_of_not_canVisit hk.size hbody hcan)
      · exact .inr hin

theorem Covered.resolveSites {d : Dispatch} {seeds : List MethodId} {s : Scan}
    (h : Covered d.program seeds s) : Covered d.program seeds (resolveSites d s).2 := by
  intro x hx hbody
  rw [(resolveSites_callsOnly d s).isVisited, mem_queue_resolveSites]
  rcases hx with hx | ⟨y, hy, rfl⟩
  · exact (h x (.inl hx) hbody).imp_right .inl
  · rcases mem_edges_resolveSites.mp hy with hy | ⟨site, hsite, c, hc, rfl⟩
    · exact (h _ (.inr ⟨y, hy, rfl⟩) hbody).imp_right .inl
    · cases hv : s.isVisited c with
      | true => exact .inl rfl
      | false => exact .inr (.inr ⟨⟨site, hsite, hc⟩, rfl⟩)

/-! ### Virtual calls have their candidates -/

/-- Every virtual call has been resolved with at least the given types. -/
def Settled (d : Dispatch) (live : LiveTypes) (s : Scan) : Prop :=
  ∀ x ∈ s.sites, ∀ c ∈ d.candidates live x.target, ⟨x.caller, c⟩ ∈ s.graph.edges

/-- A virtual call is resolved when it is first recorded; types that were known then give no candidate that
    is not known too. -/
theorem Settled.apply {d : Dispatch} {live : LiveTypes} {s : Scan} (hlive : live ⊆ s.live)
    (h : Settled d live s) (m : MethodId) (e : Effect) : Settled d live (apply d m s e) := by
  intro x hx c hc
  rw [mem_edges_apply]
  rcases mem_sites_apply.mp hx with hx | ⟨hm, rfl⟩
  · exact .inl (h x hx c hc)
  · exact .inr ⟨c, Dispatch.candidates_mono hlive _ hc, by rw [hm]⟩

theorem Settled.visit {d : Dispatch} {live : LiveTypes} {s : Scan} (hlive : live ⊆ s.live)
    (h : Settled d live s) (m : MethodId) : Settled d live (visit d s m) := by
  cases hcan : s.canVisit d.program m with
  | false => rw [visit_of_not_canVisit hcan]; exact h
  | true =>
    have hmark : live ⊆ (s.mark d.program m).live ∧ Settled d live (s.mark d.program m) :=
      ⟨hlive, fun x hx c hc => by rw [mark_edges]; exact h x hx c hc⟩
    exact (visit_induction hcan hmark (P := fun s => live ⊆ s.live ∧ Settled d live s) fun s e _ hs =>
      ⟨List.Subset.trans hs.1 (apply_grows d m s e).live.subset, hs.2.apply hs.1 m e⟩).2

theorem resolveSites_settled (d : Dispatch) (s : Scan) : Settled d s.live (resolveSites d s).2 := by
  intro x hx c hc
  rw [(resolveSites_callsOnly d s).sites] at hx
  exact mem_edges_resolveSites.mpr (.inr ⟨x, hx, c, hc, rfl⟩)

theorem Settled.resolveSites {d : Dispatch} {live : LiveTypes} {s : Scan} (h : Settled d live s) :
    Settled d live (resolveSites d s).2 := by
  intro x hx c hc
  rw [(resolveSites_callsOnly d s).sites] at hx
  exact (resolveSites_grows d s).edges.subset (h x hx c hc)

/-! ### Nothing is found that closed findings lack -/

/-- What has been found, and what is queued and has a body, lies within the findings. -/
structure Within (d : Dispatch) (F : Findings) (s : Scan) : Prop where
  looked : ∀ m ∈ s.looked, m ∈ F.nodes
  edges : ∀ e ∈ s.graph.edges, e ∈ F.edges
  live : ∀ t ∈ s.live, t ∈ F.types
  queue : ∀ m ∈ s.queue, d.program.HasBody m → m ∈ F.nodes

theorem Within.apply {d : Dispatch} {seeds : List MethodId} {F : Findings} (hF : F.Closed d seeds) {s : Scan}
    {m : MethodId} {e : Effect} (hm : m ∈ F.nodes) (he : e ∈ effectsOf d.program m) (h : Within d F s) :
    Within d F (apply d m s e) := by
  have hedge : ∀ c ∈ e.callees d s.live, ⟨m, c⟩ ∈ F.edges := fun c hc => hF.edge hm he h.live hc
  refine ⟨?_, ?_, ?_, ?_⟩
  · rw [apply_looked]
    exact h.looked
  · intro x hx
    rcases mem_edges_apply.mp hx with hx | ⟨c, hc, rfl⟩
    · exact h.edges x hx
    · exact hedge c hc
  · intro t ht
    rcases mem_live_apply.mp ht with ht | ⟨rfl, -⟩
    · exact h.live t ht
    · exact hF.create m t hm (Program.construct_mem_effectsOf.mp he)
  · intro x hx hbody
    rcases mem_queue_apply.mp hx with hx | ⟨hc, -⟩
    · exact h.queue x hx hbody
    · exact hF.callee m x hm (hedge x hc) hbody

theorem Within.visit {d : Dispatch} {seeds : List MethodId} {F : Findings} (hF : F.Closed d seeds) {s : Scan}
    {m : MethodId} {rest : List MethodId} (hq : s.queue = m :: rest) (h : Within d F s) :
    Within d F (visit d { s with queue := rest } m) := by
  have hrest : ∀ x ∈ rest, d.program.HasBody x → x ∈ F.nodes :=
    fun x hx => h.queue x (hq ▸ List.mem_cons_of_mem m hx)
  cases hcan : canVisit d.program { s with queue := rest } m with
  | false =>
    rw [visit_of_not_canVisit hcan]
    exact ⟨h.looked, h.edges, h.live, hrest⟩
  | true =>
    have hm : m ∈ F.nodes := h.queue m (hq ▸ List.mem_cons_self) (canVisit_iff.mp hcan).1
    refine visit_induction hcan ⟨?_, ?_, h.live, hrest⟩ fun s e he hs => hs.apply hF hm he
    · intro x hx
      rcases mem_looked_of_mark hx with hx | rfl
      · exact h.looked x hx
      · exact hm
    · rw [mark_edges]
      exact h.edges

theorem Within.resolveSites {d : Dispatch} {seeds : List MethodId} {F : Findings} (hF : F.Closed d seeds)
    {s : Scan} (hk : Kept d.program s) (h : Within d F s) : Within d F (resolveSites d s).2 := by
  have hedge : ∀ x ∈ s.sites, ∀ c ∈ d.candidates s.live x.target,
      x.caller ∈ F.nodes ∧ ⟨x.caller, c⟩ ∈ F.edges := by
    intro x hx c hc
    obtain ⟨hlooked, hdispatch⟩ := (hk.sites x).mp hx
    have hm := h.looked _ hlooked
    exact ⟨hm, hF.dispatch _ _ c hm hdispatch ⟨s.live, h.live, hc⟩⟩
  have hc := resolveSites_callsOnly d s
  refine ⟨?_, ?_, by rw [hc.live]; exact h.live, ?_⟩
  · rw [Scan.looked, hc.nodes]
    exact h.looked
  · intro e he
    rcases mem_edges_resolveSites.mp he with he | ⟨x, hx, c, hc, rfl⟩
    · exact h.edges e he
    · exact (hedge x hx c hc).2
  · intro y hy hbody
    rcases mem_queue_resolveSites.mp hy with hy | ⟨⟨x, hx, hc⟩, -⟩
    · exact h.queue y hy hbody
    · obtain ⟨hm, he⟩ := hedge x hx y hc
      exact hF.callee _ y hm he hbody

end Scan

namespace Loop

/-! ### The whole run -/

/-- What is closed in the end, while the machine runs: virtual calls have their candidates under the types
    that the last round began with. -/
structure Saturated (d : Dispatch) (seeds : List MethodId) (x : Loop) : Prop where
  kept : Scan.Kept d.program x.scan
  explored : Scan.Explored d.program x.scan
  covered : Scan.Covered d.program seeds x.scan
  settled : ∃ live, live <+: x.scan.live ∧ (∀ n, x.resolvedWith = some n → live.length = n) ∧
    Scan.Settled d live x.scan

theorem saturated_start (d : Dispatch) (seeds : List MethodId) : Saturated d seeds (start d seeds) := by
  refine ⟨kept_start d seeds, ?_, ?_, [], List.nil_prefix, by simp [start], ?_⟩
  · intro m hm
    simp [Scan.looked, start, Analysis.opening, Scan.start, Scan.note] at hm
  · intro x hx _
    rcases hx with hx | ⟨e, he, -⟩
    · exact .inr hx
    · simp [start, Analysis.opening, Scan.start, Scan.note] at he
  · intro x hx
    simp [start, Analysis.opening, Scan.start, Scan.note] at hx

theorem saturated_step {d : Dispatch} {seeds : List MethodId} {x y : Loop} (hx : Saturated d seeds x)
    (h : step? d x = some y) : Saturated d seeds y := by
  have hkept := kept_step hx.kept h
  obtain ⟨live, hearlier, hlen, hsettled⟩ := hx.settled
  rcases step?_cases h with ⟨m, rest, hq, rfl⟩ | ⟨hq, ha, hdue, rfl⟩
  · have hrest : Scan.Kept d.program { x.scan with queue := rest } :=
      hx.kept.of_callsOnly ⟨rfl, rfl, rfl, rfl, rfl, rfl⟩
    refine ⟨hkept, Scan.Explored.visit hrest hx.explored m, hx.covered.visit hx.kept hq,
      live, hearlier.trans (Scan.visit_grows d { x.scan with queue := rest } m).live, hlen, ?_⟩
    exact Scan.Settled.visit (s := { x.scan with queue := rest }) hearlier.subset hsettled m
  · have hgrows := Scan.reopen_grows d x.scan (x.rounds + 1)
    have hlooked : (Scan.reopen d x.scan (x.rounds + 1)).looked = x.scan.looked := by
      rw [Scan.looked, Scan.reopen, (Scan.resolveSites_callsOnly d _).nodes]
      rfl
    refine ⟨hkept, ?_, ?_, x.scan.live, hgrows.live, by simp, Scan.resolveSites_settled d (x.scan.note _)⟩
    · intro m hm e he
      rw [hlooked] at hm
      exact (hx.explored m hm e he).mono hgrows
    · exact Scan.Covered.resolveSites (s := x.scan.note _) hx.covered

/-- When the machine has ended, its findings are closed. -/
theorem Saturated.closed {d : Dispatch} {seeds : List MethodId} {x : Loop} (hx : Saturated d seeds x)
    (hend : step? d x = none) : x.scan.findings.Closed d seeds := by
  obtain ⟨hqueue, hdone⟩ := step?_eq_none.mp hend
  have hnode : ∀ c, (c ∈ seeds ∨ ∃ e ∈ x.scan.graph.edges, e.callee = c) → d.program.HasBody c →
      x.scan.graph.hasNode c = true := by
    intro c hc hbody
    rcases hx.covered c hc hbody with hv | hin
    · exact Scan.hasNode_iff.mpr ((hx.kept.marked c).mp hv)
    · simp [hqueue] at hin
  -- the types that the last round began with give the candidates that all types give
  have hall : Scan.Settled d x.scan.live x.scan := by
    intro site hsite c hc
    obtain ⟨live, hearlier, hlen, hsettled⟩ := hx.settled
    refine hsettled site hsite c ?_
    cases ha : d.algorithm with
    | cha => simpa [Dispatch.candidates, ha] using hc
    | rta => rwa [hearlier.eq_of_length (hlen _ (hdone ha))]
  refine ⟨?_, ?_, ?_, ?_, ?_⟩
  · intro m hm hbody
    exact hnode m (.inl hm) hbody
  · intro m c _ he hbody
    exact hnode c (.inr ⟨_, he, rfl⟩) hbody
  · intro m c hm hcall
    exact hx.explored m (Scan.hasNode_iff.mp hm) _ (Program.call_mem_effectsOf.mpr hcall)
  · intro m t hm hcreate
    exact hx.explored m (Scan.hasNode_iff.mp hm) _ (Program.construct_mem_effectsOf.mpr hcreate)
  · intro m t c hm hdispatch hc
    have hsite : (⟨m, t⟩ : Site) ∈ x.scan.sites := (hx.kept.sites _).mpr ⟨Scan.hasNode_iff.mp hm, hdispatch⟩
    rw [show x.scan.findings.types = {t | t ∈ x.scan.live} from rfl, Dispatch.candidatesUnder_list] at hc
    exact hall _ hsite c hc

theorem within_step {d : Dispatch} {seeds : List MethodId} {F : Findings} (hF : F.Closed d seeds) {x y : Loop}
    (hk : Scan.Kept d.program x.scan) (hx : Scan.Within d F x.scan) (h : step? d x = some y) :
    Scan.Within d F y.scan := by
  rcases step?_cases h with ⟨m, rest, hq, rfl⟩ | ⟨-, -, -, rfl⟩
  · exact hx.visit hF hq
  · have hnoted : ∀ n, Scan.Within d F (x.scan.note n) := fun n => ⟨hx.looked, hx.edges, hx.live, hx.queue⟩
    exact (hnoted _).resolveSites hF (hk.of_callsOnly (Scan.note_callsOnly _ _))

end Loop

namespace Analysis

/-- What an analysis has found. -/
def findings (r : Analysis) : Findings := r.scan.findings

theorem findings_closed (d : Dispatch) (seeds : List MethodId) : (run d seeds).findings.Closed d seeds := by
  obtain ⟨x, hx, hend, hrun⟩ := Loop.run_induction (Loop.saturated_start d seeds) fun x y => Loop.saturated_step
  rw [hrun]
  exact hx.closed hend

theorem findings_le {d : Dispatch} {seeds : List MethodId} {F : Findings} (hF : F.Closed d seeds) :
    (run d seeds).findings ≤ F := by
  have hstart : Scan.Kept d.program (Loop.start d seeds).scan ∧ Scan.Within d F (Loop.start d seeds).scan := by
    refine ⟨Loop.kept_start d seeds, ?_, ?_, ?_, hF.seed⟩
    all_goals simp [Scan.looked, Loop.start, opening, Scan.start, Scan.note]
  obtain ⟨x, ⟨-, hx⟩, -, hrun⟩ := Loop.run_induction hstart
    (P := fun x => Scan.Kept d.program x.scan ∧ Scan.Within d F x.scan)
    fun x y hx h => ⟨Loop.kept_step hx.1 h, Loop.within_step hF hx.1 hx.2 h⟩
  rw [hrun]
  exact ⟨fun m hm => hx.looked m (Scan.hasNode_iff.mp hm), hx.edges, hx.live⟩

/-- The findings of an analysis are the least that are closed under the scanning rules, for every program, both
    algorithms and all seeds. Virtual calls count with the candidates that they have under the types which are
    instantiated in the end; class hierarchy analysis does not look at the types. -/
theorem findings_isLeast (p : Program) (a : Algorithm) (seeds : List MethodId) :
    let d := Dispatch.ofProgram p a
    let r := run d seeds
    IsLeast {F : Findings | F.Closed d seeds} r.findings ∧
    (∀ t, d.candidatesUnder r.findings.types t = {c | c ∈ d.candidates r.scan.live t}) ∧
    (a = .cha → ∀ types types' t, d.candidatesUnder types t = d.candidatesUnder types' t) := by
  intro d r
  refine ⟨⟨findings_closed d seeds, fun F hF => findings_le hF⟩, d.candidatesUnder_list r.scan.live, ?_⟩
  rintro rfl types types' t
  ext c
  constructor <;> exact fun ⟨_, _, hc⟩ => ⟨[], by simp, hc⟩

/-- A method with a continuation, whose body calls another method. The continuation type has a driver without a body, a
    method of another name, and two drivers with a body. -/
def fetching : Program := Program.finalize {
  modules := #[{ name := "App.dll", types := [0, 1] }]
  types := #[
    { name := "Host", fullName := "Host", moduleId := 0, methods := [0, 1] },
    { name := "Steps", fullName := "Steps", moduleId := 0, methods := [2, 3, 4, 5] }]
  methods := #[
    { name := "Fetch", owner := 0, continuation := some ⟨.async, "Steps"⟩,
      body := some [.onMethod .call { name := "Other", owner := "Host" }] },
    { name := "Other", owner := 0, body := some [] },
    { name := "MoveNext", owner := 1, isAbstract := true },
    { name := "Reset", owner := 1, body := some [] },
    { name := "MoveNext", owner := 1, body := some [.onMethod .call { name := "Reset", owner := "Steps" }] },
    { name := "MoveNext", owner := 1, params := ["System.Int32"], body := some [] }] }

/-- The stub calls the first driver that has a body and brings the continuation type into being; its own body is not
    looked at. All closed findings have this. -/
theorem findings_isLeast_fetching :
    let d := Dispatch.ofProgram fetching .rta
    let r := run d [0]
    fetching.HandsOver 0 1 4 ∧ r.findings = ⟨{0, 4, 3}, {⟨0, 4⟩, ⟨4, 3⟩}, {1}⟩ ∧
    r.findings.Closed d [0] ∧ ∀ F : Findings, F.Closed d [0] → ⟨0, 4⟩ ∈ F.edges ∧ 1 ∈ F.types ∧ 4 ∈ F.nodes := by
  intro d r
  have hstub : fetching.methods[0]?.map (fun x => (x.continuation.isSome, x.continuationType)) =
      some (true, some 1) := by
    decide +kernel
  obtain ⟨x, hx, hfields⟩ := Option.map_eq_some_iff.mp hstub
  obtain ⟨hkind, htype⟩ := Prod.ext_iff.mp hfields
  have hdriver : fetching.driver? 1 = some 4 := by decide +kernel
  have hnodes : r.scan.looked = [0, 4, 3] := by decide +kernel
  have hedges : r.scan.graph.edges = [⟨0, 4⟩, ⟨4, 3⟩] := by decide +kernel
  have hlive : r.scan.live = [1] := by decide +kernel
  have hfound : r.findings = ⟨{0, 4, 3}, {⟨0, 4⟩, ⟨4, 3⟩}, {1}⟩ := by
    ext y <;> simp [findings, Scan.findings, Scan.hasNode_iff, hnodes, hedges, hlive]
  obtain ⟨⟨hclosed, hleast⟩, -⟩ := findings_isLeast fetching .rta [0]
  refine ⟨⟨x, hx, hkind, htype, Program.driver?_eq_some.mp hdriver⟩, hfound, hclosed, fun F hF => ?_⟩
  obtain ⟨hn, he, ht⟩ := hleast hF
  refine ⟨he ?_, ht ?_, hn ?_⟩ <;> rw [hfound] <;> simp

end Analysis

end CallGraphs
