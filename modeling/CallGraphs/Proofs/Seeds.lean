import Mathlib.Data.Multiset.Bind
import CallGraphs.Program.Build
import CallGraphs.Proofs.Fixpoint

/-! How the result of an analysis depends on the seeds: more seeds find more, and neither the order of the
    seeds nor their repetition matters. Nodes, edges and types are compared through the least closed findings;
    virtual calls and problems follow, since they belong to the methods looked at, each of which is listed
    once. -/

namespace CallGraphs.Analysis

/-- One result holds all that another one does; a problem that is reported several times is reported as often
    there. -/
structure Covers (r' r : Analysis) : Prop where
  nodes : ∀ n ∈ r.scan.graph.nodes, n ∈ r'.scan.graph.nodes
  edges : ∀ e ∈ r.scan.graph.edges, e ∈ r'.scan.graph.edges
  types : ∀ t ∈ r.scan.live, t ∈ r'.scan.live
  sites : ∀ x ∈ r.scan.sites, x ∈ r'.scan.sites
  problems : (r.scan.problems : Multiset Problem) ≤ (r'.scan.problems : Multiset Problem)

/-- Two results hold the same, whatever the order, and count the same. -/
structure Agrees (r' r : Analysis) : Prop where
  nodes : ∀ n, n ∈ r'.scan.graph.nodes ↔ n ∈ r.scan.graph.nodes
  edges : ∀ e, e ∈ r'.scan.graph.edges ↔ e ∈ r.scan.graph.edges
  types : ∀ t, t ∈ r'.scan.live ↔ t ∈ r.scan.live
  sites : ∀ x, x ∈ r'.scan.sites ↔ x ∈ r.scan.sites
  problems : (r'.scan.problems : Multiset Problem) = (r.scan.problems : Multiset Problem)
  scanned : r'.scan.scanned = r.scan.scanned
  siteCount : r'.scan.sites.length = r.scan.sites.length

theorem looked_subset (d : Dispatch) {seeds seeds' : List MethodId} (h : seeds ⊆ seeds') :
    (run d seeds).scan.looked ⊆ (run d seeds').scan.looked := by
  intro m hm
  exact Scan.hasNode_iff.mp ((findings_le ((findings_closed d seeds').of_subset h)).1 (Scan.hasNode_iff.mpr hm))

/-- More seeds find more. -/
theorem run_covers (d : Dispatch) {seeds seeds' : List MethodId} (h : seeds ⊆ seeds') :
    Covers (run d seeds') (run d seeds) := by
  have hk := run_kept d seeds
  have hk' := run_kept d seeds'
  have hlooked := looked_subset d h
  obtain ⟨-, hedges, htypes⟩ := findings_le ((findings_closed d seeds').of_subset h)
  refine ⟨?_, fun e he => hedges he, fun t ht => htypes ht, ?_, ?_⟩
  · rw [hk.described, hk'.described]
    intro n hn
    obtain ⟨m, hm, rfl⟩ := List.mem_map.mp hn
    exact List.mem_map_of_mem (hlooked hm)
  · intro x hx
    obtain ⟨hcaller, hdispatch⟩ := (hk.sites x).mp hx
    exact (hk'.sites x).mpr ⟨hlooked hcaller, hdispatch⟩
  · -- a method that both have looked at has the same problems in both
    have hle : ((run d seeds).scan.looked : Multiset MethodId) ≤ (run d seeds').scan.looked :=
      Multiset.coe_le.mpr (hk.distinct.subperm hlooked)
    obtain ⟨more, hmore⟩ := Multiset.le_iff_exists_add.mp hle
    rw [hk.problems, hk'.problems, ← Multiset.coe_bind, ← Multiset.coe_bind, hmore, Multiset.add_bind]
    exact Multiset.le_add_right _ _

/-- The result grows with the seeds. From the same seeds in another order and number it holds the same, with
    the same counts of methods looked at and of virtual calls. -/
theorem run_seeds (p : Program) (a : Algorithm) (seeds seeds' : List MethodId) (h : seeds ⊆ seeds') :
    Covers (run (.ofProgram p a) seeds') (run (.ofProgram p a) seeds) ∧
    (seeds' ⊆ seeds → Agrees (run (.ofProgram p a) seeds') (run (.ofProgram p a) seeds)) := by
  have hcovers := run_covers (.ofProgram p a) h
  refine ⟨hcovers, fun h' => ?_⟩
  have hcovers' := run_covers (.ofProgram p a) h'
  have hk := run_kept (.ofProgram p a) seeds
  have hk' := run_kept (.ofProgram p a) seeds'
  refine ⟨fun n => ⟨hcovers'.nodes n, hcovers.nodes n⟩, fun e => ⟨hcovers'.edges e, hcovers.edges e⟩,
    fun t => ⟨hcovers'.types t, hcovers.types t⟩, fun x => ⟨hcovers'.sites x, hcovers.sites x⟩,
    le_antisymm hcovers'.problems hcovers.problems, ?_, ?_⟩
  · have hperm := (List.perm_ext_iff_of_nodup hk'.distinct hk.distinct).mpr fun m =>
      ⟨fun hm => looked_subset _ h' hm, fun hm => looked_subset _ h hm⟩
    rw [hk'.scanned, hk.scanned, hperm.length_eq]
  · exact ((List.perm_ext_iff_of_nodup hk'.sitesDistinct hk.sitesDistinct).mpr fun x =>
      ⟨hcovers'.sites x, hcovers.sites x⟩).length_eq

/-- A worker that is created and put to work. Both its method and the caller's call something unknown. -/
def workers : Program := Program.finalize {
  modules := #[{ name := "App.dll", types := [0, 1] }]
  types := #[
    { name := "App", fullName := "App", moduleId := 0, methods := [0] },
    { name := "Worker", fullName := "Worker", moduleId := 0, methods := [1, 2] }]
  methods := #[
    { name := "Main", owner := 0, isStatic := true, body := some [
      .onMethod .newobj { name := ".ctor", owner := "Worker" },
      .onMethod .callvirt { name := "Work", owner := "Worker" },
      .onMethod .call { name := "Exit", owner := "Unknown" }] },
    { name := ".ctor", owner := 1, body := some [] },
    { name := "Work", owner := 1, isVirtual := true, body := some [
      .onMethod .call { name := "Sleep", owner := "Unknown" }] }] }

theorem run_seeds_workers :
    let run := run (.ofProgram workers .rta)
    [2] ⊆ [2, 0, 2] ∧ Covers (run [2, 0, 2]) (run [2]) ∧
    [0, 2] ⊆ [2, 0, 2] ∧ [2, 0, 2] ⊆ [0, 2] ∧ Agrees (run [2, 0, 2]) (run [0, 2]) ∧
    (run [2]).scan.problems.length = 1 ∧ (run [2, 0, 2]).scan.problems.length = 2 ∧
    (run [2]).scan.scanned = 1 ∧ (run [0, 2]).scan.scanned = 3 ∧ (run [0, 2]).scan.live = [1] := by
  refine ⟨by decide, (run_seeds workers .rta [2] [2, 0, 2] (by decide)).1, by decide, by decide,
    (run_seeds workers .rta [0, 2] [2, 0, 2] (by decide)).2 (by decide), ?_⟩
  decide +kernel

end CallGraphs.Analysis
