import Mathlib.Data.Prod.Lex
import Mathlib.Order.WellFounded
import CallGraphs.Proofs.Loop

/-! Why the analysis ends, and after how many rounds. Four numbers are compared one after the other: the types
    not instantiated yet, whether a round is still due, the methods not looked at yet, and the length of the
    queue. Every step of the machine makes the first of them that changes smaller, from any state whatever,
    so no run is endless. A round after the first needs a type that was instantiated during the one before,
    which bounds the number of rounds by the number of instantiated types. -/

namespace CallGraphs

namespace Scan

theorem LiveGrows.eq_of_length {p : Program} {s s' : Scan} (h : LiveGrows p s s')
    (hlen : s'.live.length = s.live.length) : s'.live = s.live := by
  obtain ⟨more, heq, -⟩ := h
  have hmore : more = [] := by
    rw [heq, List.length_append] at hlen
    exact List.eq_nil_of_length_eq_zero (by omega)
  rw [heq, hmore, List.append_nil]

theorem LiveGrows.length_le {p : Program} {s s' : Scan} (h : LiveGrows p s s') :
    s.live.length ≤ s'.live.length := by
  obtain ⟨more, heq, -⟩ := h
  simp [heq]

theorem reopen_live (d : Dispatch) (s : Scan) (k : Nat) : (reopen d s k).live = s.live := by
  rw [reopen, resolveSites_live]; rfl

/-! ### Instantiated types are listed once -/

/-- The instantiated types are types of the program, each listed once. -/
def LiveDistinct (p : Program) (s : Scan) : Prop := s.live.Nodup ∧ ∀ t ∈ s.live, t < p.types.size

theorem LiveDistinct.of_eq {p : Program} {s s' : Scan} (h : LiveDistinct p s) (heq : s'.live = s.live) :
    LiveDistinct p s' := by
  rw [LiveDistinct, heq]; exact h

theorem construct_distinct {p : Program} {s : Scan} (t : TypeId) (h : LiveDistinct p s) :
    LiveDistinct p (construct p s t) := by
  unfold construct
  split
  · exact h
  · rename_i ty hty
    split
    · exact h
    · rename_i hnew
      have hlive : ((s.instantiate t).note (.trace s!"  instantiated: {ty.fullName}")).live =
          s.live ++ [t] := by
        simp [instantiate, LiveTypes.add_of_not_mem hnew, note]
      rw [LiveDistinct, hlive]
      refine ⟨?_, ?_⟩
      · rw [← List.concat_eq_append]
        exact h.1.concat hnew
      · intro u hu
        rcases List.mem_append.mp hu with hold | hu
        · exact h.2 u hold
        · rw [List.mem_singleton.mp hu]
          exact (Array.getElem?_eq_some_iff.mp hty).1

theorem apply_distinct {d : Dispatch} {m : MethodId} {s : Scan} (e : Effect)
    (h : LiveDistinct d.program s) : LiveDistinct d.program (apply d m s e) := by
  cases e with
  | note n => exact h
  | problem kind reference => exact h
  | construct t => exact construct_distinct t h
  | call c => exact h.of_eq (addCall_live m s c)
  | dispatch t => exact h.of_eq (by rw [apply, resolveSite_live, addSite_live])

theorem visit_distinct {d : Dispatch} {s : Scan} (m : MethodId) (h : LiveDistinct d.program s) :
    LiveDistinct d.program (visit d s m) := by
  cases hcan : s.canVisit d.program m with
  | false => rw [visit_of_not_canVisit hcan]; exact h
  | true => exact visit_induction hcan (h.of_eq rfl) fun s e _ hs => apply_distinct e hs

theorem LiveDistinct.length_le {p : Program} {s : Scan} (h : LiveDistinct p s) :
    s.live.length ≤ p.types.size := by
  have hsub : s.live ⊆ List.range p.types.size := fun t ht => List.mem_range.mpr (h.2 t ht)
  simpa using h.1.length_le_of_subset hsub

end Scan

namespace Loop

/-! ### Every step goes down -/

/-- The four numbers that a step is measured by, the first one counting most. -/
def rank (d : Dispatch) (x : Loop) : ℕ ×ₗ ℕ ×ₗ ℕ ×ₗ ℕ :=
  toLex (Scan.idle d.program x.scan,
    toLex (if x.resolvedWith = some x.scan.live.length then 0 else 1,
      toLex (x.scan.unmarked, x.scan.queue.length)))

theorem rank_lt_of_step {d : Dispatch} {x y : Loop} (h : step? d x = some y) : rank d y < rank d x := by
  rcases step?_cases h with ⟨m, rest, hq, rfl⟩ | ⟨-, -, hdue, rfl⟩
  · -- a visit: types are only added, and without a new type there is less to look at or to take off
    have hgrows : Scan.LiveGrows d.program x.scan (Scan.visit d { x.scan with queue := rest } m) :=
      Scan.visit_live d { x.scan with queue := rest } m
    by_cases hlen : (Scan.visit d { x.scan with queue := rest } m).live.length = x.scan.live.length
    · have hlive := hgrows.eq_of_length hlen
      simp only [rank, Scan.idle, hlive, Prod.Lex.toLex_lt_toLex, lt_self_iff_false, true_and, false_or]
      exact Scan.visit_lex d x.scan m rest hq
    · exact Prod.Lex.toLex_lt_toLex.mpr (.inl (Scan.idle_lt hgrows hlen))
  · -- a round begins: the same types are instantiated, and no round is due until there is a new one
    simp only [rank, Scan.idle, Scan.reopen_live, Prod.Lex.toLex_lt_toLex, lt_self_iff_false, true_and,
      false_or, if_neg hdue]
    simp

/-- There is no endless run, from any state. -/
theorem steps_wellFounded (d : Dispatch) : WellFounded fun y x => step? d x = some y :=
  Subrelation.wf (fun h => rank_lt_of_step h) (InvImage.wf (rank d) wellFounded_lt)

/-! ### The number of rounds -/

/-- Rounds have begun only in rapid type analysis, and each after the first with more instantiated types than
    the one before. -/
def RoundsBounded (d : Dispatch) (x : Loop) : Prop :=
  match x.resolvedWith with
  | none => x.rounds = 0
  | some n => d.algorithm = .rta ∧ 1 ≤ x.rounds ∧ x.rounds ≤ n + 1 ∧ n ≤ x.scan.live.length

theorem roundsBounded_step {d : Dispatch} {x y : Loop} (hx : RoundsBounded d x) (h : step? d x = some y) :
    RoundsBounded d y := by
  rcases step?_cases h with ⟨m, rest, -, rfl⟩ | ⟨-, ha, hdue, rfl⟩
  · have hgrows : x.scan.live.length ≤ (Scan.visit d { x.scan with queue := rest } m).live.length :=
      (Scan.visit_live d { x.scan with queue := rest } m).length_le
    unfold RoundsBounded at hx ⊢
    dsimp only
    split at hx
    · exact hx
    · exact ⟨hx.1, hx.2.1, hx.2.2.1, hx.2.2.2.trans hgrows⟩
  · unfold RoundsBounded at hx
    have hle : x.rounds ≤ x.scan.live.length := by
      split at hx
      · omega
      · rename_i n hn
        have hne : n ≠ x.scan.live.length := fun heq => hdue (by rw [hn, heq])
        omega
    exact ⟨ha, Nat.le_add_left 1 _, Nat.succ_le_succ hle, by rw [Scan.reopen_live]⟩

theorem liveDistinct_step {d : Dispatch} {x y : Loop} (hx : Scan.LiveDistinct d.program x.scan)
    (h : step? d x = some y) : Scan.LiveDistinct d.program y.scan := by
  rcases step?_cases h with ⟨m, rest, -, rfl⟩ | ⟨-, -, -, rfl⟩
  · exact Scan.visit_distinct m (hx.of_eq rfl)
  · exact hx.of_eq (Scan.reopen_live d x.scan _)

/-- The analysis ends, for every program, algorithm and list of seeds. Its loop has no endless run from any
    state; emptying the queue takes finitely many steps whatever is put on it meanwhile; and from the seeds the
    loop comes to the result that is returned. Class hierarchy analysis has no rounds. Rapid type analysis has
    at least one and at most one more than there are instantiated types, of which there are no more than types
    in the program. -/
theorem run_terminates (p : Program) (a : Algorithm) (seeds : List MethodId) :
    let d := Dispatch.ofProgram p a
    WellFounded (fun y x => step? d x = some y) ∧
    (∀ (s : Scan) (k : Nat) (r : Option Nat), (Scan.drain d s).queue = [] ∧
      Relation.ReflTransGen (Steps d) ⟨s, k, r⟩ ⟨Scan.drain d s, k, r⟩) ∧
    (∃ x, Relation.ReflTransGen (Steps d) (start d seeds) x ∧ step? d x = none ∧
      Analysis.run d seeds = x.result) ∧
    (a = .cha → (Analysis.run d seeds).rounds = 0) ∧
    (a = .rta → 1 ≤ (Analysis.run d seeds).rounds ∧
      (Analysis.run d seeds).rounds ≤ (Analysis.run d seeds).scan.live.length + 1 ∧
      (Analysis.run d seeds).rounds ≤ p.types.size + 1) := by
  intro d
  have hstart : RoundsBounded d (start d seeds) ∧ Scan.LiveDistinct d.program (start d seeds).scan :=
    ⟨rfl, List.nodup_nil, by simp [start, Analysis.opening, Scan.start, Scan.note]⟩
  obtain ⟨x, ⟨hrounds, hlive⟩, hend, hrun⟩ := run_induction hstart
    (P := fun x => RoundsBounded d x ∧ Scan.LiveDistinct d.program x.scan)
    fun x y hx h => ⟨roundsBounded_step hx.1 h, liveDistinct_step hx.2 h⟩
  refine ⟨steps_wellFounded d, fun s k r => ⟨Scan.drain_queue d s, drain_reaches d k r s⟩,
    run_reaches d seeds, ?_, ?_⟩
  · intro ha
    rw [hrun]
    unfold RoundsBounded at hrounds
    split at hrounds
    · exact hrounds
    · exact absurd (ha.symm.trans hrounds.1) (by decide)
  · intro ha
    have hdone : x.resolvedWith = some x.scan.live.length := (step?_eq_none.mp hend).2 ha
    unfold RoundsBounded at hrounds
    rw [hdone] at hrounds
    obtain ⟨-, hpos, hle, -⟩ := hrounds
    have hsize : x.scan.live.length ≤ p.types.size := hlive.length_le
    rw [hrun]
    exact ⟨hpos, hle, by simp only [result]; omega⟩

end Loop

end CallGraphs
