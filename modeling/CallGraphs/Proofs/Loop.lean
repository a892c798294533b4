import Mathlib.Logic.Relation
import CallGraphs.Proofs.Steps

/-! The analysis as a machine that takes one step at a time. While the queue holds a method, a step takes the
    first one off and looks at it. With an empty queue, rapid type analysis begins a round, unless the last
    round began with as many instantiated types as there are now; otherwise there is no step left. The
    machine ends exactly where `Analysis.run` does (`run_reaches`), so what every step preserves holds of the
    result (`run_induction`). -/

namespace CallGraphs

/-- Where the analysis stands: what has been found, how many rounds have begun, and how many types were
    instantiated when the last of them began. -/
structure Loop where
  scan : Scan
  rounds : Nat
  resolvedWith : Option Nat

namespace Loop

/-- The next step; there is none when the analysis has ended. -/
def step? (d : Dispatch) (x : Loop) : Option Loop :=
  match x.scan.queue with
  | m :: rest => some { x with scan := Scan.visit d { x.scan with queue := rest } m }
  | [] =>
    if d.algorithm = .rta ∧ x.resolvedWith ≠ some x.scan.live.length then
      some ⟨Scan.reopen d x.scan (x.rounds + 1), x.rounds + 1, some x.scan.live.length⟩
    else none

/-- The machine with the seeds on the queue and no round begun. -/
def start (d : Dispatch) (seeds : List MethodId) : Loop := ⟨Analysis.opening d seeds, 0, none⟩

/-- The relation of a state to the next one. -/
def Steps (d : Dispatch) (x y : Loop) : Prop := step? d x = some y

/-- What the analysis returns when the machine ends. -/
def result (x : Loop) : Analysis := ⟨x.scan.note (Analysis.closing x.scan), x.rounds⟩

/-! ### What a step can be -/

theorem step?_cons {d : Dispatch} {x : Loop} {m : MethodId} {rest : List MethodId}
    (h : x.scan.queue = m :: rest) :
    step? d x = some { x with scan := Scan.visit d { x.scan with queue := rest } m } := by
  simp [step?, h]

theorem step?_round {d : Dispatch} {x : Loop} (h : x.scan.queue = []) (ha : d.algorithm = .rta)
    (hr : x.resolvedWith ≠ some x.scan.live.length) :
    step? d x = some ⟨Scan.reopen d x.scan (x.rounds + 1), x.rounds + 1, some x.scan.live.length⟩ := by
  simp [step?, h, ha, hr]

/-- A step looks at the first method on the queue or begins a round. -/
theorem step?_cases {d : Dispatch} {x y : Loop} (h : step? d x = some y) :
    (∃ m rest, x.scan.queue = m :: rest ∧
      y = { x with scan := Scan.visit d { x.scan with queue := rest } m }) ∨
    (x.scan.queue = [] ∧ d.algorithm = .rta ∧ x.resolvedWith ≠ some x.scan.live.length ∧
      y = ⟨Scan.reopen d x.scan (x.rounds + 1), x.rounds + 1, some x.scan.live.length⟩) := by
  cases hq : x.scan.queue with
  | cons m rest => exact .inl ⟨m, rest, rfl, by simpa [step?_cons hq] using h.symm⟩
  | nil =>
    by_cases hgo : d.algorithm = .rta ∧ x.resolvedWith ≠ some x.scan.live.length
    · exact .inr ⟨rfl, hgo.1, hgo.2, by simpa [step?_round hq hgo.1 hgo.2] using h.symm⟩
    · simp only [step?, hq, if_neg hgo, reduceCtorEq] at h

/-- The machine ends with an empty queue and, in rapid type analysis, when no type has been instantiated
    since the last round began. -/
theorem step?_eq_none {d : Dispatch} {x : Loop} :
    step? d x = none ↔ x.scan.queue = [] ∧
      (d.algorithm = .rta → x.resolvedWith = some x.scan.live.length) := by
  cases hq : x.scan.queue with
  | cons m rest => simp [step?_cons hq]
  | nil => simp [step?, hq]

end Loop

namespace Scan

theorem drain_queue (d : Dispatch) (s : Scan) : (drain d s).queue = [] := by
  fun_induction drain d s with
  | case1 s h => rfl
  | case2 s m rest h ih => exact ih

/-- Looking at the first method on the queue leaves fewer methods to look at, or as many and a shorter queue:
    a method without a body, or one that has been looked at, goes off the queue and nothing else happens. -/
theorem visit_lex (d : Dispatch) (s : Scan) (m : MethodId) (rest : List MethodId) (h : s.queue = m :: rest) :
    (visit d { s with queue := rest } m).unmarked < s.unmarked ∨
      (visit d { s with queue := rest } m).unmarked = s.unmarked ∧
        (visit d { s with queue := rest } m).queue.length < s.queue.length := by
  cases hm : canVisit d.program { s with queue := rest } m with
  | true => exact .inl (unmarked_visit_lt d { s with queue := rest } m hm)
  | false =>
    rw [visit_of_not_canVisit hm]
    exact .inr ⟨rfl, by simp [h]⟩

end Scan

namespace Loop

/-! ### The machine computes the analysis -/

theorem drain_reaches (d : Dispatch) (k : Nat) (r : Option Nat) (s : Scan) :
    Relation.ReflTransGen (Steps d) ⟨s, k, r⟩ ⟨Scan.drain d s, k, r⟩ := by
  cases hq : s.queue with
  | nil => rw [Scan.drain_nil d s hq]
  | cons m rest =>
    rw [Scan.drain_cons d s m rest hq]
    exact .head (step?_cons hq) (drain_reaches d k r _)
termination_by (s.unmarked, s.queue.length)
decreasing_by
  rcases Scan.visit_lex d s m rest hq with hlt | ⟨heq, hlt⟩
  · exact .left _ _ hlt
  · rw [heq]
    exact .right _ hlt

theorem refine_reaches {d : Dispatch} (ha : d.algorithm = .rta) (s : Scan) (k : Nat) (r : Option Nat)
    (hq : s.queue = []) (hr : r ≠ some s.live.length) :
    Relation.ReflTransGen (Steps d) ⟨s, k, r⟩
      ⟨(Scan.refine d s k).1, (Scan.refine d s k).2, some (Scan.refine d s k).1.live.length⟩ := by
  have hround : ∀ (s : Scan) (k : Nat) (r : Option Nat), s.queue = [] → r ≠ some s.live.length →
      Relation.ReflTransGen (Steps d) ⟨s, k, r⟩ ⟨Scan.round d s (k + 1), k + 1, some s.live.length⟩ :=
    fun s k r hq hr => .head (step?_round hq ha hr) (drain_reaches d (k + 1) _ _)
  fun_induction Scan.refine d s k generalizing r with
  | case1 s k next heq =>
    rw [heq]
    exact hround s k r hq hr
  | case2 s k next hne ih =>
    refine (hround s k r hq hr).trans (ih _ (Scan.drain_queue d _) ?_)
    simpa using Ne.symm hne

theorem refine_queue {d : Dispatch} (s : Scan) (k : Nat) : (Scan.refine d s k).1.queue = [] := by
  fun_induction Scan.refine d s k with
  | case1 s k next heq => exact Scan.drain_queue d _
  | case2 s k next hne ih => exact ih

/-- Step by step the machine comes to an end, and there it holds the result of the analysis. -/
theorem run_reaches (d : Dispatch) (seeds : List MethodId) :
    ∃ x, Relation.ReflTransGen (Steps d) (start d seeds) x ∧ step? d x = none ∧
      Analysis.run d seeds = x.result := by
  cases ha : d.algorithm with
  | cha =>
    refine ⟨_, drain_reaches d 0 none (Analysis.opening d seeds), ?_, ?_⟩
    · exact step?_eq_none.mpr ⟨Scan.drain_queue d _, by simp [ha]⟩
    · simp [Analysis.run, ha, result]
  | rta =>
    have hdrain := drain_reaches d 0 none (Analysis.opening d seeds)
    have hrefine := refine_reaches ha _ 0 none (Scan.drain_queue d (Analysis.opening d seeds)) (by simp)
    refine ⟨_, hdrain.trans hrefine, ?_, ?_⟩
    · exact step?_eq_none.mpr ⟨refine_queue _ _, fun _ => rfl⟩
    · simp [Analysis.run, ha, result]

/-- What holds at the start and is preserved by every step holds at the end. -/
theorem run_induction {d : Dispatch} {seeds : List MethodId} {P : Loop → Prop} (hstart : P (start d seeds))
    (hstep : ∀ x y, P x → step? d x = some y → P y) :
    ∃ x, P x ∧ step? d x = none ∧ Analysis.run d seeds = x.result := by
  obtain ⟨x, hreach, hend, hrun⟩ := run_reaches d seeds
  refine ⟨x, ?_, hend, hrun⟩
  clear hend hrun
  induction hreach with
  | refl => exact hstart
  | tail _ hxy ih => exact hstep _ _ ih hxy

end Loop

end CallGraphs
