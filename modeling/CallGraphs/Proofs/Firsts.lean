import Mathlib.Data.List.Induction
import Mathlib.Data.List.Nodup

/-! First occurrences. `List.eraseDups` keeps every element of a list where it occurs first, so an element that
    has occurred adds nothing, and one that has not goes to the end. -/

namespace CallGraphs.Firsts

variable {α : Type} [BEq α] [LawfulBEq α]

/-- An element that has occurred can be left out. -/
theorem eraseDups_append_cons {x : α} {l : List α} (h : x ∈ l) (l' : List α) :
    (l ++ x :: l').eraseDups = (l ++ l').eraseDups := by
  have hdrop : (x :: l').removeAll l = l'.removeAll l := by
    simp [List.removeAll, h]
  rw [List.eraseDups_append, List.eraseDups_append, hdrop]

theorem eraseDups_concat_of_mem {x : α} {l : List α} (h : x ∈ l) : (l ++ [x]).eraseDups = l.eraseDups := by
  rw [eraseDups_append_cons h, List.append_nil]

/-- An element that has not occurred goes to the end. -/
theorem eraseDups_concat_of_not_mem {x : α} {l : List α} (h : x ∉ l) :
    (l ++ [x]).eraseDups = l.eraseDups ++ [x] := by
  have hkeep : [x].removeAll l = [x] := by
    simp [List.removeAll, h]
  rw [List.eraseDups_append, hkeep]
  rfl

/-- A list without repetitions is made of first occurrences. -/
theorem eraseDups_of_nodup : ∀ {l : List α}, l.Nodup → l.eraseDups = l
  | [], _ => rfl
  | x :: l, h => by
      obtain ⟨hx, hl⟩ := List.nodup_cons.mp h
      have hkeep : l.filter (fun y => !y == x) = l := by
        rw [List.filter_eq_self]
        rintro y hy
        have hne : y ≠ x := fun heq => hx (heq ▸ hy)
        simp [hne]
      rw [List.eraseDups_cons, hkeep, eraseDups_of_nodup hl]

/-- First occurrences are distinct. -/
theorem nodup_eraseDups : ∀ l : List α, l.eraseDups.Nodup
  | [] => List.nodup_nil
  | x :: l => by
      rw [List.eraseDups_cons, List.nodup_cons, List.mem_eraseDups]
      exact ⟨by simp, nodup_eraseDups (l.filter fun y => !y == x)⟩
termination_by l => l.length
decreasing_by exact Nat.lt_succ_of_le (List.length_filter_le _ l)

/-- What lists with the same first occurrences share: the same elements occur in them. -/
theorem mem_iff_of_eraseDups_eq {l l' : List α} (h : l.eraseDups = l'.eraseDups) (x : α) : x ∈ l ↔ x ∈ l' := by
  rw [← List.mem_eraseDups, h, List.mem_eraseDups]

/-- The same element can follow on lists with the same first occurrences. -/
theorem eraseDups_concat_congr {l l' : List α} (h : l.eraseDups = l'.eraseDups) (x : α) :
    (l ++ [x]).eraseDups = (l' ++ [x]).eraseDups := by
  by_cases hx : x ∈ l
  · have hx' := (mem_iff_of_eraseDups_eq h x).mp hx
    rw [eraseDups_concat_of_mem hx, eraseDups_concat_of_mem hx', h]
  · have hx' := fun hmem => hx ((mem_iff_of_eraseDups_eq h x).mpr hmem)
    rw [eraseDups_concat_of_not_mem hx, eraseDups_concat_of_not_mem hx', h]

end CallGraphs.Firsts
