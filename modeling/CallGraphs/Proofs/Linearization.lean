import CallGraphs.Hierarchy.Basic
import CallGraphs.Proofs.Descent

/-! The line of types that a walk makes. The walk keeps its marks on one stack, and what matters is what the stack still
    brings: the line so far and what is brought by the pending marks, one after the other, are the whole line at every
    moment (`Tracked.splits`). So the place of a leaving mark in the line is known from the stack alone before the walk
    comes to it, and it is the place where everything below the type has been put into the line (`Opened`). When the
    walk is done, the range of a type holds the type and what is below it, and a type that the walk has not come to has
    an empty range (`stretch_eq`). So a hierarchy has all types in one line (`line_eq_lineage`), and lists as subtypes
    of a type what is below it (`subtypesOf_eq_descent`). -/

namespace CallGraphs

/-! ### The stack and the ranges -/

namespace Walk

variable (below : TypeId → List TypeId) (whole : List TypeId)

/-- What a mark brings into the line, given what is below each type. -/
def brings : Mark → List TypeId
  | .enter t => t :: below t
  | .leave _ => []

/-- What the pending marks bring. -/
def coming (pending : List Mark) : List TypeId := pending.flatMap (brings below)

/-- The line has the type at the place `i`, and what is below it follows. -/
def StandsAt (t : TypeId) (i : Nat) : Prop := t :: below t <+: whole.drop i

/-- The type of each leaving mark stands at the beginning of its range, and the mark comes up when the line has grown
    just beyond what is below the type. The line has the length `length` when the first mark comes up. -/
def Opened (ranges : Array (Nat × Nat)) : Nat → List Mark → Prop
  | _, [] => True
  | length, .enter t :: rest => Opened ranges (length + (t :: below t).length) rest
  | length, .leave t :: rest =>
    (∃ i, ranges[t]?.map Prod.fst = some i ∧ i + (t :: below t).length = length ∧ StandsAt below whole t i) ∧
      Opened ranges length rest

/-- The range of a type that the walk has left. -/
def Closed (ranges : Array (Nat × Nat)) (t : TypeId) : Prop :=
  ∃ i, ranges[t]? = some (i, i + (t :: below t).length) ∧ StandsAt below whole t i

/-- A walk over `n` types on its way to the whole line; `later` is what the walks from other types bring. -/
structure Tracked (n : Nat) (later : List TypeId) (w : Walk) : Prop where
  seenSize : w.seen.size = n
  rangesSize : w.ranges.size = n
  splits : w.line.toList ++ (coming below w.pending ++ later) = whole
  seen : ∀ t, w.seen[t]? = some true ↔ t ∈ w.line.toList
  leaving : ∀ t, .leave t ∈ w.pending → t ∈ w.line.toList
  opened : Opened below whole w.ranges w.line.size w.pending
  closed : ∀ t ∈ w.line.toList, .leave t ∉ w.pending → Closed below whole w.ranges t
  untouched : ∀ t < n, t ∉ w.line.toList → w.ranges[t]? = some (0, 0)

variable {below whole}

theorem opened_enters {ranges : Array (Nat × Nat)} {rest : List Mark} : ∀ {ts : List TypeId} {length : Nat},
    Opened below whole ranges length (ts.map .enter ++ rest) ↔
      Opened below whole ranges (length + (ts.flatMap fun t => t :: below t).length) rest
  | [], _ => Iff.rfl
  | t :: ts, length => by
      rw [List.map_cons, List.cons_append, Opened, opened_enters, List.flatMap_cons, List.length_append, Nat.add_assoc]

/-- Only the beginnings of the ranges of leaving marks matter. -/
theorem Opened.congr {ranges ranges' : Array (Nat × Nat)} : ∀ {pending : List Mark} {length : Nat},
    (∀ t, .leave t ∈ pending → ranges'[t]?.map Prod.fst = ranges[t]?.map Prod.fst) →
    Opened below whole ranges length pending → Opened below whole ranges' length pending
  | [], _, _, _ => trivial
  | .enter _ :: rest, _, hsame, h => by
      rw [Opened] at h ⊢
      exact Opened.congr (fun u hu => hsame u (List.mem_cons_of_mem _ hu)) h
  | .leave t :: _, _, hsame, h => by
      obtain ⟨⟨i, hi, hlength, hstands⟩, hrest⟩ := h
      refine ⟨⟨i, (hsame t List.mem_cons_self).trans hi, hlength, hstands⟩, ?_⟩
      exact Opened.congr (fun u hu => hsame u (List.mem_cons_of_mem _ hu)) hrest

theorem Closed.congr {ranges ranges' : Array (Nat × Nat)} {t : TypeId} (hsame : ranges'[t]? = ranges[t]?)
    (h : Closed below whole ranges t) : Closed below whole ranges' t := by
  rwa [Closed, hsame]

theorem coming_enters (ts : List TypeId) (rest : List Mark) :
    coming below (ts.map .enter ++ rest) = (ts.flatMap fun t => t :: below t) ++ coming below rest := by
  rw [coming, List.flatMap_append, List.flatMap_map]
  rfl

/-! ### One step -/

namespace Tracked

variable {derived : Array (List TypeId)} {n : Nat} {later : List TypeId} {w : Walk} {t : TypeId} {rest : List Mark}

theorem coming_eq (h : w.pending = .enter t :: rest) : coming below w.pending = t :: below t ++ coming below rest := by
  rw [h, coming, List.flatMap_cons]
  rfl

/-- A type that is entered is new, because it stands in the whole line once only. -/
theorem isNew (hw : Tracked below whole n later w) (hnodup : whole.Nodup) (h : w.pending = .enter t :: rest) :
    t ∈ whole ∧ t ∉ w.line.toList := by
  have hmem : t ∈ coming below w.pending ++ later := by
    rw [coming_eq h]
    simp
  have happart := hw.splits ▸ hnodup
  exact ⟨hw.splits ▸ List.mem_append_right _ hmem, fun hold => List.disjoint_of_nodup_append happart hold hmem⟩

/-- The other ranges stay as they are. -/
theorem getElem?_ranges {f : Nat × Nat → Nat × Nat} {u : TypeId} (hne : u ≠ t) :
    (w.ranges.modify t f)[u]? = w.ranges[u]? := by
  rw [Array.getElem?_modify, if_neg (Ne.symm hne)]

/-- The range of the type that is entered begins here, and its leaving mark comes up behind what is below it. -/
theorem opened_enter (hw : Tracked below whole n later w) (hnodup : whole.Nodup) (ht : t < n)
    (hbelow : below t = (row derived t).flatMap fun u => u :: below u) (h : w.pending = .enter t :: rest) :
    Opened below whole (w.ranges.modify t fun r => (w.line.size, r.2)) (w.line.size + 1)
      ((row derived t).map .enter ++ .leave t :: rest) := by
  have hlength : w.line.size + 1 + (below t).length = w.line.size + (t :: below t).length := by
    rw [List.length_cons]
    omega
  have hopened := hw.opened
  rw [h] at hopened
  rw [opened_enters, ← hbelow, hlength]
  refine ⟨⟨w.line.size, ?_, rfl, ?_⟩, Opened.congr (fun u hu => ?_) hopened⟩
  · rw [Array.getElem?_modify, if_pos rfl, Array.getElem?_eq_getElem (hw.rangesSize ▸ ht)]
    rfl
  · rw [StandsAt, ← hw.splits, coming_eq h, ← Array.length_toList, List.drop_left, List.append_assoc]
    exact List.prefix_append _ _
  · have hold := hw.leaving u (h ▸ List.mem_cons_of_mem _ hu)
    have hne : u ≠ t := fun heq => (hw.isNew hnodup h).2 (heq ▸ hold)
    rw [getElem?_ranges hne]

/-- To enter a type is to put it into the line and to go on with its derived types. -/
theorem enter (hw : Tracked below whole n later w) (hnodup : whole.Nodup) (hbound : ∀ t ∈ whole, t < n)
    (hbelow : ∀ t ∈ whole, below t = (row derived t).flatMap fun u => u :: below u)
    (h : w.pending = .enter t :: rest) : Tracked below whole n later (w.step derived rest (.enter t)) := by
  obtain ⟨hmem, hnew⟩ := hw.isNew hnodup h
  have ht : t < w.seen.size := hw.seenSize ▸ hbound t hmem
  have hseen : w.seen[t]? = some false := (unmarked_iff ht).mpr (mt (hw.seen t).mp hnew)
  have hline : ∀ u, u ∈ (w.line.push t).toList ↔ u ∈ w.line.toList ∨ u = t := fun u => by
    rw [Array.toList_push, List.mem_append, List.mem_singleton]
  -- the marks in front are entering marks, so those that leave are the new one and the old ones
  have hleave : ∀ u, .leave u ∈ (row derived t).map .enter ++ .leave t :: rest ↔ u = t ∨ .leave u ∈ w.pending := by
    intro u
    simp [h]
  rw [step, if_pos (beq_iff_eq.mpr hseen)]
  refine ⟨?_, ?_, ?_, fun u => ?_, fun u hu => ?_, ?_, fun u hu hleft => ?_, fun u hlt hu => ?_⟩
  · rw [Array.size_setIfInBounds, hw.seenSize]
  · rw [Array.size_modify, hw.rangesSize]
  · show (w.line.push t).toList ++ (coming below ((row derived t).map .enter ++ .leave t :: rest) ++ later) = whole
    rw [coming_enters, ← hbelow t hmem, Array.toList_push]
    refine Eq.trans ?_ hw.splits
    rw [coming_eq h]
    simp [coming, brings]
  · exact (mark_iff ht).trans ((or_congr_left (hw.seen u)).trans (hline u).symm)
  · exact (hline u).mpr (((hleave u).mp hu).symm.imp_left (hw.leaving u))
  · rw [Array.size_push]
    exact hw.opened_enter hnodup (hbound t hmem) (hbelow t hmem) h
  · obtain ⟨hne, hleft⟩ := not_or.mp (mt (hleave u).mpr hleft)
    exact (hw.closed u (((hline u).mp hu).resolve_right hne) hleft).congr (getElem?_ranges hne)
  · obtain ⟨hold, hne⟩ := not_or.mp (mt (hline u).mpr hu)
    exact (getElem?_ranges hne).trans (hw.untouched u hlt hold)

/-- To leave a type is to end its range. -/
theorem leave (hw : Tracked below whole n later w) (h : w.pending = .leave t :: rest) :
    Tracked below whole n later (w.step derived rest (.leave t)) := by
  have htype : t ∈ w.line.toList := hw.leaving t (h ▸ List.mem_cons_self)
  have hopened := hw.opened
  rw [h] at hopened
  obtain ⟨⟨i, hi, hlength, hstands⟩, hopened⟩ := hopened
  have hfirst : ∀ u : TypeId,
      (w.ranges.modify t fun r => (r.1, w.line.size))[u]?.map Prod.fst = w.ranges[u]?.map Prod.fst := by
    intro u
    rw [Array.getElem?_modify]
    split
    · rw [Option.map_map]
      rfl
    · rfl
  refine ⟨hw.seenSize, ?_, ?_, hw.seen, fun u hu => hw.leaving u (h ▸ List.mem_cons_of_mem _ hu),
    hopened.congr fun u _ => hfirst u, fun u hu hleft => ?_, fun u hlt hu => ?_⟩
  · rw [step, Array.size_modify, hw.rangesSize]
  · have hwhole := hw.splits
    rw [h] at hwhole
    exact hwhole
  · by_cases hne : u = t
    · subst hne
      obtain ⟨r, hr, hri⟩ := Option.map_eq_some_iff.mp hi
      refine ⟨i, ?_, hstands⟩
      rw [step, Array.getElem?_modify, if_pos rfl, hr, Option.map_some, hri, hlength]
    · have hleft' : .leave u ∉ w.pending := by
        rw [h]
        intro hin
        rcases List.mem_cons.mp hin with heq | hin
        · exact hne (Mark.leave.inj heq)
        · exact hleft hin
      exact (hw.closed u hu hleft').congr (getElem?_ranges hne)
  · have hne : u ≠ t := fun heq => hu (heq ▸ htype)
    exact (getElem?_ranges hne).trans (hw.untouched u hlt hu)

end Tracked

/-! ### The whole walk -/

/-- What every step keeps holds when no mark is left. -/
theorem run_induction {derived : Array (List TypeId)} {P : Walk → Prop}
    (hstep : ∀ w m rest, w.pending = m :: rest → P w → P (w.step derived rest m)) (w : Walk) (h : P w) :
    P (w.run derived) ∧ (w.run derived).pending = [] := by
  fun_induction run derived w with
  | case1 w hnil => exact ⟨h, hnil⟩
  | case2 w m rest hcons ih => exact ih (hstep w m rest hcons h)

variable {derived : Array (List TypeId)} {n : Nat}

theorem Tracked.descend {later : List TypeId} {w : Walk} {root : TypeId} (hnodup : whole.Nodup)
    (hbound : ∀ t ∈ whole, t < n) (hbelow : ∀ t ∈ whole, below t = (row derived t).flatMap fun u => u :: below u)
    (hw : Tracked below whole n (root :: below root ++ later) w) (hdone : w.pending = []) :
    Tracked below whole n later (w.descend derived root) ∧ (w.descend derived root).pending = [] := by
  refine run_induction (fun w m rest h hw => ?_) _ ?_
  · cases m with
    | enter t => exact hw.enter hnodup hbound hbelow h
    | leave t => exact hw.leave h
  · have hclosed : ∀ t ∈ w.line.toList, Closed below whole w.ranges t := fun t ht =>
      hw.closed t ht (by rw [hdone]; exact List.not_mem_nil)
    have hwhole := hw.splits
    rw [hdone] at hwhole ⊢
    exact ⟨hw.seenSize, hw.rangesSize, by simpa [coming, brings] using hwhole, hw.seen, by simp, trivial,
      fun t ht _ => hclosed t ht, hw.untouched⟩

theorem tracked_foldl_descend (hnodup : whole.Nodup) (hbound : ∀ t ∈ whole, t < n)
    (hbelow : ∀ t ∈ whole, below t = (row derived t).flatMap fun u => u :: below u) :
    ∀ (roots : List TypeId) {w : Walk}, Tracked below whole n (roots.flatMap fun t => t :: below t) w →
      w.pending = [] → Tracked below whole n [] (roots.foldl (descend derived) w) ∧
        (roots.foldl (descend derived) w).pending = []
  | [], _, hw, hdone => ⟨hw, hdone⟩
  | root :: roots, w, hw, hdone => by
      rw [List.flatMap_cons] at hw
      obtain ⟨hw', hdone'⟩ := hw.descend hnodup hbound hbelow hdone
      exact tracked_foldl_descend hnodup hbound hbelow roots hw' hdone'

theorem tracked_start (n : Nat) : Tracked below whole n whole (start n) := by
  refine ⟨Array.size_replicate, Array.size_replicate, by simp [start, coming], fun t => ?_, by simp [start], trivial,
    by simp [start], fun t ht _ => ?_⟩
  · rw [start, Array.getElem?_replicate]
    split <;> simp
  · rw [start, Array.getElem?_replicate, if_pos ht]

/-- After the walk, the stretch of the line that belongs to a type is what is below it. -/
theorem Tracked.stretch_eq {w : Walk} {t : TypeId} (hw : Tracked below whole n [] w) (hdone : w.pending = []) :
    w.line.toList = whole ∧ stretch w.ranges w.line t = if t ∈ whole then below t else [] := by
  have hline : w.line.toList = whole := by
    have hwhole := hw.splits
    rwa [hdone, coming, List.flatMap_nil, List.append_nil, List.append_nil] at hwhole
  refine ⟨hline, ?_⟩
  rw [stretch]
  by_cases ht : t ∈ whole
  · obtain ⟨i, hi, hstands⟩ := hw.closed t (hline ▸ ht) (by rw [hdone]; exact List.not_mem_nil)
    obtain ⟨after, hafter⟩ := hstands
    have hnext : whole.drop (i + 1) = below t ++ after := by
      rw [← List.drop_drop, ← hafter]
      rfl
    rw [hi, if_pos ht]
    dsimp only
    rw [if_neg (by rw [List.length_cons]; omega), Array.toList_extract, hline, List.extract_eq_take_drop, hnext,
      List.length_cons, show i + ((below t).length + 1) - (i + 1) = (below t).length by omega, List.take_left]
  · rw [if_neg ht]
    rcases Nat.lt_or_ge t n with hlt | hge
    · rw [hw.untouched t hlt (hline ▸ ht)]
      rfl
    · rw [Array.getElem?_eq_none (hw.rangesSize ▸ hge)]

end Walk

/-! ### Base types and derived types -/

namespace TypeGraph

variable {p : Program} {g : TypeGraph} {s t u : TypeId}

theorem linkOf?_eq_some : linkOf? p s = some t ↔ p.baseOf s = some t ∧ t < p.types.size := by
  rw [linkOf?, Option.filter_eq_some_iff, decide_eq_true_iff]

theorem size_link (p : Program) (g : TypeGraph) (t : TypeId) :
    (link p g t).roots.size = g.roots.size ∧ (link p g t).derived.size = g.derived.size := by
  rw [link]
  split
  · exact ⟨rfl, rfl⟩
  · exact ⟨Array.size_setIfInBounds, size_pushRow _ _ _⟩

theorem row_link (hsize : g.derived.size = p.types.size) :
    row (link p g t).derived u = row g.derived u ++ [t].filter (linkOf? p · == some u) := by
  rw [link]
  split
  · rename_i hnone
    simp [hnone]
  · rename_i b hb
    have hlt := (linkOf?_eq_some.mp hb).2
    rw [row_pushRow, hsize]
    by_cases hu : b = u
    · subst hu
      simp [hb, hlt]
    · simp [hb, hu]

theorem roots_link : (link p g t).roots[u]? = some true ↔
    g.roots[u]? = some true ∧ (u = t → linkOf? p u = none) := by
  rw [link]
  split
  · rename_i hnone
    exact ⟨fun h => ⟨h, fun heq => heq ▸ hnone⟩, And.left⟩
  · rename_i b hb
    rw [Array.getElem?_setIfInBounds]
    by_cases hu : t = u
    · subst hu
      simp [hb]
    · simp [hu, Ne.symm hu]

theorem foldl_link : ∀ (ts : List TypeId) {g : TypeGraph}, g.derived.size = p.types.size →
    (ts.foldl (link p) g).roots.size = g.roots.size ∧
    (∀ u, row (ts.foldl (link p) g).derived u = row g.derived u ++ ts.filter (linkOf? p · == some u)) ∧
    ∀ u : TypeId, (ts.foldl (link p) g).roots[u]? = some true ↔
      g.roots[u]? = some true ∧ (u ∈ ts → linkOf? p u = none)
  | [], g, _ => by simp
  | t :: ts, g, hsize => by
      obtain ⟨hroots, hderived⟩ := size_link p g t
      obtain ⟨ihsize, ihrow, ihroots⟩ := foldl_link ts (hderived.trans hsize)
      refine ⟨ihsize.trans hroots, fun u => ?_, fun u => ?_⟩
      · rw [List.foldl_cons, ihrow, row_link hsize, List.append_assoc, ← List.filter_append]
        rfl
      · rw [List.foldl_cons, ihroots, roots_link, and_assoc, List.mem_cons, or_imp]

theorem ofProgram_spec (p : Program) : (ofProgram p).roots.size = p.types.size ∧
    (∀ t, row (ofProgram p).derived t = (List.range p.types.size).filter (linkOf? p · == some t)) ∧
    (ofProgram p).rootTypes = (List.range p.types.size).filter (linkOf? p · == none) := by
  obtain ⟨hsize, hrow, hroots⟩ := foldl_link (p := p) (List.range p.types.size)
    (g := { roots := Array.replicate p.types.size true, derived := Array.replicate p.types.size [] })
    Array.size_replicate
  replace hsize : (ofProgram p).roots.size = p.types.size := hsize.trans Array.size_replicate
  refine ⟨hsize, fun t => ?_, ?_⟩
  · exact (hrow t).trans (by rw [row_replicate, List.nil_append])
  · rw [rootTypes, hsize]
    refine List.filter_congr fun t ht => Bool.eq_iff_iff.mpr ?_
    rw [beq_iff_eq, beq_iff_eq]
    refine (hroots t).trans ?_
    rw [Array.getElem?_replicate, if_pos (List.mem_range.mp ht)]
    simp [ht]

end TypeGraph

/-! ### The walk over a program -/

namespace Program

variable {p : Program} {s t : TypeId}

/-- The program without the base types that are not among its types. -/
def clipped (p : Program) : Program :=
  { p with types := p.types.map fun ty => { ty with base := ty.base.filter (· < p.types.size) } }

theorem size_clipped (p : Program) : p.clipped.types.size = p.types.size := Array.size_map

theorem baseOf_clipped (p : Program) (t : TypeId) : p.clipped.baseOf t = TypeGraph.linkOf? p t := by
  rw [baseOf, clipped, Array.getElem?_map, TypeGraph.linkOf?, baseOf]
  cases p.types[t]? <;> rfl

theorem basesExist_clipped (p : Program) : p.clipped.BasesExist := by
  intro t b hb
  rw [baseOf_clipped] at hb
  rw [size_clipped]
  exact (TypeGraph.linkOf?_eq_some.mp hb).2

theorem BasesExist.clipped_eq (hp : p.BasesExist) : p.clipped = p := by
  have htypes : p.clipped.types = p.types := by
    refine Array.ext (size_clipped p) fun t ht ht' => ?_
    have hbase : p.baseOf t = p.types[t].base := by rw [baseOf, Array.getElem?_eq_getElem ht', Option.bind_some]
    have hkeep : p.types[t].base.filter (· < p.types.size) = p.types[t].base := by
      cases hb : p.types[t].base with
      | none => rfl
      | some b => exact Option.filter_some_pos (decide_eq_true (hp t b (hbase.trans hb)))
    simp only [clipped, Array.getElem_map, hkeep]
  exact congrArg (fun types => { p with types := types }) htypes

end Program

namespace Walk

variable {p : Program} {t : TypeId}

/-- The walk over a program makes the line of its types. -/
theorem tracked_ofProgram (p : Program) :
    Tracked p.clipped.descent p.clipped.lineage p.types.size [] (ofProgram p) ∧ (ofProgram p).pending = [] := by
  obtain ⟨hsize, hrow, hroots⟩ := TypeGraph.ofProgram_spec p
  have hp := p.basesExist_clipped
  have hderived : ∀ t, row (TypeGraph.ofProgram p).derived t = p.clipped.derivedOf t := by
    intro t
    rw [hrow, Program.derivedOf, p.size_clipped]
    simp only [p.baseOf_clipped]
  have hlineage : p.clipped.lineage =
      (TypeGraph.ofProgram p).rootTypes.flatMap fun t => t :: p.clipped.descent t := by
    rw [hroots, Program.lineage, p.size_clipped]
    simp only [p.baseOf_clipped]
  rw [ofProgram, ofGraph, hsize]
  refine tracked_foldl_descend hp.nodup_lineage (fun t ht => ?_) (fun t ht => ?_) _ ?_ rfl
  · rw [← p.size_clipped]
    exact (hp.mem_lineage.mp ht).1
  · obtain ⟨hlt, hends⟩ := hp.mem_lineage.mp ht
    rw [hderived]
    exact hp.descent_eq_flatMap hlt hends
  · rw [← hlineage]
    exact tracked_start _

end Walk

namespace Hierarchy

variable {p : Program} {s t : TypeId}

theorem subtypesOf_eq_descent_clipped (p : Program) (t : TypeId) :
    (ofProgram p).subtypesOf t = p.clipped.descent t := by
  obtain ⟨htracked, hdone⟩ := Walk.tracked_ofProgram p
  refine (htracked.stretch_eq hdone).2.trans (ite_eq_left_iff.mpr fun hnot => ?_)
  rw [Program.descent, if_neg (mt p.basesExist_clipped.mem_lineage.mpr hnot)]

/-- The line of a hierarchy has each type without a base type, followed by what is below it. -/
theorem line_eq_lineage (hp : p.BasesExist) : (ofProgram p).line.toList = p.lineage := by
  obtain ⟨htracked, hdone⟩ := Walk.tracked_ofProgram p
  rw [hp.clipped_eq] at htracked
  exact (htracked.stretch_eq (t := 0) hdone).1

/-- The subtypes of a type are what is below it. -/
theorem subtypesOf_eq_descent (hp : p.BasesExist) (t : TypeId) : (ofProgram p).subtypesOf t = p.descent t := by
  rw [subtypesOf_eq_descent_clipped, hp.clipped_eq]

end Hierarchy

end CallGraphs
