import CallGraphs.Scan.State

/-! Why a search ends. Looking at a method marks it and leaves every other mark alone, so there are fewer
    methods left to look at. Instantiated types are only ever added, each once and only if the program has
    it, so there are fewer types left to add. -/

namespace CallGraphs.Scan

/-- What every step keeps, a fold of steps keeps. -/
theorem foldl_keeps {α β : Type} (view : Scan → β) (f : Scan → α → Scan)
    (h : ∀ s a, view (f s a) = view s) : ∀ (l : List α) (s : Scan), view (l.foldl f s) = view s
  | [], _ => rfl
  | a :: l, s => by rw [List.foldl_cons, foldl_keeps view f h l, h]

/-! ### Calls without their count -/

theorem resolveSite_eq (d : Dispatch) (s : Scan) (site : Site) : resolveSite d s site =
    (d.candidates s.live site.target).foldl (addCall site.caller) (s.note (d.notice s.live site.target)) :=
  (List.foldl_hom Prod.snd fun _ _ => rfl).symm

theorem foldl_countSite_snd (d : Dispatch) (sites : List Site) (x : Nat × Scan) :
    (sites.foldl (countSite d) x).2 = sites.foldl (resolveSite d) x.2 :=
  (List.foldl_hom Prod.snd fun _ _ => rfl).symm

/-- Resolving all virtual calls is resolving one after the other, and a notice. -/
theorem resolveSites_snd (d : Dispatch) (s : Scan) :
    ∃ n, (resolveSites d s).2 = (s.sites.foldl (resolveSite d) s).note n :=
  ⟨_, congrArg (note · _) (foldl_countSite_snd d s.sites (0, s))⟩

/-! ### Marks -/

theorem addCall_visited (caller : MethodId) (s : Scan) (callee : MethodId) :
    (addCall caller s callee).visited = s.visited := by
  unfold addCall tryCall; dsimp only; split <;> rfl

theorem resolveSite_visited (d : Dispatch) (s : Scan) (site : Site) :
    (resolveSite d s site).visited = s.visited := by
  rw [resolveSite_eq, foldl_keeps (·.visited) _ (fun s a => addCall_visited _ s a)]; rfl

theorem construct_visited (p : Program) (s : Scan) (t : TypeId) :
    (construct p s t).visited = s.visited := by
  unfold construct
  split
  · rfl
  · split <;> rfl

theorem addSite_visited (s : Scan) (site : Site) : (s.addSite site).visited = s.visited := by
  unfold addSite; split <;> rfl

theorem apply_visited (d : Dispatch) (caller : MethodId) (s : Scan) (e : Effect) :
    (apply d caller s e).visited = s.visited := by
  cases e with
  | note n => rfl
  | problem kind reference => rfl
  | construct t => exact construct_visited ..
  | call callee => exact addCall_visited ..
  | dispatch target => rw [apply, resolveSite_visited, addSite_visited]

/-- Looking at a method marks it and nothing else. -/
theorem visit_visited (d : Dispatch) (s : Scan) (m : MethodId) (h : s.canVisit d.program m = true) :
    (visit d s m).visited = s.visited.setIfInBounds m true := by
  rw [visit, if_pos h, foldl_keeps (·.visited) _ (fun s e => apply_visited d m s e)]; rfl

/-- How many methods are not marked. -/
def unmarked (s : Scan) : Nat := s.visited.count false

theorem unmarked_visit_lt (d : Dispatch) (s : Scan) (m : MethodId) (h : s.canVisit d.program m = true) :
    (visit d s m).unmarked < s.unmarked := by
  have hm : s.visited[m]? = some false := by simp [canVisit] at h; exact h.2
  rw [unmarked, unmarked, visit_visited d s m h]
  exact Nat.lt_of_succ_le (Nat.le_of_eq (count_false_mark hm))

/-! ### Instantiated types -/

/-- The instantiated types have grown: types of the program were appended that were not there before. -/
def LiveGrows (p : Program) (s s' : Scan) : Prop :=
  ∃ more, s'.live = s.live ++ more ∧ ∀ t ∈ more, t < p.types.size ∧ t ∉ s.live

namespace LiveGrows

theorem of_eq {p : Program} {s s' : Scan} (h : s'.live = s.live) : LiveGrows p s s' :=
  ⟨[], by simp [h], by simp⟩

theorem trans {p : Program} {s s' s'' : Scan} (h : LiveGrows p s s') (h' : LiveGrows p s' s'') :
    LiveGrows p s s'' := by
  obtain ⟨more, heq, hin⟩ := h
  obtain ⟨more', heq', hin'⟩ := h'
  refine ⟨more ++ more', by rw [heq', heq, List.append_assoc], fun t ht => ?_⟩
  rcases List.mem_append.mp ht with h1 | h2
  · exact hin t h1
  · refine ⟨(hin' t h2).1, fun hmem => (hin' t h2).2 ?_⟩
    rw [heq]
    exact List.mem_append_left _ hmem

theorem foldl {α : Type} {p : Program} (f : Scan → α → Scan) (h : ∀ s a, LiveGrows p s (f s a)) :
    ∀ (l : List α) (s : Scan), LiveGrows p s (l.foldl f s)
  | [], _ => of_eq rfl
  | a :: l, s => (h s a).trans (foldl f h l (f s a))

end LiveGrows

theorem addCall_live (caller : MethodId) (s : Scan) (callee : MethodId) :
    (addCall caller s callee).live = s.live := by
  unfold addCall tryCall; dsimp only; split <;> rfl

theorem resolveSite_live (d : Dispatch) (s : Scan) (site : Site) :
    (resolveSite d s site).live = s.live := by
  rw [resolveSite_eq, foldl_keeps (·.live) _ (fun s a => addCall_live _ s a)]; rfl

theorem resolveSites_live (d : Dispatch) (s : Scan) : (resolveSites d s).2.live = s.live := by
  obtain ⟨n, heq⟩ := resolveSites_snd d s
  rw [heq]
  exact foldl_keeps (·.live) _ (fun s a => resolveSite_live d s a) _ _

theorem addSite_live (s : Scan) (site : Site) : (s.addSite site).live = s.live := by
  unfold addSite; split <;> rfl

theorem construct_live (p : Program) (s : Scan) (t : TypeId) : LiveGrows p s (construct p s t) := by
  unfold construct
  split
  · exact .of_eq rfl
  · rename_i ty hty
    split
    · exact .of_eq rfl
    · rename_i hnew
      refine ⟨[t], by simp [instantiate, LiveTypes.add_of_not_mem hnew, note], fun u hu => ?_⟩
      rw [List.mem_singleton.mp hu]
      exact ⟨(Array.getElem?_eq_some_iff.mp hty).1, hnew⟩

theorem apply_live (d : Dispatch) (caller : MethodId) (s : Scan) (e : Effect) :
    LiveGrows d.program s (apply d caller s e) := by
  cases e with
  | note n => exact .of_eq rfl
  | problem kind reference => exact .of_eq rfl
  | construct t => exact construct_live ..
  | call callee => exact .of_eq (addCall_live ..)
  | dispatch target => exact .of_eq (by rw [apply, resolveSite_live, addSite_live])

theorem visit_live (d : Dispatch) (s : Scan) (m : MethodId) : LiveGrows d.program s (visit d s m) := by
  unfold visit
  split
  · have hmark : LiveGrows d.program s (s.mark d.program m) := .of_eq rfl
    exact hmark.trans (.foldl _ (fun s e => apply_live d m s e) _ _)
  · exact .of_eq rfl

/-- How many types of the program are not instantiated. -/
def idle (p : Program) (s : Scan) : Nat :=
  (List.range p.types.size).countP fun t => decide (t ∉ s.live)

/-- A weaker test that some element fails passes fewer elements. -/
theorem countP_lt_countP {α : Type} {f g : α → Bool} (himp : ∀ a, f a = true → g a = true) :
    ∀ {l : List α} {x : α}, x ∈ l → g x = true → f x = false → l.countP f < l.countP g
  | y :: l, x, hx, hg, hf => by
      rw [List.countP_cons, List.countP_cons]
      have hle : l.countP f ≤ l.countP g := List.countP_mono_left fun a _ => himp a
      rcases List.mem_cons.mp hx with rfl | hrest
      · simp [hg, hf]; omega
      · have hlt := countP_lt_countP himp hrest hg hf
        have hhead : (if f y = true then 1 else 0) ≤ (if g y = true then 1 else 0) := by
          by_cases hy : f y = true
          · simp [hy, himp y hy]
          · simp [hy]
        omega

/-- Growth leaves fewer types that are not instantiated. -/
theorem idle_lt {p : Program} {s s' : Scan} (h : LiveGrows p s s') (hne : s'.live.length ≠ s.live.length) :
    idle p s' < idle p s := by
  obtain ⟨more, heq, hin⟩ := h
  cases more with
  | nil => simp [heq] at hne
  | cons t more =>
    obtain ⟨hlt, hnew⟩ := hin t (List.mem_cons_self ..)
    refine countP_lt_countP (fun u hu => ?_) (List.mem_range.mpr hlt) (by simpa using hnew) ?_
    · simp [heq] at hu ⊢; exact hu.1
    · simp [heq]

end CallGraphs.Scan
