import Mathlib.Data.List.Nodup
import Mathlib.Logic.Relation
import CallGraphs.Forest

/-! What a walk from the top down finds. Every node comes after its parent (`below_topDown`), whatever the
    children are. Where each node has one parent, with a smaller number, the walks from two nodes of the same
    parent have nothing in common (`preorder_disjoint`), a walk meets no node twice (`preorder_nodup`), and a
    stack of nodes to expand is used up in the order of the walk (`expand_reaches`), so a depth limit that is no
    smaller than the number of nodes cuts nothing off. -/

namespace CallGraphs.Forest

variable {kids : Nat → List Nat}

/-! ### Parents come first -/

/-- Every member of a list is a child of a known node or of an earlier member. -/
def TopDown (kids : Nat → List Nat) : List Nat → List Nat → Prop
  | _, [] => True
  | known, x :: l => (∃ u ∈ known, x ∈ kids u) ∧ TopDown kids (x :: known) l

theorem TopDown.mono {known known' : List Nat} (hsub : known ⊆ known') :
    ∀ {l : List Nat}, TopDown kids known l → TopDown kids known' l
  | [], _ => trivial
  | x :: _, ⟨⟨u, hu, hx⟩, h⟩ => ⟨⟨u, hsub hu, hx⟩, h.mono (List.cons_subset_cons x hsub)⟩

theorem TopDown.mono_kids {kids' : Nat → List Nat} (hsub : ∀ u, kids u ⊆ kids' u) :
    ∀ {known l : List Nat}, TopDown kids known l → TopDown kids' known l
  | _, [], _ => trivial
  | _, _ :: _, ⟨⟨u, hu, hx⟩, h⟩ => ⟨⟨u, hu, hsub u hx⟩, h.mono_kids hsub⟩

theorem TopDown.append : ∀ {l l' known : List Nat}, TopDown kids known l → TopDown kids known l' →
    TopDown kids known (l ++ l')
  | [], _, _, _, h' => h'
  | x :: _, _, known, ⟨hx, h⟩, h' => ⟨hx, h.append (h'.mono (List.subset_cons_self x known))⟩

theorem TopDown.flatMap {known : List Nat} {f : Nat → List Nat} :
    ∀ {l : List Nat}, (∀ x ∈ l, TopDown kids known (f x)) → TopDown kids known (l.flatMap f)
  | [], _ => trivial
  | x :: l, h => by
      rw [List.flatMap_cons]
      exact (h x List.mem_cons_self).append (TopDown.flatMap fun y hy => h y (List.mem_cons_of_mem x hy))

theorem preorder_topDown : ∀ {depth : Nat} {known : List Nat} {t u : Nat}, u ∈ known → t ∈ kids u →
    TopDown kids known (preorder kids depth t)
  | 0, _, _, u, hu, ht => ⟨⟨u, hu, ht⟩, trivial⟩
  | _ + 1, _, _, u, hu, ht =>
      ⟨⟨u, hu, ht⟩, TopDown.flatMap fun _ hx => preorder_topDown List.mem_cons_self hx⟩

/-- Below a node, every node comes after its parent. -/
theorem below_topDown (kids : Nat → List Nat) (t : Nat) : ∀ depth, TopDown kids [t] (below kids depth t)
  | 0 => trivial
  | _ + 1 => TopDown.flatMap fun _ hx => preorder_topDown List.mem_cons_self hx

/-- A member stands behind its parent, or its parent was known. -/
theorem TopDown.parent_before : ∀ {l known : List Nat} {x : Nat}, TopDown kids known l → x ∈ l →
    ∃ u, x ∈ kids u ∧ (u ∈ known ∨ [u, x].Sublist l)
  | y :: l, known, x, ⟨⟨u, hu, hy⟩, h⟩, hx => by
      rcases List.mem_cons.mp hx with rfl | hlater
      · exact ⟨u, hy, .inl hu⟩
      · obtain ⟨v, hv, hbefore⟩ := h.parent_before hlater
        rcases hbefore with hknown | hbefore
        · rcases List.mem_cons.mp hknown with rfl | hknown
          · exact ⟨v, hv, .inr ((List.singleton_sublist.mpr hlater).cons_cons v)⟩
          · exact ⟨v, hv, .inl hknown⟩
        · exact ⟨v, hv, .inr (hbefore.cons y)⟩

/-- In a walk, a node other than the first stands behind its parent. -/
theorem preorder_parent_before {depth t x : Nat} (hx : x ∈ preorder kids depth t) :
    x = t ∨ ∃ u, x ∈ kids u ∧ [u, x].Sublist (preorder kids depth t) := by
  rw [preorder_eq_cons] at hx ⊢
  rcases List.mem_cons.mp hx with rfl | hx
  · exact .inl rfl
  · obtain ⟨u, hu, hbefore⟩ := (below_topDown kids t depth).parent_before hx
    refine .inr ⟨u, hu, ?_⟩
    rcases hbefore with hknown | hbefore
    · rw [List.mem_singleton.mp hknown]
      exact (List.singleton_sublist.mpr hx).cons_cons t
    · exact hbefore.cons t

theorem preorder_cases {depth t x : Nat} (hx : x ∈ preorder kids depth t) :
    x = t ∨ ∃ u ∈ preorder kids depth t, x ∈ kids u := by
  rcases preorder_parent_before hx with rfl | ⟨u, hu, hbefore⟩
  · exact .inl rfl
  · exact .inr ⟨u, hbefore.subset List.mem_cons_self, hu⟩

/-! ### How far a walk goes -/

theorem mem_preorder_self (t : Nat) : ∀ depth, t ∈ preorder kids depth t
  | 0 => List.mem_cons_self
  | _ + 1 => List.mem_cons_self

/-- One more level takes in the children of what was found. -/
theorem mem_preorder_succ {y x : Nat} (hx : x ∈ kids y) : ∀ {depth t : Nat}, y ∈ preorder kids depth t →
    x ∈ preorder kids (depth + 1) t
  | 0, t, hy => by
      obtain rfl : y = t := by simpa [preorder] using hy
      exact List.mem_cons_of_mem _ (List.mem_flatMap.mpr ⟨x, hx, mem_preorder_self x 0⟩)
  | depth + 1, t, hy => by
      rw [preorder, List.mem_cons, List.mem_flatMap]
      rcases List.mem_cons.mp hy with rfl | hy
      · exact .inr ⟨x, hx, mem_preorder_self x _⟩
      · obtain ⟨u, hu, hy⟩ := List.mem_flatMap.mp hy
        exact .inr ⟨u, hu, mem_preorder_succ hx hy⟩

theorem preorder_subset_succ : ∀ (depth t : Nat), preorder kids depth t ⊆ preorder kids (depth + 1) t
  | 0, t => by
      intro x hx
      obtain rfl : x = t := by simpa [preorder] using hx
      exact mem_preorder_self x 1
  | depth + 1, t => by
      intro x hx
      rw [preorder, List.mem_cons, List.mem_flatMap] at hx ⊢
      rcases hx with rfl | ⟨u, hu, hx⟩
      · exact .inl rfl
      · exact .inr ⟨u, hu, preorder_subset_succ depth u hx⟩

theorem preorder_mono {depth depth' : Nat} (h : depth ≤ depth') (t : Nat) :
    preorder kids depth t ⊆ preorder kids depth' t := by
  induction h with
  | refl => exact List.Subset.refl _
  | step _ ih => exact List.Subset.trans ih (preorder_subset_succ _ t)

/-! ### One parent each, with a smaller number -/

/-- The children of a node are the nodes that have it as parent, each listed once; the parent has the smaller
    number. -/
structure Parented (kids : Nat → List Nat) (parent : Nat → Option Nat) : Prop where
  kids_iff : ∀ x y, y ∈ kids x ↔ parent y = some x
  lt : ∀ x y, parent y = some x → x < y
  nodup : ∀ x, (kids x).Nodup

namespace Parented

variable {parent : Nat → Option Nat}

theorem le_of_mem (h : Parented kids parent) {t : Nat} : ∀ {depth x : Nat}, x ∈ preorder kids depth t → t ≤ x := by
  intro depth x
  induction x using Nat.strongRecOn with
  | ind x ih =>
    intro hx
    rcases preorder_cases hx with rfl | ⟨u, hu, hkid⟩
    · exact Nat.le_refl x
    · have hlt := h.lt u x ((h.kids_iff u x).mp hkid)
      exact Nat.le_trans (ih u hlt hu) (Nat.le_of_lt hlt)

/-- Walks from two nodes with the same parent, or with none, have nothing in common. -/
theorem preorder_disjoint (h : Parented kids parent) {t t' : Nat} (hparent : parent t = parent t') (hne : t ≠ t')
    (depth depth' : Nat) : List.Disjoint (preorder kids depth t) (preorder kids depth' t') := by
  intro x
  induction x using Nat.strongRecOn with
  | ind x ih =>
    intro hx hx'
    -- a walk that is entered at `s` does not come back to the parent of `s`
    have hup : ∀ {s u depth : Nat}, parent s = some u → u ∉ preorder kids depth s := by
      intro s u depth hs hu
      exact absurd (h.le_of_mem hu) (Nat.not_le_of_lt (h.lt u s hs))
    rcases preorder_cases hx with rfl | ⟨u, hu, hkid⟩ <;> rcases preorder_cases hx' with rfl | ⟨u', hu', hkid'⟩
    · exact hne rfl
    · exact hup (hparent.symm.trans ((h.kids_iff u' x).mp hkid')) hu'
    · exact hup (hparent.trans ((h.kids_iff u x).mp hkid)) hu
    · have hux := (h.kids_iff u x).mp hkid
      obtain rfl : u = u' := Option.some.inj (hux.symm.trans ((h.kids_iff u' x).mp hkid'))
      exact ih u (h.lt u x hux) hu hu'

theorem flatMap_nodup (h : Parented kids parent) {l : List Nat} {depth : Nat} {up : Option Nat} (hl : l.Nodup)
    (hup : ∀ x ∈ l, parent x = up) (hnodup : ∀ x ∈ l, (preorder kids depth x).Nodup) :
    (l.flatMap (preorder kids depth)).Nodup := by
  refine List.nodup_flatMap.mpr ⟨hnodup, List.Pairwise.imp_of_mem ?_ hl⟩
  intro x y hx hy hne
  exact h.preorder_disjoint ((hup x hx).trans (hup y hy).symm) hne depth depth

/-- A walk meets no node twice. -/
theorem preorder_nodup (h : Parented kids parent) : ∀ (depth t : Nat), (preorder kids depth t).Nodup
  | 0, t => List.nodup_singleton t
  | depth + 1, t => by
      have hkids : ∀ x ∈ kids t, parent x = some t := fun x hx => (h.kids_iff t x).mp hx
      refine List.nodup_cons.mpr ⟨?_, h.flatMap_nodup (h.nodup t) hkids fun x _ => h.preorder_nodup depth x⟩
      intro ht
      obtain ⟨x, hx, ht⟩ := List.mem_flatMap.mp ht
      exact absurd (h.le_of_mem ht) (Nat.not_le_of_lt (h.lt t x (hkids x hx)))

/-- Every node is found from a node without a parent, no deeper than its number says. -/
theorem exists_root (h : Parented kids parent) (x : Nat) : ∃ t, parent t = none ∧ x ∈ preorder kids x t := by
  induction x using Nat.strongRecOn with
  | ind x ih =>
    cases hx : parent x with
    | none => exact ⟨x, hx, mem_preorder_self x x⟩
    | some u =>
      have hlt := h.lt u x hx
      obtain ⟨t, ht, hu⟩ := ih u hlt
      exact ⟨t, ht, preorder_mono hlt t (mem_preorder_succ ((h.kids_iff u x).mpr hx) hu)⟩

end Parented

/-! ### The walk as a stack of nodes to expand -/

/-- A walk in progress: the nodes to expand, the next one on top, and the nodes found so far. -/
structure Walk where
  pending : List Nat
  found : List Nat

namespace Walk

/-- Take the top node off the stack, note it, and put its children in its place. -/
def step? (kids : Nat → List Nat) (w : Walk) : Option Walk :=
  match w.pending with
  | [] => none
  | t :: rest => some ⟨kids t ++ rest, w.found ++ [t]⟩

/-- The walk comes from one state to the other. -/
def Reaches (kids : Nat → List Nat) : Walk → Walk → Prop :=
  Relation.ReflTransGen fun w w' => step? kids w = some w'

/-- Nodes on top of the stack are expanded one after the other, if each of them is used up. -/
theorem reaches_flatMap {f : Nat → List Nat} (rest : List Nat) : ∀ (l found : List Nat),
    (∀ t ∈ l, ∀ rest found, Reaches kids ⟨t :: rest, found⟩ ⟨rest, found ++ f t⟩) →
    Reaches kids ⟨l ++ rest, found⟩ ⟨rest, found ++ l.flatMap f⟩
  | [], found, _ => by
      rw [List.flatMap_nil, List.append_nil]
      exact .refl
  | t :: l, found, h => by
      have hhead := h t List.mem_cons_self (l ++ rest) found
      have htail := reaches_flatMap rest l (found ++ f t) fun u hu => h u (List.mem_cons_of_mem t hu)
      rw [List.append_assoc] at htail
      exact hhead.trans htail

/-- Where children have larger numbers and numbers from `n` on have none, a node is used up, with everything
    that the walk of sufficient depth finds below it. -/
theorem expand_reaches {n : Nat} (hlt : ∀ x, ∀ y ∈ kids x, x < y) (hleaf : ∀ x, n ≤ x → kids x = []) :
    ∀ (depth t : Nat), n ≤ t + depth → ∀ rest found,
      Reaches kids ⟨t :: rest, found⟩ ⟨rest, found ++ preorder kids depth t⟩
  | 0, t, ht, rest, found => by
      have hstep : step? kids ⟨t :: rest, found⟩ = some ⟨rest, found ++ [t]⟩ := by
        simp [step?, hleaf t ht]
      exact .single hstep
  | depth + 1, t, ht, rest, found => by
      have hstep : step? kids ⟨t :: rest, found⟩ = some ⟨kids t ++ rest, found ++ [t]⟩ := rfl
      have hkids : Reaches kids ⟨kids t ++ rest, found ++ [t]⟩
          ⟨rest, found ++ [t] ++ (kids t).flatMap (preorder kids depth)⟩ := by
        refine reaches_flatMap rest _ _ fun u hu => ?_
        have htu := hlt t u hu
        exact expand_reaches hlt hleaf depth u (by omega)
      rw [List.append_assoc] at hkids
      exact .head hstep hkids

end Walk

end CallGraphs.Forest
