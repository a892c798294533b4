import Mathlib.Data.List.Basic
import CallGraphs.Program.Basic

/-! Full names of methods, taken apart again. The parts of a full name stand between a blank, colons, a parenthesis and
    commas. If no part contains the sign that ends it, the full name determines the declaring type and the signature
    (`Signature.fullName_injective`). -/

namespace CallGraphs

namespace Text

theorem split_of_not_mem {c : Char} : ∀ {cs : List Char}, c ∉ cs → split c cs = [cs]
  | [], _ => rfl
  | x :: xs, h => by
      have hx : x ≠ c := fun heq => h (heq ▸ List.mem_cons_self)
      rw [split, if_neg hx, split_of_not_mem fun hmem => h (List.mem_cons_of_mem x hmem)]

theorem split_append_cons {c : Char} {rest : List Char} : ∀ {cs : List Char}, c ∉ cs →
    split c (cs ++ c :: rest) = cs :: split c rest
  | [], _ => by rw [List.nil_append, split, if_pos rfl]
  | x :: xs, h => by
      have hx : x ≠ c := fun heq => h (heq ▸ List.mem_cons_self)
      rw [List.cons_append, split, if_neg hx, split_append_cons fun hmem => h (List.mem_cons_of_mem x hmem)]

/-- A text is cut at a sign in one way only if the sign does not occur before the cut. -/
theorem append_cons_cancel {c : Char} {rest rest' : List Char} : ∀ {cs cs' : List Char}, c ∉ cs → c ∉ cs' →
    cs ++ c :: rest = cs' ++ c :: rest' → cs = cs' ∧ rest = rest'
  | [], [], _, _, h => ⟨rfl, (List.cons.inj h).2⟩
  | [], y :: _, _, hcs', h => absurd (List.cons.inj h).1 fun heq => hcs' (heq ▸ List.mem_cons_self)
  | x :: _, [], hcs, _, h => absurd (List.cons.inj h).1 fun heq => hcs (heq ▸ List.mem_cons_self)
  | x :: xs, y :: ys, hcs, hcs', h => by
      obtain ⟨rfl, htail⟩ := List.cons.inj h
      obtain ⟨rfl, hrest⟩ := append_cons_cancel (fun hmem => hcs (List.mem_cons_of_mem x hmem))
        (fun hmem => hcs' (List.mem_cons_of_mem x hmem)) htail
      exact ⟨rfl, hrest⟩

/-- Texts that are joined at commas come back when the result is split at its commas. -/
theorem split_join : ∀ {l : List String}, l ≠ [] → (∀ s ∈ l, ',' ∉ s.toList) →
    split ',' (join "," l).toList = l.map String.toList
  | [], h, _ => absurd rfl h
  | [s], _, h => split_of_not_mem (h s List.mem_cons_self)
  | s :: t :: l, _, h => by
      have hrest := split_join (l := t :: l) (by simp) fun x hx => h x (List.mem_cons_of_mem s hx)
      have hlist : (join "," (s :: t :: l)).toList = s.toList ++ ',' :: (join "," (t :: l)).toList := by
        simp [join]
      rw [hlist, split_append_cons (h s List.mem_cons_self), hrest, List.map_cons (l := t :: l)]

/-- Texts that are not empty and have no commas are determined by what they are when joined at commas. -/
theorem join_injective {l l' : List String} (hl : ∀ s ∈ l, s ≠ "" ∧ ',' ∉ s.toList)
    (hl' : ∀ s ∈ l', s ≠ "" ∧ ',' ∉ s.toList) (h : join "," l = join "," l') : l = l' := by
  -- an empty text is split into one empty text, which is no member of either list
  have hempty : ∀ {k : List String}, (∀ s ∈ k, s ≠ "" ∧ ',' ∉ s.toList) → join "," k = "" → k = [] := by
    intro k hk hjoin
    by_contra hne
    have hsplit := split_join hne fun s hs => (hk s hs).2
    rw [hjoin] at hsplit
    obtain ⟨s, hs⟩ := List.exists_mem_of_ne_nil k hne
    have hmem : s.toList ∈ split ',' "".toList := hsplit ▸ List.mem_map_of_mem hs
    exact (hk s hs).1 (String.toList_injective (List.mem_singleton.mp hmem))
  by_cases hne : l = []
  · subst hne
    exact (hempty hl' h.symm).symm
  · have hne' : l' ≠ [] := by
      rintro rfl
      exact hne (hempty hl h)
    have hsplit := split_join hne fun s hs => (hl s hs).2
    rw [h, split_join hne' fun s hs => (hl' s hs).2] at hsplit
    exact (List.map_injective_iff.mpr (fun _ _ => String.toList_injective) hsplit).symm

end Text

namespace Signature

/-- No part of the full name contains the sign that ends it, and no parameter type is empty. -/
structure Plain (s : Signature) (owner : String) : Prop where
  result : ' ' ∉ s.result.toList
  owner : ':' ∉ owner.toList
  name : '(' ∉ s.name.toList
  params : ∀ t ∈ s.params, t ≠ "" ∧ ',' ∉ t.toList

instance (s : Signature) (owner : String) : Decidable (s.Plain owner) :=
  decidable_of_iff (' ' ∉ s.result.toList ∧ ':' ∉ owner.toList ∧ '(' ∉ s.name.toList ∧
    ∀ t ∈ s.params, t ≠ "" ∧ ',' ∉ t.toList)
    ⟨fun ⟨result, owner, name, params⟩ => ⟨result, owner, name, params⟩, fun h => ⟨h.result, h.owner, h.name, h.params⟩⟩

theorem toList_fullName (s : Signature) (owner : String) : (s.fullName owner).toList =
    s.result.toList ++ ' ' :: (owner.toList ++ ':' :: ':' :: (s.name.toList ++ '(' ::
      ((Text.join "," s.params).toList ++ [')']))) := by
  simp [fullName]

theorem fullName_injective {s t : Signature} {a b : String} (hs : s.Plain a) (ht : t.Plain b)
    (h : s.fullName a = t.fullName b) : s = t ∧ a = b := by
  have hlist := congrArg String.toList h
  rw [toList_fullName, toList_fullName] at hlist
  obtain ⟨hresult, hlist⟩ := Text.append_cons_cancel hs.result ht.result hlist
  obtain ⟨howner, hlist⟩ := Text.append_cons_cancel hs.owner ht.owner hlist
  obtain ⟨hname, hlist⟩ := Text.append_cons_cancel hs.name ht.name (List.cons.inj hlist).2
  have hparams := Text.join_injective hs.params ht.params (String.toList_injective (List.append_cancel_right hlist))
  obtain ⟨name, params, result⟩ := s
  obtain ⟨name', params', result'⟩ := t
  simp_all [String.toList_inj]

end Signature

end CallGraphs
