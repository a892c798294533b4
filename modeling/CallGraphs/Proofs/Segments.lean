import Mathlib.Data.List.Basic
import CallGraphs.Entry.Filter

/-! Namespaces level by level. A filter compares signs: a namespace is covered if it equals a root, or starts with the
    root and a dot. Cut at its dots, a namespace is the list of its levels, empty ones included, and it is covered
    exactly if the levels of the root are its first levels (`covers_iff_segments`). Nothing is said about the signs
    themselves, so this holds of characters and of bytes alike, and a filter decides the same about a text and about
    its bytes (`accepts_eq_admits_bytes`). -/

namespace CallGraphs.NamespaceFilter

/-! ### Levels -/

/-- Two lists of levels that are joined at dots, with a dot between them. -/
theorem intercalate_append {α : Type} (dot : α) {back : List (List α)} (hback : back ≠ []) :
    ∀ front : List (List α), front ≠ [] →
      [dot].intercalate (front ++ back) = [dot].intercalate front ++ dot :: [dot].intercalate back
  | [], hfront => absurd rfl hfront
  | [level], _ => by
      rw [List.singleton_append, List.intercalate_cons_of_ne_nil hback, List.intercalate_singleton,
        List.append_assoc, List.singleton_append]
  | level :: next :: front, _ => by
      have hrest := intercalate_append dot hback (next :: front) (List.cons_ne_nil _ _)
      rw [List.cons_append, List.intercalate_cons_of_ne_nil (by simp), hrest, List.intercalate_cons_cons]
      simp only [List.append_assoc]

section Signs

variable {α : Type} [BEq α] [LawfulBEq α] {dot : α} {root ns : List α} {roots : List (List α)}

/-- The three tests for a namespace below the root are one: it begins with the root and a dot. -/
theorem covers_iff : covers dot root ns = true ↔ root = ns ∨ root ++ [dot] <+: ns := by
  simp only [covers, Bool.or_eq_true, Bool.and_eq_true, beq_iff_eq, decide_eq_true_iff, List.isPrefixOf_iff_prefix]
  refine or_congr eq_comm ⟨?_, ?_⟩
  · rintro ⟨⟨⟨rest, rfl⟩, hlonger⟩, hdot⟩
    cases rest with
    | nil => simp at hlonger
    | cons sign rest =>
      obtain rfl : sign = dot := by simpa using hdot
      exact ⟨rest, List.append_cons _ _ _ |>.symm⟩
  · rintro ⟨rest, rfl⟩
    exact ⟨⟨⟨dot :: rest, by simp⟩, by simp⟩, by simp⟩

/-- A root covers a namespace if its levels are the first levels of the namespace. -/
theorem covers_iff_segments : covers dot root ns = true ↔ root.splitOn dot <+: ns.splitOn dot := by
  rw [covers_iff]
  constructor
  · rintro (rfl | ⟨rest, rfl⟩)
    · exact List.prefix_rfl
    · rw [List.append_assoc, List.singleton_append, List.splitOn_append_cons_self]
      exact List.prefix_append _ _
  · rintro ⟨more, hmore⟩
    -- levels that are joined at dots give the namespace back
    have hns : [dot].intercalate (root.splitOn dot ++ more) = ns := by
      rw [hmore, List.intercalate_splitOn]
    by_cases hnone : more = []
    · left
      rw [hnone, List.append_nil, List.intercalate_splitOn] at hns
      exact hns
    · right
      rw [intercalate_append dot hnone _ (List.splitOn_ne_nil dot root), List.intercalate_splitOn] at hns
      exact ⟨_, by rw [← hns, List.append_assoc, List.singleton_append]⟩

/-- What lies below a covered namespace is covered. -/
theorem covers_below (h : covers dot root ns = true) (x : List α) : covers dot root (ns ++ dot :: x) = true := by
  rw [covers_iff_segments] at h ⊢
  rw [List.splitOn_append_cons_self]
  exact h.trans (List.prefix_append _ _)

end Signs

theorem admits_iff {α : Type} [BEq α] {dot : α} {roots : List (List α)} {ns : List α} (hroots : roots ≠ []) :
    admits dot roots ns = true ↔ ∃ root ∈ roots, covers dot root ns = true := by
  rw [admits, Bool.or_eq_true, List.any_eq_true, List.isEmpty_iff]
  exact or_iff_right hroots

/-! ### Characters and bytes -/

/-- The bytes of a text. -/
def bytes (s : String) : List UInt8 := s.toByteArray.data.toList

/-- The byte of a dot. -/
def dotByte : UInt8 := 46

theorem bytes_eq (s : String) : bytes s = s.toList.utf8Encode.data.toList := by
  rw [bytes, String.utf8Encode_toList]

theorem bytes_injective {s t : String} (h : bytes s = bytes t) : s = t :=
  String.toByteArray_inj.mp (ByteArray.ext (Array.toList_inj.mp h))

theorem bytes_append_dot (s : String) : bytes s ++ [dotByte] = (s.toList ++ ['.']).utf8Encode.data.toList := by
  rw [bytes_eq, List.utf8Encode_append, ByteArray.data_append, Array.toList_append]
  rfl

/-- A text and a dot begin another text if their bytes begin its bytes: no character starts within the bytes of
    another one. -/
theorem bytes_prefix_iff {root ns : String} :
    bytes root ++ [dotByte] <+: bytes ns ↔ root.toList ++ ['.'] <+: ns.toList := by
  rw [bytes_append_dot, bytes_eq]
  constructor
  · rintro ⟨rest, hrest⟩
    refine List.isPrefix_of_utf8Encode_append_eq_utf8Encode ⟨rest.toArray⟩ (ByteArray.ext (Array.toList_inj.mp ?_))
    rw [ByteArray.data_append, Array.toList_append, ← hrest]
  · rintro ⟨rest, hrest⟩
    rw [← hrest, List.utf8Encode_append (l := root.toList ++ ['.']), ByteArray.data_append, Array.toList_append]
    exact List.prefix_append _ _

theorem covers_bytes (root ns : String) :
    covers dotByte (bytes root) (bytes ns) = covers '.' root.toList ns.toList := by
  have hsame : bytes root = bytes ns ↔ root.toList = ns.toList :=
    ⟨fun h => congrArg String.toList (bytes_injective h), fun h => congrArg bytes (String.toList_injective h)⟩
  rw [Bool.eq_iff_iff, covers_iff, covers_iff, hsame, bytes_prefix_iff]

/-- A filter decides about a text as it decides about its bytes. -/
theorem accepts_eq_admits_bytes (filter : NamespaceFilter) (ns : String) :
    accepts filter ns = admits dotByte (filter.map bytes) (bytes ns) := by
  rw [accepts, admits, admits, List.any_map, List.any_map, List.isEmpty_map, List.isEmpty_map]
  refine congrArg (filter.isEmpty || filter.any ·) (funext fun root => ?_)
  exact (covers_bytes root ns).symm

/-- With at least one root, a namespace is admitted exactly if the levels of some root are its first levels, whatever
    bytes they are made of. Then everything below it is admitted, and it stays so with further roots. The filter of
    texts is this one. -/
theorem admits_by_segments (roots : List (List UInt8)) (hroots : roots ≠ []) (ns : List UInt8) :
    (admits dotByte roots ns = true ↔ ∃ root ∈ roots, root.splitOn dotByte <+: ns.splitOn dotByte) ∧
    (admits dotByte roots ns = true → ∀ x, admits dotByte roots (ns ++ dotByte :: x) = true) ∧
    (admits dotByte roots ns = true → ∀ more, roots ⊆ more → admits dotByte more ns = true) ∧
    ∀ filter text, accepts filter text = admits dotByte (filter.map bytes) (bytes text) := by
  refine ⟨?_, fun h x => ?_, fun h more hmore => ?_, accepts_eq_admits_bytes⟩
  · rw [admits_iff hroots]
    exact exists_congr fun root => and_congr_right fun _ => covers_iff_segments
  · rw [admits_iff hroots] at h ⊢
    obtain ⟨root, hroot, hcovers⟩ := h
    exact ⟨root, hroot, covers_below hcovers x⟩
  · obtain ⟨root, hroot, hcovers⟩ := (admits_iff hroots).mp h
    have hnonempty : more ≠ [] := List.ne_nil_of_mem (hmore hroot)
    exact (admits_iff hnonempty).mpr ⟨root, hmore hroot, hcovers⟩

/-- The roots are an empty namespace and `A.`, which ends in an empty level; `A..B` lies below the second one and
    `A.B` does not. -/
theorem admits_by_segments_dots :
    [[], [65, dotByte]] ≠ [] ∧
    admits dotByte [[], [65, dotByte]] [65, dotByte, dotByte, 66] = true ∧
    [65, dotByte, dotByte, 66].splitOn dotByte = [[65], [], [66]] ∧
    ¬ (∃ root ∈ [[], [65, dotByte]], root.splitOn dotByte <+: [65, dotByte, 66].splitOn dotByte) ∧
    admits dotByte [[], [65, dotByte]] [65, dotByte, dotByte, 66, dotByte, 67] = true ∧
    admits dotByte [[200], [], [65, dotByte]] [65, dotByte, dotByte, 66] = true := by
  have hroots : [[], [65, dotByte]] ≠ [] := List.cons_ne_nil _ _
  have hadmits : admits dotByte [[], [65, dotByte]] [65, dotByte, dotByte, 66] = true := by decide
  obtain ⟨-, hbelow, hmore, -⟩ := admits_by_segments _ hroots [65, dotByte, dotByte, 66]
  obtain ⟨hiff, -⟩ := admits_by_segments _ hroots [65, dotByte, 66]
  exact ⟨hroots, hadmits, by decide, mt hiff.mpr (by decide), hbelow hadmits [67],
    hmore hadmits _ (List.subset_cons_self _ _)⟩

end CallGraphs.NamespaceFilter
