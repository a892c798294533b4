import CallGraphs.Graph.Export
import CallGraphs.Proofs.Segments

/-! DOT graphs, read back. Labels are written between quotes, byte by byte, and no byte is written with a bare quote or
    a line end. So a reader that only looks for quotes and backslashes finds the labels again, whatever they are made
    of (`legible_escape`); and every edge is one line of the text. A DOT graph therefore tells exactly the labels of the
    edges it shows, and it does so with any way to write labels that is legible (`dot_tells_labels`). -/

namespace CallGraphs.Dot

open NamespaceFilter (bytes bytes_eq)

/-! ### Labels byte by byte -/

/-- One byte of a label. -/
def escapeByte (b : UInt8) : List Char :=
  if b = 92 then ['\\', '\\']
  else if b = 9 then ['\\', 't']
  else if b = 10 then ['\\', 'n']
  else if b = 34 then ['\\', '"']
  else if 32 ≤ b.toNat ∧ b.toNat < 127 then [Char.ofNat b.toNat]
  else octal b.toNat

theorem toList_loop (bs : ByteArray) (i : Nat) (acc : List UInt8) :
    ByteArray.toList.loop bs i acc = acc.reverse ++ bs.data.toList.drop i := by
  fun_induction ByteArray.toList.loop bs i acc with
  | case1 i acc hlt ih =>
    have hlength : i < bs.data.toList.length := by simpa using hlt
    have hget : bs.get! i = bs.data.toList[i] := by
      cases bs
      exact getElem!_pos _ i hlt
    rw [ih, List.drop_eq_getElem_cons hlength, hget, List.reverse_cons, List.append_assoc, List.singleton_append]
  | case2 i acc hlt =>
    rw [List.drop_eq_nil_of_le (by simpa using Nat.le_of_not_lt hlt), List.append_nil]

theorem toUTF8_singleton (c : Char) : (String.singleton c).toUTF8.toList = String.utf8EncodeChar c := by
  rw [ByteArray.toList, toList_loop, String.toUTF8_eq_toByteArray, String.toByteArray_singleton,
    List.utf8Encode_singleton, List.toList_data_toByteArray]
  rfl

theorem utf8EncodeChar_ascii {c : Char} (h : c.toNat < 128) : String.utf8EncodeChar c = [UInt8.ofNat c.toNat] := by
  have hle : c.val.toNat ≤ 127 := Nat.le_of_lt_succ h
  simp only [String.utf8EncodeChar, if_pos hle]
  rfl

/-- A character that is not ASCII is made of bytes that are not. -/
theorem le_of_mem_utf8EncodeChar {c : Char} (h : 128 ≤ c.toNat) {b : UInt8} (hb : b ∈ String.utf8EncodeChar c) :
    128 ≤ b.toNat := by
  have hnot : ¬ c.val.toNat ≤ 127 := Nat.not_le.mpr h
  simp only [String.utf8EncodeChar, if_neg hnot] at hb
  split at hb
  · simp only [List.mem_cons, List.not_mem_nil, or_false] at hb
    rcases hb with rfl | rfl <;> rw [UInt8.toNat_ofNat'] <;> omega
  · split at hb <;> simp only [List.mem_cons, List.not_mem_nil, or_false] at hb
    · rcases hb with rfl | rfl | rfl <;> rw [UInt8.toNat_ofNat'] <;> omega
    · rcases hb with rfl | rfl | rfl | rfl <;> rw [UInt8.toNat_ofNat'] <;> omega

theorem escapeByte_of_le {b : UInt8} (h : 128 ≤ b.toNat) : escapeByte b = octal b.toNat := by
  have hne : ∀ n : UInt8, n.toNat < 128 → b ≠ n := by
    rintro n hn rfl
    omega
  rw [escapeByte, if_neg (hne 92 (by decide)), if_neg (hne 9 (by decide)), if_neg (hne 10 (by decide)),
    if_neg (hne 34 (by decide)), if_neg (by omega)]

theorem toNat_ascii {c : Char} (h : c.toNat < 128) : (UInt8.ofNat c.toNat).toNat = c.toNat :=
  UInt8.toNat_ofNat_of_lt (Nat.lt_trans h (by decide))

theorem escapeByte_ascii {c : Char} (h : c.toNat < 128) : escapeByte (UInt8.ofNat c.toNat) = escapeChar c := by
  have hsame : ∀ k : Char, k.toNat < 128 → (UInt8.ofNat c.toNat = UInt8.ofNat k.toNat ↔ c = k) := by
    intro k hk
    refine ⟨fun heq => ?_, fun heq => heq ▸ rfl⟩
    have hnat := congrArg UInt8.toNat heq
    rw [toNat_ascii h, toNat_ascii hk] at hnat
    rw [← Char.ofNat_toNat c, hnat, Char.ofNat_toNat]
  have hbackslash : UInt8.ofNat c.toNat = 92 ↔ c = '\\' := hsame '\\' (by decide)
  have htab : UInt8.ofNat c.toNat = 9 ↔ c = '\t' := hsame '\t' (by decide)
  have hnewline : UInt8.ofNat c.toNat = 10 ↔ c = '\n' := hsame '\n' (by decide)
  have hquote : UInt8.ofNat c.toNat = 34 ↔ c = '"' := hsame '"' (by decide)
  simp only [escapeByte, escapeChar, hbackslash, htab, hnewline, hquote, toNat_ascii h, Char.ofNat_toNat,
    toUTF8_singleton, utf8EncodeChar_ascii h, List.flatMap_singleton]

/-- A character is written as its bytes are. -/
theorem escapeChar_eq (c : Char) : escapeChar c = (String.utf8EncodeChar c).flatMap escapeByte := by
  by_cases h : c.toNat < 128
  · rw [utf8EncodeChar_ascii h, List.flatMap_singleton, escapeByte_ascii h]
  -- no byte of another character could be taken for a character of its own
  · have hle : 128 ≤ c.toNat := Nat.le_of_not_lt h
    have hne : ∀ k : Char, k.toNat < 128 → c ≠ k := by
      rintro k hk rfl
      exact h hk
    rw [escapeChar, if_neg (hne _ (by decide)), if_neg (hne _ (by decide)), if_neg (hne _ (by decide)),
      if_neg (hne _ (by decide)), if_neg (by omega), toUTF8_singleton]
    exact List.flatMap_congr fun b hb => (escapeByte_of_le (le_of_mem_utf8EncodeChar hle hb)).symm

theorem escape_toList (s : String) : (escape s).toList = (bytes s).flatMap escapeByte := by
  rw [escape, String.toList_ofList, escapeChars, bytes_eq]
  induction s.toList with
  | nil => rfl
  | cons c cs ih =>
    rw [List.flatMap_cons, ih, escapeChar_eq, List.utf8Encode_cons, ByteArray.toList_data_append,
      List.utf8Encode_singleton, List.toList_data_toByteArray, List.flatMap_append]

/-! ### A reader of labels -/

/-- Where the reader stands: between labels, inside one, or inside an escape of one. -/
inductive Mode where
  | outside
  | inside (label : List UInt8)
  | escape (label : List UInt8)
  | octal (label : List UInt8) (left value : Nat)

/-- The state of the reader: the labels met so far, in order, and where it stands. -/
structure Reader where
  labels : List (List UInt8) := []
  mode : Mode := .outside

/-- What a character after a backslash stands for, octal digits apart. -/
def escaped? : Char → Option UInt8
  | '\\' => some 92
  | 't' => some 9
  | 'n' => some 10
  | '"' => some 34
  | _ => none

/-- The value of an octal digit. -/
def digitValue (c : Char) : Nat := c.toNat - '0'.toNat

/-- Read one character. -/
def Reader.step (r : Reader) (c : Char) : Reader :=
  match r.mode with
  | .outside => if c = '"' then ⟨r.labels, .inside []⟩ else r
  | .inside l =>
    if c = '"' then ⟨r.labels ++ [l], .outside⟩
    else if c = '\\' then ⟨r.labels, .escape l⟩
    else ⟨r.labels, .inside (l ++ [UInt8.ofNat c.toNat])⟩
  | .escape l =>
    match escaped? c with
    | some b => ⟨r.labels, .inside (l ++ [b])⟩
    | none => ⟨r.labels, .octal l 2 (digitValue c)⟩
  | .octal l left value =>
    if left ≤ 1 then ⟨r.labels, .inside (l ++ [UInt8.ofNat (8 * value + digitValue c)])⟩
    else ⟨r.labels, .octal l (left - 1) (8 * value + digitValue c)⟩

/-- The labels of a text, in order. -/
def labels (text : String) : List (List UInt8) := (text.toList.foldl Reader.step {}).labels

/-- Neighbours, two by two. -/
def pairs {α : Type} : List α → List (α × α)
  | a :: b :: rest => (a, b) :: pairs rest
  | _ => []

/-- What can be written for a byte: a backslash and a sign, a character that stands for itself, or octal digits. -/
theorem escapeByte_cases (b : UInt8) :
    (∃ c, escapeByte b = ['\\', c] ∧ c ≠ '\n' ∧ escaped? c = some b) ∨
    (∃ c, escapeByte b = [c] ∧ c ≠ '\n' ∧ c ≠ '"' ∧ c ≠ '\\' ∧ UInt8.ofNat c.toNat = b) ∨
    escapeByte b = octal b.toNat := by
  by_cases hsign : b = 92 ∨ b = 9 ∨ b = 10 ∨ b = 34
  · left
    rcases hsign with rfl | rfl | rfl | rfl
    · exact ⟨'\\', rfl, by decide, rfl⟩
    · exact ⟨'t', rfl, by decide, rfl⟩
    · exact ⟨'n', rfl, by decide, rfl⟩
    · exact ⟨'"', rfl, by decide, rfl⟩
  · right
    obtain ⟨hbackslash, htab, hnewline, hquote⟩ : b ≠ 92 ∧ b ≠ 9 ∧ b ≠ 10 ∧ b ≠ 34 := by simpa using hsign
    rw [escapeByte, if_neg hbackslash, if_neg htab, if_neg hnewline, if_neg hquote]
    split
    · rename_i hprintable
      left
      -- the character has the byte as its number, so it is none of those that are written otherwise
      have hvalue : (Char.ofNat b.toNat).toNat = b.toNat := by
        rw [Char.ofNat, dif_pos (Or.inl (by omega))]
        rfl
      have hne : ∀ k : Char, b ≠ UInt8.ofNat k.toNat → Char.ofNat b.toNat ≠ k := by
        rintro k hk rfl
        rw [hvalue, UInt8.ofNat_toNat] at hk
        exact hk rfl
      exact ⟨_, rfl, hne '\n' hnewline, hne '"' hquote, hne '\\' hbackslash, by rw [hvalue, UInt8.ofNat_toNat]⟩
    · exact .inr rfl

namespace Reader

variable (found : List (List UInt8)) (l : List UInt8)

theorem digit_spec : ∀ d < 8, escaped? (Nat.digitChar d) = none ∧ digitValue (Nat.digitChar d) = d := by decide

/-- Three octal digits are the byte they were made of. -/
theorem foldl_octal (b : UInt8) : (octal b.toNat).foldl step ⟨found, .inside l⟩ = ⟨found, .inside (l ++ [b])⟩ := by
  obtain ⟨hfirst, hvalue⟩ := digit_spec (b.toNat / 64 % 8) (Nat.mod_lt _ (by decide))
  obtain ⟨-, hvalue'⟩ := digit_spec (b.toNat / 8 % 8) (Nat.mod_lt _ (by decide))
  obtain ⟨-, hvalue''⟩ := digit_spec (b.toNat % 8) (Nat.mod_lt _ (by decide))
  have hsum : 8 * (8 * (b.toNat / 64 % 8) + b.toNat / 8 % 8) + b.toNat % 8 = b.toNat := by
    have := b.toNat_lt
    omega
  simp [octal, step, hfirst, hvalue, hvalue', hvalue'', hsum]

/-- What is written for a byte is read as the byte. -/
theorem foldl_escapeByte (b : UInt8) :
    (escapeByte b).foldl step ⟨found, .inside l⟩ = ⟨found, .inside (l ++ [b])⟩ := by
  rcases escapeByte_cases b with ⟨c, hwritten, -, hread⟩ | ⟨c, hwritten, -, hquote, hbackslash, hread⟩ | hwritten
  · rw [hwritten]
    simp [step, hread]
  · rw [hwritten]
    simp [step, hquote, hbackslash, hread]
  · rw [hwritten]
    exact foldl_octal found l b

theorem foldl_escapeBytes (bs : List UInt8) : ∀ l,
    (bs.flatMap escapeByte).foldl step ⟨found, .inside l⟩ = ⟨found, .inside (l ++ bs)⟩ := by
  induction bs with
  | nil => simp
  | cons b bs ih =>
    intro l
    rw [List.flatMap_cons, List.foldl_append, foldl_escapeByte, ih, List.append_assoc, List.singleton_append]

/-- Nothing is read outside of quotes. -/
theorem foldl_outside : ∀ {cs : List Char}, '"' ∉ cs → cs.foldl step ⟨found, .outside⟩ = ⟨found, .outside⟩
  | [], _ => rfl
  | c :: cs, h => by
      have hc : c ≠ '"' := fun heq => h (heq ▸ List.mem_cons_self)
      have hstep : step ⟨found, .outside⟩ c = ⟨found, .outside⟩ := by simp [step, hc]
      rw [List.foldl_cons, hstep, foldl_outside fun hmem => h (List.mem_cons_of_mem c hmem)]

end Reader

/-! ### Lines -/

theorem newline_not_mem_octal (n : Nat) : '\n' ∉ octal n := by
  have hdigit : ∀ d < 8, '\n' ≠ Nat.digitChar d := by decide
  simp [octal, hdigit _ (Nat.mod_lt _ (by decide : 0 < 8))]

theorem newline_not_mem_escapeByte (b : UInt8) : '\n' ∉ escapeByte b := by
  rcases escapeByte_cases b with ⟨c, hwritten, hnewline, -⟩ | ⟨c, hwritten, hnewline, -⟩ | hwritten
  · simp [hwritten, hnewline.symm]
  · simp [hwritten, hnewline.symm]
  · rw [hwritten]
    exact newline_not_mem_octal b.toNat

/-! ### Ways to write labels -/

/-- The text is written so that it can be read between quotes: without a line end, and byte by byte. -/
structure Legible (escape : String → String) (s : String) : Prop where
  oneLine : '\n' ∉ (escape s).toList
  read : ∀ found l, (escape s).toList.foldl Reader.step ⟨found, .inside l⟩ = ⟨found, .inside (l ++ bytes s)⟩

theorem legible_escape (s : String) : Legible escape s := by
  refine ⟨fun hmem => ?_, fun found l => ?_⟩
  · rw [escape_toList, List.mem_flatMap] at hmem
    obtain ⟨b, -, hb⟩ := hmem
    exact newline_not_mem_escapeByte b hb
  · rw [escape_toList, Reader.foldl_escapeBytes]

/-- A label between quotes is read as the label. -/
theorem Legible.foldl_quoted {escape : String → String} {s : String} (h : Legible escape s)
    (found : List (List UInt8)) (rest : List Char) :
    ('"' :: ((escape s).toList ++ '"' :: rest)).foldl Reader.step ⟨found, .outside⟩ =
      rest.foldl Reader.step ⟨found ++ [bytes s], .outside⟩ := by
  rw [List.foldl_cons, List.foldl_append, Reader.step]
  simp only [if_true, h.read, List.nil_append, List.foldl_cons]
  simp [Reader.step]

end CallGraphs.Dot

namespace CallGraphs.CallGraph

open NamespaceFilter (bytes bytes_injective)

/-! ### DOT graphs -/

variable {escape : String → String}

/-- The line of an edge between labels. -/
def dotLine (escape : String → String) (x : String × String) : String :=
  "  \"" ++ escape x.1 ++ "\" -> \"" ++ escape x.2 ++ "\"\n"

/-- The labels of caller and callee of an edge. -/
def labelsOf (p : Program) (e : Edge) : String × String :=
  (label (p.methodName e.caller), label (p.methodName e.callee))

/-- The labels of caller and callee of the first `n` edges. -/
def labelPairs (g : CallGraph) (p : Program) (n : Nat) : List (String × String) := (g.edges.take n).map (labelsOf p)

/-- The labels of the first `n` edges can be read. -/
def LegibleBy (escape : String → String) (g : CallGraph) (p : Program) (n : Nat) : Prop :=
  ∀ x ∈ g.labelPairs p n, Dot.Legible escape x.1 ∧ Dot.Legible escape x.2

/-- The lines of some edges, one after the other. -/
def dotLines (escape : String → String) (l : List (String × String)) : List Char :=
  l.flatMap fun x => (dotLine escape x).toList

theorem toList_dotLine (x : String × String) : (dotLine escape x).toList =
    ' ' :: ' ' :: '"' :: ((escape x.1).toList ++ '"' :: ' ' :: '-' :: '>' :: ' ' :: '"' ::
      ((escape x.2).toList ++ '"' :: ['\n'])) := by
  simp [dotLine]

/-- The loop that counts its edges writes the first ones, up to the limit. -/
theorem toList_dotEdges (p : Program) (limit : Nat) : ∀ {edges : List Edge} {index : Nat}, index ≤ limit →
    (dotEdges escape p limit index edges).toList = dotLines escape ((edges.take (limit - index)).map (labelsOf p))
  | [], _, _ => by simp [dotEdges, dotLines]
  | e :: edges, index, hindex => by
      rw [dotEdges]
      by_cases hlimit : index = limit
      · simp [hlimit, dotLines]
      · have hnext : limit - index = (limit - (index + 1)) + 1 := by omega
        rw [if_neg (by simpa using hlimit), String.toList_append, toList_dotEdges p limit (by omega), hnext,
          List.take_succ_cons, List.map_cons, dotLines, dotLines, List.flatMap_cons]
        rfl

/-- A DOT graph is made of the labels alone. -/
theorem toList_dotBy (escape : String → String) (g : CallGraph) (p : Program) (n : Nat) :
    (g.dotBy escape p n).toList =
      "digraph G \x7b\n".toList ++ (dotLines escape (g.labelPairs p n) ++ "\x7d\n".toList) := by
  rw [dotBy, String.toList_append, String.toList_append, toList_dotEdges p n (Nat.zero_le n), List.append_assoc]
  rfl

theorem count_dotLine {x : String × String} (h : Dot.Legible escape x.1 ∧ Dot.Legible escape x.2) :
    (dotLine escape x).toList.count '\n' = 1 := by
  have hcaller := List.count_eq_zero.mpr h.1.oneLine
  have hcallee := List.count_eq_zero.mpr h.2.oneLine
  simp [toList_dotLine, List.count_append, hcaller, hcallee]

theorem count_dotLines {l : List (String × String)}
    (h : ∀ x ∈ l, Dot.Legible escape x.1 ∧ Dot.Legible escape x.2) : (dotLines escape l).count '\n' = l.length := by
  induction l with
  | nil => rfl
  | cons x l ih =>
    obtain ⟨hx, hl⟩ := List.forall_mem_cons.mp h
    rw [dotLines, List.flatMap_cons, List.count_append, count_dotLine hx, ← dotLines, ih hl, List.length_cons,
      Nat.add_comm]

theorem foldl_dotLine (found : List (List UInt8)) {x : String × String}
    (h : Dot.Legible escape x.1 ∧ Dot.Legible escape x.2) :
    (dotLine escape x).toList.foldl Dot.Reader.step ⟨found, .outside⟩ =
      ⟨found ++ [bytes x.1, bytes x.2], .outside⟩ := by
  have hindent : ∀ cs, (' ' :: ' ' :: cs).foldl Dot.Reader.step ⟨found, .outside⟩ =
      cs.foldl Dot.Reader.step ⟨found, .outside⟩ := fun _ => rfl
  have harrow : ∀ found cs, (' ' :: '-' :: '>' :: ' ' :: cs).foldl Dot.Reader.step ⟨found, .outside⟩ =
      cs.foldl Dot.Reader.step ⟨found, .outside⟩ := fun _ _ => rfl
  rw [toList_dotLine, hindent, h.1.foldl_quoted, harrow, h.2.foldl_quoted, Dot.Reader.foldl_outside _ (by decide),
    List.append_assoc, List.singleton_append]

theorem foldl_dotLines {l : List (String × String)}
    (h : ∀ x ∈ l, Dot.Legible escape x.1 ∧ Dot.Legible escape x.2) : ∀ found,
    (dotLines escape l).foldl Dot.Reader.step ⟨found, .outside⟩ =
      ⟨found ++ l.flatMap fun x => [bytes x.1, bytes x.2], .outside⟩ := by
  induction l with
  | nil => simp [dotLines]
  | cons x l ih =>
    intro found
    obtain ⟨hx, hl⟩ := List.forall_mem_cons.mp h
    rw [dotLines, List.flatMap_cons, List.foldl_append, foldl_dotLine found hx, ← dotLines, ih hl, List.flatMap_cons,
      List.append_assoc]

theorem pairs_flatMap {α β : Type} (f : α → β) (l : List (α × α)) :
    Dot.pairs (l.flatMap fun x => [f x.1, f x.2]) = l.map fun x => (f x.1, f x.2) := by
  induction l with
  | nil => rfl
  | cons x l ih => rw [List.flatMap_cons, List.map_cons, ← ih]; rfl

/-- What a DOT graph says of the edges that it shows: one line for each of them, one before and one after, and the
    labels of caller and callee. -/
structure Shows (g : CallGraph) (p : Program) (n : Nat) (text : String) : Prop where
  lines : text.toList.count '\n' = min n g.edges.length + 2
  ended : text.toList.getLast? = some '\n'
  labels : Dot.pairs (Dot.labels text) = (g.labelPairs p n).map fun x => (bytes x.1, bytes x.2)

theorem shows_dotBy {g : CallGraph} {p : Program} {n : Nat} (h : g.LegibleBy escape p n) :
    g.Shows p n (g.dotBy escape p n) where
  lines := by
    have hlength : (g.labelPairs p n).length = min n g.edges.length := by
      rw [labelPairs, List.length_map, List.length_take]
    have hends : "digraph G \x7b\n".toList.count '\n' = 1 ∧ "\x7d\n".toList.count '\n' = 1 := by decide
    rw [toList_dotBy, List.count_append, List.count_append, count_dotLines h, hlength, hends.1, hends.2]
    omega
  ended := by
    rw [toList_dotBy, List.getLast?_append, List.getLast?_append]
    rfl
  labels := by
    rw [Dot.labels, toList_dotBy, List.foldl_append, List.foldl_append, Dot.Reader.foldl_outside _ (by decide),
      foldl_dotLines h, Dot.Reader.foldl_outside _ (by decide), List.nil_append, pairs_flatMap]

theorem dotBy_eq_iff {g g' : CallGraph} {p p' : Program} {n n' : Nat} (h : g.LegibleBy escape p n)
    (h' : g'.LegibleBy escape p' n') :
    g.dotBy escape p n = g'.dotBy escape p' n' ↔ g.labelPairs p n = g'.labelPairs p' n' := by
  constructor
  · intro heq
    -- what is read from one text is read from the other, and bytes tell texts apart
    have hread := (shows_dotBy h).labels.symm.trans ((congrArg _ (congrArg _ heq)).trans (shows_dotBy h').labels)
    refine List.map_injective_iff.mpr (fun x y hxy => ?_) hread
    obtain ⟨hcaller, hcallee⟩ := Prod.mk.inj hxy
    exact Prod.ext (bytes_injective hcaller) (bytes_injective hcallee)
  · intro heq
    exact String.toList_injective (by rw [toList_dotBy, toList_dotBy, heq])

theorem legibleBy_escape (g : CallGraph) (p : Program) (n : Nat) : g.LegibleBy Dot.escape p n :=
  fun x _ => ⟨Dot.legible_escape x.1, Dot.legible_escape x.2⟩

/-- A DOT graph shows the first edges: their labels can be read back, so that two DOT graphs are the same text exactly
    if they show the same labels in the same order. It need not be this way of writing labels: every way does that
    keeps the labels of the graphs legible. -/
theorem dot_tells_labels (g : CallGraph) (p : Program) (n : Nat) :
    (g.Shows p n (g.dot p n) ∧ ∀ (g' : CallGraph) (p' : Program) (n' : Nat),
      g.dot p n = g'.dot p' n' ↔ g.labelPairs p n = g'.labelPairs p' n') ∧
    ∀ escape, g.LegibleBy escape p n →
      g.Shows p n (g.dotBy escape p n) ∧ ∀ (g' : CallGraph) (p' : Program) (n' : Nat), g'.LegibleBy escape p' n' →
        (g.dotBy escape p n = g'.dotBy escape p' n' ↔ g.labelPairs p n = g'.labelPairs p' n') := by
  refine ⟨⟨?_, fun g' p' n' => ?_⟩, fun escape h => ⟨?_, fun g' p' n' h' => ?_⟩⟩
  · exact shows_dotBy (g.legibleBy_escape p n)
  · exact dotBy_eq_iff (g.legibleBy_escape p n) (g'.legibleBy_escape p' n')
  · exact shows_dotBy h
  · exact dotBy_eq_iff h h'

end CallGraphs.CallGraph
