import CallGraphs.Proofs.Loading
import CallGraphs.Proofs.Naming

/-! Labels of methods. A label is cut out of a full name, behind the first blank and before the last opening
    parenthesis, as if the return type ended at the one and the method name at the other. So what a return type has
    behind its first blank stays in front of the label, and what the parameter types have before their last opening
    parenthesis stays at its end. A label names its method exactly if there is no such blank and no such parenthesis
    (`label_names_iff`); blanks and parentheses in the names of the type and of the method do no harm. -/

namespace CallGraphs

namespace Text

variable {c : Char} {cs : List Char}

/-! ### Cuts -/

/-- A text without the separator is cut off as a whole. -/
theorem afterFirst_append_cons (h : c ∉ cs) (rest : List Char) : afterFirst c (cs ++ c :: rest) = rest := by
  have hall : ∀ x ∈ cs, (x != c) = true := fun x hx => bne_iff_ne.mpr fun heq => h (heq ▸ hx)
  rw [afterFirst, if_pos (by simp), List.dropWhile_append_of_pos hall, List.dropWhile_cons, if_neg (by simp),
    List.tail_cons]

/-- A text with the separator is cut within. -/
theorem afterFirst_append (h : c ∈ cs) (rest : List Char) : afterFirst c (cs ++ rest) = afterFirst c cs ++ rest := by
  obtain ⟨front, back, rfl, hfront⟩ := List.eq_append_cons_of_mem h
  rw [List.append_assoc, List.cons_append, afterFirst_append_cons hfront, afterFirst_append_cons hfront]

theorem beforeLast_append (h : c ∈ cs) (front : List Char) : beforeLast c (front ++ cs) = front ++ beforeLast c cs := by
  rw [beforeLast, List.reverse_append, afterFirst_append (List.mem_reverse.mpr h), List.reverse_append,
    List.reverse_reverse, beforeLast]

theorem afterFirst_concat_eq_nil : afterFirst c (cs ++ [c]) = [] ↔ c ∉ cs := by
  refine ⟨fun hnil hmem => ?_, fun h => afterFirst_append_cons h []⟩
  rw [afterFirst_append hmem] at hnil
  exact List.append_ne_nil_of_right_ne_nil _ (List.cons_ne_nil c []) hnil

theorem beforeLast_cons_eq_nil : beforeLast c (c :: cs) = [] ↔ c ∉ cs := by
  rw [beforeLast, List.reverse_eq_nil_iff, List.reverse_cons, afterFirst_concat_eq_nil, List.mem_reverse]

theorem mem_join (h : c ≠ ',') : ∀ {l : List String}, c ∈ (join "," l).toList ↔ ∃ s ∈ l, c ∈ s.toList
  | [] => by simp [join]
  | [s] => by simp [join]
  | s :: t :: l => by
      have hrest := mem_join h (l := t :: l)
      simp only [join, String.toList_append, List.mem_append, hrest]
      simp [h]

end Text

namespace Signature

/-! ### What is cut, and what is left -/

/-- What is left of a return type and the blank after it. -/
def resultRest (s : Signature) : List Char := Text.afterFirst ' ' (s.result.toList ++ [' '])

/-- What is left of the parameter list, from its opening parenthesis on. -/
def paramsRest (s : Signature) : List Char :=
  Text.beforeLast '(' ('(' :: ((Text.join "," s.params).toList ++ [')']))

theorem resultRest_eq_nil {s : Signature} : s.resultRest = [] ↔ ' ' ∉ s.result.toList :=
  Text.afterFirst_concat_eq_nil

theorem paramsRest_eq_nil {s : Signature} : s.paramsRest = [] ↔ ∀ t ∈ s.params, '(' ∉ t.toList := by
  rw [paramsRest, Text.beforeLast_cons_eq_nil, List.mem_append, Text.mem_join (by decide)]
  simp

theorem label_fullName (s : Signature) (owner : String) :
    CallGraph.label (s.fullName owner) =
      String.ofList s.resultRest ++ (owner ++ "::" ++ s.name) ++ String.ofList s.paramsRest ++ "()" := by
  have hblank : Text.afterFirst ' ' (s.fullName owner).toList =
      s.resultRest ++ (owner.toList ++ ':' :: ':' :: s.name.toList) ++
        '(' :: ((Text.join "," s.params).toList ++ [')']) := by
    rw [toList_fullName, List.append_cons, Text.afterFirst_append (by simp), resultRest]
    simp only [List.append_assoc, List.cons_append]
  rw [CallGraph.label, CallGraph.shortName, hblank, Text.beforeLast_append List.mem_cons_self, ← paramsRest]
  apply String.toList_injective
  simp

theorem label_fullName_eq_iff {s : Signature} {owner : String} :
    CallGraph.label (s.fullName owner) = owner ++ "::" ++ s.name ++ "()" ↔
      ' ' ∉ s.result.toList ∧ ∀ t ∈ s.params, '(' ∉ t.toList := by
  rw [← resultRest_eq_nil, ← paramsRest_eq_nil, label_fullName]
  constructor
  · intro heq
    -- the label is longer than the name by what is left
    have hlength := congrArg String.length heq
    simp only [String.length_append, String.length_ofList] at hlength
    exact ⟨List.eq_nil_of_length_eq_zero (by omega), List.eq_nil_of_length_eq_zero (by omega)⟩
  · rintro ⟨hresult, hparams⟩
    rw [hresult, hparams]
    simp

end Signature

/-! ### Methods of a program -/

theorem Program.Loaded.named {p : Program} (h : p.Loaded) : p.Named := by
  obtain ⟨q, -, rfl⟩ := h.exists_edited
  exact q.finalize_named

namespace CallGraph

/-- The label of a method of a loaded program. It holds the full name of the type and the name of the method, between
    what is left of the return type and of the parameter list; nothing is left, and the label names the method, exactly
    if the return type has no blank and no parameter type has an opening parenthesis. -/
theorem label_names_iff (p : Program) (hp : p.Loaded) (m : MethodId) (x : MethodDef) (hx : p.methods[m]? = some x) :
    ∃ ty, p.types[x.owner]? = some ty ∧
    label (p.methodName m) = String.ofList x.resultRest ++ (ty.fullName ++ "::" ++ x.name) ++
      String.ofList x.paramsRest ++ "()" ∧
    (label (p.methodName m) = ty.fullName ++ "::" ++ x.name ++ "()" ↔
      ' ' ∉ x.result.toList ∧ ∀ t ∈ x.params, '(' ∉ t.toList) := by
  have howner : x.owner < p.types.size :=
    hp.finalized.wellFormed.owner m x.owner (by rw [Program.ownerOf?, hx, Option.map_some])
  have htype : p.types[x.owner]? = some p.types[x.owner] := Array.getElem?_eq_getElem howner
  have hname : p.methodName m = x.toSignature.fullName p.types[x.owner].fullName := by
    rw [Program.methodName, hx, Option.bind_some, hp.named m x hx, Option.getD_some, Program.typeName, htype,
      Option.map_some, Option.getD_some]
  rw [hname]
  exact ⟨_, htype, x.toSignature.label_fullName _, Signature.label_fullName_eq_iff⟩

/-- A method with a blank and a parenthesis in its own name and in the name of its type, a parenthesis in its return
    type and a blank in a parameter type. -/
def crowdedText : String :=
  "\x7b\"Modules\":[\x7b\"Name\":\"A\"," ++ "\"Types\":[\x7b\"Name\":\"T (of\"," ++ "\"Methods\":[" ++
    "\x7b\"Name\":\"f (x\",\"ReturnType\":\"R(1)\"," ++ "\"Parameters\":[\"A B\",\"C\"]\x7d]\x7d]\x7d]\x7d"

/-- Its value. -/
def crowded : Json :=
  .obj [("Modules", .arr [.obj [("Name", .str "A"), ("Types", .arr [.obj [("Name", .str "T (of"), ("Methods", .arr [
    .obj [("Name", .str "f (x"), ("ReturnType", .str "R(1)"), ("Parameters", .arr [.str "A B", .str "C"])]])]])]])]

/-- The method in the program. -/
def crowdedMethod : MethodDef where
  name := "f (x"
  params := ["A B", "C"]
  result := "R(1)"
  owner := 0
  fullName := some "R(1) T (of::f (x(A B,C)"

theorem label_names_iff_crowded : ∃ d, Program.ofText Json.ofText? "crowded" crowdedText = .ok d ∧ d.program.Loaded ∧
    d.program.methods[0]? = some crowdedMethod ∧
    (' ' ∉ crowdedMethod.result.toList ∧ ∀ t ∈ crowdedMethod.params, '(' ∉ t.toList) ∧
    label (d.program.methodName 0) = "T (of::f (x()" := by
  have hvalue : Json.ofText? crowdedText = some crowded := by
    unfold crowdedText
    rw [Description.ofText?_eq]
    simp only [String.toList_append, String.reduceToList]
    rfl
  obtain ⟨d, hd, hfacts⟩ := Description.exists_ofText hvalue (by decide +kernel :
    (Program.ofDocument "crowded" crowded).toOption.any (fun d => decide (
      d.program.methods[0]? = some crowdedMethod ∧ d.program.types[0]?.map (·.fullName) = some "T (of")) = true)
  obtain ⟨hmethod, htype⟩ := of_decide_eq_true hfacts
  have hloaded : d.program.Loaded := .text hd
  have hplain : ' ' ∉ crowdedMethod.result.toList ∧ ∀ t ∈ crowdedMethod.params, '(' ∉ t.toList := by decide +kernel
  obtain ⟨ty, hty, -, hiff⟩ := label_names_iff d.program hloaded 0 crowdedMethod hmethod
  have howner : d.program.types[0]? = some ty := hty
  have hname : ty.fullName = "T (of" := by
    rw [howner] at htype
    exact Option.some.inj htype
  rw [hname] at hiff
  exact ⟨d, hd, hloaded, hmethod, hplain, hiff.mpr hplain⟩

/-- A setter with a modifier at its return type, and a method that takes a function pointer. -/
def boxText : String :=
  "\x7b\"Modules\":[\x7b\"Name\":\"App.dll\"," ++ "\"Types\":[\x7b\"Name\":\"Box\",\"Namespace\":\"App\"," ++
    "\"Methods\":[" ++ "\x7b\"Name\":\"set_Size\"," ++
      "\"ReturnType\":\"System.Void " ++ "modreq(System.Runtime." ++ "CompilerServices.IsExternalInit)\"," ++
      "\"Parameters\":[\"System.Int32\"]," ++ "\"IsSetter\":true,\"Body\":[]\x7d," ++
    "\x7b\"Name\":\"Each\"," ++ "\"Parameters\":[\"method System.Void *(System.Int32)\"]," ++
      "\"Body\":[]\x7d" ++ "]\x7d]\x7d]\x7d"

/-- Its value. -/
def box : Json :=
  .obj [("Modules", .arr [.obj [("Name", .str "App.dll"), ("Types", .arr [
    .obj [("Name", .str "Box"), ("Namespace", .str "App"), ("Methods", .arr [
      .obj [("Name", .str "set_Size"),
        ("ReturnType", .str "System.Void modreq(System.Runtime.CompilerServices.IsExternalInit)"),
        ("Parameters", .arr [.str "System.Int32"]), ("IsSetter", .bool true), ("Body", .arr [])],
      .obj [("Name", .str "Each"), ("Parameters", .arr [.str "method System.Void *(System.Int32)"]),
        ("Body", .arr [])]])]])]])]

/-- A modifier gets in front of the label, and a function pointer is cut open at its end. -/
theorem not_label_names_box : ∃ d, Program.ofText Json.ofText? "box" boxText = .ok d ∧
    d.program.typeName 0 = "App.Box" ∧
    d.program.methods.toList.map (fun x => (x.owner, x.name)) = [(0, "set_Size"), (0, "Each")] ∧
    label (d.program.methodName 0) = "modreq(System.Runtime.CompilerServices.IsExternalInit) App.Box::set_Size()" ∧
    label (d.program.methodName 0) ≠ "App.Box::set_Size()" ∧
    label (d.program.methodName 1) = "App.Box::Each(method System.Void *()" ∧
    label (d.program.methodName 1) ≠ "App.Box::Each()" := by
  have hvalue : Json.ofText? boxText = some box := by
    unfold boxText
    rw [Description.ofText?_eq]
    simp only [String.toList_append, String.reduceToList]
    set_option maxRecDepth 2000 in rfl
  obtain ⟨d, hd, hfacts⟩ := Description.exists_ofText hvalue (by decide +kernel :
    (Program.ofDocument "box" box).toOption.any (fun d => decide (d.program.typeName 0 = "App.Box" ∧
      d.program.methods.toList.map (fun x => (x.owner, x.name)) = [(0, "set_Size"), (0, "Each")] ∧
      label (d.program.methodName 0) = "modreq(System.Runtime.CompilerServices.IsExternalInit) App.Box::set_Size()" ∧
      label (d.program.methodName 1) = "App.Box::Each(method System.Void *()")) = true)
  obtain ⟨htype, hmethods, hsetter, heach⟩ := of_decide_eq_true hfacts
  exact ⟨d, hd, htype, hmethods, hsetter, by rw [hsetter]; decide +kernel, heach, by rw [heach]; decide +kernel⟩

end CallGraph

end CallGraphs
