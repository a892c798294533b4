import CallGraphs.Program.Basic

/-! When one method can stand in for another at a virtual call. Name and parameter types must agree, and the
    return type may be a type derived from the other's. A method may also name the method that it implements.
    Of the methods of one type the first that qualifies counts. -/

namespace CallGraphs.Program

/-- Whether a method that returns `result` can replace one that returns `expected`: the types are equal, or
    both are part of the program and the first derives from the second. -/
def resultFits (p : Program) (result expected : String) : Bool :=
  result == expected ||
    match p.typeNamed? result, p.typeNamed? expected with
    | some t, some _ => p.derivesFrom t expected
    | _, _ => false

/-- Whether `m` has the name and parameters of `target` and a return type that fits. -/
def fits (p : Program) (m target : MethodDef) : Bool :=
  m.name == target.name && m.params == target.params && p.resultFits m.result target.result

/-- Whether `m` declares that it implements the method `target`: one of its overrides resolves to it or,
    failing that, spells its full name. -/
def implementsByName (p : Program) (m : MethodDef) (target : MethodId) : Bool :=
  m.overrides.any fun r =>
    p.resolve? r == some target || (p.methods[target]?.bind (·.fullName)) == some r.text

/-- The method of the type `t` that overrides `target`. A method that opens a new slot hides the method of
    the base type and overrides nothing. -/
def override? (p : Program) (target : MethodDef) (t : TypeId) : Option MethodId :=
  p.firstMethod? t fun m => m.isVirtual && !m.isAbstract && !m.isNewSlot && p.fits m target

/-- The method of the type `t` that implements the interface method `target`, with definition `d`. -/
def implementation? (p : Program) (target : MethodId) (d : MethodDef) (t : TypeId) : Option MethodId :=
  p.firstMethod? t fun m =>
    !m.isAbstract && !m.isStatic && (p.fits m d || p.implementsByName m target)

end CallGraphs.Program
