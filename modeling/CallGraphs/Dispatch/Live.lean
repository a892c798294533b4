import CallGraphs.Program.Basic

/-! The types known to be instantiated, each once, in the order in which they became known. -/

namespace CallGraphs

/-- Instantiated types, in the order in which they became known. -/
abbrev LiveTypes := List TypeId

namespace LiveTypes

/-- Note an instantiated type; also says whether it is new. -/
def add (live : LiveTypes) (t : TypeId) : Bool × LiveTypes :=
  if t ∈ live then (false, live) else (true, live ++ [t])

theorem add_of_mem {live : LiveTypes} {t : TypeId} (h : t ∈ live) : live.add t = (false, live) := if_pos h

theorem add_of_not_mem {live : LiveTypes} {t : TypeId} (h : t ∉ live) :
    live.add t = (true, live ++ [t]) := if_neg h

end LiveTypes

end CallGraphs
