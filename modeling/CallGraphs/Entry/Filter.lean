/-! Namespace filters. A filter is a list of namespaces; it accepts each of them and everything below, where
    a dot divides the levels. The empty filter accepts every namespace. What the filter does with a text it
    does with any list of signs, such as the bytes of a text. -/

namespace CallGraphs

/-- The namespaces that a filter names; none means no restriction. -/
abbrev NamespaceFilter := List String

namespace NamespaceFilter

/-- Whether `ns` is the namespace `root` or lies below it: then it begins with the root, is longer, and goes on with a
    dot. -/
def covers {α : Type} [BEq α] (dot : α) (root ns : List α) : Bool :=
  ns == root || (root.isPrefixOf ns && decide (root.length < ns.length) && ns[root.length]? == some dot)

/-- Whether one of the roots covers a namespace; without roots there is no restriction. -/
def admits {α : Type} [BEq α] (dot : α) (roots : List (List α)) (ns : List α) : Bool :=
  roots.isEmpty || roots.any fun root => covers dot root ns

/-- Whether the filter accepts a namespace. -/
def accepts (filter : NamespaceFilter) (ns : String) : Bool :=
  admits '.' (filter.map String.toList) ns.toList

end NamespaceFilter

end CallGraphs
