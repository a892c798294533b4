import CallGraphs.Text

/-! Methods as a program description declares them: a signature, who may call the method, how it takes part
    in virtual dispatch, and the body as a list of instructions. Only the instructions that name a method or
    create values of a type matter to a call graph; all others are one case. Types and methods are named by
    text here; binding the names to definitions is the program's work. -/

namespace CallGraphs

/-! ### Signatures and references -/

/-- Name, parameter types and return type: what two methods of one type must differ in. -/
structure Signature where
  name : String
  params : List String := []
  result : String := "System.Void"
  deriving DecidableEq

namespace Signature

/-- The signature with its declaring type, `Result Owner::Name(P1,P2)`. -/
def fullName (s : Signature) (owner : String) : String :=
  s.result ++ " " ++ owner ++ "::" ++ s.name ++ "(" ++ Text.join "," s.params ++ ")"

/-- Constructors and type initialisers have reserved names. -/
def isConstructor (s : Signature) : Bool := s.name == ".ctor" || s.name == ".cctor"

end Signature

/-- A method named by its declaring type and signature. -/
structure MethodRef extends Signature where
  owner : String
  deriving DecidableEq

/-- The reference as text. -/
def MethodRef.text (r : MethodRef) : String := r.fullName r.owner

/-! ### Who may call -/

/-- From where a method can be called. -/
inductive Visibility where
  | privateAccess | familyAndAssembly | assembly | family | familyOrAssembly | publicAccess
  deriving DecidableEq

namespace Visibility

/-- The visibility that a word stands for, in any case. -/
def ofWord? (s : String) : Option Visibility :=
  match Text.lower s with
  | "private" => some .privateAccess
  | "famandassem" => some .familyAndAssembly
  | "private protected" => some .familyAndAssembly
  | "assembly" => some .assembly
  | "internal" => some .assembly
  | "family" => some .family
  | "protected" => some .family
  | "famorassem" => some .familyOrAssembly
  | "protected internal" => some .familyOrAssembly
  | "public" => some .publicAccess
  | _ => none

/-- The name of a visibility. -/
def name : Visibility → String
  | .privateAccess => "Private"
  | .familyAndAssembly => "FamilyAndAssembly"
  | .assembly => "Assembly"
  | .family => "Family"
  | .familyOrAssembly => "FamilyOrAssembly"
  | .publicAccess => "Public"

/-- Whether code outside the module can call the method, directly or from a derived type. -/
def isAccessible : Visibility → Bool
  | .publicAccess | .family | .familyOrAssembly => true
  | _ => false

end Visibility

/-! ### Instructions -/

/-- Operations on a method. -/
inductive MethodOp where
  | call | ldftn | callvirt | ldvirtftn | newobj
  deriving DecidableEq

/-- Operations that create values of a type. -/
inductive TypeOp where
  | initobj | newarr
  deriving DecidableEq

/-- What an instruction does, by the kind of its operand. -/
inductive Opcode where
  | onMethod (op : MethodOp)
  | onType (op : TypeOp)
  | other
  deriving DecidableEq

/-- The mnemonic of an operation on a method. -/
def MethodOp.word : MethodOp → String
  | .call => "call"
  | .ldftn => "ldftn"
  | .callvirt => "callvirt"
  | .ldvirtftn => "ldvirtftn"
  | .newobj => "newobj"

/-- The mnemonic of an operation on a type. -/
def TypeOp.word : TypeOp → String
  | .initobj => "initobj"
  | .newarr => "newarr"

namespace Opcode

/-- The operation that a mnemonic stands for, in any case. -/
def ofWord (s : String) : Opcode :=
  match Text.lower s with
  | "call" => .onMethod .call
  | "ldftn" => .onMethod .ldftn
  | "callvirt" => .onMethod .callvirt
  | "ldvirtftn" => .onMethod .ldvirtftn
  | "newobj" => .onMethod .newobj
  | "initobj" => .onType .initobj
  | "newarr" => .onType .newarr
  | _ => .other

/-- The mnemonic. -/
def word : Opcode → String
  | .onMethod op => op.word
  | .onType op => op.word
  | .other => "other"

/-- Whether the operand is a method. -/
def takesMethod : Opcode → Bool
  | .onMethod _ => true
  | _ => false

/-- Whether the operand is a type. -/
def takesType : Opcode → Bool
  | .onType _ => true
  | _ => false

end Opcode

/-- An instruction with its operand. -/
inductive Instruction where
  | onMethod (op : MethodOp) (target : MethodRef)
  | onType (op : TypeOp) (typeName : String)
  | other
  deriving DecidableEq

/-! ### Declarations -/

/-- How a method that stops and resumes was written. -/
inductive ContinuationKind where
  | async | iterator
  deriving DecidableEq

/-- The word for a kind of continuation. -/
def ContinuationKind.word : ContinuationKind → String
  | .async => "async"
  | .iterator => "iterator"

/-- The kind that a word stands for, in any case. -/
def ContinuationKind.ofWord? (s : String) : Option ContinuationKind :=
  match Text.lower s with
  | "async" => some .async
  | "iterator" => some .iterator
  | _ => none

/-- The generated type that carries the real work of a method that stops and resumes. -/
structure Continuation where
  kind : ContinuationKind
  typeName : String
  deriving DecidableEq

/-- A method as declared. -/
structure MethodDecl extends Signature where
  visibility : Visibility := .privateAccess
  isStatic : Bool := false
  isVirtual : Bool := false
  isAbstract : Bool := false
  isNewSlot : Bool := false
  isGetter : Bool := false
  isSetter : Bool := false
  overrides : List MethodRef := []
  body : Option (List Instruction) := none
  continuation : Option Continuation := none
  deriving DecidableEq

namespace MethodDecl

/-- Whether there is a body to look at. -/
def hasBody (m : MethodDecl) : Bool := m.body.isSome

/-- Property getters and setters. -/
def isAccessor (m : MethodDecl) : Bool := m.isGetter || m.isSetter

end MethodDecl

end CallGraphs
