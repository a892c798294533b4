/-! What can be wrong with the shape of a program description. Each fault names its cause and, where there is
    one, the place in the description; the wording is in `SchemaError.message` alone. -/

namespace CallGraphs

/-- A place in a description. -/
inductive Place where
  | entryPoint (moduleName : String)
  | type (name : String)
  | method (owner name : String)
  | override (owner name : String)
  | operand (mnemonic owner name : String)
  deriving DecidableEq

/-- The words for a place. -/
def Place.text : Place → String
  | .entryPoint m => s!"entry point of module '{m}'"
  | .type t => s!"type '{t}'"
  | .method t m => s!"method '{t}::{m}'"
  | .override t m => s!"override of method '{t}::{m}'"
  | .operand op t m => s!"operand of {op} in method '{t}::{m}'"

/-- A description that is well-formed JSON and breaks a rule of the format. -/
inductive SchemaError where
  | notAnObject
  | noModules
  | moduleNotObject
  | moduleUnnamed
  | typeNotObject (moduleName : String)
  | typeUnnamed
  | methodNotObject (place : Place)
  | nestedNotObject (place : Place)
  | methodUnnamed (owner : String)
  | unknownVisibility (word : String) (place : Place)
  | overrideNotObject (place : Place)
  | incompleteMachine (place : Place)
  | unknownMachine (kind : String) (place : Place)
  | bodyNotArray (place : Place)
  | instructionNotObject (place : Place)
  | noOpCode (place : Place)
  | noMethodOperand (mnemonic : String) (place : Place)
  | noTypeOperand (mnemonic : String) (place : Place)
  | incompleteReference (place : Place)
  | notArray (key : String) (place : Place)
  | notStrings (key : String) (place : Place)
  | notBoolean (key : String) (place : Place)
  deriving DecidableEq

/-- The wording of a fault. -/
def SchemaError.message : SchemaError → String
  | .notAnObject => "top-level value must be an object"
  | .noModules => "missing 'Modules' array"
  | .moduleNotObject => "module entries must be objects"
  | .moduleUnnamed => "module without a 'Name'"
  | .typeNotObject m => s!"type entries of module '{m}' must be objects"
  | .typeUnnamed => "type without a 'Name'"
  | .methodNotObject p => s!"method entries of {p.text} must be objects"
  | .nestedNotObject p => s!"nested type entries of {p.text} must be objects"
  | .methodUnnamed t => s!"method of type '{t}' without a 'Name'"
  | .unknownVisibility w p => s!"unknown visibility '{w}' of {p.text}"
  | .overrideNotObject p => s!"override entries of {p.text} must be objects"
  | .incompleteMachine p => s!"state machine of {p.text} needs a 'Kind' and a 'Type'"
  | .unknownMachine k p => s!"unknown state machine kind '{k}' of {p.text}"
  | .bodyNotArray p => s!"'Body' of {p.text} must be an array"
  | .instructionNotObject p => s!"instructions of {p.text} must be objects"
  | .noOpCode p => s!"instruction without 'OpCode' in {p.text}"
  | .noMethodOperand w p => s!"{w} without a 'Method' operand in {p.text}"
  | .noTypeOperand w p => s!"{w} without a 'Type' operand in {p.text}"
  | .incompleteReference p => s!"method reference needs 'DeclaringType' and 'Name' ({p.text})"
  | .notArray k p => s!"'{k}' of {p.text} must be an array"
  | .notStrings k p => s!"'{k}' of {p.text} must hold strings"
  | .notBoolean k p => s!"'{k}' of {p.text} must be a boolean"

end CallGraphs
