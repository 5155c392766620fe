import BlockMachine.Code.Instr

/-!
# Record form of instructions
An instruction as the name of its kind and its named fields, the form that traces use.
-/

namespace BlockMachine
set_option autoImplicit false

def Label.record (l : Label) : String := s!"CodeId({l.index})"

def optionRecord : Option String → String
  | some s => "Some(" ++ s ++ ")"
  | none => "None"

namespace Instr

def kindName : Instr → String
  | .echo _ => "Echo"
  | .assign _ _ _ => "Assign"
  | .binary op _ _ _ => op.name
  | .constFetch _ _ _ => "ConstFetch"
  | .jump _ => "Jump"
  | .branch _ _ _ => "JumpIf"

def fields : Instr → List (String × String)
  | .echo value => [("value", toString value)]
  | .assign result var expr =>
    [("result", toString result), ("var", toString var), ("expr", toString expr)]
  | .binary _ result left right =>
    [("result", toString result), ("left", toString left), ("right", toString right)]
  | .constFetch result name qualified =>
    [("result", toString result), ("name", toString name),
      ("ns_name", optionRecord (qualified.map toString))]
  | .jump target => [("target", target.record)]
  | .branch cond ifTrue ifFalse =>
    [("cond", toString cond), ("if_true", ifTrue.record), ("if_false", ifFalse.record)]

def record (i : Instr) : String :=
  i.kindName ++ " \x7b " ++ ", ".intercalate (i.fields.map fun f => f.1 ++ ": " ++ f.2) ++ " \x7d"

end Instr

end BlockMachine
