import BlockMachine.Code.Program
import BlockMachine.Text.Quoted

/-!
# Listings
The text of a program for readers: a header, then every block with the blocks that lead to it, its
constants and its instructions. A listing is a sequence of lines, each ended by a line feed.
-/

namespace BlockMachine
set_option autoImplicit false

def spaces (n : Nat) : String := String.ofList (List.replicate n ' ')

def Instr.text (i : Instr) : String :=
  let operands := match i with
    | .echo value => s!"r{value}"
    | .assign result var expr => s!"r{result}, r{var} ← r{expr}"
    | .binary _ result left right => s!"r{result} ← r{left}, r{right}"
    | .constFetch result name (some qualified) => s!"r{result} ← const(r{qualified} | r{name})"
    | .constFetch result name none => s!"r{result} ← const(r{name})"
    | .jump target => s!"→ {target.text}"
    | .branch cond ifTrue ifFalse => s!"r{cond} ? → {ifTrue.text} : → {ifFalse.text}"
  i.mnemonic ++ spaces (12 - i.mnemonic.length) ++ operands

def Value.text : Value → String
  | .unknown => "<unknown>"
  | .string bytes => quoted (Utf8.decode bytes)
  | .integer n => Decimal.text n
  | .boolean b => if b then "true" else "false"

namespace Program

/-- The labels of the blocks with an instruction that targets the given one, in block order and
without repeats. -/
def predecessors (p : Program) (target : Label) : List Label :=
  ((p.blocks.filter fun b => b.instrs.any fun i => i.targets.contains target).map
    (·.label)).eraseDups

def rule : String := String.ofList (List.replicate 40 '═')

def pcText (pc : Nat) : String :=
  String.ofList (List.leftpad 4 '0' (Nat.toDigits 10 pc))

def instrLine (b : CodeBlock) (pc : Nat) (i : Instr) : String :=
  let source := match b.line pc with
    | some n => s!"    ; line {n}"
    | none => ""
  s!"{pcText pc}   {i.text}{source}"

def instrLines (b : CodeBlock) : Nat → List Instr → List String
  | _, [] => []
  | pc, i :: is => instrLine b pc i :: instrLines b (pc + 1) is

def blockLines (p : Program) (b : CodeBlock) : List String :=
  let marker := if p.entry = b.label then "▶ entry" else ""
  let sources := p.predecessors b.label
  [rule, s!" {b.label.text} ({b.origin.text}) {marker}", s!" {b.instrs.length} instructions"]
    ++ (if sources.isEmpty then [] else [" from: " ++ ", ".intercalate (sources.map Label.text)])
    ++ b.constants.map (fun c => s!" const r{c.slot} = {c.value.text}")
    ++ [rule]
    ++ instrLines b 0 b.instrs
    ++ [""]

def lines (p : Program) : List String :=
  ["=== BYTECODE PROGRAM ===",
    s!"entry: {p.entry.text}, {p.blocks.length} blocks, {p.slotCount} slots", ""]
    ++ p.blocks.flatMap p.blockLines

def listing (p : Program) : String := String.join (p.lines.map (· ++ "\n"))

end Program

end BlockMachine
