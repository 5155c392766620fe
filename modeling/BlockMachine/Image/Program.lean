import BlockMachine.Code.Program
import BlockMachine.Image.Format

/-!
# Program images
The binary form of a program: its fields in order, without names. A choice is written as the
number of the alternative before its fields. Bytes after the program are not looked at.
-/

namespace BlockMachine
set_option autoImplicit false

namespace Image

open Format

def operandId : Format OperandId := word.map .mk (·.val)

def blockId : Format BlockId := word.map .mk (·.val)

def label : Format Label := word.map .mk (·.index)

def bytes : Format (List UInt8) := list Format.byte

def value : Format Value where
  write
    | .unknown => halfWord.write 0
    | .string bs => halfWord.write 1 ++ bytes.write bs
    | .integer n => halfWord.write 2 ++ int64.write n
    | .boolean b => halfWord.write 3 ++ bool.write b
  read := do
    match ← halfWord.read with
    | 0 => return .unknown
    | 1 => return .string (← bytes.read)
    | 2 => return .integer (← int64.read)
    | 3 => return .boolean (← bool.read)
    | _ => throw .unknownTag

def operatorTag : Operator → Nat
  | .concat => 2
  | .arithmetic .plus => 3
  | .arithmetic .minus => 4
  | .arithmetic .mul => 5
  | .comparison .smaller => 6
  | .comparison .smallerOrEqual => 7
  | .comparison .greater => 8
  | .comparison .greaterOrEqual => 9
  | .equal => 10
  | .notEqual => 11

def ofOperatorTag? : Nat → Option Operator
  | 2 => some .concat
  | 3 => some (.arithmetic .plus)
  | 4 => some (.arithmetic .minus)
  | 5 => some (.arithmetic .mul)
  | 6 => some (.comparison .smaller)
  | 7 => some (.comparison .smallerOrEqual)
  | 8 => some (.comparison .greater)
  | 9 => some (.comparison .greaterOrEqual)
  | 10 => some .equal
  | 11 => some .notEqual
  | _ => none

def slots3 : Format (Slot × Slot × Slot) := word.pair (word.pair word)

def fetchSlots : Format (Slot × Slot × Option Slot) := word.pair (word.pair (option word))

def branchFields : Format (Slot × Label × Label) := word.pair (label.pair label)

def instr : Format Instr where
  write
    | .echo v => halfWord.write 0 ++ word.write v
    | .assign result var expr => halfWord.write 1 ++ slots3.write (result, var, expr)
    | .binary op result left right =>
      halfWord.write (operatorTag op) ++ slots3.write (result, left, right)
    | .constFetch result name qualified =>
      halfWord.write 12 ++ fetchSlots.write (result, name, qualified)
    | .jump target => halfWord.write 13 ++ label.write target
    | .branch cond ifTrue ifFalse => halfWord.write 14 ++ branchFields.write (cond, ifTrue, ifFalse)
  read := do
    match ← halfWord.read with
    | 0 => return .echo (← word.read)
    | 1 =>
      let (result, var, expr) ← slots3.read
      return .assign result var expr
    | 12 =>
      let (result, name, qualified) ← fetchSlots.read
      return .constFetch result name qualified
    | 13 => return .jump (← label.read)
    | 14 =>
      let (cond, ifTrue, ifFalse) ← branchFields.read
      return .branch cond ifTrue ifFalse
    | tag =>
      match ofOperatorTag? tag with
      | some op =>
        let (result, left, right) ← slots3.read
        return .binary op result left right
      | none => throw .unknownTag

def slotTable : Format SlotTable :=
  (list (operandId.pair word)).map SlotTable.ofList (·.entries)

def constant : Format Constant :=
  (operandId.pair (word.pair value)).map (fun (o, s, v) => ⟨o, s, v⟩)
    (fun c => (c.operand, c.slot, c.value))

def codeBlock : Format CodeBlock :=
  (label.pair (blockId.pair ((list instr).pair ((list (option halfWord)).pair
    (slotTable.pair ((list constant).pair word)))))).map
    (fun (label, origin, instrs, lines, slots, constants, scopeSize) =>
      ⟨label, origin, instrs, lines, slots, constants, scopeSize⟩)
    (fun b => (b.label, b.origin, b.instrs, b.lines, b.slots, b.constants, b.scopeSize))

def program : Format Program :=
  ((list codeBlock).pair (label.pair word)).map
    (fun (blocks, entry, slotCount) => ⟨blocks, entry, slotCount⟩)
    (fun p => (p.blocks, p.entry, p.slotCount))

end Image

namespace Program

def toImage (p : Program) : List UInt8 := Image.program.write p

def ofImage (bytes : List UInt8) : Except Malformed Program :=
  (Image.program.read bytes).map (·.1)

end Program

end BlockMachine
