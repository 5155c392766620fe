import BlockMachine.Machine.Session
import Mathlib.Data.List.Forall2

/-!
# Names of constants
What a name stands for, told apart from the table that is looked up: some names are built in, and
the others stand for what a host was first told. A program spells the names it asks for in its
slots.
-/

namespace BlockMachine
set_option autoImplicit false

namespace Constants

/-- The name is the word, but any of its letters may be in upper case. -/
def InAnyCase (word name : String) : Prop :=
  List.Forall₂ (fun letter c => c = letter ∨ c = letter.toUpper) word.toList name.toList

instance (word name : String) : Decidable (InAnyCase word name) :=
  inferInstanceAs (Decidable (List.Forall₂ _ _ _))

inductive BuiltIn : String → Value → Prop where
  | intMax : BuiltIn "PHP_INT_MAX" (.integer 9223372036854775807)
  | intMin : BuiltIn "PHP_INT_MIN" (.integer (-9223372036854775808))
  | intSize : BuiltIn "PHP_INT_SIZE" (.integer 8)
  | endOfLine : BuiltIn "PHP_EOL" (.ofString "\n")
  | yes {name : String} : InAnyCase "true" name → BuiltIn name (.boolean true)
  | no {name : String} : InAnyCase "false" name → BuiltIn name (.boolean false)
  | null {name : String} : InAnyCase "null" name → BuiltIn name .unknown

end Constants

def Scope.Spells (scope : Scope) (slot : Slot) (text : String) : Prop :=
  ∃ v, scope[slot]? = some v ∧ Utf8.decode v.toBytes = text

/-- What comes of asking for the constant whose name is in a slot, and whose qualified name, which
goes first, may be in another. -/
inductive Constants.Yields (c : Constants) (scope : Scope) (name : Slot) :
    Option Slot → Except (Fault Slot) Value → Prop where
  | plain {text : String} {v : Value} : scope.Spells name text → c.lookup text = some v →
      Yields c scope name none (.ok v)
  | undefined {text : String} : scope.Spells name text → c.lookup text = none →
      Yields c scope name none (.error (.undefinedConstant text none))
  | qualified {slot : Slot} {other : String} {v : Value} : scope.Spells slot other →
      c.lookup other = some v → Yields c scope name (some slot) (.ok v)
  | unqualified {slot : Slot} {other text : String} {v : Value} : scope.Spells slot other →
      c.lookup other = none → scope.Spells name text → c.lookup text = some v →
      Yields c scope name (some slot) (.ok v)
  | neither {slot : Slot} {other text : String} : scope.Spells slot other →
      c.lookup other = none → scope.Spells name text → c.lookup text = none →
      Yields c scope name (some slot) (.error (.undefinedConstant text (some other)))

namespace Machine

/-- The machine stores the value and goes on behind the instruction, or it fails with the fault. -/
inductive Delivers (p : Program) (limits : Limits) (s : State) (a : Activation) (slot : Slot) :
    Except (Fault Slot) Value → Prop where
  | stored {t : State} {v : Value} : step p limits s = .next t → slot < a.scope.size →
      t.running = some { a with scope := a.scope.setIfInBounds slot v, pc := a.pc + 1 } →
      Delivers p limits s a slot (.ok v)
  | failed {t : State} {f : Failure} : step p limits s = .halt t (some f) →
      Delivers p limits s a slot (.error f.fault)

def Command.defines? (name : String) : Command → Option Value
  | .define other v => if other = name then some v else none
  | .run _ => none

def FirstDefined (commands : List Command) (name : String) (v : Value) : Prop :=
  ∃ before after, commands = before ++ .define name v :: after ∧ ∀ w, .define name w ∉ before

/-- Since its host was without constants, the session has carried out the commands one after
another. In between it may get another machine, and its host other frames and another sink. -/
inductive Session.Told : List Command → Session → Prop where
  | fresh {s : Session} : s.host.constants = {} → Told [] s
  | performed {commands : List Command} {fuel : Nat} {s t : Session} {c : Command} {reply : Reply} :
      Told commands s → s.perform fuel c = some (reply, t) → Told (commands ++ [c]) t
  | readied {commands : List Command} {s t : Session} : Told commands s →
      t.host.constants = s.host.constants → Told commands t

end Machine

end BlockMachine
