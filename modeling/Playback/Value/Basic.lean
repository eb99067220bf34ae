import Playback.Builtin
import Playback.Code.Basic
import Playback.Fault
import Playback.Value.Range

/-!
# Values

What programs compute with. Texts and numbers are themselves; lists, dicts and sets are numbers of cells in
a heap, so that two names can stand for the same one. Tuples hold their items, and a number of their own
tells two tuples with the same items apart; so does the number of a module.
-/

namespace Playback

inductive Value where
  | none
  | bool (b : Bool)
  | int (i : Word)
  | float (x : Double)
  | str (s : String)
  | list (ref : Nat)
  | tuple (id : Nat) (items : List Value)
  | dict (ref : Nat)
  | set (ref : Nat)
  | range (r : Range)
  | function (code : FunctionCode)
  | builtin (b : Builtin)
  | method (m : BoundMethod)
  | module (id : Nat) (library : Library)

instance : Inhabited Value := ⟨.none⟩

/-- A number: a boolean counts as an integer. -/
inductive Quantity where
  | int (i : Word)
  | float (x : Double)

def Quantity.toDouble : Quantity → Double
  | .int i => .ofFloat i.toFloat
  | .float x => x

namespace Value

def typeName : Value → String
  | .none => "NoneType"
  | .bool _ => "bool"
  | .int _ => "int"
  | .float _ => "float"
  | .str _ => "str"
  | .list _ => "list"
  | .tuple _ _ => "tuple"
  | .dict _ => "dict"
  | .set _ => "set"
  | .range _ => "range"
  | .function _ => "function"
  | .builtin _ => "builtin_function_or_method"
  | .method _ => "builtin_function_or_method"
  | .module _ _ => "module"

def ofConstant : Constant → Value
  | .none => .none
  | .bool b => .bool b
  | .int i => .int i
  | .float x => .float x
  | .string s => .str s

def boolWord (b : Bool) : Word :=
  if b then 1 else 0

def quantity? : Value → Option Quantity
  | .bool b => some (.int (boolWord b))
  | .int i => some (.int i)
  | .float x => some (.float x)
  | _ => Option.none

def word? : Value → Option Word
  | .bool b => some (boolWord b)
  | .int i => some i
  | _ => Option.none

def index (v : Value) : Except Fault Word :=
  match v.word? with
  | some i => .ok i
  | Option.none => .error (.notInteger v.typeName)

/-- The value that is not `None`, if it is one. -/
def given? : Value → Option Value
  | .none => Option.none
  | v => some v

end Value

end Playback
