import Playback.Double
import Playback.Operator
import Playback.Trace.Kind
import Playback.Word

/-!
# Code

What a script is lowered to: statements and expressions in tree form, with trace instructions among them.
Code that is not traced is the same without those. A function carries both variants of its body.
-/

namespace Playback

inductive Constant where
  | none
  | bool (b : Bool)
  | int (i : Word)
  | float (x : Double)
  | string (s : String)

inductive Expr where
  | const (c : Constant)
  | name (s : String)
  | unary (op : UnaryOp) (operand : Expr)
  | binary (op : BinaryOp) (left right : Expr)
  | bool (op : BoolOp) (left right : Expr)
  /-- A chain of comparisons: each operator compares with the operand before it. -/
  | compare (left : Expr) (rest : List (CompareOp × Expr))
  | call (callee : Expr) (args : List Expr) (keywords : List (String × Expr))
  | attribute (value : Expr) (member : String)
  | subscript (value index : Expr)
  | slice (value : Expr) (lower upper : Option Expr)
  | list (elements : List Expr)
  | tuple (elements : List Expr)
  | set (elements : List Expr)
  | dict (entries : List (Expr × Expr))
  | log (kind : Option Trace.Kind) (value : Expr)
  /-- Opens a frame and records the value in it. -/
  | logStart (kind : Trace.Kind) (set : String) (value : Expr)
  /-- Records the value and closes frames through the first of kind `until_`. -/
  | logEnd (kind until_ : Trace.Kind) (value : Expr)
  /-- An iterable each of whose elements opens a frame of its own. -/
  | each (kind : Trace.Kind) (set : String) (iterable : Expr)

/-- What can be assigned to. -/
inductive Target where
  | name (s : String)
  | item (container index : Expr)
  | unpack (targets : List Target)

mutual

/-- An instruction with the line of the statement it came from. -/
inductive Instr where
  | at (line : Nat) (action : Action)

inductive Action where
  | eval (value : Expr)
  | assign (target : Target) (value : Expr)
  | branch (condition : Expr) (body orelse : List Instr)
  | loop (condition : Expr) (body : List Instr)
  | iterate (target : Target) (iterable : Expr) (body : List Instr)
  | define (code : FunctionCode)
  | return_ (value : Expr)
  | break_
  | continue_
  | import_ (modules : List String)
  | fromImport (module : String) (names : List String)
  | startFrame (kind : Trace.Kind) (set : String)
  /-- Turns to another child set of the open frame. -/
  | childSet (set : String)
  | endFrame
  /-- Closes frames up to the innermost loop. -/
  | endLoop

inductive FunctionCode where
  /-- `serial` tells the functions of a program apart, `id` files their calls in the trace, `locals` are the
  names the function binds, and the two bodies do the same with and without a trace. -/
  | mk (serial : Nat) (name id : String) (params locals : List String) (traced plain : List Instr)

end

def Instr.line : Instr → Nat
  | .at line _ => line

def Instr.action : Instr → Action
  | .at _ action => action

namespace FunctionCode

/-- The number that tells the functions of a program apart. -/
def serial : FunctionCode → Nat
  | ⟨serial, _, _, _, _, _, _⟩ => serial

def name : FunctionCode → String
  | ⟨_, name, _, _, _, _, _⟩ => name

/-- What the calls of a function are filed under. -/
def id : FunctionCode → String
  | ⟨_, _, id, _, _, _, _⟩ => id

def params : FunctionCode → List String
  | ⟨_, _, _, params, _, _, _⟩ => params

/-- The parameters and every name the body binds. -/
def locals : FunctionCode → List String
  | ⟨_, _, _, _, locals, _, _⟩ => locals

def traced : FunctionCode → List Instr
  | ⟨_, _, _, _, _, traced, _⟩ => traced

def plain : FunctionCode → List Instr
  | ⟨_, _, _, _, _, _, plain⟩ => plain

end FunctionCode

/-- A program: the traced code of a script. -/
structure Program where
  body : List Instr

end Playback
