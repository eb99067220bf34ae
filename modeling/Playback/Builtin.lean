/-!
# Builtins

What programs can use without defining it: functions, the methods of texts and containers, and two modules.
-/

namespace Playback

inductive Builtin where
  | print | input | len | range | str | repr | int | float | bool | list | tuple | set | dict | abs | min
  | max | sum | sorted | reversed | enumerate | zip | round | chr | ord | type
  /-- Publishes the response to a request. -/
  | setResponse
  | sqrt | floor | ceil | fabs | pow | gcd | log | sin | cos | isqrt
deriving DecidableEq

namespace Builtin

def name : Builtin → String
  | .print => "print"
  | .input => "input"
  | .len => "len"
  | .range => "range"
  | .str => "str"
  | .repr => "repr"
  | .int => "int"
  | .float => "float"
  | .bool => "bool"
  | .list => "list"
  | .tuple => "tuple"
  | .set => "set"
  | .dict => "dict"
  | .abs => "abs"
  | .min => "min"
  | .max => "max"
  | .sum => "sum"
  | .sorted => "sorted"
  | .reversed => "reversed"
  | .enumerate => "enumerate"
  | .zip => "zip"
  | .round => "round"
  | .chr => "chr"
  | .ord => "ord"
  | .type => "type"
  | .setResponse => "set_response"
  | .sqrt => "sqrt"
  | .floor => "floor"
  | .ceil => "ceil"
  | .fabs => "fabs"
  | .pow => "pow"
  | .gcd => "gcd"
  | .log => "log"
  | .sin => "sin"
  | .cos => "cos"
  | .isqrt => "isqrt"

/-- The functions that every program sees under their names. -/
def globals : List Builtin :=
  [.print, .input, .len, .range, .str, .repr, .int, .float, .bool, .list, .tuple, .set, .dict, .abs, .min,
    .max, .sum, .sorted, .reversed, .enumerate, .zip, .round, .chr, .ord, .type, .setResponse]

def mathematics : List Builtin :=
  [.sqrt, .floor, .ceil, .fabs, .pow, .gcd, .log, .sin, .cos, .isqrt]

/-- The function that every program sees under a name. -/
def ofName? (name : String) : Option Builtin :=
  globals.find? (·.name == name)

end Builtin

/-! ## Methods -/

inductive ListMethod where
  | append | pop | insert | remove | index | count | extend | reverse | sort | copy | clear
deriving DecidableEq

inductive TextMethod where
  | upper | lower | strip | lstrip | rstrip | split | join | replace | startsWith | endsWith | find | count
  | isDigit | isAlpha | title | capitalize
deriving DecidableEq

inductive DictMethod where
  | keys | values | items | get | pop | update | copy | clear
deriving DecidableEq

inductive SetMethod where
  | add | remove | discard | copy | clear
deriving DecidableEq

def ListMethod.table : List (String × ListMethod) :=
  [("append", .append), ("pop", .pop), ("insert", .insert), ("remove", .remove), ("index", .index),
    ("count", .count), ("extend", .extend), ("reverse", .reverse), ("sort", .sort), ("copy", .copy),
    ("clear", .clear)]

def TextMethod.table : List (String × TextMethod) :=
  [("upper", .upper), ("lower", .lower), ("strip", .strip), ("lstrip", .lstrip), ("rstrip", .rstrip),
    ("split", .split), ("join", .join), ("replace", .replace), ("startswith", .startsWith),
    ("endswith", .endsWith), ("find", .find), ("count", .count), ("isdigit", .isDigit),
    ("isalpha", .isAlpha), ("title", .title), ("capitalize", .capitalize)]

def DictMethod.table : List (String × DictMethod) :=
  [("keys", .keys), ("values", .values), ("items", .items), ("get", .get), ("pop", .pop),
    ("update", .update), ("copy", .copy), ("clear", .clear)]

def SetMethod.table : List (String × SetMethod) :=
  [("add", .add), ("remove", .remove), ("discard", .discard), ("copy", .copy), ("clear", .clear)]

def methodName {α : Type} [BEq α] (table : List (String × α)) (m : α) : String :=
  ((table.find? fun entry => entry.2 == m).map (·.1)).getD ""

/-- A method together with what it belongs to. Lists, dicts and sets are known by their numbers. -/
inductive BoundMethod where
  | list (ref : Nat) (m : ListMethod)
  | text (s : String) (m : TextMethod)
  | dict (ref : Nat) (m : DictMethod)
  | set (ref : Nat) (m : SetMethod)
deriving DecidableEq

def BoundMethod.name : BoundMethod → String
  | .list _ m => methodName ListMethod.table m
  | .text _ m => methodName TextMethod.table m
  | .dict _ m => methodName DictMethod.table m
  | .set _ m => methodName SetMethod.table m

/-- The type name of what a method belongs to. -/
def BoundMethod.receiverType : BoundMethod → String
  | .list _ _ => "list"
  | .text _ _ => "str"
  | .dict _ _ => "dict"
  | .set _ _ => "set"

/-! ## Modules -/

inductive Library where
  | math | string
deriving DecidableEq

def Library.name : Library → String
  | .math => "math"
  | .string => "string"

def Library.ofName? (name : String) : Option Library :=
  [Library.math, .string].find? (·.name == name)

end Playback
