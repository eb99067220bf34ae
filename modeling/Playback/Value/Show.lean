import Playback.Decimal.Layout
import Playback.Heap
import Playback.Text.Quoted

/-!
# Texts of values

The text that stands for a value in a program. A list or dict inside itself is cut off where it comes up
again: the containers on the way down are remembered, so that no way goes deeper than there are containers.
-/

namespace Playback

/-- A list or a dict: what can hold itself. -/
inductive Container where
  | list (ref : Nat)
  | dict (ref : Nat)
deriving DecidableEq

namespace Heap

def rangeText (r : Range) : String :=
  let start := r.start.text
  let stop := r.stop.text
  let step := r.step.text
  if r.step == 1 then s!"range({start}, {stop})" else s!"range({start}, {stop}, {step})"

def methodText (m : BoundMethod) : String :=
  let name := m.name
  let type := m.receiverType
  s!"<built-in method {name} of {type} object>"

def joined (texts : List String) : String :=
  ", ".intercalate texts

mutual

/-- The text of a value inside the containers `open_`; `deep` gives the texts of what a cell holds. -/
def showStep (h : Heap) (deep : List Container → Value → String) (open_ : List Container) : Value → String
  | .none => "None"
  | .bool true => "True"
  | .bool false => "False"
  | .int i => i.text
  | .float x => Decimal.literal.write x.number
  | .str s => Text.quoted s
  | .list ref =>
    if open_.contains (.list ref) then "[...]"
    else "[" ++ joined ((h.list ref).toList.map (deep (.list ref :: open_))) ++ "]"
  | .tuple _ items =>
    match showItems h deep open_ items with
    | [single] => "(" ++ single ++ ",)"
    | texts => "(" ++ joined texts ++ ")"
  | .dict ref =>
    if open_.contains (.dict ref) then "\x7b...\x7d"
    else
      let entry : Value × Value → String := fun (k, v) =>
        deep (.dict ref :: open_) k ++ ": " ++ deep (.dict ref :: open_) v
      "\x7b" ++ joined ((h.dict ref).entries.map entry) ++ "\x7d"
  | .set ref =>
    match (h.set ref).entries with
    | [] => "set()"
    | members => "\x7b" ++ joined (members.map (deep open_)) ++ "\x7d"
  | .range r => rangeText r
  | .function code => "<function " ++ code.name ++ ">"
  | .builtin b => "<built-in function " ++ b.name ++ ">"
  | .method m => methodText m
  | .module _ library => "<module '" ++ library.name ++ "'>"

def showItems (h : Heap) (deep : List Container → Value → String) (open_ : List Container) :
    List Value → List String
  | [] => []
  | v :: rest => showStep h deep open_ v :: showItems h deep open_ rest

end

def showTo (h : Heap) : Nat → List Container → Value → String
  | 0 => fun _ _ => ""
  | depth + 1 => showStep h (showTo h depth)

/-- A depth that no way into a value passes: every container comes once, and a set last. -/
def wayBound (h : Heap) : Nat :=
  h.containers + 3

/-- The text that stands for a value in a program. -/
def repr (h : Heap) (v : Value) : String :=
  h.showTo h.wayBound [] v

/-- The text of a value: a text is its own. -/
def str (h : Heap) : Value → String
  | .str s => s
  | v => h.repr v

end Heap

end Playback
