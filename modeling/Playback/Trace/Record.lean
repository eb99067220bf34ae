import Playback.Json.Basic
import Playback.Trace.Basic

/-!
# Records

A finished trace as a tree: every frame with its entries in place, and the traced calls by the id of
their function.
-/

namespace Playback.Trace

mutual

/-- A frame with everything in it. -/
inductive FrameRecord where
  | mk (kind : Kind) (sets : List (String × List EntryRecord))

inductive EntryRecord where
  | frame (record : FrameRecord)
  | result (kind : Option Kind) (text type : String) (output : List String)
  | exception (type message : String)

end

def FrameRecord.kind : FrameRecord → Kind
  | ⟨kind, _⟩ => kind

def FrameRecord.sets : FrameRecord → List (String × List EntryRecord)
  | ⟨_, sets⟩ => sets

/-- The calls filed under an id. -/
structure CallsRecord where
  calls : List FrameRecord
  invocations : Nat

structure Record where
  root : FrameRecord
  detached : List (String × CallsRecord)
  /-- The first exception that left a traced call or the program. -/
  lastException : Option LastException

/-- An entry with the frame it refers to in place. -/
def entryRecord (frame : Nat → FrameRecord) : Entry → EntryRecord
  | .frame id => .frame (frame id)
  | .result kind text type output => .result kind text type output
  | .exception type message => .exception type message

/-- The record of a frame. Frames inside it have greater numbers, so their count bounds the nesting. -/
def frameRecord (frames : Array Frame) : Nat → Nat → FrameRecord
  | 0, _ => ⟨.file, []⟩
  | fuel + 1, id =>
    match frames[id]? with
    | none => ⟨.file, []⟩
    | some f =>
      ⟨f.kind, f.sets.map fun (name, entries) =>
        (name, entries.toList.map (entryRecord (frameRecord frames fuel)))⟩

def record (t : Trace) : Record :=
  let frame := frameRecord t.frames (t.frames.size + 1)
  { root := frame 0
    detached := t.detached.map fun (id, calls) =>
      (id, { calls := calls.frames.toList.map frame, invocations := calls.invocations })
    lastException := t.lastException }

/-! ## JSON -/

def countJson (n : Nat) : Json :=
  .number (.int n)

def optionalMember (key : String) (value : Option Json) : List (String × Json) :=
  match value with
  | some v => [(key, v)]
  | none => []

def resultJson (kind : Option Kind) (text type : String) (output : List String) : Json :=
  Json.ofMembers
    (optionalMember "type" (kind.map fun k => .string k.name)
      ++ [("data", Json.ofMembers [("result", .string text), ("resultType", .string type)])]
      ++ (if output.isEmpty then [] else
        [("sideEffects", .array (output.map fun text =>
          Json.ofMembers [("type", .string "stdout"), ("value", .string text)]))]))

mutual

def FrameRecord.toJson : FrameRecord → Json
  | ⟨kind, sets⟩ => .object [("data", .object (setsJson sets)), ("type", .string kind.name)]

def setsJson : List (String × List EntryRecord) → List (String × Json)
  | [] => []
  | (name, entries) :: rest => (name, .array (entriesJson entries)) :: setsJson rest

def entriesJson : List EntryRecord → List Json
  | [] => []
  | .frame record :: rest => record.toJson :: entriesJson rest
  | .result kind text type output :: rest => resultJson kind text type output :: entriesJson rest
  | .exception type message :: rest =>
    .object [("exceptionMessage", .string message), ("exceptionType", .string type),
      ("type", .string "EXCEPTION")] :: entriesJson rest

end

def LastException.toJson (e : LastException) : Json :=
  Json.ofMembers ([("type", .string e.type), ("message", .string e.message)]
    ++ optionalMember "frameno" (e.frameNumber.map countJson)
    ++ optionalMember "lineno" (e.lineNumber.map countJson))

def CallsRecord.toJson (c : CallsRecord) : Json :=
  .object [("calls", .array (c.calls.map FrameRecord.toJson)), ("invocations", countJson c.invocations)]

def Record.toJson (r : Record) : Json :=
  Json.ofMembers ([("root", r.root.toJson),
      ("detached", Json.ofMembers (r.detached.map fun (id, calls) => (id, calls.toJson)))]
    ++ optionalMember "lastException" (r.lastException.map LastException.toJson))

end Playback.Trace
