import Playback.Method.Keyed
import Playback.Method.List
import Playback.Method.Text

/-!
# Calling methods
-/

namespace Playback

def BoundMethod.takes : BoundMethod → Nat × Nat
  | .list _ m => m.takes
  | .text _ m => m.takes
  | .dict _ m => m.takes
  | .set _ m => m.takes

def BoundMethod.qualifiedName (m : BoundMethod) : String :=
  m.receiverType ++ "." ++ m.name

def BoundMethod.takesReverse : BoundMethod → Bool
  | .list _ .sort => true
  | _ => false

def HeapM.callMethod (m : BoundMethod) (args : List Value) (keywords : Keywords) : HeapM Value := do
  let (reverse, keywords) := if m.takesReverse then takeKeyword "reverse" keywords else (none, keywords)
  let name := m.qualifiedName
  lift (checkNoKeywords name keywords)
  lift (checkCount name args m.takes)
  match m with
  | .list ref m =>
    let reverse ← look fun h => (reverse.map h.truthy).getD false
    listMethod ref m reverse args
  | .text s m => textMethod s m name args
  | .dict ref m => dictMethod ref m args
  | .set ref m => setMethod ref m args

end Playback
