import Playback.Value.Basic

/-!
# Arguments of builtins
-/

namespace Playback

/-- Keyword arguments in the order of the call. -/
abbrev Keywords := List (String × Value)

/-- Checks the number of arguments against the least and the most that a function takes. -/
def checkCount (function : String) (args : List Value) (takes : Nat × Nat) : Except Fault Unit :=
  let given := args.length
  let (least, most) := takes
  if least ≤ given ∧ given ≤ most then .ok ()
  else if least = 1 ∧ most = 1 then .error (.notOneArgument function given)
  else if given < least then .error (.tooFewArguments function least given)
  else .error (.tooManyArguments function most given)

def checkNoKeywords (function : String) : Keywords → Except Fault Unit
  | [] => .ok ()
  | (keyword, _) :: _ => .error (.unexpectedKeyword function keyword)

def takeKeyword (name : String) : Keywords → Option Value × Keywords
  | [] => (none, [])
  | (keyword, v) :: rest =>
    if keyword = name then (some v, rest)
    else
      let (found, left) := takeKeyword name rest
      (found, (keyword, v) :: left)

end Playback
