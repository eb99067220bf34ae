/-!
# Searching texts

Occurrences of one text in another are found from the left and do not overlap. A search lists them, with the
characters between them; splitting, replacing, counting and finding each go through this list in their own way.
-/

namespace Playback.Text

/-- What a search comes to: an occurrence, which is passed as a whole, or a character at which there is none. -/
inductive Step where
  | occurrence
  | char (c : Char)

def Step.isOccurrence : Step → Bool
  | .occurrence => true
  | .char _ => false

/-- The search for a text that is not empty. `skip` counts the characters of an occurrence still to be passed. -/
def search (needle : List Char) (skip : Nat) : List Char → List Step
  | [] => []
  | c :: rest =>
    match skip with
    | k + 1 => search needle k rest
    | 0 =>
      if needle.isPrefixOf (c :: rest) then .occurrence :: search needle (needle.length - 1) rest
      else .char c :: search needle 0 rest

/-- The parts between occurrences; `part` holds the part being read, last first. -/
def parts (part : List Char) : List Step → List (List Char)
  | [] => [part.reverse]
  | .occurrence :: rest => part.reverse :: parts [] rest
  | .char c :: rest => parts (c :: part) rest

/-- A text cut at every occurrence of a separator that is not empty. -/
def splitAt (sep s : String) : List String :=
  (parts [] (search sep.toList 0 s.toList)).map String.ofList

/-- How often `needle` occurs; the empty text occurs around every character. -/
def occurrences (needle s : String) : Nat :=
  if needle.isEmpty then s.length + 1 else (search needle.toList 0 s.toList).countP Step.isOccurrence

/-- What a step leaves when occurrences are replaced. -/
def Step.replaced (new : List Char) : Step → List Char
  | .occurrence => new
  | .char c => [c]

/-- Every occurrence of `old` replaced by `new`; the empty text is replaced around every character. -/
def replaceAll (old new s : String) : String :=
  if old.isEmpty then
    new ++ String.join (s.toList.map fun c => c.toString ++ new)
  else
    String.ofList ((search old.toList 0 s.toList).flatMap (Step.replaced new.toList))

/-- How many bytes come before the first occurrence. -/
def bytesBefore? : List Step → Option Nat
  | [] => none
  | .occurrence :: _ => some 0
  | .char c :: rest => (bytesBefore? rest).map (c.utf8Size + ·)

/-- How many characters the first bytes of a text make up. -/
def charsWithin (bytes : Nat) : List Char → Nat
  | [] => 0
  | c :: rest => if bytes = 0 then 0 else charsWithin (bytes - c.utf8Size) rest + 1

/-- The position of the first occurrence: the characters of the bytes before it are counted. -/
def indexOf? (needle s : String) : Option Nat :=
  if needle.isEmpty then some 0
  else (bytesBefore? (search needle.toList 0 s.toList)).map fun bytes => charsWithin bytes s.toList

def occursIn (needle s : String) : Bool :=
  needle.isEmpty || (search needle.toList 0 s.toList).any Step.isOccurrence

def beginsWith (head s : String) : Bool :=
  head.toList.isPrefixOf s.toList

def endsWith (tail s : String) : Bool :=
  tail.toList.isSuffixOf s.toList

end Playback.Text
