import Playback.Text.Letter

/-!
# Upper and lower case

The full case maps of Unicode. A character may become several (the sharp s becomes two letters), and
one rule looks at the neighbours: a capital sigma that ends a word becomes a final sigma.
-/

namespace Playback.Text

/-- A run of characters that change case by the same shift of their code points; a stride of two takes
every other character. -/
structure CaseRun where
  first : Nat
  last : Nat
  stride : Nat
  shift : Int

/-- Where a run takes a code point, if it is a member. -/
def CaseRun.image? (run : CaseRun) (n : Nat) : Option Nat :=
  if run.first ≤ n && n ≤ run.last && (n - run.first) % run.stride == 0 then
    some (n + run.shift).toNat
  else
    none

/-- The runs from `start` on, three numbers for each: how many code points stand before it, after the run before it,
twice how many members it has, and one more if their stride is two, and twice their shift, and one more if it is down.
-/
def CaseRun.ofSteps (start : Nat) : List Nat → List CaseRun
  | skipped :: size :: shift :: rest =>
    let first := start + skipped
    let stride := size % 2 + 1
    let last := first + (size / 2 - 1) * stride
    let up : Int := shift / 2
    ⟨first, last, stride, if shift % 2 = 0 then up else -up⟩ :: ofSteps (last + 1) rest
  | _ => []

def CaseRun.ofText (lines : List String) : List CaseRun :=
  ofSteps 0 (numbers lines)

/-- Capitals of single characters beyond ASCII. -/
def upperRuns : List CaseRun := CaseRun.ofText [
  "e52bhRZb2bE1>bE02fF1b5312kI1732A32b3327302nM02iV25322332352322eB32302hB02cwkJ22fX27322342322335322332312cH523025",
  "1230251230251A302dK1C32230251233Y33C382324sxJ1234;302sw602sw002sw402jI02jA14j?12j912j;02cvzJ32j?02cvzB12jC02cwaN",
  "02cvxT02cvz412jG02jK02cvz402su>02cvyZ22jK12suJ02jO22jQ72stJ22jY12cvz202jY32cvxX02jY02d704jW02d;52j[:2cvwZ02cvwTd",
  "R2dT[5332336fXb22bQ06bO1RbE02bC0BbE02cY04cW12cU02cK32c702cE02A1I302dY02dM02>02f=12eA223223b8bDbE0PdM1S39b;32?302",
  "O1c93b5bPc9cnMbZfgP26fgPr<<AbxF2ky=02ky;02kxU04kxQ02kxS02kxE02ku[02cjr0123fB2cju032gr@@2cjw@cJdC352cO5c930@@8<@:",
  "@@8@@8<@;9@8@@84d@08dX04eH04fT04f404fPb64@<2mpGA4@>4@32>i82b=QPQ423t7b8b9bq>c8c912332swO02swI173623223:c=3853423",
  "<bPms912ms952ms9bbcCb33CM3d3?33bC3:532;342345302c82E3;A34532A3J23tH2bq9LdLcpyIsrUb8bEbbYbTbUd4bLbUdGFbS1NbS1>bS1",
  "4bSboSc>cYcUb0bEcn>bDbEtdDbDbEb?b6b;bbjJbHbI"]

/-- Eight small letters with an iota below and then their capitals: each becomes a letter and an iota. -/
def iotaRow (first letter : Nat) : List (Nat × List Nat) :=
  (List.range 16).map fun i => (first + i, [letter + i % 8, 0x399])

/-- A row for every four numbers: a code point and those it becomes, where the last of them may be none. -/
def expansionsOf : List Nat → List (Nat × List Nat)
  | n :: a :: b :: c :: rest => (n, if c = 0 then [a, b] else [a, b, c]) :: expansionsOf rest
  | _ => []

/-- Capitals that are several characters long. -/
def upperExpansions : List (Nat × List Nat) :=
  iotaRow 0x1F80 0x1F08 ++ iotaRow 0x1F90 0x1F28 ++ iotaRow 0x1FA0 0x1F68 ++ expansionsOf (numbers [
  "f3bWbW0hEpXbR0l<bNrP0uPuYrLrEvDv9rLrEbg7be=beZ0gvZbLsI0gv[bXrL0gw0b[rN0gw1c1rN0gw2bEpZ0ha8v9rW0ha:v9rWrDha<v9rWr",
  "Eha>v9rWsZhcBhcJuY0hcCuQuY0hcDuFuY0hcFuQsZ0hcGuQsZuYhcLuQuY0hcRhcZuY0hcSuWuY0hcTuIuY0hcVuWsZ0hcWuWsZuYhd0uWuY0hd",
  "6uYrLrDhd7uYrLrEhd:uYsZ0hd;uYrLsZhdFv9rLrDhdGv9rLrEhdHv5rW0hdJv9sZ0hdKv9rLsZhdVhe2uY0hdWv=uY0hdXuOuY0hdZv=sZ0hd[",
  "v=sZuYhe4v=uY0cee@bJbJ0ceeAbJbM0ceeBbJbP0ceeCbJbJbMceeDbJbJbPceeEbWbX0ceeFbWbX0ceeSbeLbeN0ceeTbeLbe=0ceeUbeLbeC0",
  "ceeVbeVbeN0ceeWbeLbeE0"])

def lowerRuns : List CaseRun := CaseRun.ofText [
  "e@b2bD1>bDQb523722A22b3212fG07232jH05212j@02214j>02222dJ02j802j:02212j>02jB12jJ02jF02232jJ02jN12jP07212jX02212jX",
  "22212jX02214jV05212jZ0223227240221240221240C22C222405212eC02cI0Y212fY1C272swN02212hC02swH22212iW02d602d:0;2gI523",
  "2282f<62bP16bN12cX14cV1RbD1BbDS2@8I252cQ22212?02226fY0PdL0bDbDb4S29b;212N0?22c922bPc8cnMbPms812ms852ms8qBdLcpyH0",
  "<@bxW226bZfgQ26fgQh<dC292ni71c929@A8<A:@A8@A8<A;9A8@AH@A8@A8@A84A04dA02C;8dY02C;4A04eI<4A04f502?;4fU04fQ02CgQ2nd",
  "O32or302olI62b<b1PPC22sJb8b8bpTc8c8b42212su?02grA02stK27212sw102suK02sw702sw512222284sxK0c=2852422bbdQb32CM2d3?2",
  "3bC2:5212cju10;242212cvxU2523E212cvz502cvzK02cvzC02cvy[02cvz512cvwU02cvxY02cvw[02bq80A212c902cvz302cjwA05212cwaO",
  "0A212cwkKH22tn7b8bDbbQbTbTd4bLbTdHFbR1NbR1>bR14bRbo:c>cXdIb0bDcn>bDbDtdDbDbDbDb6b:bbjCbHbH"]

def lowerExpansions : List (Nat × List Nat) := [
  (0x130, [0x69, 0x307])]

def casedRuns : Runs := .ofText [
  "dV1:1415G1O1eC144eP2S72N5c81Z42224116113111D1bW1d78dR1V9YcmGV11512[14p<bZ26bxF;5[23bDe@bDg>262V26281111111O2b917",
  "11331734264=5317cL1=1@=c=1412:1135611111141641245541AP32sIb8bp:f96432<V1151bbcBb2BNd0c>341bQD613sM[1>6bTrt47<5xE",
  "J6Jbb1bTc8T4TcL;1?17121;1?1712k;1231Z19bbQb7=b7c5F:FcmJbDtcPbDPI2IwqLbY1bK122122241<11171bE1428171L141511371hP2I",
  "1I1O1I1O1I1O1I1O1I18bpX:1D66fYbBbxVbHbu4J6J6J"]

/-- Characters beyond ASCII that do not end the search for a cased neighbour. -/
def caseIgnorableRuns : Runs := .ofText [
  "dT141114122lCe@42419211fO7eO151b5b111121211b01;6:;11S1:E@1c=81:14Q111NKc3;b>;4121HH[3b017259Yb>b;111484137:2=1?1",
  "b>14481D2J122b=142422331N231;2b=1451241D2F611b>121148172;2N1bA1<1b6131b;113531472;2M1b>1216152D2L2b=24481D2M1bL1",
  "7311c2127;9c:1299117bM2K11111b;>15125;1T91c>4161222I243@4=12261?1c61nT3vF3M2N2N2bD217812;3151b15b71bE2R1cN342916",
  "3e[221b>1171111286:21W18b22<D4b41151151X9<2P42213b<1123113b>822bD6bV31=17416132b6bC=1Rc=k5113;3=3=3=2<582:12125b",
  "551:11=1@=b7Qcp72cI3cU1?1c8Pb31kM1T43551c56c53yw>1bcB6g61c:41:11L4bT2>RbR1G3c>432813141I251dC2JB=1V8I;b23b412422",
  "A1E2bF62222<181S1;1b7113225211K1>25211c<593cQ12141rsP1d?An1@31<@R121dU17161;1S111b31b12bG1E3lM1f61dA5xA61Z19n:31",
  "254X341dQ2n14V1J511h72H1b86bJ;b54cS1b:?Y122:3b54222141:1b63T518bB1<2b89:421c7321126121dI138E2b=231U735bJ6=11111>",
  "2bY82311G1bX6114212fB46212K2bY82112cB1112611c=1112415fW912fT21141d<42241P:X624819623b2=12eF11311eI71611bVF271212",
  "cR631121711bL23111bE1gA2;2b855111G1er9A6?kaH<33ceP5b?794lH3X2kZ1bCAbD212=2oi<41712cvB214ecTb22Gm@39@27N4d@3bs[b;",
  "4b681>1F51?beX71A2712155bBQ1dL>i@1bA4lG5fR2fG121725191kH7cE8ck75baod=1Nc8cXfD"]

/-- The image of a character beyond ASCII under expansions and runs. -/
def mapCase (expansions : List (Nat × List Nat)) (runs : List CaseRun) (c : Char) : List Char :=
  match expansions.lookup c.toNat with
  | some image => image.map Char.ofNat
  | none => [((runs.findSome? (·.image? c.toNat)).map Char.ofNat).getD c]

def upperOf (c : Char) : List Char :=
  if c.toNat < 128 then [c.toUpper] else mapCase upperExpansions upperRuns c

def lowerOf (c : Char) : List Char :=
  if c.toNat < 128 then [c.toLower] else mapCase lowerExpansions lowerRuns c

def isCased (c : Char) : Bool :=
  if c.toNat < 128 then c.isAlpha else casedRuns.has c

/-- Whether a character is passed over when the neighbours of a sigma are looked at. -/
def isCaseIgnorable (c : Char) : Bool :=
  if c.toNat < 128 then c == '\x27' || c == '.' || c == ':' || c == '^' || c == '\x60'
  else caseIgnorableRuns.has c

/-- Whether the first character that counts is a cased one. -/
def meetsCased (cs : List Char) : Bool :=
  match cs.dropWhile isCaseIgnorable with
  | c :: _ => isCased c
  | [] => false

/-- Small letters of a text. `before` holds, last first, what stands to the left. -/
def lowerFrom (before : List Char) : List Char → List Char
  | [] => []
  | c :: rest =>
    let image :=
      if c == 'Σ' then (if meetsCased before && !meetsCased rest then ['ς'] else ['σ']) else lowerOf c
    image ++ lowerFrom (c :: before) rest

def lower (s : String) : String :=
  String.ofList (lowerFrom [] s.toList)

def upper (s : String) : String :=
  String.ofList (s.toList.flatMap upperOf)

/-- The first character in its capital form, the rest in small letters. -/
def capitalize (s : String) : String :=
  match s.toList with
  | [] => ""
  | c :: rest => String.ofList (upperOf c ++ lowerFrom [] rest)

/-- Capitals at the start of each run of letters and small letters within it. `inWord` says whether the
character before was a letter. -/
def titleFrom (inWord : Bool) : List Char → List Char
  | [] => []
  | c :: rest => (if inWord then lowerOf c else upperOf c) ++ titleFrom (isLetter c) rest

def title (s : String) : String :=
  String.ofList (titleFrom false s.toList)

end Playback.Text
