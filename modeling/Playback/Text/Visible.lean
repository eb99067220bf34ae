import Playback.Text.Runs

/-!
# Characters that show

A character that is drawn on its own: neither a control, format, private or unassigned character, nor
a separator other than the plain space, nor one that is drawn as nothing, nor a mark that extends the
character before it.
-/

namespace Playback.Text

/-- Marks that extend the character before them: the property Grapheme_Extend, without the letters that
have it, which take room of their own. -/
def extendingRuns : Runs := .ofText [
  "rDcHg;7f[b111121211bL;b4E@1c=7262214S1NKc3;b>991H4191315[3b?9ZH1Pb;111484137:2M1b>111248191:2J122b=142422331N231",
  ";2b=1451241D2F611b>112148173:2N1b?111<191X131b;113531472;2M1b>12211331472;2L2b=211248191:2M1bL141231181bU127<8c:",
  "129;7bM2K11111b;>15125;1T91c>4161222I243@4=12261?1p[3vF4L3M2N2bD217812;91b1311cM2R1cN3429163e[221b>1171111286:21",
  "b4b22<D4b4:43V9<2P426b<1123115b<822dD31=17416132eFbDlX1eCQcrR3d91c8PmJ6cA2bajH41:P2bT2g813141I251dC2JB=1V8I;11b0",
  "3b41242221T1bG62222<181b31b7113225211Z281fB12141rsP1qQ@@@w51f61dA5blZ31254X341dQ2n14bE5h92bQ6bJ;b54cS1b:?Y122:3b",
  "542271bA3T518bB1<2b89118421c73246121dI138E2b=21111<191>735bG1261121134311>2bY82311G1bU12611211212f?1246212K2bY82",
  "112cB11128c=1112415fW912fI1:441d<42241P:X624819623b2=12eF11311eI71611bVF271212cR631121711bL23111hW2;2b8553G1erI1",
  "6?kaH<33ceP5b?7xT1bC4bU1;2re32ecYb22Gm>5368827N4d@3bs[b;4b681>1F51?beX71A271215c<1dL7iG1bA4lH4fR2fG1217251kR7cE7",
  "baqo=c8cXfD"]

/-- Controls, formats, private and unassigned characters, separators and what has the property
Default_Ignorable_Code_Point, beyond ASCII. -/
def hiddenRuns : Runs := .ofText [
  "cXQ<1p=1X2647111D1j11V2b6231b;8K46AF1e@1b42b?2c=>b?2b52?1L211;5P7bO1dM18222F1711342922248142152I2316422F17121212",
  "211542233174117A:319131F1712152:131321?42<771318222F1712152922237342152B:216331432111232333<4533142161>E5=131G1@",
  "291314721312242:7F131G1:152913147253142:13<=131b713164@2J131B3H191127314611186:23<b>4MU211151H111G2511171:24PbL1",
  "T4W1T1?1=UeF11512d;2f<142711142Y142Q142711142?1b=142bG2P3J6bZ262oH1L3c17F9H9D<=1312<b82X2:6:6;5:6c17[5bJ:O1<4<41",
  "3Z25;b04J6;3bB2bE1M2;6:6>2b22<DbQ1dR8b@3?3bB5[2;8[5m6262V26281111111O2b91?1>261C2319AH8b3A22K1=3R>Q?d84p6F;Ebp82",
  "iN5b111512b<72>H97171717171717171cVRJ1c1<eVJ@1bC1bZ2c?5[1b71Z1bZ9b41zpQ3b;9hXDe88f1Db@3:6b<8bJ8<6cL;N3bR1;4Q1b;9",
  ">2:2c?HL:6262697171b@4cV2:6jtX<G4b54buHfpDi>2cBV7<55J151112121oRP@@:6b71C14451d34dK1N362626233717=22<1J1C121?2>R",
  "cS534b13c01=31b3b2cZM3b5?L4T9N5[5N1U4>ZdJ2:6T4T4X8b8;<1?17121;1?17123b8<h39F:8H61Z19bI6211b012312G1bL89b4C125Q3K",
  "5KVb<4D2b61258131M234:797bDPW4<9b:3M2K5J74<7bTbMb;b7=b77b28:6V3M82ePO1Z1322@689Qb28ZFJVLDG9bR4T9bB15=I7:6b91B8W9",
  "c81D;B1b3bB711141?1;6b?5:6418222F1712151:22232161572735;:11211V1:1121141:1282Mc415NbL8:dRb:2VRbI;:6=Cb>6:6DLK2?4",
  "Ge9b@c<bW<82128121N122<9:bJ82b22;KbL8bW=bM7:bZ8c0R>:691b11>:M3P2F1>bM7121b03112198:66121U12167:6b04:fJI7A1Y3MbY1",
  "?b6=u[c>cG15;eDchXc;=y@@F:dmS5n;fzEb>bnBmY7O1:4bU1:6N26:bJ::171E5CjTb>eFc35I2Ib0bO4b=7AbD5;79glRYPc9cKhpQ417121g",
  "K?1M321>48j0caDcC5=397:24dlDfQ3jX6G?A?b22G9cLb@fJ:W2bN8cHEbJcRD<D<b[9Id3bY1bK122122241<11171bE1428171L141511371h",
  "P2gL2pZ?51?z4O66eU71A2712155bBQ1cHb13>2:42h<OAb>51kHZeV[41e@O1F82f4714121?1eE2@YbP4:42rUbHbPbAeB41K1211211:14111",
  "1614111111312112111111111121124171414111:1A53151Ab82g6b04c<<?2?1?1U:dZb<M=b04972>6dFwA3A3=3eZ6<41?<4b<8:6X8N2<42",
  ">9WhT8>2=3;3b=114@2<4:7d?1c?xAbliXPdvJ2fb:2gnU?o6ce2m>bi:ei;5hkZbekh2"]

def isVisible (c : Char) : Bool :=
  if c.toNat < 128 then 0x20 ≤ c.toNat && c.toNat < 0x7F
  else !extendingRuns.has c && !hiddenRuns.has c

end Playback.Text
