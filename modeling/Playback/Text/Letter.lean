import Playback.Text.Runs

/-!
# Letters

The Unicode property Alphabetic: what may start a name.
-/

namespace Playback.Text

def letterRuns : Runs := .ofText [
  "dV1:1415G1O1kB4<>57111bZ1MB1224116113111D1bW1d78dR1V216YW>111212118K44M;5b<17>c>184843:321@b4=c=HQ92415H2CCI7;5H",
  "17718Z:<376bP1@134?=C18222F17113438222211814215<2:14316422F17121212454222417411A6;319131F17121539131231?4E443182",
  "22F171215382222924215=1@216331432111232333<4533133161X=131G1@38131382131224L418131G1:15381313825314=3<=131Y28131",
  "3115475F6131B3H191127861118B2=b>5761b7211151H111C13251161>4P1bC81T4C4@1TbGb;1125@bD:42V11512[1hI142711142Y142Q14",
  "2711142?1b=142bGU@@bZ263o42A1J5bO3;7D;E<D<=1312<b82C>141bGc17[5bJ:O1<49GN25;b04Jb:L4bC2Db61G2;3b5b81?18b7Z24:b01",
  ";>b;F3:T2;5[23Y41612315e@CR;g>262V26281111111O2b91711331734264=5317cL1=1@=c=1412:1135611111141;245541AYsEb8bp:f9",
  "6432<V11512b<71@G97171717171717171Pb31kM3I975254bZ631c2145[1c6APb4@lLftTbDtjIbGb22g53@:2Db3583cIW92c?2bVDE1QHb8<",
  "bH11b063113:Q5S=M3b71<?1@@:51b;9>BG3bI1111H32@24;6262697171[1>6cSEjtX<G4b5hk4i>2cBV7<55<1=151112121cDQi;BbD2b:X<",
  "cL51d3TJ6J;c136262623S<1J1C121?2>RcSbIb9g3M3b5b3P=N5[5N2T4815ZdJBT4T4X8b8<;1?17121;1?17123b8<h39F:8H61Z19bI6211b",
  "012312G:G9ObEC12:F:J6JVb<62bD41258131MZM3MS81LKb::F:C=BcFbMb;b7=b7=XRL315GfNZ1232@6b633M:18FZBb2EKG9bJ[5:b=91=IG",
  "b7A48S319bD1492:111SB1R2164bB711141?1:7b=G418222F171215382222316157L:11211V1:112114123111b0bF1314D3NbF2211e8b:27",
  "I6RbC1131b?b:21bKK2>E7e9b=c?bDO82128121N122224c582b2261112Kb72:AbL51BbMc?8c0QO91b11711b5N2F1>bM7121b03112131122H",
  "6121U121411Gb0fXG9A1Y33cG1bSuZc>cGAeDchXc9?y@A6IdmS5n;fzEb3bnMmY7OAbSANBb4@4OE5CjTb1eSbDPI2Ib0bO4b=7AbD211<79glR",
  "YPc9cKhpQ417121gK?1M321>48j0caDcC5=397:41fg1bY1bK122122241<11171bE1428171L141511371hP2I1I1O1I1O1I1O1I1O1I18bpXO6",
  "6eU71A2712155bBQ1cHb1:7@1h=NBb0l0Lf8N21eOO1F82f4714121?1eEb?bH3131bb@41K1211211:14111161411111131211211111111112",
  "1124171414111:1A53151Ao<J6J6Jdg6bliXPdvJ2fb:2gnU?o6ce2m>bi:ei;5hkZ"]

def isLetter (c : Char) : Bool :=
  if c.toNat < 128 then c.isAlpha else letterRuns.has c

end Playback.Text
