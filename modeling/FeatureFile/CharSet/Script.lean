/-
# FeatureFile.CharSet.Script — scripts and their extensions

Every code point has one script; characters of several scripts have the script `common` or
`inherited`, and their script extensions say which scripts use them. So the extended set of a script
is its own set with the shared characters that it uses, and the extended sets of `common` and
`inherited` are what no script claims.
-/

import FeatureFile.CharSet.Table

namespace FeatureFile.CharSet

/-- The names of the scripts, the long one first, in the order in which the table numbers them. -/
def scriptNames : List (List String) :=
  [["adlam", "adlm"], ["ahom"], ["anatolianhieroglyphs", "hluw"], ["arabic", "arab"],
   ["armenian", "armn"], ["avestan", "avst"], ["balinese", "bali"], ["bamum", "bamu"],
   ["bassavah", "bass"], ["batak", "batk"], ["bengali", "beng"], ["bhaiksuki", "bhks"],
   ["bopomofo", "bopo"], ["brahmi", "brah"], ["braille", "brai"], ["buginese", "bugi"],
   ["buhid", "buhd"], ["canadianaboriginal", "cans"], ["carian", "cari"],
   ["caucasianalbanian", "aghb"], ["chakma", "cakm"], ["cham"], ["cherokee", "cher"],
   ["chorasmian", "chrs"], ["common", "zyyy"], ["coptic", "copt", "qaac"], ["cuneiform", "xsux"],
   ["cypriot", "cprt"], ["cyprominoan", "cpmn"], ["cyrillic", "cyrl"], ["deseret", "dsrt"],
   ["devanagari", "deva"], ["divesakuru", "diak"], ["dogra", "dogr"], ["duployan", "dupl"],
   ["egyptianhieroglyphs", "egyp"], ["elbasan", "elba"], ["elymaic", "elym"],
   ["ethiopic", "ethi"], ["garay", "gara"], ["georgian", "geor"], ["glagolitic", "glag"],
   ["gothic", "goth"], ["grantha", "gran"], ["greek", "grek"], ["gujarati", "gujr"],
   ["gunjalagondi", "gong"], ["gurmukhi", "guru"], ["gurungkhema", "gukh"], ["han", "hani"],
   ["hangul", "hang"], ["hanifirohingya", "rohg"], ["hanunoo", "hano"], ["hatran", "hatr"],
   ["hebrew", "hebr"], ["hiragana", "hira"], ["imperialaramaic", "armi"],
   ["inherited", "zinh", "qaai"], ["inscriptionalpahlavi", "phli"],
   ["inscriptionalparthian", "prti"], ["javanese", "java"], ["kaithi", "kthi"],
   ["kannada", "knda"], ["katakana", "kana"], ["kawi"], ["kayahli", "kali"],
   ["kharoshthi", "khar"], ["khitansmallscript", "kits"], ["khmer", "khmr"], ["khojki", "khoj"],
   ["khudawadi", "sind"], ["kiratrai", "krai"], ["lao", "laoo"], ["latin", "latn"],
   ["lepcha", "lepc"], ["limbu", "limb"], ["lineara", "lina"], ["linearb", "linb"], ["lisu"],
   ["lycian", "lyci"], ["lydian", "lydi"], ["mahajani", "mahj"], ["makasar", "maka"],
   ["malayalam", "mlym"], ["mandaic", "mand"], ["manichaean", "mani"], ["marchen", "marc"],
   ["masaramgondi", "gonm"], ["medefaidrin", "medf"], ["meeteimayek", "mtei"],
   ["mendekikakui", "mend"], ["meroiticcursive", "merc"], ["meroitichieroglyphs", "mero"],
   ["miao", "plrd"], ["modi"], ["mongolian", "mong"], ["mro", "mroo"], ["multani", "mult"],
   ["myanmar", "mymr"], ["nabataean", "nbat"], ["nagmundari", "nagm"], ["nandinagari", "nand"],
   ["newtailue", "talu"], ["newa"], ["nko", "nkoo"], ["nushu", "nshu"],
   ["nyiakengpuachuehmong", "hmnp"], ["ogham", "ogam"], ["olchiki", "olck"], ["olonal", "onao"],
   ["oldhungarian", "hung"], ["olditalic", "ital"], ["oldnortharabian", "narb"],
   ["oldpermic", "perm"], ["oldpersian", "xpeo"], ["oldsogdian", "sogo"],
   ["oldsoutharabian", "sarb"], ["oldturkic", "orkh"], ["olduyghur", "ougr"], ["oriya", "orya"],
   ["osage", "osge"], ["osmanya", "osma"], ["pahawhhmong", "hmng"], ["palmyrene", "palm"],
   ["paucinhau", "pauc"], ["phagspa", "phag"], ["phoenician", "phnx"], ["psalterpahlavi", "phlp"],
   ["rejang", "rjng"], ["runic", "runr"], ["samaritan", "samr"], ["saurashtra", "saur"],
   ["sharada", "shrd"], ["shavian", "shaw"], ["siddham", "sidd"], ["signwriting", "sgnw"],
   ["sinhala", "sinh"], ["sogdian", "sogd"], ["sorasompeng", "sora"], ["soyombo", "soyo"],
   ["sundanese", "sund"], ["sunuwar", "sunu"], ["sylotinagri", "sylo"], ["syriac", "syrc"],
   ["tagalog", "tglg"], ["tagbanwa", "tagb"], ["taile", "tale"], ["taitham", "lana"],
   ["taiviet", "tavt"], ["takri", "takr"], ["tamil", "taml"], ["tangsa", "tnsa"],
   ["tangut", "tang"], ["telugu", "telu"], ["thaana", "thaa"], ["thai"], ["tibetan", "tibt"],
   ["tifinagh", "tfng"], ["tirhuta", "tirh"], ["todhri", "todr"], ["toto"],
   ["tulutigalari", "tutg"], ["ugaritic", "ugar"], ["unknown", "zzzz"], ["vai", "vaii"],
   ["vithkuqi", "vith"], ["wancho", "wcho"], ["warangciti", "wara"], ["yezidi", "yezi"],
   ["yi", "yiii"], ["zanabazarsquare", "zanb"]]

/-- The runs of code points of one script, with its number; the number behind the last script stands
for no script. -/
def scriptRuns : List ((Nat × Nat) × Nat) :=
  Table.runs 0 <| Table.numbers
    ["C0opC95opC9Beo0C9eo0C94omC90ouC90oO0C9B6o4C94o1cjoDfBp3Bc0o2Bc1F33Bc0o0Bc3F30Bc0o0Bc0o2Bc",
     "0F30Bc0F3jBc0F3BuBcdpfBcE4t1BpF8t0F3B541F3Bh41F3240F3BmBm7F3qBm3F35BmaF3430o530od30o230ov",
     "30o93aBpp30BpDb30oB13dEf0F3BrEf1F32EfBf3BhEqdF3BqD81F32D8BdE21F3eE20F3rCk1F30Ck0F3aEf4F3u",
     "30Fb134F3Ca30os3Cgv3Bpev1opv3a0F37a1F31a1F3la0F36a0F30a2F33a1F38a1F31a1F33a7F30a3F31a0F34",
     "a1F3oa1F32Bf0F35Bf3F31Bf1F3lBf0F36Bf0F31Bf0F31Bf0F31Bf1F30Bf0F34Bf3F31Bf1F32Bf2F30Bf6F33",
     "Bf0F30Bf6F3gBf9F32Bd0F38Bd0F32Bd0F3lBd0F36Bd0F31Bd0F34Bd1F39Bd0F32Bd0F32Bd1F30BdeF33Bd1F3",
     "bBd6F36Bd0F32Dn0F37Dn1F31Dn1F3lDn0F36Dn0F31Dn0F34Dn1F38Dn1F31Dn1F32Dn6F32Dn3F31Dn0F34Dn1",
     "F3hDn9F31Em0F35Em2F32Em0F33Em2F31Em0F30Em0F31Em2F31Em2F32Em2F3bEm3F34Em2F32Em0F33Em1F30Em",
     "5F30EmdF3kEm4F3cEp0F32Ep0F3mEp0F3fEp1F38Ep0F32Ep0F33Ep6F31Ep0F32Ep0F30Fb0Ep1F33Ep1F39Ep6",
     "F38EpcBu0F32Bu0F3mBu0F39Bu0F34Bu1F38Bu0F32Bu0F33Bu6F31Bu4F30Fb1Bu0F33Bu1F39Bu0F32BubF3cCj",
     "0F32Cj0F3BiCj0F32Cj0F35Cj3F3fCj1F3pCj0F32E80F3hE82F3nE80F38E80F30E81F36E82F30E83F35E80F30",
     "E80F37E85F39E81F32E8bF3BpEr3F30orErB4F31C80F30C80F34C80F3nC80F30C80F3mC81F34C80F30C80F36",
     "C80F39C81F33C8vF3C7Es0F3B3Es3F3B6Es0F3B3Es0F3eEs0F36Es3o1EsB4F3EvD2B5B80F30B84F30B81F3Ba",
     "B80o3B8HvBiC8B60F33B61F36B60F30B60F33B61F3B8B60F33B61F3B0B60F33B61F36B60F30B60F33B61F3eB6",
     "0F3BoB60F33B61F3C2B61F3vB62F3pB65F3Clm1F35m1F3TvhsDb2F3CaE12oaE16F3lEg8F30EgkBk1o8F3jgbF3",
     "cEh0F32Eh0F31EhbF3CtC41F39C45F39C45F31Cv1o0Cv0ojCv5F3CoCv6F3BaCv4F3C5h9F3uCb0F3bCb3F3bCb3",
     "F30Cb2F3bCbtEi1F34EiaF3BbD63F3pD65F3aD62F31D6vC4rf1F31fBuEj0F3sEj1F3aEj5F39Ej5F3dEj1F3uBp",
     "eFb1F3bFbjF3Cc60F3Bh6BvEcBj97F339BnCa2F3eCa2F32CaBfDcat4F3BaB81F32B87Ec7F32Bp0ocBp0o6Bp3o",
     "0Bp5o0Bp2o1Bp0o4F3B5C94Bc0tBgC94Bc3C94BccC90tC5C90BcBvBpHvC9lBc1F35Bc1F3B5Bc1F35Bc1F37Bc0",
     "F30Bc0F30Bc0F30Bc0F3uBc1F3BkBc0F3eBc0F3dBc1F35Bc0F3iBc1F32Bc0F38Bc0F3bo1BpCmo0F3ao0C91F3a",
     "o0C9eo0F3cC92F3B0o0FbdF3B0BpeF3B5o0Bc2o1C95o0C9qo0C9goB8C92o3F3UpolF3aokF3yvoHveTjo1F3vo0",
     "FbD8oCvB9vC9Djp4F36pB5B80F30B84F30B81F3BnEt6F31EtdF30EtmB68F36B60F36B60F36B60F36B60F36B60",
     "F36B60F36B60F36B60F3vtCtoB1F3pBh0F3CoBhbF3GlBhpF3ko0Bh0o0Bhoo8Bh3Bp1Bi7o3Bh3o0F3ClBn1F31",
     "Bp1o2Bn0oCpBv1o2Bv4F3Bac0F3CtBi0F3fovcB5o8F30ofBvuBi0F3BvouBiCgoBeBv0oCnBvF7oGNvBhBvoUPv",
     "BhBEcF92F3BmF98F3BfCeJbF4jF3CvtCn77F3B1oD5C92oC2C91Fb1C90Fb0C90Fb7C9jF30FbdC9BcEe2F39o5F3",
     "BnDt7F3C5E37F3bE35F3vvBdC10o0C1B3E0aF30E0sBi2F3CdBs0F30o9Bs3F31BsuD20F3Bml8F3dl1F39l1F33l",
     "vD2C2EknF34EkmCp9F35B61F35B61F35B68F36B60F36B60F3BaC90o8C90Bc3C91o3F3CfmBdCp1F39Cp5F3Kz3",
     "BibF3mBi3F3BgBi3F3B-vFbGHvF3LdBh1F3D9BhB5F36C9bF3444F3pBm0F34Bm0F30Bm0F31Bm0F31Bm0F39BmDi",
     "3fFbLa31oCf31FbBl36Fb03vF3f3fBp9o5F3dBp1tB2o0F3io0F33o3F3430F3E631F30o0F3vopC95opC9ao9Bv0",
     "oBcBv1ouBi2F35Bi1F35Bi1F35Bi1F32Bi2F36o0F36o9F34o1F3bCd0F3pCd0F3iCd0F31Cd0F3eCd1F3dCdB1F3",
     "DqCd4F32o3F3Bco2F38oCeBc0F3co2F30BcBeF3Bco0BpE1F3sCf2F3BgieF30Bpqo3F3B3Df8F32DfqBa4F3BaDh",
     "4F3tF20F30F2B3Di3F3dDiB9F3CfuBfE5tDp1F39Dp5F3B3Do3F3B3Do3F3B7B47F3BjjaF30jaF50F3eF50F36F5",
     "0F31F50F3aF50F3eF50F36F50F31F52F3BjEvbF3JmCc8F3lCc9F37CcnF35C90F3B9C90F38C9C4F35r1F30r0F3",
     "Bbr0F31r2F30r1F30rlBo0F38BovDruD37F38D3BfF3iBl0F31Bl4F34BlrDu2F30DupCg4F30CgpFbB5F3vCsnCr",
     "3F3jCr1F3BdCr3C20F31C24F37C20F32C20F3sC21F32C23F39C26F38C26F3vDkvDgvF3B6Cl3F3bCl8F3Bl52F3",
     "65lBr1F37BriBq4F37BqhDv6F33DvbF36DvCfF3C8DlBmF3BiDecF3BiDe6F35DeB7Bj7F39Bj5F3B5B72F3sB77",
     "F31B7GfF3u30F3B9F80F32F81F31F8fF3232Fb7F38FbB0F31Fb33B7Dj7F3B9E9lF3pDmB5F3rnjF3mB58F3Cdd3",
     "F3B3d8F30dC2Bt9F30Bt1F3oEa6F39Ea5F3Bkk0F3hk7F3B6Ch8F3CvE40F3jE8aF3hC50F3BeC5BtF36D10F30D1",
     "0F33D10F3eD10F3aD15F3BqC64F39C65F33Bb0F37Bb1F31Bb1F3lBb0F36Bb0F31Bb0F34Bb0F30Bp8Bb1F31Bb1",
     "F32Bb1F30Bb5F30Bb4F36Bb1F36Bb2F34BbaF39F10F30F11F30F10F3B5F10F39F10F30F11F30F10F33F10F39",
     "F10F31F17F31F1sF3CrD70F34D7tF3C7Eu7F39EuF5F3BlE61F3B5E6B1F3C4CuaF39Cu5F3cCviF3BpEl5F39El5",
     "F3jD2rF3q11F3e13F3m1FoF3BrB1D3F3CiF7bF30F76B01F30B01F37B00F31B00F3tB00F31B01F3bB08F39B0C5",
     "F37D51F3BdD51F3aD5qF3C7Fa7F3CiEbcF3fhBoDs6F39vClF37FbCnF3B1EddF39Ed5F38b0F3Bcb0F3db9F3sb2",
     "F3vCm1F3lCm0F3dCmC8F36Cn0F31Cn0F3BbCn2F30Cn0F31Cn0F38Cn7F39Cn5F35Be0F31Be0F3B4Be0F31Be0F3",
     "5Be6F39Be5F3BbFb3F39FbHlF3oCi6F3gC00F3B8C02F3sC0CkF30CeeF3BhEmcF30EmypqD5F3Deq0F34qaF3G3q",
     "CSbF3D2scF3BClB39F3DyqB34F3S62GVoF3BpBgBW5F3Ro76F3uD00F39D03F31D0CeEn0F39En5F3t81F3589F3",
     "C5Dq9F39Dq0F36Dq0F3kDq4F3iDqNfF3BpC7G5F3CqCo4F3oFb1F3oFbBbF3CaCt3F3BoCt6F3gCtBvF30Eo0D91",
     "Bh0C3aF31Bh4Fb8F3F-nEo7FbXvEoOlC3B8F30C38EolFbD0F3DiFbIPsF33Bv0F36Bv0F31Bv0F30BvIuBn2Bve",
     "F30BnsF32Bn1F30BvdF33Bv7F3MbD9CI3F3DaB24F3cB22F38B26F39B21F33B23oDwrF3Hpo2Fb2F3Njo5F3mFbe",
     "F3gFbeF3BdBp1F3mBp8F3DjoBrF3Hlo9F3B6o1F3Bto2Bpgo7Bp1o6Bpto3BpBsokF3C5BcDpF3jobF3jobF3Cmo8",
     "F3ooE6F3Cko0F3C6o0F31o1F30o1F31o1F33o0F3bo0F30o0F36o0F3C0o0F33o1F37o0F36o0F3ro0F33o0F34o0",
     "F30o2F36o0F3Kjo1F3J3o1F3BhoUbE7eF34E70F3eE7BCfF3uC95F35C9GkF36B90F3gB91F36B90F31B90F34B94",
     "F3BttB0F30tDfF3BcDa2F3dDa1F39Da3F31DaJvF3uF0gF3BpF64F30F6OfF3B9D4GlF3BaDd3F30DdFvF3uFb0F3",
     "lFb7F31FbGvF36B60F33B60F31B60F3eB60F3G4Cq1F3fCqB8F3Cb03F3903F310YgF3C3oCbF3BsoG1F3330F3q3",
     "0F3130F3031F3030F3930F3330F3030F3035F3033F3030F3030F3030F3230F3130F3031F3030F3030F3030F30",
     "30F3030F3130F3031F3330F3630F3330F3330F3030F3930F3g34F3230F3430F3g3BjF313IdF3Bbo3F3D3obF3e",
     "o1F3eo0F3eo0F3B4o9F3FdoBnF3po0Bn1ocF3Bbo3F38o6F31odF35oEpF3+no0Fb2F3go2F3co2F3Dmo3FbCuo5",
     "F3bo3F30oeF3bo3F3Bno7F39o5F3B7o7F3to1F3bo3F31odF38FbB6F3Kjo3Fb7F3do1F3co2F39o0Fb2F30FbBno",
     "0F30Fb3F30Fbeo1F3ao0Fb3F30Fb8o6F3Eio0F3D5o0FbBA4F3BJWvBhvF3EBpBh5FbGtBh1F3FU1BhbFb1F3HJg",
     "BheF3TdBhCN1F3QtBhBP1F3EwaBh4F3ECvBhEG9FbVSy6F30otF3CvoDvF3HfBpF-QfF3"]

/-- The characters that a script shares with others. -/
def scriptExtensions : List (String × List String) :=
  [("adlam", ["BQv0B00GQe0DPh0"]),
   ("arabic", ["BQc0e030B00aaq0GOu0DPh0BTXs1BN0r"]),
   ("armenian", ["Y80"]),
   ("avestan", ["Fn0LLo1"]),
   ("bengali", ["Vs0BUk1h1Exa01021108080204022BC-p0"]),
   ("bopomofo", ["W7012d0LJ72491ca32060G30BTK91Iq4"]),
   ("buginese", ["BKOf0"]),
   ("buhid", ["FZl1"]),
   ("carian", ["Fn0Hz2020DOj0"]),
   ("caucasianalbanian", ["Y40Bc0Bc0"]),
   ("chakma", ["CP69BSg9"]),
   ("cherokee", ["Y021061m1b1"]),
   ("coptic", ["Fn0S803110Dc1KV10BVG8r"]),
   ("cypriot", ["CAI024Bc38"]),
   ("cyprominoan", ["CAI01"]),
   ("cyrillic", ["Vs0C321010102050Lj1GLh0ECa0"]),
   ("devanagari", ["Vs0BUk1h1ExaB611-m0BBZv9"]),
   ("dogra", ["CL4bBHW09"]),
   ("duployan", ["Fn0Sf110o1KYn0DDT33"]),
   ("elbasan", ["Fn0Sd0"]),
   ("ethiopic", ["Ye0"]),
   ("garay", ["BQc0e030"]),
   ("georgian", ["Fn0BGh0Cxh0Dwu0DOm0"]),
   ("glagolitic", ["Fn0Sb010Lu020I10Cxh0Dwu0DP80+Bb0"]),
   ("gothic", ["Fn0Sc120B80"]),
   ("grantha", ["CKh1h1U0dEGs011u231-m0BySa0DEk110"]),
   ("greek", ["Fn0S81201010a0Be020Be0GSb1Ur0"]),
   ("gujarati", ["CKh1h1BHWa9"]),
   ("gunjalagondi", ["Fn0CFc1"]),
   ("gurmukhi", ["CKh1h1BHWa9"]),
   ("gurungkhema", ["CL50"]),
   ("han", ["Fn0LZof1220191ca3206043Fr0EkfB0B590BgB7BoBgfbBj0Cooa4D0uyY17VZt1Iq4BU-qhHWu1"]),
   ("hangul", ["MA12491cg060G30BTK91Iq4"]),
   ("hanifirohingya", ["BQc0e030B00Ej0"]),
   ("hanunoo", ["FZl1"]),
   ("hebrew", ["Y71"]),
   ("hiragana", ["MA12491cg51041Cr330Cq1BTK81Iq4a0Bd1"]),
   ("javanese", ["BKOf0"]),
   ("kaithi", ["CL69JG10+Pu9"]),
   ("kannada", ["CKh1h1Exa01160n010BCZr5"]),
   ("katakana", ["Y50t0LGt2491cg51041Cr330Cq1BTK81Iq4a0Bd1"]),
   ("kayahli", ["BKJe0"]),
   ("khojki", ["CX69BHK09"]),
   ("khudawadi", ["CL41BHWa9"]),
   ("latin", ["Fn0Q40a012109010B6e1110f27111B60504cIl1BGa1Bz80DHs0Rm0G00DJ60+H87R60"]),
   ("limbu", ["CL50"]),
   ("lineara", ["CAI7Bc"]),
   ("linearb", ["CAI024Bc38"]),
   ("lisu", ["Vs0g0LJs1"]),
   ("lycian", ["ICq0"]),
   ("lydian", ["Fn0LLp0"]),
   ("mahajani", ["Fn0CFcbBHW09"]),
   ("malayalam", ["CKh1h1Exk0n0BCZt2"]),
   ("mandaic", ["BS00"]),
   ("manichaean", ["BS00"]),
   ("masaramgondi", ["CL41"]),
   ("meroitichieroglyphs", ["ICt0"]),
   ("modi", ["BKBg9"]),
   ("mongolian", ["GA2110CB90D+h153"]),
   ("multani", ["CT69"]),
   ("myanmar", ["BKJe0"]),
   ("nandinagari", ["CKh0i1y09D-p08070BCZl5"]),
   ("newa", ["CKh1Ey201190601010"]),
   ("nko", ["BQc0e030BzYu1"]),
   ("olonal", ["CL41"]),
   ("oldhungarian", ["ICq020DOj0f0"]),
   ("oldpermic", ["Fn0S8052a0Lf0"]),
   ("oldturkic", ["ICq0DOl0"]),
   ("olduyghur", ["BS00CBFh0"]),
   ("oriya", ["CKh1h1Exk0n0"]),
   ("osage", ["Y102060Cc0"]),
   ("phagspa", ["GA2110CB90D+i0"]),
   ("psalterpahlavi", ["BS00"]),
   ("runic", ["FXb2"]),
   ("samaritan", ["LRh0"]),
   ("sharada", ["CKh0Ey501021209020BCw2520"]),
   ("shavian", ["Fn0"]),
   ("sinhala", ["CL41Eyc0"]),
   ("sogdian", ["BS00"]),
   ("sunuwar", ["Y01109020s030"]),
   ("sylotinagri", ["CL41E09"]),
   ("syriac", ["Y312110o27111Wq0e120B00aaq0Fy7010"]),
   ("tagalog", ["FZl1"]),
   ("tagbanwa", ["FZl1"]),
   ("taile", ["Y015130DJj9"]),
   ("takri", ["CL41BHWa9"]),
   ("tamil", ["CKh1h1Exk0BDAo0wQd010Bn1"]),
   ("tangut", ["L-gfPf0"]),
   ("telugu", ["CKh1h1Exf11010n0"]),
   ("thaana", ["BQc0e120C09Bzy80a0"]),
   ("thai", ["Vs0q0Bb0Bd0"]),
   ("tibetan", ["MA83"]),
   ("tifinagh", ["Y201013p0"]),
   ("tirhuta", ["CKh1h1Exf0c0f0BCZt9"]),
   ("todhri", ["Y1020209010Ca0"]),
   ("toto", ["Vs0"]),
   ("tulutigalari", ["DH69EA2010BCZr5Fr0"]),
   ("yezidi", ["BQc0e030C09"]),
   ("yi", ["MA115927Gv0BTT54"])]

/-- The characters whose script is `common` or `inherited` and that some scripts use. -/
def sharedCharacters : CharSet :=
  ofTable
    ["Fn0Q40a012109010B6e1110f27111g020i0504c40Ig1M50e030B00aaq0X01h1Byl0BPf2C71Gb110BGaBaG51Bm",
     "010Rk0v0a020Ei0DJ60o1a04010Ncf1220191ca3251043Cp330Cq1EjfB0B590BgB7BoBgfbBj0Cooa4D0uyY17",
     "J89Hk0F00Uxe1I51Iq4a0Bd1L024Bc38N0rEBv0BKL43FVshHWu1"]

/-- The characters of the script with a long name. -/
def ofScript (long : String) : CharSet :=
  let number := scriptNames.findIdx fun names => names.head? == some long
  ⟨(scriptRuns.filter fun run => run.2 == number).map (·.1)⟩

/-- The long name of a script. -/
def scriptName? (name : String) : Option String :=
  (scriptNames.find? fun names => names.contains name).bind (·.head?)

/-- The characters of the script of a name. -/
def script? (name : String) : Option CharSet := (scriptName? name).map ofScript

/-- The characters that the script of a name uses. -/
def scriptExtension? (name : String) : Option CharSet :=
  (scriptName? name).map fun long =>
    let own := ofScript long
    if long == "common" || long == "inherited" then own.difference sharedCharacters
    else
      match scriptExtensions.lookup long with
      | some table => own.union (ofTable table)
      | none => own

end FeatureFile.CharSet
