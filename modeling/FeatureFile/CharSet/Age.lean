/-
# FeatureFile.CharSet.Age — the versions that introduced the characters

The age of a code point is the version of the character database that first assigned it. A version
stands for the characters that it holds, so for those of its own age and of every earlier one.
-/

import FeatureFile.CharSet.Table

namespace FeatureFile.CharSet

/-- The versions in the order in which the table numbers them. -/
def versions : List (Nat × Nat) :=
  [(1, 1), (2, 0), (2, 1), (3, 0), (3, 1), (3, 2), (4, 0), (4, 1), (5, 0), (5, 1), (5, 2), (6, 0),
   (6, 1), (6, 2), (6, 3), (7, 0), (8, 0), (9, 0), (10, 0), (11, 0), (12, 0), (12, 1), (13, 0),
   (14, 0), (15, 0), (15, 1), (16, 0)]

/-- The runs of code points of one age, with the number of the version; the number behind the last
version stands for no age. -/
def ageRuns : List ((Nat × Nat) × Nat) :=
  Table.runs 0 <| Table.numbers
    ["Pl033t0730506h326a7d8Co04316Be0039043g6C5083057647261003c53910191r0028000f3r600r000rj00r",
     "Bb0096003150003000300030003h01405463703b003C1003b003B8009131533Bk0151015101508r0137017105",
     "8f538f91a1b7f0rB501r600jB600j00031r1f0c0rg107c190088001277rq03r0j40ar360c0f4907008649000e",
     "0n07000bp049i02326570bd015C70134003e003t016904306d30rt326q31r26t7h9Bg305drBq81r2jBda1rea0",
     "rrb1r0b0rai4run0r1n4r0q7n0c0fac5f1g0n7h9man0jeh0gqc0f0a2006Bk01bh00a0b400a1bo0194b0f1a180",
     "7180f200r701r101rl00r600r002r301r0006601r101r20077r003r100r401rk00a1i0j1r0600060r503r101r",
     "l00r600r100r100r101r000r403r101r202r096r300r006re0090j9r200r6006000r200rl00r600r100r401r9",
     "00r200r201r00er00261r900c066r0g5i0r200r701r101rl00r600r100r06301r70091r101r206r0m103r100r",
     "20191ra0065b9r100r502r200r302r100r000r102r102r202r7007203r402r200r301r095r00dr07b0764r0f2",
     "00j700r200rm00r900f401r0n09600r200r306r100r190g1r0n1r10191r906r0k790h0f100j700r200rm00r90",
     "0r401r16600r200r306r105r0n000r10181r900r180obr0i0f100m700r200rm00bf00b1i0950090r200r300b0",
     "h3r2h006h0g10191r90592h690r0m130rh32rn30r830r031r632r033r530r030r735r9f1r23brBp03rs0B4r10",
     "0r000r0k100k000r0k005k300k600k200r000r001k100kc00k201r400r000r500o0r901r101cvrC710rB01031",
     "93rq13b5103010rk123610301230re30r090317293a1bB4rB13094309130963293359p3Bv93a19B500r0c4r0c",
     "1rB60151700072cCp04aC304aCh05a6307Bu307030r331r630r030r331rB6307030r331ru307030r331r630r0",
     "30r331r6307630rm307u307030r331r6307B6307i31r1b17r32rp75rCk30g1r5g1r0aTl38as32rCg37f6rc50n",
     "650n8r0nm58rj5brc50r250r15brCs3061r935r965re30n935rCn30j6rB93094rC5a9rs61f0rb63rb63r062r",
     "B961r46arB971a3rp75r970a2r17v6r71r17Bua0rsa1raa5r9a5rda1ref1mdnBgrCb80n0r1qBc81n0qBa92cb9",
     "5cBjb7r3bBn92re92rBi98h1q4rBaj1r2j7c7rB2a3c0i1f0k4rDb6Cn768r9ef3i0n0h0b0a18Eq00139Cp059l0",
     "1r501rB501r501r700r000r000r000ru01rBk00re00rd01r500ri01r200r800rBe003m0055345161705674509",
     "0r3e60051rq00r477b2ra001022315372a0b0d2f0g0i0nerh01365073809erBo0130607e50718092aBf003083",
     "90a1g3rCq083b5Hh0d50003Do00305t3Bj516a7b80aab6f3h0iB40132qlra0krEa0j506El095Cf07375j01615",
     "0703Cl013b5179576a7091a16f708992a399a0bia0b0a3bna0f300b301br00bB200b000b302b000a601b60d5u",
     "02bn00bd00b67380c090c1br539f5Hv3Pv5d657684938B892f494apf1rvf0r0mB1f2jbf0k7f0ioj3gej0kBe70",
     "nBe70nc8290a2938591aDa76a1c4rBc70r0c4r0c1rBl71c6r070bdr0bm78r670r670r670r670r670r670r670r",
     "670rv9n73917i90a9c6f1h4i4j0k2manB1rp30rCo3brGl3prb33pBn0232503000rCj0151r5015Ct0054rB7009",
     "0i0j0rCt00rf0n32b4mf7j91q8r0pf5s0160rB30ba06e5r01607Bh0e5b036Be00lDm036D2016u006GNl39mBv6",
     "UN50l7797a0c8gki4jcm2nBEc32rh315f305b3052305038rBfaJb9jrv91bh97cr95f0g0cCna7rm7384918Da91",
     "b0g1b1cbf9b0c2f0h0j1f5g1j5k1n4k3m2q1r1n0r0n0r4n2qkr2n1m0f1c0b49Bb70m2r9a5rBn87rC490h7rb95",
     "rra1g1jCj9ar09sa2rCda0raa3r1auf0rBm98rd91r991r39ra3fC2anr4amc9r5b1r5b1r5b8r6b0r6b0rBff3g1",
     "f1k3m3rCfgBda1r9a5rKz31brma3rBgaCA3rGRd01cBq52a1rD97B5r60br404r03o00r400r000r100r100rDb0f",
     "b0nfrLc0fnBv01rBl06r0nv4b005061nf5975r30296f1gk01516900ri00r303r2005000rE601r000rCt015Ct0",
     "2r501r501r501r202r600r609r230220b60rp60ri60r160re61rd6B1rDq64r263rBc62r86Ca71f1h0rb90m2r0",
     "fBerBd9E1rs92rBg9errf3ru40f348r2iq44rBaf4rt60r06B373rd7B9rB5416B54Cf61r965rB3h3rB3h3rB7f7",
     "rBjfar0fan0ren0r6n0r1n0ran0ren0r6n0r1n2rBjqbrJmf8rlf9r7fnr5n0rB9n0r8nC4r561r060rBb60r162r",
     "061r06la0r8aBuf7r8fBfrig0r1g4r4gp81a2r08p94r09BvrBnc3r1g1cfg1rBdg370r174r770r270rq71j1r27",
     "3r870j6r876rvavfvrB6f3rbf8rBla2rsa1rqa4r7ahf6r3fbr6fCfrC8aBmrBigcrBig6r5gB7j7r9j5rB5q2rsq",
     "7r1qGfrua0rB9m0r2m1r1mfr2qBmr0q2oB7j7rB9jlrpnB5rrmjrmk8rCdb3rtb5n8r0fC1a0n9r0j1roc6r9c5r",
     "Bkc0rdc2j0m7rB6f8rC8c3g0f1m9c0f4g0rjfarhf0rBaf0h2oBtr6g0r0g0r3g0reg0rag5rBqf4r9f5r0g2f0r7",
     "f1r1f1rlf0r6f0r1f0r4f0r0j8f1r1f1r2f1r0g5r0f4r6f1r6f2r4far9q0r0q1r0q0rB5q0r9q0r0q1r0q0r3q0",
     "r9q0r1q7r1qsrCph0m0h0r0h0j0k1mtrC7f7r9fF5rBlf1rhfjgB1rC4far9f5rchirBnc0k0n5r9c5rjqrrpg0j1",
     "reg3rfg6nForBrjD3rCifbr0f6m1r0m1r7m0r1m0rtm0r1m1rbm8r9mC5r7k1rBdk1rakqrC7i7rBji1kmi0j4icr",
     "fnBof6r9oFlrB1qdr9q5r8h0rBch0rdh9rsh2rvh1rlh0rdhC8r6i0r1i0rBbi2r0i0r1i0r8i7r9i5r5j0r1j0r",
     "B4j0r1j0r5j6r9jJlroj6rgo0rB8o2rro0qCkr0merBhkcr0kxe8B9f0gD5rD28bf0r380farG3gCSbrD2ncrBBea",
     "0o8kso9rDyqq4rS6gGVorBpqBW5rRob6ruf0r9f3r1fCen0r9n5rtf1r5f9rC5f9r9f0r6f0rkf4rifNfrBpqG5r",
     "CqjD4rC4c5k3r0kBec8k6rgcBvr0h0i1k0mar1mdrF-ch4j5k7rXihP2mB8r0q8mIX6r3n0r6n0r1n0r1bIsi3ner",
     "0osr2k1r0odr3k7rMbiCI3rDaf4rcf2r8f6r9f1r7fDwrrHpq5rNjqCbrBdn1rmn8rDjnBrrHl49rB641r09Fj4ag",
     "1nkrC57DprjobrjjbrCm68rh86jE6rCk40rC640r141r041r141r340rb40r040r3406140rC040r341r740r640r",
     "r40r340r440r042r640rKh4171rJ14181rBh4Ubger4g0regBCfrun5r5oGkr6h0rgh1r6h0r1h0r4h4rBtoB0r0o",
     "DfrBck2rdk1r9k3r1kJvrungrBpk4r0kOfrB9oGlrBaq3r0qOvr6n0r3n0r1n0ren0rG4f1rffB8rCah0k3r9h3r1",
     "hYgrC3jCbrBskG1r3c0rqc0r1c0r0c1r0c0r9c0r3c0r0c0r0c5r0c3r0c0r0c0r0c0r2c0r1c0r0c1r0c0r0c0r0",
     "c0r0c0r0c0r1c0r0c1r3c0r6c0r3c0r3c0r0c0r9c0rgc4r2c0r4c0rgcBjr1cIdrBb93rD39breb1rdb0f0reb0r",
     "eblf9raa1f2mua0j0b0aab0a0b0a1b0a2b0a2b4a7b0a6b0a9b1c0k2m8b0a0b1a1b0a9b3a1b0a9bhh0mBnrpb0a",
     "1bcrB1a8b0h3r8a6r1bdr5iEprB0bbf2g5b0fC5b0f1gjbbfB4b0f4b3f4gbfgb6f7gBub0f0b0fFlb0f3b1f0gBt",
     "b1f3c6f4gnbhf0hB8f0hClf4b0cfb0c2b0c0b0c0b0c0b0c2b0c5b1c3b0c0b1c3b0cbb1f1gabBffC5b9f0g1h1i",
     "0k1m3r0o2ncf2r3f2h1i0j0k1m2rDjb2o3r4oCkf3j0o5rbk3r0nerbf3rBnf7r9f5rB7f7rtf1r1m9q3r1qBtrbi",
     "0m2k8g5h0i7h7i0h1ibh0kbh0i2jehci4j0k0m3j1m0n0j0k3j4gch5iaj1m5k2m1k9j5k0g1j7k0m0n2kmiojCjk",
     "brdj1r3k0m2o2k1n2r2k3m1o0q4r0q5kim3n2o6m3n2o0q0o2m2n0q6r1o6m2n1o0q1r0q7n0o0q5r6n1o6rEim0r",
     "BmmB4q9mBA3r11BJWm46m1nvrEBka3n0o5rGtb1rFU1gdrHJgierTdpCN1rQt4BOvr11Ewam4rECvoBXCdr11B--t",
     "r11B--tr11B--tr11B--tr11B--tr11B--tr11B--tr11B--tr11B--tr11B--tr110r04trCv4DvrHf6B-Qdr",
     "EAA11"]

/-- Whether a name writes a version: with a dot, or with a letter in front. -/
def isVersionName (name : String) (version : Nat × Nat) : Bool :=
  let (major, minor) := (toString version.1, toString version.2)
  name == major ++ "." ++ minor || name == "v" ++ major ++ minor

/-- The characters of the version of a name. -/
def age? (name : String) : Option CharSet :=
  (versions.findIdx? (isVersionName name)).map fun number =>
    ⟨joined ((ageRuns.filter fun run => run.2 ≤ number).map (·.1))⟩

end FeatureFile.CharSet
