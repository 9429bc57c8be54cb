/-
# FeatureFile.CharSet.Category — the general categories

Every code point has one general category. The table lists the runs of code points of one category
from the first code point to the last one; the surrogates, which are no characters, have a number
of their own that no name goes with. The major classes, such as the letters, are unions of
categories.
-/

import FeatureFile.CharSet.Table

namespace FeatureFile.CharSet

/-- The names of the general categories, a short one first, in the order in which the table numbers
them. -/
def categoryNames : List (List String) :=
  [["lu", "uppercaseletter"], ["ll", "lowercaseletter"], ["lt", "titlecaseletter"],
   ["lm", "modifierletter"], ["lo", "otherletter"], ["mn", "nonspacingmark"],
   ["mc", "spacingmark"], ["me", "enclosingmark"], ["nd", "decimalnumber", "digit"],
   ["nl", "letternumber"], ["no", "othernumber"], ["pc", "connectorpunctuation"],
   ["pd", "dashpunctuation"], ["ps", "openpunctuation"], ["pe", "closepunctuation"],
   ["pi", "initialpunctuation"], ["pf", "finalpunctuation"], ["po", "otherpunctuation"],
   ["sm", "mathsymbol"], ["sc", "currencysymbol"], ["sk", "modifiersymbol"],
   ["so", "othersymbol"], ["zs", "spaceseparator"], ["zl", "lineseparator"],
   ["zp", "paragraphseparator"], ["cc", "control", "cntrl"], ["cf", "format"],
   ["co", "privateuse"], ["cn", "unassigned"]]

/-- The runs of code points of one general category, with its number. -/
def categoryRuns : List ((Nat × Nat) × Nat) :=
  Table.runs 0 <| Table.numbers
    ["vp0m2h0j2h0d0e0h0i0h0c1h981h2i1hp00d0h0e0k0b0kp10d0i0e0iB0p0m0h3j0l0h0k0l040f0i0q0l0k0l0i",
     "1a0k011h0k0a040g2a0hm00i60n10i71000100010001000100010001000100010001000100010001000100010",
     "00100010001000100010001000100010001000100010001000100110001000100010001000100010001001100",
     "01000100010001000100010001000100010001000100010001000100010001000100010001000100010001000",
     "11001000100211001000110012011300110012021100110010001000110010011000110012001000110110400",
     "21340002010002010002010001000100010001000100010001001100010001000100010001000100010001001",
     "10002010001200100010001000100010001000100010001000100010001000100010001000100010001000100",
     "010001000100010001000100010001000100010061100110110001300100010001000100C4104q1h33kb3dk43",
     "6k030k03gkDf500010001030k00011s03210h003s1k000h200s000s1001g00s80B21001120210001000100010",
     "0010001000100010001000100010001004100010i00011011Bi0Bf10001000100010001000100010001000100",
     "01000100010001000100010001000100010l45170001000100010001000100010001000100010001000100010",
     "00100010001000100010001000100010001000100010001000100010001100100010001000100010001001100",
     "01000100010001000100010001000100010001000100010001000100010001000100010001000100010001000",
     "10001000100010001000100010001000100010001000100010001000100010001000100010001000100010001",
     "0001000100010sB501s035hB810h0c1s1l0j0sBc50c050h150h150h057sq43s341has5q2i1h0j1h1la50h0q2h",
     "v40394k5983h1405D240h04650q0l5513150l351498241l04dh0s0q0405t4q51sCo4a504ds98B0485130l2h03",
     "1s051jl4350385032503451seh0so4251s0h0sa44sn40k540s1q4s85B8403n50qv506Bl405060504267536051",
     "6046594151h980h03e405160s741s141sl40s640s042s341s050426351s161s1605047s063s140s24151s9814",
     "1j5a0l0j040h051s15060s543s141sl40s640s140s140s141s050s26153s151s252s056s340s046s981524050",
     "h9s15060s840s240sl40s640s140s441s050426450s15060s16051s04es14151s980h0j6s04550s05160s741s",
     "141sl40s640s140s441s0504060506351s161s16056s15063s140s24151s980l045a9s05040s542s240s342s1",
     "40s040s142s142s242sb43s1605162s260s26051s045s06ds982a5l0j0l4s052605740s240sm40sf41s050425",
     "360s250s356s150s241s041s14151s986s0h6a0l0405160h740s240sm40s940s441s05040605460s05160s161",
     "56s165s140s14151s980s1406bs1516840s240sB84150426350s260s2605040l3s24066a24151s988a0l540s0",
     "5160sh42sn40s840s041s642s053s26250s050s765s981s160hbsBf40514653s0j5403750h981hB4s140s040s",
     "440sn40s040s94051485041s440s030s650s981s34vs042leh0l0h2l155l989a0l050l050l050d0e0d0e16740",
     "sB343sd506450h1544a50sB350s7l055l0s1l4h3l1hB4sBa4163506550615161504985h541615342504261466",
     "2435c4051615560504069826051lB500s004s001sBa10h0321K840s341s640s040s341sB840s341sB040s341s",
     "640s040s341se40sBo40s341sC241s258hja2sf49l5sCl01s511s0cTb40l0hg40mp40d0e2sCa42h29746sh425",
     "068si415061h8sh415bsc40s240s15bsBj4150665760516a52h032h0j04051s985s9a5s5h0c3h250q05985sB2",
     "403Bk46s4415B1405044sC549su40s253615263s160556253s0l2s1h98t41s44asBb43sp45s980a2sB1lm4151",
     "6051s1hBk4060506650s050605167556951s05985s985s6h035h1sd507f5Bgs3506Be40506450605460516740",
     "s1h986h9l858l2h1506t40635161506251498Bb405061526050625167s3hB34767516152s4h982s2498t4531h",
     "8100014sBa01s207h7s250hc5066534055405140615044sBb1Bu3c103B11B43Bv500010001000100010001000",
     "10001000100010001000100010001000100010001000100010001000100010001000100010001000100010001",
     "00010001000100010001000100010001000100010001000100010001000100010001000100010001000100010",
     "00100010001000100010001000100010001000100010001000100010001000100010001000100010001000100",
     "01000100810001000100010001000100010001000100010001000100010001000100010001000100010001000",
     "10001000100010001000100010001000100010001000100010001000100010001000100010001000100010001",
     "000100010001000100010001008170511s501s71707170511s501s710s000s000s000s007170d11s717271727",
     "172410s1130020k012k210s1130022k311s11300s2k71402k1s210s1130021k0sam4q5c1h0f0g0d1f0g0d0f7h",
     "0n0o4q0m8h0f0g3h1b2h0i0d0eah0i0h0b9h0m4q0s9q0a031s5a2i0d0e039a2i0d0e0sc32sB0jesc5370527b5",
     "es1l003l001l01201120010l001l0i405l000l000l000l300l01300134011l11104i00310l0i1l010lfaB2900",
     "01390a1l3s4i4l1i3l0i1l0i1l0i6l0iul1i1l0i0l0iulIbi7l0d0e0d0ejl1i6l0d0eCgl0itloiB7l5iC7llsa",
     "lksBraCdllaFml0i8l0iBll7iDel0iHnl0d0e0d0e0d0e0d0e0d0e0d0e0d0etaBbl4i0d0eui0d0e0d0e0d0e0d0",
     "e0d0efiHvlE2i0d0e0d0e0d0e0d0e0d0e0d0e0d0e0d0e0d0e0d0e0d0eBui0d0e0d0evi0d0eI1iBflki1l5iB6l",
     "1svl0sD8lBf0Bf100012011000100010001300100110051132001000100010001000100010001000100010001",
     "00010001000100010001000100010001000100010001000100010001000100010001000100010001000100010",
     "001000100010001000100010001000100010001000100010001000100010001000100115l000100012500014s",
     "3h0a1hB510s014s011sBn46s030hds05m48s640s640s640s640s640s640s640s640sv51h0f0g0f0g2h0f0g0h0",
     "f0g8h0c1h0c0h0f0g1h0f0g0d0e0d0e0d0e0d0e4h039h1c3h0c0h0dch1l2h0d0e0d0e0d0e0d0e0cB1spl0sCol",
     "bsGllpsfl0m2h0l0304090d0e0d0e0d0e0d0e0d0e1l0d0e0d0e0d0e0d0e0c0d1e0l8935160c431l2903040h1l",
     "0sCl41s151k13040cCp40h23044sBa40sCt40s1l3a9lv4B5l8s0lf4ul0s9atl7a0leavl9aB6leaJvlGNv4Bvl",
     "UQk403BDm42sBml8sB74531hIb4032hf49814js00010001000100010001000100010001000100010001000100",
     "0100010001000100010001000100010001000100010405270h950h03000100010001000100010001000100010",
     "001000100010001000100011315C5499155h7smk831k000100010001000100010001002100010001000100010",
     "00100010001000100010001000100010001000100010001000100010001000100010001000100010001000100",
     "01000100010001000103710001000110010001000100010001031k00010001040001002100010001000100010",
     "001000100010001000100014001400100010001000100010001000100013001000110011s00010s010s010001",
     "0001000100ks230001041301640524053405m41615063l052s5a1l0j0l5sBj43h7s16Bh4f6157s1h985sh5542",
     "h040h140598r4751hm4a516as0hs42s2506Be4051635161526ch0s03983s1h4405038498440sB845516151615",
     "8s24057405061s981s3hf403542l04060506Bh405042514154415040504ns14031ha40615161h041306059s54",
     "1s541s548s640s640sBa10k3381031k3sCf1B2416051605160h06051s985sKz34bsm43sBg43sB-vtGHvrLd41s",
     "D94B5s61bs414s0405940ic40s440s040s140s140sDb4gkfsLa40e0dflBv41sBl46s0lvsb40j2lf56h0d0e0h5",
     "sf50h1c1b0d0e0d0e0d0e0d0e0d0e0d0e0d0e0d0e1h0d0e3h2b2h0s3h0c0d0e0d0e0d0e2h0i0c2i0s0h0j1h3s",
     "440sE641s0q0s2h0j2h0d0e0h0i0h0c1h981h2i1hp00d0h0e0k0b0kp10d0i0e0i0d0e0h0d0e1h9403Bc413u42",
     "s541s541s541s242s1j0i0k0l1j0s0l3i1l9s2q1l1sb40sp40si40s140se41sd4B1sDq44s2h3sBca2s8lBk93a",
     "gl1a2l0scl2s0lBesBcl05E1ss42sBg4es05qa3sv43a8sj40974094sB54454st40s0hB343s740h49B9sB70B71",
     "Cd41s985sB303sB313sB747sBj4as0ha00se00s600s100sa10se10s610s112sBj4bsJm48sl49s74ns530sB930",
     "s83C4s541s040sBb40s142s041sm40s0h7am41l6au47s8aBfsi40s144s4al45a2s0hp44s0hBvsBn43s1a14fa1",
     "sBda04250s154s35340s240ss41s253s058a6s8h6ss41a0hs42avs740lr4153s4a6h8sBl42s6hl41s7ai44s7a",
     "h46s3hbs6aCfsC84BmsBi0csBi16s5aB34357s985s98340304l02s450c03l17s1iGfsua0sB940s150c1s14fs2",
     "4Bms35s49a047sl4a53a4hlsh4353hB5sk46ajsm48s060506Bk4e56h3sja98051415048s2506Bc4263516151h",
     "0q3h059s0q1so46s985s25B344506750s983h0416047sB24051h048s1506Bf4268516343h350h060598040h04",
     "2h0sjaash40so42625160506155h051405Bts640s040s340se40s940h5sBe40526754s985s15160s741s141sl",
     "40s640s140s440s15041605361s161s261s045s064s44161s652s45as940s041s040sB540s0426550s061s060",
     "s360s160506050405041h0s1h7s15ssBk4267516250605344h981h0s0h0524tsBf42655060536150615140h04",
     "7s98F5sBe426351s36150615mh3415B1sBf42675160506152h04as985schisBa405060516550605040h5s985s",
     "j8rsq41s050605163506453s981a2h0l64FosBb4268506150hD3sv0v1988abs741s041s740s140sn4560s161s",
     "15060504060406052h8s98C5s741sB6426351s153605040h0406qs0495B74550604357h057s04551625Bd4c50",
     "6152h044hcsC846s9hFlsB040hds985s840sB4406650s550605044h9s98ia2s1ht41sl50s066506150615C8s6",
     "40s140sB54552s050s150s6504057s985s540s140sv4460s150s16050605046s98Jlsi415161h6s150406c40s",
     "B1416452s16050605ch9805Cks04eska7l3jglcs0hyp4D5sDe90s4hasG34CSbsD041hcsBBf4fq0554e59sDyq4",
     "4sS64GVost4b5262598BW5sRo46su40s983s1hCe40s985st41s450h9sBf4654h3l330h0l9s980s6a0sk44si4",
     "Nfs23B74132h98G5sv0v1ma3hD4sCa43s0504Bm66s35c3Bvs130h0305as16dsF-n47sBGl4B8s94IX6s330s630",
     "s130sJ24es04ss241s04ds347sMb4CI3sDa44sc42s846s941s0l150h3qDwrsHfl985sNjlCbsBd51sm58sDjlBr",
     "sHll9sB6l1sBrl16252l567q751l65tl35BslksC1l250lDpsjabsjabsCml8soaE6sp0p1p0610sh1p0p1000s10",
     "1s001s101s300s70310s010s610sa1p0p1100s301s700s600sp1100s300s400s002s600sp1p0p1p0p1p0p1p0p",
     "1p0p1p0r11so00io10i51o00io10i51o00io10i51o00io10i51o00io10i5100011sBh8PvlBm53lBh57l05dl05",
     "1l4hes450se5BCfs9104j15s51Gks650sg51s650s150s454sBt3B0s05DfsBc42s65631s983s040lJvst405gs",
     "Bb435984s0jOfsq4033598Glst41504983s0hOvs640s340s140se40sG441s8a65B8sB10B1165033s983s1hYgs",
     "Bqa0l2a0j3aCbsBca0leaG1s340sq40s140s041s040s940s340s040s045s043s040s040s040s240s140s041s0",
     "40s040s040s040s040s140s041s340s640s340s340s040s940sg44s240s440sg4Bjs1iIdsBbl3sD3lbsel1sel",
     "0sel0sB4l9scaF0lBnsslcsBbl3s8l6s1lds5lEpsHql4kWnl3sgl2scl2sDml3sCul5sbl3s0lesbl3sBnl7s9l5",
     "sB7l7stl1sbl3s1lBtsKjlbsdl1scl2s9l4sBnl6sel1sal5s8l6sEil0sCrl98BA5sBJWv4vsEBp45sGt41sFU14",
     "dsHJg4esTd4CN1sQt4BP1sEwa44sECv4VXCgs0qtsCvqDvsHf5B-QfsB--tr1sB--tr1s"]

/-- The characters of some general categories, given by their short names. -/
def ofCategories (short : List String) : CharSet :=
  let wanted := (List.range categoryNames.length).filter fun i =>
    short.any fun name => (categoryNames[i]?.bind (·.head?)) == some name
  ⟨joined ((categoryRuns.filter fun run => wanted.contains run.2).map (·.1))⟩

/-- Letters of every kind. -/
def letters : CharSet := ofCategories ["lu", "ll", "lt", "lm", "lo"]

/-- Combining marks. -/
def marks : CharSet := ofCategories ["mn", "mc", "me"]

/-- The decimal digits of every script. -/
def digits : CharSet := ofCategories ["nd"]

/-- Letter numbers. -/
def letterNumbers : CharSet := ofCategories ["nl"]

/-- The major classes, with their names and the short names of their categories. -/
def majorClasses : List (List String × List String) :=
  [(["l", "letter"], ["lu", "ll", "lt", "lm", "lo"]),
    (["lc", "casedletter"], ["lu", "ll", "lt"]),
    (["m", "mark", "combiningmark"], ["mn", "mc", "me"]),
    (["n", "number"], ["nd", "nl", "no"]),
    (["p", "punctuation", "punct"], ["pc", "pd", "ps", "pe", "pi", "pf", "po"]),
    (["s", "symbol"], ["sm", "sc", "sk", "so"]),
    (["z", "separator"], ["zs", "zl", "zp"]),
    (["c", "other"], ["cc", "cf", "co", "cn"])]

/-- The characters of the category or major class of a name. Three more names stand beside them. -/
def category? (name : String) : Option CharSet :=
  match name with
  | "any" => some all
  | "assigned" => some (ofCategories ["cn"]).complement
  | "ascii" => some ⟨[(0, 0x7f)]⟩
  | name =>
    match majorClasses.find? fun entry => entry.1.contains name with
    | some (_, short) => some (ofCategories short)
    | none =>
      match categoryNames.find? fun names => names.contains name with
      | some names => some (ofCategories (names.take 1))
      | none => none

end FeatureFile.CharSet
