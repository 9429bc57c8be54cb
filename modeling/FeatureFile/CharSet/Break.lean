/-
# FeatureFile.CharSet.Break — the classes of text segmentation

Three properties class the characters for finding the boundaries of user-perceived characters, of
words and of sentences. Each is a table of runs with the number of the class; the number behind the
last class stands for all other characters, which have no name.
-/

import FeatureFile.CharSet.Table

namespace FeatureFile.CharSet

/-- A property that classes characters: the names of its classes, and the runs of one class. -/
structure BreakProperty where
  names : List (List String)
  runs : List ((Nat × Nat) × Nat)

/-- The characters of the class of a name. -/
def BreakProperty.find? (p : BreakProperty) (name : String) : Option CharSet :=
  (p.names.findIdx? fun names => names.contains name).map fun number =>
    ⟨(p.runs.filter fun run => run.2 == number).map (·.1)⟩

/-- The classes of user-perceived characters. -/
def graphemeBreak : BreakProperty where
  names :=
    [["cr"], ["control", "cn"], ["extend", "ex"], ["l"], ["lf"], ["lv"], ["lvt"], ["prepend", "pp"],
     ["regionalindicator", "ri"], ["spacingmark", "sm"], ["t"], ["v"], ["zwj"]]
  runs :=
    Table.runs 0 <| Table.numbers
      ["91041100h1CudB01cd01ShdDf2Iid62I6dBc20d020d120d120d02Bnd579da20d01Bddk2fd02D4d62070d521",
       "d120d32B0d070d02tdq2Cqda2Bpd828d02nd320d820d220d42Bad22Bjd174d82B9dn207v209Bld0209020d2",
       "9723902190d629d12sd0219Bnd020d0219321d191d19028d029d12pd021d1209Bnd020d29123d121d222d02",
       "td122d02ad1209Bnd020d29420d12090d1902jd12ld520d0219Bnd020d1209321d191d19026d229d12td02",
       "Bqd020902192d290d29028d02B7d022902Bmd020d22390d220d326d12ad12sd0219Bnd020d09120902190d2",
       "20d326d12ad12ed09bd1219Bmd120d0219320d290d2902077d029d12sd0219C5d023d0219220d020d6902hd",
       "19Bsd020d0962bd72D1d020d0982ad62C8d12qd020d020d023d19Bgdd209420d124da20dB328d02D5d32095",
       "20d121912md19123d22fd32cd020d09125d02ed02D1dCv3C7bCnaKsd22zhd32rd22sd12td12Bvd120962790",
       "219a28d02Bcd220102Dkd12B1d02Dld223912293d19025922Gqd121902Bod090209620d020d021d7259921d",
       "02Bfdu2Bgd3209Bed923922B5d82bd1209td09321952Bnd02091229020942Bfd79721912End220dc209623d",
       "025d021d0912G5dBv2Qad01020c11nd61Bgdf1CvdB02C-td22Ecd02Cvdv2R9d52D8d12zOjd320d92vd12Cfd",
       "12Ifd022d023d02md1912093d02Cid19Bhdf912pdh2cd02B5d72oda20902bds32d2209Bed02193219121902",
       "B3d02C2d5219121912bd027d0209Bdd02Bid020d221d124d120d02B8d0912194d0902Hbd19021902190d090",
       "2hd05q605q605q605q605q605q605q605q605q605q605q605q605q605q605q605q605q605q605q605q605q6",
       "05q605q605q605q605q605q605q605q605q605q605q605q605q605q605q605q605q605q605q605q605q605q",
       "605q605q605q605q605q605q605q605q605q605q605q605q605q605q605q605q605q605q605q605q605q605",
       "q605q605q605q605q605q605q605q605q605q605q605q605q605q605q605q605q605q605q605q605q605q60",
       "5q605q605q605q605q605q605q605q605q605q605q605q605q605q605q605q605q605q605q605q605q605q6",
       "05q605q605q605q605q605q605q605q605q605q605q605q605q605q605q605q605q605q605q605q605q605q",
       "605q605q605q605q605q605q605q605q605q605q605q605q605q605q605q605q605q605q605q605q605q605",
       "q605q605q605q605q605q605q605q605q605q605q605q605q605q605q605q605q605q605q605q605q605q60",
       "5q605q605q605q605q605q605q605q605q605q605q605q605q605q605q605q605q605q605q605q605q605q6",
       "05q605q605q605q605q605q605q605q605q605q605q605q605q605q605q605q605q605q605q605q605q605q",
       "605q605q605q605q605q605q605q605q605q605q605q605q605q605q605q605q605q605q605q605q605q605",
       "q605q605q605q605q605q605q605q605q605q605q605q605q605q605q605q605q605q605q605q605q605q60",
       "5q605q605q605q605q605q605q605q605q605q605q605q605q605q605q605q605q605q605q605q605q605q6",
       "05q605q605q605q605q605q605q605q605q605q605q605q605q605q605q605q605q605q605q605q605q605q",
       "605q605q605q605q605q605q605q605q605q605q605q605q605q605q605q605q605q605q605q605q605q605",
       "q605q605q605q605q605q605q605q605q605q605q605q605q605q605q605q605q605q605q605q605q605q60",
       "5q605q605q605q605q605q605q605q605q605q605q605q605q605q605q605q605q605q605q605q605q605q6",
       "05q605q605q605q605q605q605q605q605q605q605q605q605q605q605q605q605q605q605q605q605q605q",
       "605q605q605q605q605q605q605q605q6bdmb3dBgaIZ1d02X0df2fdf2Ged01Etd12Cfdb1Q0d02H1d02Ekd42",
       "BU5d220d124d32B7d223d02F4d12Rsd32C0d42Jsd12Ced32C5da2Bgd32Dpd090209Bkde2B8d021d129d2209",
       "Bcd293219121d073d029d07Bhd22B3d420972fd19Bbd02bd1209Bfd298209020d174d320d0902Crd2922193",
       "25d021d02Esd022972kd1219Bmd120d020902391d191d19028d029d191d622d42C2d0219520d021d020d220",
       "90d19220702dd12Chd297219220902md02Cgd0219520902190209120912Had0219321d39120912qd12Chd29",
       "7219020912D9d0209021972D4d0209021d320942Hvd29820912Hkd02490d191d320709070902Ecd29321d12",
       "39022d09rd92B7d520907327d028d521922B7d57c20912Mkd09620d520902Chdl20d096209120912Dpd522d",
       "020d120d620702C1d490d120d19020902Kqd12198d120709Bfd19422d1922md02FGkdf1025de2LG7db22922",
       "CNvd42Bqd62Rbd0b2d3bP3d020dBm96d32Cgd02ad12TFad120d31ESrdBd21dm2Qtd422d5271721d62td32Ej",
       "d22BzqdBm23dBh27d02dd02ld420de2BKfd620dg21d620d120d42D3d02Evd62Lmd02Bsd32Prd32Htd12Wvd6",
       "2Dcd62CEqdp8Pqd42YC-vdv1Cv2Dv1Hf2DQf1Fx-vd"]

/-- The classes of words. -/
def wordBreak : BreakProperty where
  names :=
    [["aletter", "le"], ["cr"], ["doublequote", "dq"], ["extend"], ["extendnumlet", "ex"],
     ["format", "fo"], ["hebrewletter", "hl"], ["katakana", "ka"], ["lf"], ["midletter", "ml"],
     ["midnum", "mn"], ["midnumlet", "mb"], ["newline", "nl"], ["numeric", "nu"],
     ["regionalindicator", "ri"], ["singlequote", "sq"], ["wsegspace"], ["zwj"]]
  runs :=
    Table.runs 0 <| Table.numbers
      ["9i081c01hi0g0i023i0f3i0a0i0b0i9d090a4ip03i040ip09i0cB3i001i056i000i091i004im00iu00iOv05",
       "iB10Df3400i101i300a005i0009200i000ij00iCi00iEa00i63F500iB501i300i0009B800a005iBc30i030i",
       "130i130i037iq63i360009ai555i1a1ia30i052iBa0k39d0i0d0a0i1003D200i0063050i5310130i33109d2",
       "01i00ei050003t0q31iCo0a300di9dB0083101i0a0i001i031il033008300230043hio0233ia04in00i500i",
       "154i83B90n305B03Bl02300h3006390131i9d0if0230i701i101il00i600i002i301i0300631i131i23007i",
       "033i100i20131i9d109i000i031i230i503i101il00i600i100i100i101i030i433i131i232i036i300i006",
       "i9d132003ai230i800i200il00i600i100i401i0300730i230i231i00ei10131i9d8i00530i230i701i101i",
       "l00i600i100i401i0300631i131i236i233i100i20131i9d0i00fi03000i502i200i302i100i000i102i102",
       "i202ib03i432i230i331i005i03di9dfi43700i200im00if01i0300630i230i336i130i201i001i10131i9d",
       "fi00230i700i200im00i900i401i0300630i230i336i135i100i10131i9d0i1003bi33800i200iB80130063",
       "0i230i33004i20036i20131i9d9i500i230ih02in00i800i001i602i033i530i030i735i9d1i13Bsi031i63",
       "bi730i9dCmi031i83ai630i9dB5i00mi135i9dai030i030i033i13700iB303ij30i1340a30iB338i03D3ij3",
       "0i9dbi333i230i231i632i33cib30i039d331iB500i004i001iBa00iKc00i301i600i000i301iB800i301i",
       "B000i301i600i000i301ie00iBo00i301iC201i23vif0fiCl01i502iTb01ig00gp04iCa02ia06ih0338ii02",
       "3aih013bic00i200i13Bviv38i031i9dB0i2305039d5iCo06i4013B1003004iC509iu00ib33ib39i9dDvi9d",
       "B5im043Boi930is31i039d5i9dliu3Bgi43Be0g3702i9dgi83bi23t0c3109dBb0d3biB30j37i9d2i209dB30",
       "1ia04iBa01i20fi230ik3300350031023004iFv0Bv3Il01i501iB501i501i700i000i000i000iu01iBk00i6",
       "00i002i200i602i301i503ic04i200i602i6g0i2g0i030h157i1b9i0b1i091c4504ei142i0aei049i0g450i",
       "950i00ci00fic0BiiB03gi003i001i900i002i405i000i000i000i300ia01i304i403i00giB80ZciBj0BYli",
       "H405i302310biB500i004i001iBn06i00ei03m08i600i600i600i600i600i600i600i600iv3Bei00Ofi0g3i",
       "00B3i530i474i10Cri13172iCq70i374iBa00iCt0giv0Bfif7GfiBe70iCn7xF7iBEc0C2iBd01iIc02if09d1",
       "0jiBe0330i930iu013Cf013liG501i100i000i70kif00320033003m0433i03iiBj0bi13Bh0h39i9d5ih3502",
       "i000i10039dr0731im0c3bis02i33Be0d3di009dai039i9d5iB80d38i200370131i9dB0i23Bhi030i231i13",
       "4i130i03tia0431i20139i501i501i508i600i600iBp05iDi0730i131i9d5iKz30bim03iBg0IY3i60bi404i",
       "0603960ic60i460i060i160i160i96D10B0iLa0hiBv01iBl0B7ib03if30a1i090aaif32i14ni240a0i0b0i0",
       "a09pi400iE601i056i0b3i0a0i0b0i9d090a4ip03i040ip0aiBn713u02i501i501i501i20ri253ib00ip00i",
       "i00i100ie01id0B1iDq0C4iBk0E7i03E1is02iBg0ei03uiv0cit04iB50434it01iB303i700i40B9iEt01i9d",
       "5iB303iB303iB707iBj0bia00ie00i600i100ia00ie00i600i102iBj0biJm08il09i70ni500iB900i80C4i5",
       "01i000iBb00i102i001im09im08iu0C0ii00i109il09ip0C5iBn05i10Bvi00230i134i33300i200is01i233",
       "i03vis02is0B2i700ir013oiBl09il09ii0cih0DdiC80BmiBi0ciBi0ciB30337i9d5i9dr02i430im0HpiB90",
       "0i132i10fi20Bmi33s09i007il0a3uih033B9ik0qim08i23Bk0e3ui9d031013008i33Bc0a31i053i039i051",
       "io06i9d5i23B30d30i9d3i0013007iB20031i008i23Bf0d3303i330i139d000i00B2ih00io0b35i031003Bt",
       "i600i000i300ie00i906iBe0b34i9d5i330i701i101il00i600i100i400i1300631i131i231i005i034i401",
       "31i632i43ai900i001i000iB500i00830i031i030i330i43000300ci13siBk0h3304i9d3i0320tiBf0j3100",
       "i007i9dF5iBe0631i83mi3013B1iBf0g32i00ai9dB5iBa0c3006i9d5ijdBoie33i9dG5iBb0e3D4iBv09dki7",
       "01i001i700i100in0530i131i3300030013bi9dC5i701iB60631i63000i0003qi0093B706300337i037i00a",
       "3Bd0f32i00hiC80G6iB00ei9d5i800iB40730i7300ei9dnit01il30id3C8i600i100iB50532i030i130i630",
       "0037i9d5i500i100iv0430i130i43006i9dJlii0338i130003c00iB10632i43ci9d03Cki00Ceiyp0D5iDe0g",
       "iG30CSbiD00eiBBf0f50350e39iDyq04iS60GVoit0h39dBW5iRo06iu00i9d5iCe00i9d5it01i43aiBf0638i",
       "30bi9d8ik04ii0NfiBc02i9dG5iBv0DviCa03i0300Bm36i33c0Bvi100i0003ai13P-ti370i670i170i07Iui",
       "27Bhi07di37CUniDa04ic02i806i902i130i35ECbi9dQ5iBd31im3Qti432i5375731i63ti33Eji23NqiCk00",
       "iC600i101i001i101i300ib00i000i600iC000i301i700i600ir00i300i400i002i600iKj01io00io00iu00",
       "io00iu00io00iu00io00iu00io00i701iBhdPviBm33iBh37i03di03li430ie3BCfiu05i50Gki630ig31i630",
       "i130i434iBt0B0i03DfiBc02i63601i9d3i00K0it003giBb0339dOlir0339dGlit013009dP4i600i300i100",
       "ie00iG40ai63B8iC3063003i9dBF5i300iq00i100i001i000i900i300i000i005i003i000i000i000i200i1",
       "00i001i000i000i000i000i000i100i001i300i600i300i300i000i900ig04i200i400ig0Tjip05ip05ip0",
       "CripePqi43B-fi9dYBA6i05tiCv3DviHf3F-Qfi"]

/-- The classes of sentences. -/
def sentenceBreak : BreakProperty where
  names :=
    [["aterm", "at"], ["cr"], ["close", "cl"], ["extend", "ex"], ["format", "fo"], ["lf"],
     ["lower", "lo"], ["numeric", "nu"], ["oletter", "le"], ["scontinue", "sc"], ["sterm", "st"],
     ["sep", "se"], ["sp"], ["upper", "up"]]
  runs :=
    Table.runs 0 <| Table.numbers
      ["8e0c051c01he0c0a023e221e19000e97093e0a0epd020e022ep6020e026e0bpe0c8e06020e046e063e06023",
       "emd0e6dn60e760d060d060d060d060d060d060d060d060d060d060d060d060d060d060d060d060d060d060d",
       "060d060d060d060d060d060d060d060d060d160d060d060d060d060d060d060d060d160d060d060d060d060",
       "d060d060d060d060d060d060d060d060d060d060d060d060d060d060d060d060d060d060d061d060d060d26",
       "1d060d061d062d163d061d062d261d061d060d060d061d060d160d061d062d060d061d16080d26381d061d0",
       "61d060d060d060d060d060d060d060d060d160d060d060d060d060d060d060d060d060d161d060d062d060d",
       "060d060d060d060d060d060d060d060d060d060d060d060d060d060d060d060d060d060d060d060d060d060",
       "d060d060d060d060d060d060d661d061d160d063d060d060d060d060dC4608B3668163eb8de466e080e08ge",
       "Df30d060d06080e0d061e360e0d5e0d0e2d0e0d0e1d06gd0e8dB260d162d260d060d060d060d060d060d060",
       "d060d060d060d060d060d460d060e0d061d16BidBf60d060d060d060d060d060d060d060d060d060d060d06",
       "0d060d060d060d060d060d060e630d060d060d060d060d060d060d060d060d060d060d060d060d060d060d0",
       "60d060d060d060d060d060d060d060d060d060d060d060d061d060d060d060d060d060d060d160d060d060d",
       "060d060d060d060d060d060d060d060d060d060d060d060d060d060d060d060d060d060d060d060d060d060",
       "d060d060d060d060d060d060d060d060d060d060d060d060d060d060d060d060d060d060d060d060d060d06",
       "0d060d060eB5d1e082e091eB860a6eBc30e030e130e130e037eq83e48be545e191ea30e042aBa8k3970e170",
       "e1803D280a0863040e5318130e331897281e082abe040803t8q31eCo8a308de97B0883181e090a081e031el",
       "8330883082308438e0a0e0a2e1a0eo8233ea84en80e580e144e83B98n304B03Bl82308h3086398131a970ef",
       "8230e781e181el80e680e082e381e0308631e131e23087e033e180e28131e97189e080e031e230e583e181e",
       "l80e680e180e180e181e030e433e131e232e036e380e086e97132803ae230e880e280el80e680e180e481e0",
       "308730e230e231e08ee18131e978e08530e230e781e181el80e680e180e481e0308631e131e236e233e180e",
       "28131e970e08fe03080e582e280e382e180e080e182e182e282eb83e432e230e331e085e03de97fe43780e2",
       "80em80ef81e0308630e230e336e130e281e081e18131e97fe08230e780e280em80e980e481e0308630e230e",
       "336e135e180e18131e970e1803be33880e280eB881308630e230e33084e28036e28131e979e580e230eh82e",
       "n80e880e081e682e033e530e030e735e971e13ceBf80318634e68730e97B6e180e080e480en80e080e98031",
       "883081e480e080e630e971e38ve08me135e97ae030e030e033213780eB383ej30e1348a30eB338e03BoeBa8",
       "j308971a3e58333823082318632833c8b3080397331eB5d0e0d4e0d1eBa80e06Kb80e381e680e080e381eB8",
       "80e381eB080e381e680e080e381ee80eBo80e381eC281e231e0a3e1amef8feCld1e562eTb80e0ag80cp8122",
       "eCa82ea86eh8338ei8231a8eh813bec80e280e13beBj8v31a0e083e08031e97ne090a3e090a0e230403975e",
       "Co86e4813B1803084eC589eu80eb33eb37e1a97t81e48aeBb83ep85e97B5em8433eBk8930es31e03975e97c",
       "e083a3eu3Bge43Be8g3780e1a971a1e1aae838e2a23t8c31897Bb8d3beB38j32e1a2e972e2897B381a860d0",
       "64eBa81e28fe230ek3380358031823084eFv6Bv30d060d060d060d060d060d060d060d060d060d060d060d0",
       "60d060d060d060d060d060d060d060d060d060d060d060d060d060d060d060d060d060d060d060d060d060d",
       "060d060d060d060d060d060d060d060d060d060d060d060d060d060d060d060d060d060d060d060d060d060",
       "d060d060d060d060d060d060d060d060d060d060d060d060d060d060d060d060d060d060d060d860d060d06",
       "0d060d060d060d060d060d060d060d060d060d060d060d060d060d060d060d060d060d060d060d060d060d0",
       "60d060d060d060d060d060d060d060d060d060d060d060d060d060d060d060d060d060d060d060d060d060d",
       "060d060d060d867d561e5d1e767d767d561e5d1e760e0d0e0d0e0d0e0d767dd61e767d767d767d460e164d0",
       "e062e260e164d2e361e163d3e764d4e260e164d2eac0413142e192e723e002e1b440c8e120e1a6e122ake0c",
       "440e940e06ae1206ce120ec6BieB03ge0d3e0d1e062d162d060e0d2e4d5e0d0e0d0e0d0e3d0e063d0638061",
       "e161d4e0d363e06gefdf6280d0638Lue32se12Maepdp6Tge526ed2Cee12ue92Miel2Bue32ve12Q1eBfdBf60",
       "d062d160d060d060d063d060d160d762d060d060d060d060d060d060d060d060d060d060d060d060d060d06",
       "0d060d060d060d060d060d060d060d060d060d060d060d060d060d060d060d060d060d060d060d060d060d0",
       "60d060d060d060d060d060d060d060d060d060d060d060d060d060d165e0d060d06230d064e2a3eB560e064",
       "e061eBn86e08ee03m88e680e680e680e680e680e680e680e680ev3d2de121e923e0a08be0a4e02fe1a72N2e",
       "0c090a1e28921e720e220e88530e481e483eCl81e131e280eCp80e384eBa80eCt8gev8Bfef8PveGNv8Bve",
       "VUc8C2eBd80e0aIc80e1af89718je0d060d060d060d060d060d060d060d060d060d060d060d060d060d060d",
       "060d060d060d060d060d060d060d060d0608330e930e080d060d060d060d060d060d060d060d060d060d060",
       "d060d060d060d2613Cf8130e0a2e0aue881e0d060d060d060d060d060d060d260d060d060d060d060d060d0",
       "60d060d060d060d060d060d060d060d060d060d060d060d060d060d060d060d060d060d060d060d060d060d",
       "060d060d060d960d060d061d060d060d060d060d06081e0d060d06080d060d260d060d060d060d060d060d0",
       "60d060d060d060d064d064d060d060d060d060d060d060d060d063d060d061d061e0d060e060e060d060d06",
       "0d060dke260d060826680328033803m8433e03ieBj81e1a7e13Bh8h37e1a975eh3582e080e180397r8730e0",
       "am8c3bes82e33Be8d36e1a4e08975e48039897480eB88d38e280378131e972e2am82e0823Bh803082318134",
       "813080308ne281ea8431a28139e581e581e588e680e680eBa60ed65eCf6B28730a131e975eKz38bem83eBg8",
       "II3eLd81eD98B5e66be464e0803980ec80e480e080e180e180eDb8B0eLa812feBv81eBl8B7eb83ef3190a09",
       "0e1a126ef30e191ef21e126e19001e091a09523e09be480eE681e040e0a5e121e19000e97093e0a0epd020e",
       "022ep6020e020e120a12090eBn813u82e581e581e581e28re243eb80ep80ei80e180ee81ed8B1eDq8C4eBk8",
       "E7e03E1es82eBg8ee03uev8cet84eB58434et81eB383e780e48B9eB7dB76Cd81e975eB3d3eB363eB787eBj8",
       "bead0eed0e6d0e1d0ea60ee60e660e162eBj8beJm88el89e78ne0618260eB960e86C4e581e080eBb80e182e",
       "081em89em88eu8C0ei80e189el89ep8C5eBn85e18Bve08230e134e33380e280es81e233e03le1a7es82es8",
       "B2e780er813oeBl89el89ei8ceh8DdeC88BmeBidceBi6ceB38337e975e9758ld2e430e08l6HpeB980e132e1",
       "8fe28Bme33s89e087el8a33e4aleh8333aB5ek8qem88e23Bk8e31ase97031813088e33Bc8a31e043a039e04",
       "1eo86e975e23B38d30e970e2a0813087eB28031e088e23Bf8d3381a1e330a1397080e080e1aveh80eo8b31a",
       "0e1a0e031803Bte680e080e380ee80e980a5eBe8b34e975e330e781e181el80e680e180e480e1308631e131",
       "e231e085e034e48131e632e43ae980e081e080eB580e08830e031e030e330e430803081aae13seBk8h3381a",
       "2e973e0328teBf8j3180e087e97F5eBe8631e830e1a4eea3813B1eBf8g31a0e08ae97B5eBa8c3086e975ej7",
       "req81ee33e971e2a0e68FoeBb8e3D4evdv697ke781e081e780e180en8530e131e33080308130a0e0a8e97C5",
       "e781eB68631e63080e0803qe0893B786308332e1a2e037e08a3Bd8f30e1a08heC88G6eB08ee975e880eB487",
       "30e73081ace97net81el30ed3C8e680e180eB58532e030e130e6308037e975e580e180ev8430e130e43086e",
       "97Jlei8331a6e130803c80eB18632e431aae9703Cke08Ceeyp8D5eDe8geG38CSbeD08eeBBf8f40358e39e",
       "Dyq84eS68GVoet8h397BW5eRo86eu80e973e1aCe80e975et81e430a9eBf8631a6e380aae978ek84ei8NfeBc",
       "80e1a97G5evdv6ne0aD6eCa83e0308Bm36e33c8Bve180e0803ae13deF-n87eBGl8B8e98IX6e380e680e180e",
       "J28ee08se281e08de387eMb8CI3eDa84ec82e886e982e130a34ECbe97Q5eBd31em3Qte432e5374731e63te3",
       "3Eje23Nqepdp6pd660eh6pdp60d0e1d1e0d1e1d1e3d0e7d360e060e660ea6pdp61d0e3d1e7d0e6d0ep61d0e",
       "3d0e4d0e0d2e6d0ep6pdp6pdp6pdp6pdp6pdp6pdr61eod0eo60e56od0eo60e56od0eo60e56od0eo60e56od0",
       "eo60e560d061eBh7PveBm33eBh37e03de032e0ahe430ee3BCfe9608j65e56Gke630eg31e630e130e434eBt6",
       "B0e03DfeBc82e63681e973e08K0et803geBb83397Oler83397Glet8130897P4e680e380e180ee80eG48ae63",
       "B8eB1dB1663083e97BF5e380eq80e180e081e080e980e380e080e085e083e080e080e080e280e180e081e08",
       "0e080e080e080e080e180e081e380e680e380e380e080e980eg84e280e480eg8Tjepd5epd5epdBHbe22BLme",
       "97BA5eBJWv8veEBp85eGt81eFU18deHJg8eeTd8CN1eQt8BP1eEwa84eECv8VXCge04teCv3DveHf3F-Qfe"]

end FeatureFile.CharSet
