/-
# FeatureFile.CharSet.Property — listed properties of characters

The properties of the character database that are given by a list and not by a rule. What follows
from these and from the general categories is derived elsewhere.
-/

import FeatureFile.CharSet.Table

namespace FeatureFile.CharSet

/-- The property `ASCII_Hex_Digit`. -/
def asciiHexDigit : CharSet :=
  ofTable
    ["Bg975q5"]

/-- The property `Bidi_Control`. -/
def bidiControl : CharSet :=
  ofTable
    ["BQs0GPh1q4Bn3"]

/-- The property `Bidi_Mirrored`. -/
def bidiMirrored : CharSet :=
  ofTable
    ["B81i010s010t010Bd0f0DTu3Bwt1CMs1a1Bm1e1Fh0G033530313313101048501h539110171v2350912i519421",
     "4n2f83k171BBtdCa023111253523dMjl251d807530441124401221a521ci13201020135162o1b14311214Ba27",
     "1B750103452403410I00Q333111e129Bb7Nb927BTRt551F21i010s010t0101111BVxn0Bp0Bp0Bp0Bp0"]

/-- The property `Changes_When_Casefolded`. -/
def changesWhenCasefolded : CharSet :=
  ofTable
    ["C1pCq0am17B001010101010101010101010101010101010101010101010101010102010101010101010111010",
     "10101010101010101010101010101010101010101110101011101112231112311110101110201112101130711",
     "11110101010101010102010101010101010102110121010101010101010101010101010101010101010101010",
     "1010101010107111201310101010Hm0Ba0103080601210111g18m0c2311010101010101010101010101121101",
     "12BiBg01010101010101010101010101010101090101010101010101010101010101010101010101010101010",
     "10101110101010101020101010101010101010101010101010101010101010101010101010101010101010101",
     "01010101010101010101010102B5Bg0CYoB51050Za5CE296Ba22K001010101010101010101010101010101010",
     "10101010101010101010101010101010101010101010101010101010101010101010101010101010101010101",
     "01010101010101010101010105120101010101010101010101010101010101010101010101010101010101010",
     "1010101010101010101010101010101010109785a78785b010101087gBf22255225b3c45225J903160Bdfj0Zi",
     "pBZgBfBg012201010131020821010101010101010101010101010101010101010101010101010101010101010",
     "1010101010101010101010101010101010801040+Kd010101010101010101010101010101010101010101010j",
     "010101010101010101010101010E7010101010101030101010101010101010101010101010101010101010101",
     "010101010101010a0101110101010401020103010101010101010101014141010101010101013101130501010",
     "10o0xqCfTw06c4BA9pBG5B7E8B3Esa1e1611BXaBiEtlCZqvVM0v+V0B1"]

/-- The property `Changes_When_Lowercased`. -/
def changesWhenLowercased : CharSet :=
  ofTable
    ["C1pD5m16B10101010101010101010101010101010101010101010101010101010201010101010101020101010",
     "10101010101010101010101010101010101010111010311011122311123111101011102011121011307111111",
     "01010101010101020101010101010101021101210101010101010101010101010101010101010101010101010",
     "101010107111201310101010J10103080601210111g18B308010101010101010101010105020112BiBg010101",
     "01010101010101010101010101090101010101010101010101010101010101010101010101010101011101010",
     "10101020101010101010101010101010101010101010101010101010101010101010101010101010101010101",
     "01010101010102B5Cw9B51050WiClCEj06Ba22K00101010101010101010101010101010101010101010101010",
     "10101010101010101010101010101010101010101010101010101010101010101010101010101010101010101",
     "01010101010901010101010101010101010101010101010101010101010101010101010101010101010101010",
     "101010101010101010109785a78785b010101087o7878784b4b3c4b4J903160Bdfj0ZipBZgBfBg01220101013",
     "10208210101010101010101010101010101010101010101010101010101010101010101010101010101010101",
     "010101010101010801040+Kd010101010101010101010101010101010101010101010j0101010101010101010",
     "10101010E7010101010101030101010101010101010101010101010101010101010101010101010101010a010",
     "111010101040102010301010101010101010101414101010101010101310113050101010o0VZbpBG5B7E8B3Es",
     "a1e1611BXaBiEtlCZqvVM0v+V0B1"]

/-- The property `Changes_When_Titlecased`. -/
def changesWhenTitlecased : CharSet :=
  ofTable
    ["D1pBq0B9n17101010101010101010101010101010101010101010101010101010102010101010101011101010",
     "10101010101010101010101010101010101010102010122010203050203220201010204020301020301040111",
     "11010101010101010111010101010101010121010301010101010101010101010101010101010101030101010",
     "101010101080211040101010151110113113142011207020113550a1F60Bb0103032i0rB21132101010101010",
     "101010101014102020BkBf1010101010101010101010101010101010901010101010101010101010101010101",
     "01010101010101010101020101010101011101010101010101010101010101010101010101010101010101010",
     "101010101010101010101010101010101010101010BhB6DTg5CE2810He030g0Di010101010101010101010101",
     "01010101010101010101010101010101010101010101010101010101010101010101010101010101010101010",
     "10101010101010101010101010101010101650101010101010101010101010101010101010101010101010101",
     "010101010101010101010101010101010101010101885a78785a7878d2787878411603211832187a211Km0B1f",
     "40wbpBw6Bf10311010106020a0101010101010101010101010101010101010101010101010101010101010101",
     "01010101010101010101010101010101010801040cB51050+Ij01010101010101010101010101010101010101",
     "0101010j010101010101010101010101010E70101010101010301010101010101010101010101010101010101",
     "01010101010101010101010a010201010101040401120101010101010101010b0101010101010104010203050",
     "1010q0ws0sCfTw06c4BB9pBGdB7E8B3Era1e1611BY3BiDtlCZqvVM0v+V2B1"]

/-- The property `Changes_When_Uppercased`. -/
def changesWhenUppercased : CharSet :=
  ofTable
    ["D1pBq0B9n17101010101010101010101010101010101010101010101010101010102010101010101011101010",
     "10101010101010101010101010101010101010102010122010203050203220201010204020301020301051111",
     "11010101010101011101010101010101011111030101010101010101010101010101010101010103010101010",
     "1010101080211040101010151110113113142011207020113550a1F60Bb0103032i0rB2113210101010101010",
     "1010101014102020BkBf101010101010101010101010101010101090101010101010101010101010101010101",
     "01010101010101010102010101010101110101010101010101010101010101010101010101010101010101010",
     "1010101010101010101010101010101010101010BhB6Cw8Ba22Xo5CE2810He030g0Di01010101010101010101",
     "01010101010101010101010101010101010101010101010101010101010101010101010101010101010101010",
     "10101010101010101010101010101010101010165010101010101010101010101010101010101010101010101",
     "0101010101010101010101010101010101010101010101885a78785a7878d2Bk114010321140332187a21140",
     "Kh0B1f40wbpBw6Bf10311010106020a0101010101010101010101010101010101010101010101010101010101",
     "01010101010101010101010101010101010101010801040cB51050+Ij01010101010101010101010101010101",
     "0101010101010j010101010101010101010101010E70101010101010301010101010101010101010101010101",
     "01010101010101010101010101010a010201010101040401120101010101010101010b0101010101010104010",
     "2030501010q0ws0sCfTw06c4BB9pBGdB7E8B3Era1e1611BY3BiDtlCZqvVM0v+V2B1"]

/-- The property `Dash`. -/
def dash : CharSet :=
  ofTable
    ["Bd0BKs0Bj0DS10BA50CA95Bt0B70f0M60DA4020v140s0Nu0j0Df0BTMg1B50a0F90DT00Ju0"]

/-- The property `Default_Ignorable_Code_Point`. -/
def defaultIgnorableCodePoint : CharSet :=
  ofTable
    ["Fd0V10Wc0Cw21BSj1Cl4B-r4q4BhfEHk0BTErfHf0F00Cf8BPF73FGf7YLU5D-v"]

/-- The property `Deprecated`. -/
def deprecated : CharSet :=
  ofTable
    ["K90BJ90CI3010CB91CG55Vp1xXGm0"]

/-- The property `Diacritic`. -/
def diacritic : CharSet :=
  ofTable
    ["Cu010C70604021PnEu1755h14091Ht4Gh0BnBc10111110E3741E614132C3qCraBqaB21Du7B99grBt0g033s0Ca",
     "0g0De0g0De0g0Bf2Bs0g070Dn0De0g0De0g0Dd1g0Ds0Df0c510Db0d4Cb1r0101041C2211Bu0Dg011B8144p610",
     "a1W12zk1u0Eka90Kr2J40k720Bge2aD80f0B68Bm1Bq0b1C21C05Cio406022BiBuBgB35bB5aNt012b2d2d2d1",
     "DHg2Jt0Pq5D93Cv0zLi0c110s1Ci1eB1D62Dd1c0B50En0rhBp3B40Cv0c0B40El2C13Bj0D4492E01TZg0Y1fIe0",
     "10Bf0Bd1C30Xs0BEv51B918Tt240F51Rr5B60q4Mf2C6aBh3G00B90C81Do1Bu0Cc092D81Fi1Cg1g0o634Cp211d",
     "1Cv030Dr1Hr1Du0Dm1Dj0Id1I2140Es0Cj0i0Ch0N50I2011Ch0N91n0FHceLGp0CO04Br6Rk1R2gCg1P-u31611",
     "HY1Bd2mR02358726u3DU2BtG26Ln0Bt3Xu1X06Dd212"]

/-- The property `Emoji`. -/
def emoji : CharSet :=
  ofTable
    ["B306059Df040Hyd0c0Go0m0Cq5f1Lf1c0F60pa42G70H71a090Bq314902021204020112030318250105bb12011",
     "10i021i5101131502141b15120511011k155132040202510201010603060a1f02040104210b1Bg290e0e0Lk1",
     "Of2j1Bj040BGq0c0Sp010DPLa0Ga0F01c1e029Cbp11n0k028l1FeB12Df21122Ci221I61Bub51n7127c0232041",
     "d120819052c28220104060306ClBgC557224930113029H3b40IrBe191FoDgc395Bn7e2a68"]

/-- The property `Emoji_Component`. -/
def emojiComponent : CharSet :=
  ofTable
    ["B306059H+j0Gl0BXJb0By+mpPr4BNg3YBTcCv"]

/-- The property `Emoji_Modifier`. -/
def emojiModifier : CharSet :=
  ofTable
    ["Dy-r4"]

/-- The property `Emoji_Modifier_Base`. -/
def emojiModifierBase : CharSet :=
  ofTable
    ["JQt0Gr0g3DTDn0Bs22022Dl12ali3042127010o0G9140l041Fe234Cj0g290b0Rv02087609922Bo0Bt11110h21",
     "cH52Ba8"]

/-- The property `Emoji_Presentation`. -/
def emojiPresentation : CharSet :=
  ofTable
    ["IYq1Gd33020Q91l1BibBb0j0d081h1518050l0711040207041s0B30104210Bt2o0e0wr1Bj040DRFe0Ga0Fu029",
     "Cbp10o0k02412l1FeB0c81C51lcBa44cg303C6101Fq2Bud31ni0q1d0CmCkBgC560322243b178H3b40IrBe191",
     "FoDgc395Bn7e2a68"]

/-- The property `Extended_Pictographic`. -/
def extendedPictographic : CharSet :=
  ofTable
    ["F9040Hyd0c0Go0m0Cq5f1Lf1c0Cv0C60pa42G70H71a090Bq3151b1DhaDl2a1010603060a1f02040104210b4Bd",
     "290e0e0Lk1Of2j1Bj040BGq0c0Sp010DPL6Hvd2v0Bs5c1e029iBorea0k028139Nh5Jt8I9BgDvDkbClBac3Bo7a",
     "5B87uChcBe191NoI0-t"]

/-- The property `Extender`. -/
def extender : CharSet :=
  ofTable
    ["Fn0Qo1xe0Np0Tm0E90Cp0Xg0Dv0CK30Bo0T30Me0C40Ey90Bb4D71Ct2xYm0BPm0+20m0E90Dc0l1VDr0CAg1BOb0",
     "r040BG70J50Dk1Pi2BGf0UF91BEs110yKo1BFh0wk2"]

/-- The property `Grapheme_Link`. -/
def graphemeLink : CharSet :=
  ofTable
    ["CKd0Dv0Dv0Dv0Dv0Dv0Dv0Dv0Dd1g0Ds0Df0Dv0G90Fk1BWp1u0Et0Ud0H30D51C61EMb0+U60B50En0Ee0Dc0Jl0",
     "Hm0XSh0BQ60B90e0Bp0Dp1Eb0Dk0Fk0D20E02Dh0Dv0Hs0Dv0Dm0Dk0Id0I31F10Cj0i0Ch0N50I41Ch0N91QPc0"]

/-- The property `Hex_Digit`. -/
def hexDigit : CharSet :=
  ofTable
    ["Bg975q5B-V9975q5"]

/-- The property `Hyphen`. -/
def hyphen : CharSet :=
  ofTable
    ["Bd0Dv0BGs0ETr0CA91DQ50X30BTL70F90Cn0"]

/-- The property `ID_Compat_Math_Continue`. -/
def idCompatMathContinue : CharSet :=
  ofTable
    ["Fi150Hzm03a1eLj040m0DNF20p0v0p0v0p0v0p0v0p0"]

/-- The property `ID_Compat_Math_Start`. -/
def idCompatMathStart : CharSet :=
  ofTable
    ["IQ2040m0DNF20p0v0p0v0p0v0p0v0p0"]

/-- The property `Ideographic`. -/
def ideographic : CharSet :=
  ofTable
    ["MA61p8e2+5GNvC0UPvWI0Ld2D9zIa0rF-n8BGlB99JD7MbTI4BJWvB0EBp6Gt2FU1eHJgfTdCN2QtBP2Ewa5ECv"]

/-- The property `IDS_Binary_Operator`. -/
def idsBinaryOperator : CharSet :=
  ofTable
    ["L-g129Ph0"]

/-- The property `IDS_Trinary_Operator`. -/
def idsTrinaryOperator : CharSet :=
  ofTable
    ["L-i1"]

/-- The property `IDS_Unary_Operator`. -/
def idsUnaryOperator : CharSet :=
  ofTable
    ["L-u1"]

/-- The property `Join_Control`. -/
def joinControl : CharSet :=
  ofTable
    ["IAc1"]

/-- The property `Logical_Order_Exception`. -/
def logicalOrderException : CharSet :=
  ofTable
    ["DS04Dr4CXg220BEHq12011"]

/-- The property `Modifier_Combining_Mark`. -/
def modifierCombiningMark : CharSet :=
  ofTable
    ["BSk120E306031P111230v0"]

/-- The property `Noncharacter_Code_Point`. -/
def noncharacterCodePoint : CharSet :=
  ofTable
    ["B-OgvQe1B--u1B--u1B--u1B--u1B--u1B--u1B--u1B--u1B--u1B--u1B--u1B--u1B--u1B--u1B--u1B--u1"]

/-- The property `Other_Alphabetic`. -/
def otherAlphabetic : CharSet :=
  ofTable
    ["w50tcS0d10111110C8aBgc16g0D56432140B30ufD6aD51381213Da0Bsb366jBm12e1152a1t2Bq62121a0a1t2",
     "Bq4412140u130b2Bq71211l1m242Bq6212191a1u0Br43212a0B84Bp6121281b1t2Bq6121281b1f0c3Bq61212a",
     "0a1t2Cb51017i1Bt026i0D302511g0F3i9a1B3Deb1023n342122633db10a3BTk1u1u1u1C2iFs1B20Dmb48Gu4",
     "Bp92jCa1b2Bh4BgeBs2u821BpaBiiMsB1BW1BjCHmv+Dk7B21L2080n4Co1Bif10Bp0B64sbBd3BgbB50C3dc081",
     "Bd2Bi0122150Bc450Hd7TZj0CCn4BU621153Yk3C10K11Cf0I32BldBd1b2Bd890Bt2B4bi1Bp2Bgce1Cs8206020",
     "Et9n3Bq62121a0a1Ck810201311D7c12DahHd626t1Cie10DaaD7dI1cHn511213010Ee62540s9Ba413iaBedMn7",
     "16Cjl1dDq53011121030C241113Ks39110Bg632QOtgDR001Bm73Ct1TFc0Ix161g261114D40CFn0B-8p6p6p"]

/-- The property `Other_Default_Ignorable_Code_Point`. -/
def otherDefaultIgnorableCodePoint : CharSet :=
  ofTable
    ["wf0DQf1BSj1CFf0EHu0BTRr0Cf8wAA701tD0DvHgDQf"]

/-- The property `Other_Grapheme_Extend`. -/
def otherGraphemeExtend : CharSet :=
  ofTable
    ["CNu0o0L60o0D60o0H8010411191D70o0Dn0f0CJl0u0BA00501051D50C71BAo0EB11+J30Dc0VOt1ER00Dk0I80e",
     "090D0090201250H00c0Hh0I60Tp0c0BQ30UFe1YLj165YLVdCv"]

/-- The property `Other_ID_Continue`. -/
def otherIdContinue : CharSet :=
  ofTable
    ["Fn0Wf0D-18BT80BRh1EHd0BTT90"]

/-- The property `Other_ID_Start`. -/
def otherIdStart : CharSet :=
  ofTable
    ["GE51CEh0l0Dxc1"]

/-- The property `Other_Lowercase`. -/
def otherLowercase : CharSet :=
  ofTable
    ["Fa0f0Pl871u4D00Bk0DM10DBfBud0B2B4Vh0d0gcGjfwgpByi1+Qu1Gi0E1231x2390XAm0221B918BWDlBt"]

/-- The property `Other_Math`. -/
def otherMath : CharSet :=
  ofTable
    ["Cu0xh220q121HB00r2b0B03o1e1C1c403144i04029103460312112153354Cb4231111101421414h2110161061",
     "J23F8110o0h0Nt1c854512134e01025o1Bp010t391Km1v9MjlBv3B01BVD301040Gj010BVG1Ck1C6112021231b",
     "10161C01327161r131410361Kj2o1o1u1o1u1o1u1o1u1o172BhFQ031q11102019131010604010101211102010",
     "10101011102316131310191g52141g"]

/-- The property `Other_Uppercase`. -/
def otherUppercase : CharSet :=
  ofTable
    ["IL0fw6pDTD0p6p6p"]

/-- The property `Pattern_Syntax`. -/
def patternSyntax : CharSet :=
  ofTable
    ["B1ea6q310q3B2610111011404030n0v0HYon8e2i19JhWfF0TluBDbQ0DvM124of0BTId1I51"]

/-- The property `Pattern_White_Space`. -/
def patternWhiteSpace : CharSet :=
  ofTable
    ["94i0D40Hy81o1"]

/-- The property `Prepended_Concatenation_Mark`. -/
def prependedConcatenationMark : CharSet :=
  ofTable
    ["BQ05Gn0Bh0M01Cg0CB+q0f0"]

/-- The property `Quotation_Mark`. -/
def quotationMark : CharSet :=
  ofTable
    ["B2040E30f0Hws7p1DQ70O93d2BTR13Ft040Cq1"]

/-- The property `Radical`. -/
def radical : CharSet :=
  ofTable
    ["LU0p1CocGl"]

/-- The property `Regional_Indicator`. -/
def regionalIndicator : CharSet :=
  ofTable
    ["DyP6p"]

/-- The property `Sentence_Terminal`. -/
def sentenceTerminal : CharSet :=
  ofTable
    ["B10c0g0BK90Ej2Fk0Bb2Hm0Bt01031J51BX41Ym041Y50G61Et1Bd050Jq1L23F21a121t2Fr1C11z40n192DFf2",
     "Ji0d0m1Nd0zHs0Ie1H3030Lu1Cm1Cv0Eo1Ej2Eg1Hp0UR6021Br031F90c0g0C10CXk1BHt4Bc3Ft1Dl3Dv2E1160",
     "g1Co111Dc0Ja1Dl1Ll15eD91Hp2Q5010Hr1Cn1N41Vk1Ca1SZ91E50C11b0R91J80TQ60HP80"]

/-- The property `Soft_Dotted`. -/
def softDotted : CharSet :=
  ofTable
    ["D91G40Ip0u0Bk0k0K00D2010GI90Bj0d030E40Et0N50Gm1CZi0DJz51Bi1Bi1Bi1Bi1Bi1Bi1Bi1Bi1Bi1Bi1Bi1",
     "Bi1CE60Jh1q0"]

/-- The property `Terminal_Punctuation`. -/
def terminalPunctuation : CharSet :=
  ofTable
    ["B10a010b130Zu080Q10Bp0C80e012Fk0Bba10Hb1Bm517v0I51BHk1Fc045Jn1Yl7Y50Ds2C71Et230B7321Jq1L2",
     "3F21a112t2Fr4Bu1z40n192DFf2Ji0d040a01131Nc1zHr1Id2H34Lu1Cm1Cv0En2Ej2Dv0g1Hp0UR6021Bp213F9",
     "0a010b130C1020BBq0Bg0BE60G70Jm1Eo5C45Cp3zo4Bc3Ft6Dg3Dv2E1160g1Co4Dc0Ja1Dl2c1L633eD91Hp2Q5",
     "010Hr1Cn141Mu2Bd0U51Ca1BJb4RPp1E50C12a0R91J71TQ60HP73"]

/-- The property `Unified_Ideograph`. -/
def unifiedIdeograph : CharSet :=
  ofTable
    ["NA0GNvC0UPvWQe11011a0101122CBOmBJWvB0EBp6Gt2FU1eHJgfTdEN2Ewa5ECv"]

/-- The property `Variation_Selector`. -/
def variationSelector : CharSet :=
  ofTable
    ["GAb210BZPgfwAXgHf"]

end FeatureFile.CharSet
