/-
# FeatureFile.CharSet.Derived — derived properties and the names of properties

The properties of characters that a rule gives, from the general categories and the listed
properties. The binary properties go by the names in `properties`.
-/

import FeatureFile.CharSet.Category
import FeatureFile.CharSet.Property

namespace FeatureFile.CharSet

/-! ## §A Rules -/

/-- White space. -/
def whiteSpace : CharSet := ⟨Text.blankRanges⟩

/-- Letters, letter numbers, and what is listed as alphabetic. -/
def alphabetic : CharSet := (letters.union letterNumbers).union otherAlphabetic

/-- Small letters, and what is listed with them. -/
def lowercase : CharSet := (ofCategories ["ll"]).union otherLowercase

/-- Capital letters, and what is listed with them. -/
def uppercase : CharSet := (ofCategories ["lu"]).union otherUppercase

/-- What has a case. -/
def cased : CharSet := (lowercase.union uppercase).union (ofCategories ["lt"])

/-- Marks and punctuation that may stand inside a cased word. -/
def caseIgnorable : CharSet :=
  (ofCategories ["mn", "me", "cf", "lm", "sk"]).union <| ofCodes
    [0x27, 0x2e, 0x3a, 0xb7, 0x387, 0x55f, 0x5f4, 0x2018, 0x2019, 0x2024, 0x2027, 0xfe13, 0xfe52,
      0xfe55, 0xff07, 0xff0e, 0xff1a]

/-- What some change of case alters. -/
def changesWhenCasemapped : CharSet :=
  (changesWhenLowercased.union changesWhenUppercased).union changesWhenTitlecased

/-- Mathematical symbols, and what is listed with them. -/
def math : CharSet := (ofCategories ["sm"]).union otherMath

/-- Marks that extend a user-perceived character. -/
def graphemeExtend : CharSet := (ofCategories ["me", "mn"]).union otherGraphemeExtend

/-- What can begin a user-perceived character. -/
def graphemeBase : CharSet :=
  (all.difference (ofCategories ["cc", "cf", "co", "cn", "zl", "zp"])).difference graphemeExtend

/-- What is reserved for the syntax of patterns. -/
def patternReserved : CharSet := patternSyntax.union patternWhiteSpace

/-- What can begin an identifier. -/
def idStart : CharSet :=
  ((letters.union letterNumbers).union otherIdStart).difference
    -- Among the letters, only this one is pattern syntax.
    ((ofCategories ["lm"]).intersection patternReserved)

/-- What can stand in an identifier. -/
def idContinue : CharSet :=
  (idStart.union (ofCategories ["mn", "mc", "nd", "pc"])).union otherIdContinue

/-- What stands in an identifier but in none whose compatibility form is one too. -/
def notInClosedIdentifiers : CharSet :=
  ⟨[(0x37a, 0x37a), (0x309b, 0x309c), (0xfc5e, 0xfc63), (0xfdfa, 0xfdfb), (0xfe70, 0xfe70),
    (0xfe72, 0xfe72), (0xfe74, 0xfe74), (0xfe76, 0xfe76), (0xfe78, 0xfe78), (0xfe7a, 0xfe7a),
    (0xfe7c, 0xfe7c), (0xfe7e, 0xfe7e)]⟩

/-- What can begin an identifier whose compatibility form is one too. -/
def xidStart : CharSet :=
  (idStart.difference notInClosedIdentifiers).difference
    ⟨[(0xe33, 0xe33), (0xeb3, 0xeb3), (0xff9e, 0xff9f)]⟩

/-- What can stand in an identifier whose compatibility form is one too. -/
def xidContinue : CharSet := idContinue.difference notInClosedIdentifiers

/-- The characters of words: alphabetic ones, marks, decimal digits, connectors and joiners. -/
def wordCharacters : CharSet :=
  (((alphabetic.union marks).union digits).union (ofCategories ["pc"])).union joinControl

/-! ## §B Names -/

/-- The binary properties with their names. -/
def properties : List (List String × CharSet) :=
  [(["asciihexdigit", "ahex"], asciiHexDigit), (["alphabetic", "alpha"], alphabetic),
    (["bidicontrol", "bidic"], bidiControl), (["bidimirrored", "bidim"], bidiMirrored),
    (["caseignorable", "ci"], caseIgnorable), (["cased"], cased),
    (["changeswhencasefolded", "cwcf"], changesWhenCasefolded),
    (["changeswhencasemapped", "cwcm"], changesWhenCasemapped),
    (["changeswhenlowercased", "cwl"], changesWhenLowercased),
    (["changeswhentitlecased", "cwt"], changesWhenTitlecased),
    (["changeswhenuppercased", "cwu"], changesWhenUppercased), (["dash"], dash),
    (["defaultignorablecodepoint", "di"], defaultIgnorableCodePoint),
    (["deprecated", "dep"], deprecated), (["diacritic", "dia"], diacritic), (["emoji"], emoji),
    (["emojicomponent", "ecomp"], emojiComponent), (["emojimodifier", "emod"], emojiModifier),
    (["emojimodifierbase", "ebase"], emojiModifierBase),
    (["emojipresentation", "epres"], emojiPresentation),
    (["extendedpictographic", "extpict"], extendedPictographic), (["extender", "ext"], extender),
    (["graphemebase", "grbase"], graphemeBase), (["graphemeextend", "grext"], graphemeExtend),
    (["graphemelink", "grlink"], graphemeLink), (["hexdigit", "hex"], hexDigit),
    (["hyphen"], hyphen), (["idsbinaryoperator", "idsb"], idsBinaryOperator),
    (["idstrinaryoperator", "idst"], idsTrinaryOperator),
    (["idsunaryoperator", "idsu"], idsUnaryOperator),
    (["idcompatmathcontinue"], idCompatMathContinue),
    (["idcompatmathstart"], idCompatMathStart), (["idcontinue", "idc"], idContinue),
    (["idstart", "ids"], idStart), (["ideographic", "ideo"], ideographic),
    (["joincontrol", "joinc"], joinControl),
    (["logicalorderexception", "loe"], logicalOrderException),
    (["lowercase", "lower"], lowercase), (["math"], math),
    (["modifiercombiningmark", "mcm"], modifierCombiningMark),
    (["noncharactercodepoint", "nchar"], noncharacterCodePoint),
    (["otheralphabetic", "oalpha"], otherAlphabetic),
    (["otherdefaultignorablecodepoint", "odi"], otherDefaultIgnorableCodePoint),
    (["othergraphemeextend", "ogrext"], otherGraphemeExtend),
    (["otheridcontinue", "oidc"], otherIdContinue), (["otheridstart", "oids"], otherIdStart),
    (["otherlowercase", "olower"], otherLowercase), (["othermath", "omath"], otherMath),
    (["otheruppercase", "oupper"], otherUppercase), (["patternsyntax", "patsyn"], patternSyntax),
    (["patternwhitespace", "patws"], patternWhiteSpace),
    (["prependedconcatenationmark", "pcm"], prependedConcatenationMark),
    (["quotationmark", "qmark"], quotationMark), (["radical"], radical),
    (["regionalindicator", "ri"], regionalIndicator),
    (["sentenceterminal", "sterm"], sentenceTerminal), (["softdotted", "sd"], softDotted),
    (["terminalpunctuation", "term"], terminalPunctuation),
    (["unifiedideograph", "uideo"], unifiedIdeograph), (["uppercase", "upper"], uppercase),
    (["variationselector", "vs"], variationSelector),
    (["whitespace", "wspace", "space"], whiteSpace), (["xidcontinue", "xidc"], xidContinue),
    (["xidstart", "xids"], xidStart)]

/-- The characters with the property of a name. -/
def property? (name : String) : Option CharSet :=
  (properties.find? fun entry => entry.1.contains name).map (·.2)

end FeatureFile.CharSet
