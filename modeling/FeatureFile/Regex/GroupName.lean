/-
# FeatureFile.Regex.GroupName — the names of groups

A name begins with a letter or an underscore and goes on with letters, numbers, underscores, dots
and brackets. Names go by a later version of the character database than sets of characters do, so
the letters and numbers that it added are listed here.
-/

import FeatureFile.Regex.Flags

namespace FeatureFile

namespace Regex

/-- The alphabetic characters that the later version added. -/
def laterLetters : CharSet :=
  ⟨[(0x88f, 0x88f), (0xc5c, 0xc5c), (0xcdc, 0xcdc), (0xa7ce, 0xa7cf), (0xa7d2, 0xa7d2),
    (0xa7d4, 0xa7d4), (0xa7f1, 0xa7f1), (0x10940, 0x10959), (0x10ec5, 0x10ec7),
    (0x10efa, 0x10efb), (0x11b60, 0x11b67), (0x11db0, 0x11ddb), (0x16ea0, 0x16eb8),
    (0x16ebb, 0x16ed3), (0x16ff2, 0x16ff6), (0x187f8, 0x187ff), (0x18d09, 0x18d1e),
    (0x18d80, 0x18df2), (0x1e6c0, 0x1e6de), (0x1e6e0, 0x1e6f5), (0x1e6fe, 0x1e6ff),
    (0x2b73a, 0x2b73f), (0x2cea2, 0x2cead), (0x323b0, 0x33479)]⟩

/-- The numbers that the later version added. -/
def laterNumbers : CharSet := ⟨[(0x11de0, 0x11de9), (0x16ff4, 0x16ff6)]⟩

/-- The letters of names. -/
def nameLetters : CharSet := CharSet.alphabetic.union laterLetters

/-- The numbers of names. -/
def nameNumbers : CharSet := (CharSet.ofCategories ["nd", "nl", "no"]).union laterNumbers

/-- Whether a character may stand in the name of a group; the first one must be a letter or an
underscore. -/
def isGroupNameChar (first : Bool) (c : Char) : Bool :=
  if first then c == '_' || nameLetters.contains c
  else "_.[]".toList.contains c || nameLetters.contains c || nameNumbers.contains c

/-- The name of a group up to its closing bracket, and the rest. -/
def readGroupName (cs : List Char) : Except Error (String × List Char) :=
  match cs.takeWhile (· != '>'), cs.dropWhile (· != '>') with
  | c :: name, _ :: rest =>
    if isGroupNameChar true c && name.all (isGroupNameChar false) then
      .ok (String.ofList (c :: name), rest)
    else .error .badGroupName
  | _, _ => .error .badGroupName

end Regex

end FeatureFile
