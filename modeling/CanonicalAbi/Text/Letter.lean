import CanonicalAbi.Text.CharClass

/-!
# Letters

The characters of general category L: upper case, lower case, title case, modifier and other
letters.
-/

namespace CanonicalAbi.Text

def letterIntervals : Intervals := .ofTexts [
  "CnBagBaBvbkbebfxbBfbRqemofhbbbEzfbccebbgbbdbbbubDfbFjiGkbBmcbgBpCtBbeeBtBrBjcbDvbbpchckdcbqbb",
  "BeBdDllbyBhjcebfwebjbdbxzhlfybhqBqCgCcdbsbhkpqeicccwbhbbdedbqbncbdockbigeccwbhbcbcbcBfebbtdqj",
  "bdbwbhbcbfdbsbpcxblicccwbhbcbfdbBecbdpbrbbgddbedcbbbcdcdddmwbCaibdbxbqdbBadbcccBebeibdbxbkbfd",
  "bBedbcpcrjbdbBpcbqbfdidygfsdybjbbchCgBwbcmhCgcbbbfbybbbkbcjbcfbbveBgbClibBkBbfElBrubqgeedbdch",
  "denmbrBmbbfbcBrbMvbechbbbecBpbecBhbechbbbecpbCfbecCpBlqqDicgdXwcrbBafCxgihsntosonbdpCaBjbebCp",
  "DlhfcBibbfCskBfBxBecflBseBaCcxjCbDebDpBvriCcBenckBsBaBkBpdkBkclfBrcdBpebgbcdbfHkCmKscgcBmcgci",
  "bbbbbbbBfcCbbhbbddbhdecgenfdbhEmbnbqnDxbebckbbdfgbbbbbbeblceffebCacDZfIvgedcmBmbbfbcCehbqxjhb",
  "hbhbhbhbhbhbhDcbSbcBqffceDigdbDmbefBrbDqrBgBwqTsJToCmBGUfCpBucKjdqkcuBvqBfcCsBxjcDzcDeurbdbeb",
  "xBdCaoByCkgdbbclBckxzBdhBvBcbqfbkkfbBpxdbiuxdbdBybbdccfcbbbydclhdmgcgcgjhbhbBrbogElBdQNsmxeBx",
  "MNcOccEcBmhmffbbkbnbfbbbcbcbEeBhNzsCmcCcBomEmfbFfBkBagBalDldgcgcgcdBjmbBabtbcbpcoBiEtOzBddBxB",
  "vBgnubigBmkBecBkeiBwGcsBkeBkeBoiCamlbpbhbcblbpbhbcdCamLzjwkiygbBqbjCrgcbbBsbcdbcxkxjBfCntbckw",
  "kBagBaBmCegcCmbpebdbBdBqBddBdBjibBcBbCckwktnsEgCvCdBznBznBkBmBcjxJqBqgcqgCeBdkbiwBqsBuvBbxmCb",
  "CfccbnBtBgzBaBkBdbcbiBjdbmBwoevbbbBjsbztcClhbbbebpbkhBvBmicccwbhbcbfdbsbmfBekbbcbbBmbbzbbbBsC",
  "bseudBeBwucbbHcBvBpeBkBwubChBrnbCtBbBlhHdBsEmCmBficbcibcbypbbbDqicBnqbbbBcbkBohbvblButbsCvHrB",
  "hBfjbBlrbBxBeEihbcbBmvbzgbcbBgobxBsKatpbbnbBiEubDbBJmIwHoDXkDtpBPgrgzFXrfWlKDdBeCPuVxhBfrDbrB",
  "esBwqeBfvftQqBtIdCmBgzczBsCxfbConCmcbbocmKXyBpBgDtElMWrebhbcbLfpbBddcboeiPgDKuEdfndjhkIWkDhbC",
  "tbccbcccebmbbbhbCnbecibhbBcbebfbbdhbNcczbzbBfbzbBfbzbBfbzbBfbzbiCSyBfggKbCkFqBtkhqbMjBesBsSqB",
  "cIuBecbHzBfbdbcbhcfjcIqhbebcbpbHpChCqhbBUiebBbbcbbcbbkbebbbbgbebbbbbbdbcbbcbbbbbbbbbbcbbcebhb",
  "ebebbbkbrfdbfbrGOaCLFcBgGMocIOccLBlpXyDQwUwCFyHHzfMOo"]

def isLetter (c : Char) : Bool := letterIntervals.containsChar c

end CanonicalAbi.Text
