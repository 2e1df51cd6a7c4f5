import CanonicalAbi.Text.CharClass

/-!
# Printable characters

Letters, marks, numbers, punctuation and symbols, and of the blanks only the space. A quoted text
shows a printable character as itself and escapes every other one.
-/

namespace CanonicalAbi.Text

def printableIntervals : Intervals := .ofTexts [
  "BgDrBimbBBmcgehbbbubPhbBmcBycdbCdiBbegrwbHkbBwcChcDxoChcBxcpbBccbblfBghCxbGfbicccwbhbbdecjccc",
  "eibecbfczcdbgeccwbhbcbcbccbbfeccddbhebbhrkdbjbdbwbhbcbfckbdbdcbpecmhhbdbicccwbhbcbfcjcccdhdec",
  "bfcskcbgddbedcbbbcdcdddmefddbecbgbovfnbdbxbqcjbdbehcbdbcceckhwbdbxbkbfcjbdbehcfdbeckbdmnbdbBz",
  "bdbgeqcBabdbsdybjbbchdbegbbbigkcdmCgeBdBlcbbbfbybbbxcfbbbhbkceBgCubBkeBnbBkbpbnBlHqbbfbcOnbec",
  "hbbbecBpbecBhbechbbbecpbCfbecCpcBgdBagDicgcYqbBcdDlhwjyjumnbdbcmDqckgkgoblgDlhBrfCskBfbmemebd",
  "BqcflBseBagldCkcCnbBdclgkgocBucmuCzbGkiCidpdCkfBrcliBrfUocgcBmcgcibbbbbbbBfcCbbpbocgbtcdbjryi",
  "BvrccBbbndBioBhpFkeZqwlvCRscOsfBtbbfbcCehcoyjhbhbhbhbhbhbhbhbEwBiBabDlmIgBaqbClbDicDzfBrbDqbD",
  "ijBwbBRIrdCdjNkuHciInuCidkgCeiCsimgEmlBedDableBhbCdjockcDzyBckgcgcgjhbhbCieEwckgQNsmxeBxMNcOc",
  "cEcBmhmffBabfbbbcbcbZaBgBqgBzbtbeefbFfeHidgcgcgcddhbhnccmbBabtbcbpcoBiEtfdeBtdDkbndbBvBuFaBdd",
  "BxpBceBkjBefBrfBebBleoBqGcckgBkeBkeBoiCalmbpbhbcblbpbhbcdCamLzjwkiygbBqbjCrgcbbBsbcdbcxbCuijB",
  "wtbcfBhdBbfBbBmCeeucBybcfibdbBdcdekhjhCmBgBnemjCcdBdcBbfBahemhDcCvCdBznBzhBuikgBmdBdicIaBfbBq",
  "bdccqgijBhBuiBqwBaBmBcuxjDaeBkjCkbfnzhkgCbbsiBnjDsbulsbBvCkhbbbebpblgChfkgebicccwbhbcbfbkcccd",
  "cbgbfhchdflkbbcbbBmbkbbcbbebkbcicBdDobfBeCuikGkCccBmBiCrlkgntCggkguBcBbcpexHdCiDwDfmicbcibcbB",
  "ebccmjkCsicBuclBbCuiDfnCvhkDiiDkBiokgjbBtbokBddBgcwboCvhbcbBsdbbcbjikggbcbBlbcbghkgBsekJmzhrb",
  "BpdBdDhbpBynBJnDyEhbflHoDXkDvnBPgqwkFXrfWlKDdCgCOsVxhBfbkeDdbkgBecgkCskkbhbvftQqCgHqDnfzczBsC",
  "xeCfhrCmflhjKXyBpBgDtElMWrebhbcbLfpbBddcboeiPgDKuEdfndjhkceFVkJtdQugxprpBucxjEmCiJmkBncCwiEiv",
  "CsEsumumDjjzFfDhbCtbccbcccebmbbbhbCnbecibhbBcbebfbbdhbNccLgcBBapfbpBQmBfggIfhbrchbcbffCkBhbEi",
  "BtdockecMiBfrCgfbRwBqIgBrebHkBfbwicIqhbebcbpbHpcqBpCyekecBEfCqCyCjHmebBbbcbbcbbkbebbbbgbebbbb",
  "bbdbcbbcbbbbbbbbbbcbbcebhbebebbbkbrfdbfbrCacKkBseDwmpcpbpbBlkGsCeBdnBsejhcogFyBLxdrdndIkgmebp",
  "meCeikgBoiBecmecojBnNgiocndldCfbbeqcmekhFrbDzBNpCLFcBgGMocIOccLBlpXyDQwUwCFyHHzfMOoBOGXyJg"]

def isPrintable (c : Char) : Bool := printableIntervals.containsChar c

end CanonicalAbi.Text
