import CanonicalAbi.Text.CharClass

/-!
# Columns of single characters

On a terminal a character takes one column, two if it is a wide one of the East Asian scripts or an
emoji, and none if it is invisible or stands on top of another character.
-/

namespace CanonicalAbi.Text

def wideIntervals : Intervals := .ofTexts [
  "GLkDsGSocncHiedbcbUbcvcBymBrbtbnbicrcfcibfbvbhcbbebcbhbecBcbBjbbbedbbCjdybobBHbcBzbebBFeBabDl",
  "mIgBameClcDicDzfBrbDqbDgmBvbBoiKKeCmBGUfdCdBThBdYtQNsMQmTsBEekwBjbtbeFtDsExhBQKnflcoJCaiBVqBq",
  "jNFrebhbcbLfpbBddcboeiPgXCybHubHibckDxdnBsejhcogFyBhmjbCsbwmBrefmrdbdCtbbbHfcClnebysbBacnbDiD",
  "hBwCsgbddcdeelchjItmebKxBvbkbHdEindjhBubhioejhjBXnDSYocDSYo"]

def isWide (c : Char) : Bool := wideIntervals.containsChar c

/-- Wide characters that describe or draw parts of ideographs. They are wide only where each
character is measured by itself. -/
def partWideIntervals : Intervals := [(0x2ffc, 0x2fff), (0x31ef, 0x31ef)]

def invisibleIntervals : Intervals := [
  (0x0, 0x1f), (0x7f, 0x9f), (0xad, 0xad), (0x70f, 0x70f), (0x180b, 0x180e), (0x200b, 0x200f),
  (0x2028, 0x202e), (0x206a, 0x206f), (0xfeff, 0xfeff), (0xfff9, 0xfffb), (0xfffe, 0xffff)]

def combiningIntervals : Intervals := .ofTexts [
  "BDoEiKphBHhjBNwbdbJebmcCKpdCSdbBwBfGajWqCmBBsBhEOcdJeBgZpcBSQeebkBgcDccTasBGGsqBLlbOmfEGecFxl",
  "BxeBIgcCfcBphdfBHDjfBLXbBucxUwfdgiichBeeFsdFFfhbrchbcbfDwbDDgh"]

def charColumns (c : Char) : Nat :=
  if invisibleIntervals.containsChar c || combiningIntervals.containsChar c then 0
  else if isWide c || partWideIntervals.containsChar c then 2
  else 1

end CanonicalAbi.Text
