import CanonicalAbi.Text.CharClass

/-!
# Decimal digits

The characters of general category Nd. Fractions, superscripts and letters used as numerals are not
among them.
-/

namespace CanonicalAbi.Text

def digitIntervals : Intervals := .ofTexts [
  "BwkCIokFekHqkPwkEokEokEokEokEokEokEokEokEokDskEokCskKskCskCTqkBmkLokEykGkkgkHakDikFekgkCAEokB",
  "AckBmkHqkwkDikPqkBFMckCCkkDFykgkBEqkEykCikFokKskNekEokOkkDykguCykQgkDykZmkDikJmkCskCckNukYYgk",
  "DMckDikFekUokBKDykECqByDNckQgkTikJnkBGvkHBak"]

def isDigit (c : Char) : Bool := digitIntervals.containsChar c

end CanonicalAbi.Text
