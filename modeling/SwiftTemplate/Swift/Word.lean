import SwiftTemplate.Text.Letter
import SwiftTemplate.Text.Numeral

/-!
# Words

The characters of identifiers and keywords.
-/
namespace SwiftTemplate.Swift.Word

def isStart (c : Char) : Bool := c = '_' || Text.isLetter c

def isInside (c : Char) : Bool := c = '_' || Text.isLetter c || Text.isNumeral c

end SwiftTemplate.Swift.Word
