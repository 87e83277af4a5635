/-!
# Character classes

The classes that words, numbers and gaps are made of. All of them are ASCII.
-/

namespace PolicyLang

def isBlank (c : Char) : Bool := c == ' ' || c == '\t' || c == '\r' || c == '\n'

/-- A character that can start a word. -/
def isLetter (c : Char) : Bool := c.isAlpha || c == '_'

def isWordChar (c : Char) : Bool := c.isAlphanum || c == '_'

end PolicyLang
