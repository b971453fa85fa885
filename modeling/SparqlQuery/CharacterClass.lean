namespace SparqlQuery

/-- The letters that may begin a name, as inclusive ranges of code points. -/
def nameBaseRanges : List (Nat × Nat) :=
  [(0x41, 0x5A), (0x61, 0x7A), (0xC0, 0xD6), (0xD8, 0xF6), (0xF8, 0x2FF), (0x370, 0x37D),
    (0x37F, 0x1FFF), (0x200C, 0x200D), (0x2070, 0x218F), (0x2C00, 0x2FEF), (0x3001, 0xD7FF),
    (0xF900, 0xFDCF), (0xFDF0, 0xFFFD), (0x10000, 0xEFFFF)]

/-- Combining marks and joiners, which a name may hold after its first character. -/
def nameExtenderRanges : List (Nat × Nat) :=
  [(0xB7, 0xB7), (0x300, 0x36F), (0x203F, 0x2040)]

def inRanges (ranges : List (Nat × Nat)) (c : Char) : Bool :=
  ranges.any fun (low, high) => decide (low ≤ c.toNat) && decide (c.toNat ≤ high)

def isNameBase (c : Char) : Bool :=
  inRanges nameBaseRanges c

def isNameStart (c : Char) : Bool :=
  c == '_' || isNameBase c

def isNameChar (c : Char) : Bool :=
  isNameStart c || c == '-' || c.isDigit || inRanges nameExtenderRanges c

def isVariableStart (c : Char) : Bool :=
  isNameStart c || c.isDigit

def isVariableChar (c : Char) : Bool :=
  isVariableStart c || inRanges nameExtenderRanges c

def isLocalStart (c : Char) : Bool :=
  isNameStart c || c == ':' || c.isDigit

def isLocalChar (c : Char) : Bool :=
  isNameChar c || c == ':'

/-- The punctuation that a backslash admits into a local name. -/
def localEscapable : List Char :=
  ['_', '~', '.', '-', '!', '$', '&', '\'', '(', ')', '*', '+', ',', ';', '=', '/', '?', '#',
    '@', '%']

def isIriChar (c : Char) : Bool :=
  decide (0x20 < c.toNat) &&
    !(['<', '>', '"', '\x7b', '\x7d', '|', '^', '\x60', '\\'].contains c)

def isBlank (c : Char) : Bool :=
  c == ' ' || c == '\t' || c == '\r' || c == '\n'

def isLineBreak (c : Char) : Bool :=
  c == '\n' || c == '\r'

def isHexDigit (c : Char) : Bool :=
  inRanges [(0x30, 0x39), (0x41, 0x46), (0x61, 0x66)] c

/-- Whether a word is complete when this is the character after it. -/
def endsWord : Option Char → Bool
  | none => true
  | some c => !(isNameChar c || c == ':')

end SparqlQuery
