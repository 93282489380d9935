/-!
# The words with a fixed meaning

The word tables of the language under analysis: keywords, builtins, the blocks that run on their
own, the standard handles, and the smaller lists that the rules for single positions ask for.
-/

namespace WordRole.Vocabulary

/-- blocks that run implicitly when written as a name and a brace -/
def specialBlocks : List String := ["BEGIN", "UNITCHECK", "CHECK", "INIT", "END"]

/-- handles that every program starts with -/
def standardHandles : List String := ["STDIN", "STDOUT", "STDERR"]

/-- builtins whose first operand may be a handle before the printed list -/
def printers : List String := ["print", "printf", "say"]

/-- builtins whose first argument is a handle -/
def handleBuiltins : List String :=
  ["open", "close", "binmode", "eof", "fileno", "flock", "seek", "tell", "truncate", "read",
   "sysread", "syswrite", "sysopen", "opendir", "readdir", "closedir", "select"]

/-- builtins that may introduce a lexical handle -/
def openers : List String := ["open", "opendir", "sysopen"]

def variableDeclarators : List String := ["my", "our", "state"]

/-- builtins that produce a list, so that they can follow a comparator -/
def listProducers : List String := ["keys", "values", "map", "grep", "reverse", "split"]

/-- control flow and the operators spelled as words -/
def controlWords : List String :=
  ["if", "unless", "else", "elsif", "while", "until", "for", "foreach", "do", "return", "last",
   "next", "redo", "goto", "and", "or", "not", "xor", "eq", "ne", "lt", "gt", "le", "ge", "cmp",
   "x"]

/-- words that declare something or load a module -/
def declarationWords : List String :=
  ["my", "our", "local", "state", "sub", "package", "use", "no", "require"]

/-- words that stand for the place they are written at -/
def placeWords : List String :=
  ["__PACKAGE__", "__FILE__", "__LINE__", "__SUB__", "__END__", "__DATA__"]

/-- words that end the code of a text -/
def endMarkers : List String := ["__END__", "__DATA__"]

def builtins : List String :=
  ["print", "printf", "say", "open", "close", "binmode", "eof", "fileno", "flock", "seek",
   "tell", "truncate", "read", "sysread", "syswrite", "sysopen", "opendir", "readdir",
   "closedir", "select", "sort", "reverse", "map", "grep", "keys", "values", "each", "delete",
   "exists", "defined", "undef", "scalar", "wantarray", "ref", "bless", "die", "warn", "eval",
   "exit", "push", "pop", "shift", "unshift", "splice", "join", "split", "length", "substr",
   "index", "rindex", "lc", "uc", "lcfirst", "ucfirst", "sprintf", "chomp", "chop", "chr",
   "ord", "abs", "int", "sqrt", "time", "localtime", "gmtime", "sleep", "wait", "system",
   "exec", "caller", "pack", "unpack", "lock"]

/-- words after which a slash starts a pattern rather than a division -/
def patternIntroducers : List String :=
  ["split", "grep", "map", "if", "unless", "and", "or", "not", "return", "while", "until",
   "when"]

/-- words that open a literal with a delimiter of its own -/
def quoteWords : List String := ["q", "qq", "qw", "qr", "m", "s", "tr", "y"]

def twoBodyQuoteWords : List String := ["s", "tr", "y"]

def isKeyword (word : String) : Bool :=
  controlWords.contains word || declarationWords.contains word || placeWords.contains word

def isBuiltin (word : String) : Bool := builtins.contains word

/-- whether a word never names something of the user's in call or value position -/
def isReserved (word : String) : Bool := isKeyword word || isBuiltin word

def isSpecialBlock (word : String) : Bool := specialBlocks.contains word

def isStandardHandle (word : String) : Bool := standardHandles.contains word

end WordRole.Vocabulary
