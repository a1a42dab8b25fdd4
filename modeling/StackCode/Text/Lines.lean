namespace StackCode.Text

def closeLine : List Char → List Char
  | '\r' :: cs => cs.reverse
  | cs => cs.reverse

def linesFrom (line : List Char) : List Char → List (List Char)
  | [] => if line = [] then [] else [line.reverse]
  | '\n' :: cs => closeLine line :: linesFrom [] cs
  | c :: cs => linesFrom (c :: line) cs

def lineList (cs : List Char) : List (List Char) :=
  linesFrom [] cs

def lines (s : String) : List String :=
  (lineList s.toList).map String.ofList

def unlines (ls : List String) : String :=
  String.join (ls.map (· ++ "\n"))

def occursIn (pattern : List Char) : List Char → Bool
  | [] => pattern.isEmpty
  | c :: cs => pattern.isPrefixOf (c :: cs) || occursIn pattern cs

end StackCode.Text
