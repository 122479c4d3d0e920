namespace QuantumLowering.Path

def components (path : String) : List String :=
  ((path.toList.splitOn '/').filter (· ≠ [])).map String.ofList

def fileName? (path : String) : Option String :=
  match ((components path).filter (· ≠ ".")).getLast? with
  | some ".." => none
  | name => name

/-- A file name without its extension, which is what follows the last dot. A dot at the very start
begins no extension. -/
def stem (name : String) : String :=
  let before := (name.toList.reverse.dropWhile (· ≠ '.')).drop 1
  if before.isEmpty then name else String.ofList before.reverse

def defaultOutput (input : String) : String :=
  ((fileName? input).map stem).getD "module" ++ "_translated.json"

end QuantumLowering.Path
