-- File paths as text: the names in them, the last name, and the path of the directory.
import BytecodeDump.Text.Split

namespace BytecodeDump

namespace CommandLine

namespace PathText

/-- What stands between the slashes. -/
def segments (path : String) : List String := (Text.split '/' path.toList).map String.ofList

/-- Whether a segment says nothing: it is empty, or stands for the directory it is in. -/
def idle (segment : String) : Bool := segment = "" || segment = "."

/-- Whether the path begins at the root. -/
def isAbsolute (path : String) : Bool := path.toList.head? = some '/'

/-- The segments after the root, and without those at the end that say nothing. The first
segment of a path that does not begin at the root stays, even where it is a point. -/
def trimmed (absolute : Bool) (segments : List String) : List String :=
  let (first, rest) := if absolute then ([], segments) else (segments.take 1, segments.drop 1)
  let kept := (rest.reverse.dropWhile idle).reverse
  if kept.isEmpty then first.filter (· ≠ "") else first ++ kept

/-- The segments of a path that count. -/
def counted (path : String) : List String :=
  let absolute := isAbsolute path
  trimmed absolute (if absolute then (segments path).drop 1 else segments path)

/-- The path of the directory, where the path names one. -/
def parent? (path : String) : Option String :=
  let absolute := isAbsolute path
  match counted path with
  | [] => none
  | counted =>
    let above := "/".intercalate (trimmed absolute counted.dropLast)
    some (if absolute then "/" ++ above else above)

/-- The last name of a path; there is none where the path ends in a step up. -/
def fileName? (path : String) : Option String :=
  (counted path).getLast?.filter fun name => name ≠ ".." && !idle name

end PathText

end CommandLine

end BytecodeDump
