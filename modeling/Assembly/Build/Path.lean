import Assembly.Text

/-!
# Path names

Path names are texts with slashes between their elements.  The functions here look at the
text only and never at the files.
-/

namespace Assembly.Path

/-- The elements of a path: no empty ones, none that stay in place. -/
def elements (p : Text) : List Text :=
  (Text.split 47 p).filter fun e => !e.isEmpty && e != Text.ofString "."

def isRooted (p : Text) : Bool := p.head? = some 47

/-- Adds an element to elements in reverse.  A step up cancels the element before it; there
is nothing above the root. -/
def pushElement (rooted : Bool) (above : List Text) (e : Text) : List Text :=
  if e == Text.ofString ".." then
    match above with
    | [] => if rooted then [] else [e]
    | a :: r => if a == Text.ofString ".." then e :: above else r
  else e :: above

/-- The shortest path with the same meaning, as far as the text tells. -/
def clean (p : Text) : Text :=
  let rooted := isRooted p
  let body := Text.join "/" ((elements p).foldl (pushElement rooted) []).reverse
  if rooted then 47 :: body else if body.isEmpty then "." else body

/-- The path of `p` inside the directory `dir`.  Two empty texts make no path. -/
def join (dir p : Text) : Text :=
  if dir.isEmpty then if p.isEmpty then [] else clean p
  else clean (dir ++ 47 :: p)

/-- The last element of a path. -/
def base (p : Text) : Text :=
  if p.isEmpty then "."
  else
    let trimmed := (p.reverse.dropWhile (· = 47)).reverse
    if trimmed.isEmpty then "/" else (trimmed.reverse.takeWhile (· != 47)).reverse

/-- The last element from its last point on, if it has one. -/
def extension (p : Text) : Text :=
  let last := p.reverse.takeWhile (· != 47)
  if last.contains 46 then (last.takeWhile (· != 46) ++ [46]).reverse else []

/-- The last element without its extension. -/
def stem (p : Text) : Text :=
  let name := base p
  let ext := extension p
  if ext.reverse.isPrefixOf name.reverse then name.take (name.length - ext.length) else name

/-- The path and all paths that lead to it, the shortest first. -/
def ancestors (p : Text) : List Text :=
  let parts := Text.split 47 p
  ((List.range parts.length).map fun n => Text.join "/" (parts.take (n + 1))).filter
    fun q => !q.isEmpty

end Assembly.Path
