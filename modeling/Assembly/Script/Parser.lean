import Assembly.Script.Token

/-!
# Parsers over tokens

A parser takes tokens from the front of a list.  It finds what it looks for, finds that it
is absent, or fails after it has committed itself.  Failures of alternatives that are not
taken are not lost: the state keeps the one that got furthest, and when tokens are left
over at the end, that is the one to report.

These are the rules of a general parser package for grammars like that of scripts, and only as
much of it as that grammar needs: words and kinds of tokens, what has to follow, alternatives and
options with one token of look-ahead, repetitions, and the choice of the failure to report.  Left
out is the package's limit on repetitions, which gives up after a million rounds: `many` goes on
as long as there are tokens.
-/

namespace Assembly.Script

/-- What a grammar looks for, as messages name it. -/
inductive Expected
  | name | string | int | number
  | word (w : Text)
deriving DecidableEq, Repr

namespace Expected

def text : Expected → Text
  | name => "<ident>"
  | string => "<string>"
  | int => "<int>"
  | number => "<float> | <int>"
  | word w => 34 :: (w ++ [34])

end Expected

/-- A token that stands where it may not, and what may stand there if that is known. -/
structure Unexpected where
  token : Token
  expected : Option Expected
deriving DecidableEq, Repr

def Token.shown (t : Token) : Text := if t.kind = .eof then "<EOF>" else t.value

def Unexpected.message (u : Unexpected) : Text :=
  let hint : Text := match u.expected with
    | some e => " (expected " ++ e.text ++ ")"
    | none => []
  u.token.pos.before ("unexpected token " ++ Text.quote u.token.shown ++ hint)

/-- The state of a parser: the tokens left, how many have been taken, and the failure that
got furthest with the number of tokens taken by then. -/
structure Cursor where
  rest : List Token
  eof : Token
  taken : Nat
  furthest : Option Unexpected
  depth : Nat
deriving DecidableEq, Repr

namespace Cursor

/-- Where the parsing of a list of tokens begins. -/
def start (tokens : List Token) (eof : Token) : Cursor := ⟨tokens, eof, 0, none, 0⟩

/-- The next token. -/
def next (c : Cursor) : Token := c.rest.headD c.eof

def advance (c : Cursor) : Cursor := { c with rest := c.rest.tail, taken := c.taken + 1 }

/-- Keeps a failure if none got further. -/
def note (c : Cursor) (u : Unexpected) : Cursor :=
  if c.depth ≤ c.taken then { c with furthest := some u, depth := c.taken } else c

/-- Keeps the failure of an alternative that ended at `b`, if none got further. -/
def noteBranch (c : Cursor) (u : Unexpected) (b : Cursor) : Cursor :=
  if c.depth ≤ b.taken then { c with furthest := some u, depth := max b.taken b.depth } else c

/-- An alternative that has taken more than one token stands: what follows it is not tried. -/
def commits (c b : Cursor) : Bool := c.taken + 1 < b.taken

/-- Goes on from where an alternative ended. -/
def accept (c b : Cursor) : Cursor :=
  if c.depth ≤ b.depth then b
  else { c with rest := b.rest, taken := b.taken }

/-- The failure to report if nothing can go on here. -/
def deepest (c : Cursor) : Unexpected :=
  let here : Unexpected := ⟨c.next, none⟩
  if c.depth ≤ c.taken then here else c.furthest.getD here

end Cursor

/-- How a parser misses: what it looks for is absent, or the tokens are wrong. -/
inductive Miss
  | absent
  | wrong (u : Unexpected)
deriving DecidableEq, Repr

abbrev Parser (α : Type) := ExceptT Miss (StateM Cursor) α

namespace Parser

variable {α β : Type}

/-- The position of the next token. -/
def here : Parser Pos := do return (← get).next.pos

/-- The next token, if it is one of those wanted. -/
def satisfy (wanted : Token → Bool) : Parser Token := do
  let c ← get
  match c.rest with
  | [] => throw .absent
  | t :: _ =>
    if wanted t then
      set c.advance
      pure t
    else throw .absent

/-- A token with the given value, whatever its kind: a quoted keyword is the keyword. -/
def word (w : Text) : Parser Unit := do
  let _ ← satisfy (·.value == w)

def ofKind (k : TokenKind) : Parser Text := do
  return (← satisfy (·.kind = k)).value

/-- What has to follow: its absence is a failure. -/
def need (e : Expected) (p : Parser α) : Parser α := do
  try p
  catch
    | .absent => do throw (.wrong ⟨(← get).next, some e⟩)
    | .wrong u => throw (.wrong u)

/-- A part of the tree; its failure is noted where it stops. -/
def node (p : Parser α) : Parser α := do
  try p
  catch
    | .absent => throw .absent
    | .wrong u => do
      modify (·.note u)
      throw (.wrong u)

/-- The first alternative that matches.  An alternative that fails early leaves the others
their chance; if none matches, the failure that took most tokens stands, the last of
several.  `best` is that failure so far. -/
def choiceFrom (best : Option (Nat × Unexpected)) : List (Parser α) → Parser α
  | [] =>
    match best with
    | none => throw .absent
    | some (_, u) => do
      modify (·.note u)
      throw (.wrong u)
  | p :: ps => fun c =>
    match p c with
    | (.ok a, b) => (.ok a, b)
    | (.error .absent, _) => choiceFrom best ps c
    | (.error (.wrong u), b) =>
      let noted := c.noteBranch u b
      if c.commits b then (.error (.wrong u), noted.accept b)
      else
        let better : Bool := match best with
          | none => true
          | some (deep, _) => deep ≤ b.taken
        choiceFrom (if better then some (b.taken, u) else best) ps noted

def choice (ps : List (Parser α)) : Parser α := choiceFrom none ps

/-- What may follow.  An early failure is the same as absence. -/
def optional (p : Parser α) : Parser (Option α) := fun c =>
  match p c with
  | (.ok a, b) => (.ok (some a), b)
  | (.error .absent, b) => (.ok none, b)
  | (.error (.wrong u), b) =>
    let noted := (c.note u).noteBranch u b
    if c.commits b then (.error (.wrong u), noted.accept b) else (.ok none, noted)

/-- What may follow, up to `fuel` times. -/
def repeated (p : Parser α) : Nat → Parser (List α)
  | 0 => pure []
  | fuel + 1 => do
    match ← optional p with
    | none => pure []
    | some a => return a :: (← repeated p fuel)

/-- What may follow any number of times, each time taking a token. -/
def many (p : Parser α) : Parser (List α) := do
  repeated p ((← get).rest.length + 1)

/-- A list with commas between its members, possibly empty.  `e` names a member. -/
def listed (e : Expected) (p : Parser α) : Parser (List α) := do
  let list := do
    let a ← p
    let others ← many do
      word ","
      need e p
    pure (a :: others)
  return (← optional list).getD []

end Parser

end Assembly.Script
