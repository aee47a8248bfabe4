/-
The regular expressions the readers use, and `re.findall`.

The patterns need little: literal characters, `\d` and `\s`, the repetitions `+` and
`*`, and groups that are not nested.  A pattern is a list of items and matching is
the usual backtracking: a repetition takes as many characters as it can and gives
them back one at a time.  `x+` is `x` followed by `x*`, so there is one repetition to
reason about, `starMatch`, and it recurses on the text alone.
-/
import Nicmem.Python.Text

namespace Python

/-- What one character of a match may be. -/
inductive Atom where
  | ch (c : Char)
  | digit
  | space
  deriving DecidableEq, Repr

def Atom.test : Atom → Char → Bool
  | .ch c, d => d == c
  | .digit, d => d.isDigit
  | .space, d => isSpace d

/-- One item of a pattern; `lpar` and `rpar` delimit a group. -/
inductive Item where
  | one (a : Atom)
  | star (a : Atom)
  | lpar
  | rpar
  deriving DecidableEq, Repr

abbrev Pattern := List Item

namespace Pattern

def lit (s : String) : Pattern := s.toList.map fun c => .one (.ch c)

def one (a : Atom) : Pattern := [.one a]

def star (a : Atom) : Pattern := [.star a]

def plus (a : Atom) : Pattern := [.one a, .star a]

def group (p : Pattern) : Pattern := .lpar :: p ++ [.rpar]

/-- `\d+\.\d+`. -/
def decimal : Pattern := plus .digit ++ lit "." ++ plus .digit

end Pattern

/-- The groups of a match in progress: the open one, and those closed so far. -/
structure Groups where
  current : Option Str
  closed : List Str
  deriving DecidableEq, Repr

namespace Groups

def start : Groups := ⟨none, []⟩

/-- A matched character goes to the open group, if there is one. -/
def push (g : Groups) (c : Char) : Groups := { g with current := g.current.map (· ++ [c]) }

def opened (g : Groups) : Groups := { g with current := some [] }

def close (g : Groups) : Groups := ⟨none, g.closed ++ g.current.toList⟩

end Groups

/-- Match `a*` greedily, then go on with `k`; on failure give characters back. -/
def starMatch {R : Type} (a : Atom) (k : Str → Groups → Option R) : Str → Groups → Option R
  | [], g => k [] g
  | c :: s, g => if a.test c then (starMatch a k s (g.push c)).or (k (c :: s) g) else k (c :: s) g

/-- Match a pattern at the start of the text: the groups, and what is left. -/
def matchAt : Pattern → Str → Groups → Option (Groups × Str)
  | [], s, g => some (g, s)
  | .one _ :: _, [], _ => none
  | .one a :: p, c :: s, g => if a.test c then matchAt p s (g.push c) else none
  | .star a :: p, s, g => starMatch a (fun s g => matchAt p s g) s g
  | .lpar :: p, s, g => matchAt p s g.opened
  | .rpar :: p, s, g => matchAt p s g.close

/-- The matches from here on, after `skip` more characters of the last one. -/
def findallFrom (p : Pattern) : Nat → Str → List (List Str)
  | _, [] => ((matchAt p [] .start).map (·.1.closed)).toList
  | skip + 1, _ :: s => findallFrom p skip s
  | 0, c :: s =>
    match matchAt p (c :: s) .start with
    | some (g, rest) => g.closed :: findallFrom p (s.length - rest.length) s
    | none => findallFrom p 0 s

/-- `re.findall(p, s)`: the groups of each match, left to right. -/
def findall (p : Pattern) (s : Str) : List (List Str) := findallFrom p 0 s

/-- `re.sub(p, "", s)` after `skip` more characters of a match already removed. -/
def eraseFrom (p : Pattern) : Nat → Str → Str
  | _, [] => []
  | skip + 1, _ :: s => eraseFrom p skip s
  | 0, c :: s =>
    match matchAt p (c :: s) .start with
    | some (_, rest) =>
      if (c :: s).length = rest.length then c :: eraseFrom p 0 s
      else eraseFrom p (s.length - rest.length) s
    | none => c :: eraseFrom p 0 s

/-- `re.sub(p, "", s)`. -/
def erase (p : Pattern) (s : Str) : Str := eraseFrom p 0 s

end Python
