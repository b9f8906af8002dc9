import Mathlib.Logic.Function.Basic
import Mathlib.Tactic.Common

/-! # Dependencies of C and C++ sources

The line loop of `langC_CPP` over `textbufferGetNextLine`: the include files that are looked up, the
stack of conditionals and the state of comments. Files are told by the operating system. -/

set_option autoImplicit false

namespace Odin32.LangCpp

def cchMaxPath : ℕ := 260

def cchLineBuffer : ℕ := 4096

def cIfStack : ℕ := 256

/-- What stands outside of the program: the paths it was started with, and the files. -/
structure Env where
  szCurDir : List Char
  aiSlashes : ℕ → ℕ
  cSlashes : ℕ
  szSrcDir : List Char
  pszInclude : Option (List Char)
  pszIncludeEnv : Option (List Char)
  exist : List Char → Bool
  fExcludeAll : Bool
  /-- `pathlistFindFile2` with `options.pszExclude`. -/
  excluded : List Char → Bool

/-! ## Files -/

/-- The loop over the parts of a relative path that is normalized. -/
def expandLoop (env : Env) (pszFilename : List Char) : ℕ → List Char → List Char
  | _, [] => pszFilename
  | iSlash, '.' :: '.' :: '\\' :: psz => expandLoop env pszFilename (iSlash - 1) psz
  | iSlash, '.' :: '\\' :: psz => expandLoop env pszFilename iSlash psz
  | iSlash, psz => env.szCurDir.take (env.aiSlashes iSlash + 1) ++ psz

def fileNormalize (env : Env) (pszFilename : List Char) : List Char :=
  let psz := pszFilename.map fun ch => if ch = '/' then '\\' else ch
  if psz[1]? = some ':' then psz
  else expandLoop env psz (if psz.head? = some '\\' then 1 else env.cSlashes) psz

/-- The file in one path of a list. -/
def searchStatement (env : Env) (path pszFilename : List Char) : List Char :=
  let slash := if path.getLast? = some '\\' ∨ path.getLast? = some '/' then [] else ['\\']
  fileNormalize env (path ++ slash ++ pszFilename)

/-- Whether a file is found in the paths, and what is left in the buffer. -/
def pathsFindFile (env : Env) (pszFilename : List Char) :
    List (List Char) → List Char → Bool × List Char
  | [], szBuffer => (false, szBuffer)
  | path :: paths, szBuffer =>
    if path = [] then pathsFindFile env pszFilename paths szBuffer
    else
      let found := searchStatement env path pszFilename
      if env.exist found then (true, found) else pathsFindFile env pszFilename paths found

def pathlistFindFile (env : Env) (pszPathList : Option (List Char)) (pszFilename : List Char) :
    Bool × List Char :=
  match pszPathList with
  | none => (false, [])
  | some pathList => pathsFindFile env pszFilename (pathList.splitOn ';') []

/-- The search for an include file; where it ends, and what is left in the buffer. -/
def findInclude (env : Env) (fQuote : Bool) (szFullname : List Char) : Bool × List Char :=
  let here := if fQuote then pathlistFindFile env (some env.szSrcDir) szFullname else (false, [])
  if here.1 then here
  else
    let given := pathlistFindFile env env.pszInclude szFullname
    if given.1 then given else pathlistFindFile env env.pszIncludeEnv szFullname

/-! ## Strings -/

def blank (ch : Char) : Bool := ch = ' ' || ch = '\t'

def digit (ch : Char) : Bool := decide ('0' ≤ ch) && decide (ch ≤ '9')

def wordChar (ch : Char) : Bool :=
  (decide ('A' ≤ ch) && decide (ch ≤ 'Z')) || (decide ('a' ≤ ch) && decide (ch ≤ 'z')) ||
    digit ch || ch = '_'

def findEndOfWord (psz : List Char) : List Char := psz.dropWhile wordChar

/-- `strncmp` is 0. -/
def strncmpEq : ℕ → List Char → List Char → Bool
  | 0, _, _ => true
  | _ + 1, [], [] => true
  | n + 1, a :: psz1, b :: psz2 => a = b && strncmpEq n psz1 psz2
  | _ + 1, _, _ => false

/-- The first place of two characters, and what follows from there. -/
def strstr (a b : Char) : List Char → Option (List Char)
  | ch :: next :: psz =>
    if ch = a ∧ next = b then some (ch :: next :: psz) else strstr a b (next :: psz)
  | _ => none

def strlwr (psz : List Char) : List Char := psz.map Char.toLower

def szInclude : List Char := ['i', 'n', 'c', 'l', 'u', 'd', 'e']

def szIf : List Char := ['i', 'f']

def szElse : List Char := ['e', 'l', 's', 'e']

def szEndif : List Char := ['e', 'n', 'd', 'i', 'f']

def szElseif : List Char := ['e', 'l', 's', 'e', 'i', 'f']

/-! ## Lines -/

def endOfLine (ch : Char) : Bool := ch = '\n' || ch = '\r'

/-- What follows the end of a line. -/
def skipLineEnd : List Char → List Char
  | '\r' :: '\n' :: psz => psz
  | '\r' :: psz => psz
  | '\n' :: psz => psz
  | psz => psz

/-- The next line and where the one behind it begins; `none` at the end of the file. -/
def textbufferGetNextLine (pvBuffer : List Char) (ppv : Option (List Char)) :
    Option (List Char) × List Char :=
  let psz := ppv.getD pvBuffer
  let next := skipLineEnd (psz.dropWhile fun ch => !endOfLine ch)
  (if ppv = some next then none else some (psz.takeWhile fun ch => !endOfLine ch), next)

/-! ## The line loop -/

structure IfStackEntry where
  fIncluded : Bool
  fIf : Bool
  fSupported : Bool

structure State where
  achIfStack : ℕ → IfStackEntry
  iIfStack : ℕ
  fComment : Bool

inductive Event where
  | lookup (szFullname : List Char)
  | addDepend (pszDep : List Char)
  | ignored (szFullname : List Char)
  | notFound (szFullname : List Char)
  | underflow
deriving DecidableEq

/-- The comment checks from a place in a line on; the first argument bounds the marks. -/
def commentLoop : ℕ → Bool → List Char → Bool
  | 0, fComment, _ => fComment
  | marks + 1, fComment, pszC =>
    if pszC = [] then fComment
    else if fComment then
      match strstr '*' '/' pszC with
      | none => fComment
      | some mark => commentLoop marks false (mark.drop 2)
    else
      match strstr '/' '*' pszC with
      | none => fComment
      | some mark =>
        match strstr '/' '/' pszC with
        | none => commentLoop marks true (mark.drop 2)
        | some pszLC =>
          if mark.length < pszLC.length then fComment else commentLoop marks true (mark.drop 2)

def comments (fComment : Bool) (pszC : List Char) : Bool :=
  commentLoop pszC.length fComment pszC

def State.entry (s : State) : IfStackEntry := s.achIfStack s.iIfStack

def State.setEntry (s : State) (entry : IfStackEntry) : State :=
  { s with achIfStack := Function.update s.achIfStack s.iIfStack entry }

/-- The comment checks at the end of a line. -/
def State.commented (s : State) (pszC : List Char) : State :=
  { s with fComment := comments s.fComment pszC }

/-- `while (i + 2 < cbLen && ...) i++` -/
def skipBlanks : List Char → List Char
  | ch :: psz => if 2 ≤ psz.length ∧ blank ch then skipBlanks psz else ch :: psz
  | [] => []

/-- What follows the first `"` or `<`, and which it is. -/
def findStart : List Char → Option (Bool × List Char)
  | [] => none
  | ch :: psz =>
    if ch = '"' then some (true, psz) else if ch = '<' then some (false, psz) else findStart psz

/-- The name up to the first `"` or `>`, if it is in reach. -/
def findName : ℕ → List Char → Option (List Char)
  | 0, _ => none
  | _ + 1, [] => none
  | j + 1, ch :: psz =>
    if ch = '"' ∨ ch = '>' then some [] else (findName j psz).map (ch :: ·)

/-- What is done with an include file that was looked up. -/
def includeEvent (env : Env) (found : Bool × List Char) (szFullname : List Char) : Event :=
  if found.1 then
    if env.fExcludeAll ∨ env.excluded found.2 then
      if '/' ∉ szFullname ∧ '\\' ∉ szFullname then .addDepend szFullname else .ignored szFullname
    else .addDepend found.2
  else .notFound szFullname

/-- A directive of a line taken for an include; `none` where the comment checks begin behind the
end of the string that the lookup left in the line buffer. -/
def includeLine (env : Env) (s : State) (szBuffer psz : List Char) :
    Option (State × List Event) :=
  match findStart psz with
  | none => some (s, [])
  | some (fQuote, start) =>
    match findName cchMaxPath start with
    | none => some (s, [])
    | some name =>
      let szFullname := strlwr name
      let found := findInclude env fQuote szFullname
      let i := szBuffer.length - start.length
      if i ≤ found.2.length then
        some (s.commented (found.2.drop i),
          [.lookup szFullname, includeEvent env found szFullname])
      else none

/-- `iIfStack++`; `none` where the entry is outside of the stack. -/
def State.push (s : State) : Option State :=
  if s.iIfStack + 1 < cIfStack then some { s with iIfStack := s.iIfStack + 1 } else none

/-- The new entry of an `#if` with its argument; what it is not given it keeps. -/
def ifEntry (entry : IfStackEntry) (pszArgument : List Char) : IfStackEntry :=
  let cchArgument := pszArgument.length - (findEndOfWord pszArgument).length
  let supported :=
    if cchArgument = 1 ∧ pszArgument.head?.any digit then
      { entry with fIncluded := pszArgument.head? ≠ some '0' }
    else { entry with fSupported := false }
  { supported with fIncluded := true, fIf := true }

def elseEntry (entry : IfStackEntry) : IfStackEntry :=
  let toggled :=
    if entry.fSupported then { entry with fIncluded := !entry.fIncluded } else entry
  { toggled with fIf := false }

/-- A line with a hash; `psz` follows the hash and its blanks. -/
def directive (env : Env) (s : State) (szBuffer psz : List Char) : Option (State × List Event) :=
  let pszEndWord := findEndOfWord psz
  let cchWord := psz.length - pszEndWord.length
  let pszArgument := pszEndWord.dropWhile blank
  if strncmpEq cchWord psz szInclude then
    if s.entry.fIncluded then includeLine env s szBuffer psz else some (s.commented psz, [])
  else if strncmpEq cchWord psz szIf then
    s.push.map fun s' => ((s'.setEntry (ifEntry s'.entry pszArgument)).commented psz, [])
  else if strncmpEq cchWord psz szElse then
    some ((s.setEntry (elseEntry s.entry)).commented psz, [])
  else if strncmpEq cchWord psz szEndif then
    if s.iIfStack > 0 then
      some (State.commented { s with iIfStack := s.iIfStack - 1 } psz, [])
    else some (s.commented psz, [.underflow])
  else if strncmpEq 6 psz szElseif then
    some ((s.setEntry { s.entry with fSupported := false, fIncluded := true }).commented psz, [])
  else if strncmpEq 2 psz szIf then
    s.push.map fun s' => ((s'.setEntry ⟨true, true, false⟩).commented psz, [])
  else some (s.commented psz, [])

/-- One line; `none` where it does not fit in the line buffer. -/
def line (env : Env) (s : State) (szBuffer : List Char) : Option (State × List Event) :=
  if szBuffer.length < cchLineBuffer then
    match skipBlanks szBuffer with
    | '#' :: psz =>
      if s.fComment then some (s.commented ('#' :: psz), [])
      else directive env s szBuffer (psz.dropWhile blank)
    | psz => some (s.commented psz, [])
  else none

/-- The line loop; `none` also where so many lines are not enough. -/
def lineLoop (env : Env) (pvFile : List Char) :
    ℕ → Option (List Char) → State → Option (List Event)
  | 0, _, _ => none
  | lines + 1, pv, s =>
    match textbufferGetNextLine pvFile pv with
    | (none, _) => some []
    | (some szBuffer, next) =>
      match line env s szBuffer with
      | none => none
      | some (s', events) => (lineLoop env pvFile lines (some next) s').map (events ++ ·)

/-- The loop over a file. `achIfStack` has what its entries held before, except for the first. -/
def langC_CPP (env : Env) (achIfStack : ℕ → IfStackEntry) (pvFile : List Char) :
    Option (List Event) :=
  lineLoop env pvFile (pvFile.length + 2) none
    ⟨Function.update achIfStack 0 ⟨true, true, true⟩, 0, false⟩

/-! ## What is promised -/

/-- The lines of a text. -/
def splitLines : List Char → List (List Char)
  | [] => [[]]
  | '\r' :: '\n' :: rest => [] :: splitLines rest
  | ch :: rest =>
    if endOfLine ch then [] :: splitLines rest
    else
      match splitLines rest with
      | [] => [[ch]]
      | first :: others => (ch :: first) :: others

/-- Whether a comment is open behind a line. Literals hold no comment marks. -/
def openBehind : Bool → List Char → Bool
  | true, ch :: next :: rest =>
    if ch = '*' ∧ next = '/' then openBehind false rest else openBehind true (next :: rest)
  | false, ch :: next :: rest =>
    if ch = '/' ∧ next = '/' then false
    else if ch = '/' ∧ next = '*' then openBehind true rest
    else openBehind false (next :: rest)
  | fComment, _ => fComment

/-- The word of a directive and what follows it. -/
def directiveOf (line : List Char) : Option (List Char × List Char) :=
  match line.dropWhile blank with
  | '#' :: rest =>
    some ((rest.dropWhile blank).takeWhile wordChar, (rest.dropWhile blank).dropWhile wordChar)
  | _ => none

/-- The name that an `#include` gives. -/
def headerName (argument : List Char) : Option (List Char) :=
  match argument.dropWhile blank with
  | '"' :: rest => if '"' ∈ rest then some (rest.takeWhile (· ≠ '"')) else none
  | '<' :: rest => if '>' ∈ rest then some (rest.takeWhile (· ≠ '>')) else none
  | _ => none

/-- Nothing follows but a comment. -/
def endsArgument : List Char → Bool
  | [] => true
  | '/' :: '/' :: _ => true
  | '/' :: '*' :: _ => true
  | _ => false

/-- The value of an `#if 0` or `#if 1` to `#if 9`. -/
def constantOf (argument : List Char) : Option Bool :=
  match argument.dropWhile blank with
  | ch :: rest =>
    if digit ch ∧ endsArgument (rest.dropWhile blank) then some (ch ≠ '0') else none
  | [] => none

structure Conditional where
  /-- Its value, if it is constant. -/
  constant : Option Bool
  /-- It is past an `#elif` or its `#else`. -/
  other : Bool
  /-- It is past its `#else`. -/
  elsed : Bool

/-- The branch is the excluded one. -/
def Conditional.excludes (c : Conditional) : Bool := c.constant = some c.other

/-- What is known behind a line: the state of comments, and the conditionals, the innermost
first. -/
structure Place where
  comment : Bool
  conditionals : List Conditional

def szIfdef : List Char := ['i', 'f', 'd', 'e', 'f']

def szIfndef : List Char := ['i', 'f', 'n', 'd', 'e', 'f']

def szElif : List Char := ['e', 'l', 'i', 'f']

def conditionalsBehind (cs : List Conditional) (word argument : List Char) : List Conditional :=
  if word = szIf then ⟨constantOf argument, false, false⟩ :: cs
  else if word = szIfdef ∨ word = szIfndef then ⟨none, false, false⟩ :: cs
  else if word = szElif then
    match cs with
    | [] => []
    | c :: cs => { c with other := true } :: cs
  else if word = szElse then
    match cs with
    | [] => []
    | c :: cs => { c with other := true, elsed := true } :: cs
  else if word = szEndif then cs.tail
  else cs

namespace Place

/-- A directive that starts outside of comments. -/
def directive (p : Place) (line : List Char) : Option (List Char × List Char) :=
  if p.comment then none else directiveOf line

def excluded (p : Place) : Bool := p.conditionals.any Conditional.excludes

/-- What is to be looked up for a line. -/
def names (p : Place) (line : List Char) : List (List Char) :=
  match p.directive line with
  | some (word, argument) =>
    if word = szInclude ∧ p.excluded = false then ((headerName argument).map strlwr).toList else []
  | none => []

def behind (p : Place) (line : List Char) : Place where
  comment := openBehind p.comment line
  conditionals :=
    match p.directive line with
    | some (word, argument) => conditionalsBehind p.conditionals word argument
    | none => p.conditionals

def includes : Place → List (List Char) → List (List Char)
  | _, [] => []
  | p, line :: lines => p.names line ++ includes (p.behind line) lines

def start : Place := ⟨false, []⟩

end Place

def Event.name : Event → Option (List Char)
  | .lookup szFullname => some szFullname
  | _ => none

/-- The file is read without an access outside of the stack and without a read behind the end of a
line, and what is looked up are the includes. -/
def Promised (env : Env) (achIfStack : ℕ → IfStackEntry) (text : List Char) : Prop :=
  ∃ events, langC_CPP env achIfStack text = some events ∧
    events.filterMap Event.name = Place.start.includes (splitLines text)

/-- A line of a source: it is short, it has no terminator, and a directive belongs to a
conditional where it has to. -/
structure LineRegular (p : Place) (line : List Char) : Prop where
  short : line.length < 4096
  text : '\x00' ∉ line
  elses : ∀ argument, p.directive line = some (szElse, argument) →
    ∃ c cs, p.conditionals = c :: cs ∧ c.elsed = false
  elifs : ∀ argument, p.directive line = some (szElif, argument) →
    ∃ c cs, p.conditionals = c :: cs ∧ c.elsed = false
  endifs : ∀ argument, p.directive line = some (szEndif, argument) → p.conditionals ≠ []
  ifs : ∀ word argument, p.directive line = some (word, argument) → szIf <+: word →
    word = szIf ∨ word = szIfdef ∨ word = szIfndef
  elseifs : ∀ word argument, p.directive line = some (word, argument) → ¬ szElseif <+: word

def Regular : Place → List (List Char) → Prop
  | _, [] => True
  | p, line :: lines => LineRegular p line ∧ Regular (p.behind line) lines

/-! ## When it holds -/

/-- The argument of an `#if` is a single digit for `langC_CPP`. -/
def single (argument : List Char) : Bool :=
  match argument.dropWhile blank with
  | ch :: rest => digit ch && !(rest.head?.any wordChar)
  | [] => false

/-- Which entries of the stack still have the `fSupported` they had before. -/
def supportedBehind (p : Place) (supported : ℕ → Bool) (line : List Char) : ℕ → Bool :=
  match p.directive line with
  | some (word, argument) =>
    if word = szIf ∧ single argument = false ∨ word = szIfdef ∨ word = szIfndef then
      Function.update supported (p.conditionals.length + 1) false
    else supported
  | none => supported

/-- The innermost conditional is past its `#else`, and its entry has `fSupported`. -/
def toggled (p : Place) (supported : ℕ → Bool) : Bool :=
  match p.conditionals with
  | c :: cs => c.elsed && supported (cs.length + 1)
  | [] => false

/-- An `#include` without a name on a line that opens no comment; or one with a name that is not
too long, where the path that is left in the line buffer reaches to where the name was and says
the same of comments from there on. -/
def IncludeFits (env : Env) (line argument : List Char) : Prop :=
  ('"' ∉ argument ∧ '<' ∉ argument ∧ openBehind false line = false) ∨
  ∃ (fQuote : Bool) (name rest : List Char),
    argument.dropWhile blank =
      (if fQuote then '"' else '<') :: (name ++ (if fQuote then '"' else '>') :: rest) ∧
    '"' ∉ name ∧ '>' ∉ name ∧ name.length < 260 ∧
    line.length - (name.length + 1 + rest.length) ≤
      (findInclude env fQuote (strlwr name)).2.length ∧
    openBehind false ((findInclude env fQuote (strlwr name)).2.drop
      (line.length - (name.length + 1 + rest.length))) = openBehind false line

structure LineFits (env : Env) (p : Place) (supported : ℕ → Bool) (line : List Char) : Prop where
  /-- The word of a directive is not cut, and where there is none the line has only the hash. -/
  whole : ∀ word argument, p.directive line = some (word, argument) →
    ∀ key ∈ [szInclude, szElse, szEndif], word <+: key → word = key ∨ word = [] ∧ argument = []
  /-- The stack of conditionals has room. -/
  room : ∀ word argument, p.directive line = some (word, argument) → szIf <+: word →
    p.conditionals.length < 255
  /-- A constant conditional excludes an `#include` exactly where an entry is toggled. -/
  branch : ∀ argument, p.directive line = some (szInclude, argument) →
    p.excluded = toggled p supported
  named : ∀ argument, p.directive line = some (szInclude, argument) → p.excluded = false →
    IncludeFits env line argument

def Fits (env : Env) : Place → (ℕ → Bool) → List (List Char) → Prop
  | _, _, [] => True
  | p, supported, line :: lines =>
    LineFits env p supported line ∧
      Fits env (p.behind line) (supportedBehind p supported line) lines

end Odin32.LangCpp
