import ShellVM.Job.Shell.Command

/-!
# Reading scripts

The commands of a script are read line by line, so that those of one line have run before a mistake
in the next is found. `Parser.nextLine` reads one line and all the lines that its commands extend
over.
-/

namespace ShellVM.Shell

/-- What is wrong with a script, and where. -/
structure Mistake where
  message : String
  line : Nat

/-- What a redirection does, before its word is read. -/
inductive Redirector where
  | file (opening : Opening)
  | duplicate
  /-- The text that follows the line; with `stripped`, without tabs at the start of its lines. -/
  | here (stripped : Bool)
deriving DecidableEq

inductive Token where
  | endOfText
  | newline
  | semicolon
  | ampersand
  | andIf
  | orIf
  | pipe
  | openParen
  | closeParen
  | endClause
  | word (parts : Word)
  | keyword (s : String)
  | redirect (fd : Nat) (kind : Redirector)

namespace Token

/-- How a token is called in a message. -/
def name : Token → String
  | endOfText => "end of file"
  | newline => "newline"
  | semicolon => "\";\""
  | ampersand => "\"&\""
  | andIf => "\"&&\""
  | orIf => "\"||\""
  | pipe => "\"|\""
  | openParen => "\"(\""
  | closeParen => "\")\""
  | endClause => "\";;\""
  | word _ => "word"
  | keyword s => "\"" ++ s ++ "\""
  | redirect .. => "redirection"

def isKeyword (t : Token) (s : String) : Bool :=
  match t with
  | keyword k => k == s
  | _ => false

/-- Tokens that can only come after a row of commands. -/
def closes : Token → Bool
  | closeParen | endClause | endOfText => true
  | keyword s => ["do", "done", "elif", "else", "esac", "fi", "then", "\x7d"].contains s
  | _ => false

end Token

/-- Where in a script the reader is. -/
structure Cursor where
  rest : List Char
  line : Nat := 1
  /-- Lines that were taken out of the text behind the next end of a line. -/
  skipped : Nat := 0
  /-- A token that was put back. -/
  pushed? : Option Token := none

abbrev Parse := StateT Cursor (Except Mistake)

namespace Parser

def fail {α : Type} (message : String) : Parse α := do throw ⟨message, (← get).line⟩

/-- Stops at a token that cannot stand there. -/
def unexpected {α : Type} (t : Token) (expected? : Option Token) : Parse α :=
  fail (match expected? with
    | some e => t.name ++ " unexpected (expecting " ++ e.name ++ ")"
    | none => t.name ++ " unexpected")

/-! ## Characters -/

def advance (c : Cursor) : Cursor :=
  match c.rest with
  | [] => c
  | '\n' :: rest => { c with rest, line := c.line + 1 + c.skipped, skipped := 0 }
  | _ :: rest => { c with rest }

def peek : Parse (Option Char) := do return (← get).rest.head?

def skip : Parse Unit := modify advance

/-- Passes over ends of lines that a backslash joins to the next, and counts them. -/
def skipJoins (count : Nat) : List Char → Nat × List Char
  | '\\' :: '\n' :: rest => skipJoins (count + 1) rest
  | rest => (count, rest)

/-- The next character, in the next line if a backslash joins it. -/
def peekJoined : Parse (Option Char) := do
  modify fun c =>
    match skipJoins 0 c.rest with
    | (0, _) => c
    | (n, rest) => { c with rest, line := c.line + n + c.skipped, skipped := 0 }
  peek

/-- Takes a character if it comes next. -/
def accept (c : Char) : Parse Bool := do
  if (← peekJoined) == some c then
    skip
    return true
  else return false

/-- Takes characters as long as they fit. -/
def takeWhile (p : Char → Bool) : Parse String := do
  let taken := (← get).rest.takeWhile p
  modify fun c =>
    let ends := taken.count '\n'
    { c with
      rest := c.rest.drop taken.length
      line := c.line + ends + (if ends = 0 then 0 else c.skipped)
      skipped := if ends = 0 then c.skipped else 0 }
  return String.ofList taken

def isNameStart (c : Char) : Bool := c.isAlpha || c == '_'

def isNameChar (c : Char) : Bool := c.isAlphanum || c == '_'

/-- Can a text be the name of a variable? -/
def isName (s : String) : Bool := s.toList.head?.any isNameStart && s.toList.all isNameChar

def isSpecialParameter (c : Char) : Bool := "@*#?-$!".toList.contains c || c.isDigit

/-! ## Words -/

/-- Where the parts of a word stand: this tells where they end and which characters mean something. -/
inductive Setting where
  | word
  | double
  | braces (quoted : Bool)
  | sum
  | here
deriving DecidableEq

namespace Setting

def quoted : Setting → Bool
  | word | braces false => false
  | _ => true

/-- The characters that mean something. -/
def special : Setting → String
  | word => "\n\\'\"`$()<>;&| \t"
  | double => "\\\"`$"
  | braces true => "\x7d\\\"`$"
  | braces false => "\x7d\\'\"`$"
  | sum => "\\`$()"
  | here => "\\`$"

/-- The characters that a backslash makes plain within quotes. -/
def escapable : Setting → String
  | braces _ => "\\`$\"\x7d"
  | here | sum => "\\`$"
  | _ => "\\`$\""

end Setting

/-- Adds text to a row of parts that has the latest in front. -/
def addText (s : String) (quoted : Bool) : List Part → List Part
  | .text t q :: rest => if q == quoted then .text (t ++ s) q :: rest else .text s quoted :: .text t q :: rest
  | parts => if s.isEmpty then parts else .text s quoted :: parts

/-- Are these the arguments of the script, and nothing else? -/
def areArguments : List Part → Bool
  | [] => false
  | parts => parts.all fun
    | .parameter "@" _ _ => true
    | _ => false

/-- The script between backquotes: in it a backslash makes some characters plain. -/
def unquoteScript (extra : Bool) : List Char → List Char
  | '\\' :: c :: rest =>
    if c == '\\' || c == '$' || c == '\x60' || (extra && c == '"') then c :: unquoteScript extra rest
    else '\\' :: c :: unquoteScript extra rest
  | c :: rest => c :: unquoteScript extra rest
  | [] => []

/-- The text up to the next backquote that no backslash makes plain, and what follows it. -/
def splitBackquote : List Char → Option (List Char × List Char)
  | [] => none
  | '\x60' :: rest => some ([], rest)
  | '\\' :: c :: rest => (splitBackquote rest).map fun (s, r) => ('\\' :: c :: s, r)
  | c :: rest => (splitBackquote rest).map fun (s, r) => (c :: s, r)

/-- The text of a word without its quotes, and whether it had any; a word with anything to be put in
its place is no such text. -/
def literal : Word → String × Bool
  | [] => ("", false)
  | .text s q :: rest => ((s ++ (literal rest).1), q || (literal rest).2)
  | .quotes :: rest => ((literal rest).1, true)
  | _ :: rest => literal rest

/-- The text of a word that is plain throughout. -/
def plain? : Word → Option String
  | [.text s false] => some s
  | _ => none

/-- Splits `NAME=value` at the start of a word. -/
def assignment? : Word → Option (String × Word)
  | .text t false :: rest =>
    let name := t.toList.takeWhile isNameChar
    match t.toList.drop name.length with
    | '=' :: value =>
      if isName (String.ofList name) then
        some (String.ofList name, if value.isEmpty then rest else .text (String.ofList value) false :: rest)
      else none
    | _ => none
  | _ => none

def fallback? (c : Char) : Option Fallback :=
  if c == '-' then some .value
  else if c == '=' then some .assign
  else if c == '?' then some .require
  else if c == '+' then some .replace
  else none

/-- The lines up to the one that is the mark, and what follows it. -/
def hereLines (mark : List Char) (stripped : Bool) : List (List Char) → List (List Char) × List (List Char)
  | [] => ([], [])
  | line :: rest =>
    let line := if stripped then line.dropWhile (· == '\t') else line
    if line == mark then ([], rest)
    else
      let (body, rest) := hereLines mark stripped rest
      (line :: body, rest)

def splitLines (cs : List Char) : List (List Char) :=
  let (last, lines) := cs.foldr (fun c (line, lines) =>
    if c == '\n' then ([], line :: lines) else (c :: line, lines)) (([] : List Char), ([] : List (List Char)))
  last :: lines

/-- Takes the text that follows the line up to a mark out of the script. -/
def takeHere (mark : String) (stripped : Bool) : Parse String := do
  let c ← get
  let line := c.rest.takeWhile (· != '\n')
  match c.rest.drop line.length with
  | [] => return ""
  | _ :: below =>
    let lines := splitLines below
    let (body, rest) := hereLines mark.toList stripped lines
    let tail := (rest.intersperse ['\n']).flatten
    set { c with
      rest := line ++ '\n' :: tail
      skipped := c.skipped + (lines.length - rest.length) }
    let text := (body.map (· ++ ['\n'])).flatten
    return String.ofList (if body.length = lines.length then text.dropLast else text)

/-! ## Tokens -/

def keywords : List String :=
  ["!", "case", "do", "done", "elif", "else", "esac", "fi", "for", "if", "in", "then", "until", "while",
    "\x7b", "\x7d"]

/-- Special commands of the shell, after which no function can be called. -/
def specialCommands : List String :=
  [".", ":", "break", "continue", "eval", "exec", "exit", "export", "readonly", "return", "set",
    "shift", "times", "trap", "unset"]

/-- A word as the keyword that it is where there can be one. -/
def classify (keywordsCount : Bool) (t : Token) : Token :=
  match t with
  | .word w =>
    match plain? w with
    | some s => if keywordsCount && keywords.contains s then .keyword s else t
    | none => t
  | t => t

def pushBack (t : Token) : Parse Unit := modify fun c => { c with pushed? := some t }

/-- The kind of a redirection after its first sign. -/
def redirector (sign : Char) : Parse Redirector := do
  if sign == '>' then
    if ← accept '>' then return .file .append
    else if ← accept '|' then return .file .write
    else if ← accept '&' then return .duplicate
    else return .file .write
  else if ← accept '<' then return .here (← accept '-')
  else if ← accept '&' then return .duplicate
  else if ← accept '>' then return .file .both
  else return .file .read

/-- Skips blanks and remarks. -/
def skipBlanks : Parse Unit := do
  let _ ← takeWhile fun c => c == ' ' || c == '\t'
  if (← peek) == some '#' then
    let _ ← takeWhile (· != '\n')

/-- The token of an operator, if there is one next. -/
def operator? : Parse (Option Token) := do
  match ← peekJoined with
  | none => return some .endOfText
  | some '\n' => skip; return some .newline
  | some '(' => skip; return some .openParen
  | some ')' => skip; return some .closeParen
  | some '&' => skip; return some (if ← accept '&' then .andIf else .ampersand)
  | some '|' => skip; return some (if ← accept '|' then .orIf else .pipe)
  | some ';' => skip; return some (if ← accept ';' then .endClause else .semicolon)
  | some _ => return none

/-- How far the commands of a list go. -/
inductive Extent where
  /-- To the end of the line. -/
  | line
  /-- To what can only come after them; there has to be one. -/
  | body
  /-- To what can only come after them. -/
  | clause
deriving DecidableEq

mutual

/-- The parts of a word up to its end. `depth` counts the parentheses that are open in a sum. -/
def parts : (fuel : Nat) → Setting → (depth : Nat) → List Part → Parse (List Part)
  | 0, _, _, _ => fail "Too deep"
  | fuel + 1, setting, depth, before => do
    let text ← takeWhile fun c => !setting.special.toList.contains c
    let before := addText text setting.quoted before
    match ← peek with
    | none =>
      match setting with
      | .word | .here => return before.reverse
      | .sum => fail "Missing '))'"
      | .braces false => fail "Missing '\x7d'"
      | _ => fail "Unterminated quoted string"
    | some '\\' => do
      skip
      match ← peek with
      | none => parts fuel setting depth (addText "\\" true before)
      | some '\n' => skip; parts fuel setting depth before
      | some c =>
        skip
        if setting.quoted && !setting.escapable.toList.contains c then
          parts fuel setting depth (addText ("\\" ++ c.toString) true before)
        else parts fuel setting depth (addText c.toString true before)
    | some '$' => do
      skip
      let part ← dollar fuel setting.quoted
      parts fuel setting depth (match part with
        | .text s q => addText s q before
        | part => part :: before)
    | some '\x60' => do
      skip
      match splitBackquote (← get).rest with
      | none => do
        modify fun c => { c with line := c.line + c.rest.count '\n' }
        fail "EOF in backquote substitution"
      | some (text, rest) => do
        let line := (← get).line
        modify fun c => { c with rest, line := line + text.count '\n' }
        let after ← get
        set { rest := unquoteScript setting.quoted text, line : Cursor }
        let commands ← list fuel .body true []
        match ← token fuel true true with
        | .endOfText => pure ()
        | t => unexpected t none
        set after
        parts fuel setting depth (.output commands setting.quoted :: before)
    | some '"' => do
      match setting with
      | .double => skip; return before.reverse
      | _ => do
        skip
        let inner ← parts fuel .double 0 []
        parts fuel setting depth
          (inner.reverse ++ (if areArguments inner then before else .quotes :: before))
    | some '\'' => do
      skip
      let s ← takeWhile (· != '\'')
      if (← peek).isNone then fail "Unterminated quoted string"
      skip
      parts fuel setting depth (addText s true (.quotes :: before))
    | some '\x7d' => skip; return before.reverse
    | some '(' =>
      match setting with
      | .sum => skip; parts fuel setting (depth + 1) (addText "(" true before)
      | _ => return before.reverse
    | some ')' =>
      match setting with
      | .sum => do
        skip
        if depth = 0 then
          if ← accept ')' then return before.reverse
          else parts fuel setting depth (addText ")" true before)
        else parts fuel setting (depth - 1) (addText ")" true before)
      | _ => return before.reverse
    | some _ => return before.reverse

/-- What a dollar sign stands for. -/
def dollar : (fuel : Nat) → (quoted : Bool) → Parse Part
  | 0, _ => fail "Too deep"
  | fuel + 1, quoted => do
    match ← peekJoined with
    | some '(' => do
      skip
      if ← accept '(' then return .arithmetic (← parts fuel .sum 0 []) quoted
      else do
        let commands ← list fuel .body true []
        match ← token fuel true true with
        | .closeParen => return .output commands quoted
        | t => unexpected t (some .closeParen)
    | some '\x7b' => skip; braces fuel quoted
    | some c =>
      if isNameStart c then return .parameter (← takeWhile isNameChar) .none quoted
      else if isSpecialParameter c then
        skip
        return .parameter c.toString .none quoted
      else return .text "$" quoted
    | none => return .text "$" quoted

/-- A parameter in braces. -/
def braces : (fuel : Nat) → (quoted : Bool) → Parse Part
  | 0, _ => fail "Too deep"
  | fuel + 1, quoted => do
    let bad : Parse Part := do
      let _ ← parts fuel (.braces quoted) 0 []
      return .parameter "" .bad quoted
    let changed (name : String) : Parse Part := do
      match ← peekJoined with
      | some '\x7d' => skip; return .parameter name .none quoted
      | some ':' => do
        skip
        match ← peekJoined with
        | some c =>
          match fallback? c with
          | some kind =>
            skip
            return .parameter name (.fallback kind true (← parts fuel (.braces quoted) 0 [])) quoted
          | none => bad
        | none => bad
      | some '%' => do
        skip
        let longest ← accept '%'
        return .parameter name (.trim true longest (← parts fuel (.braces false) 0 [])) quoted
      | some '#' => do
        skip
        let longest ← accept '#'
        return .parameter name (.trim false longest (← parts fuel (.braces false) 0 [])) quoted
      | some c =>
        match fallback? c with
        | some kind =>
          skip
          return .parameter name (.fallback kind false (← parts fuel (.braces quoted) 0 [])) quoted
        | none => bad
      | none => bad
    let length (name : String) : Parse Part := do
      if ← accept '\x7d' then return .parameter name .length quoted else bad
    match ← peekJoined with
    | none => bad
    | some '#' => do
      skip
      match (← get).rest with
      | c :: next :: _ =>
        if isNameStart c then length (← takeWhile isNameChar)
        else if c.isDigit then length (← takeWhile Char.isDigit)
        else if c != '\x7d' && next == '\x7d' && isSpecialParameter c then skip; length c.toString
        else changed "#"
      | _ => changed "#"
    | some c =>
      if isNameStart c then changed (← takeWhile isNameChar)
      else if c.isDigit then changed (← takeWhile Char.isDigit)
      else if isSpecialParameter c then skip; changed c.toString
      else bad

/-- The next token. Keywords are words unless `keywordsCount`; with `newlines`, ends of lines are
passed over. -/
def token : (fuel : Nat) → (keywordsCount newlines : Bool) → Parse Token
  | 0, _, _ => fail "Too deep"
  | fuel + 1, keywordsCount, newlines => do
    let t ← match (← get).pushed? with
      | some t => modify fun c => { c with pushed? := none }; pure t
      | none => do
        skipBlanks
        match ← operator? with
        | some t => pure t
        | none =>
          match (← get).rest with
          | '\\' :: '\n' :: _ | ' ' :: _ | '\t' :: _ | '#' :: _ => do
            skipBlanks
            token fuel keywordsCount newlines
          | _ => do
            let word ← parts fuel .word 0 []
            match ← peek with
            | some sign =>
              if sign == '<' || sign == '>' then
                match word, plain? word with
                | [], _ => skip; pure (.redirect (if sign == '<' then 0 else 1) (← redirector sign))
                | _, some s =>
                  match s.toList with
                  | [d] =>
                    if d.isDigit then
                      skip
                      pure (.redirect (d.toNat - '0'.toNat) (← redirector sign))
                    else pure (.word word)
                  | _ => pure (.word word)
                | _, none => pure (.word word)
              else pure (.word word)
            | none => pure (.word word)
    match t with
    | .newline => if newlines then token fuel keywordsCount newlines else return t
    | t => return classify keywordsCount t

/-- A row of commands. -/
def list : (fuel : Nat) → Extent → (isFirst : Bool) → List Command → Parse (List Command)
  | 0, _, _, _ => fail "Too deep"
  | fuel + 1, extent, isFirst, before => do
    match ← token fuel true (extent != .line) with
    | .newline => return before.reverse
    | .endOfText => pushBack .endOfText; return before.reverse
    | t => do
      pushBack t
      if t.closes && (extent == .clause || (extent == .body && !isFirst)) then return before.reverse
      let command ← andOr fuel
      match ← token fuel false false with
      | .ampersand => list fuel extent false (.background command :: before)
      | .semicolon => list fuel extent false (command :: before)
      | t =>
        match t with
        | .newline | .endOfText => pushBack t; list fuel extent false (command :: before)
        | t =>
          if extent == .line then unexpected t none
          pushBack t
          return (command :: before).reverse

def andOr : (fuel : Nat) → Parse Command
  | 0 => fail "Too deep"
  | fuel + 1 => do conditions fuel (← pipeline fuel false)

/-- The pipelines that depend on how the one before ended. -/
def conditions : (fuel : Nat) → Command → Parse Command
  | 0, _ => fail "Too deep"
  | fuel + 1, left => do
    match ← token fuel false false with
    | .andIf => do conditions fuel (.and left (← pipeline fuel true))
    | .orIf => do conditions fuel (.or left (← pipeline fuel true))
    | t => pushBack t; return left

def pipeline : (fuel : Nat) → (newlines : Bool) → Parse Command
  | 0, _ => fail "Too deep"
  | fuel + 1, newlines => do
    let t ← token fuel true newlines
    let inverted := t.isKeyword "!"
    if !inverted then pushBack t
    let stages ← stages fuel false
    let command := match stages with
      | [c] => c
      | cs => .pipeline cs
    return if inverted then .not command else command

def stages : (fuel : Nat) → (newlines : Bool) → Parse (List Command)
  | 0, _ => fail "Too deep"
  | fuel + 1, newlines => do
    let c ← command fuel newlines
    match ← token fuel false false with
    | .pipe => return c :: (← stages fuel true)
    | t => pushBack t; return [c]

def expect : (fuel : Nat) → String → Parse Unit
  | 0, _ => fail "Too deep"
  | fuel + 1, word => do
    let t ← token fuel true false
    if t.isKeyword word then return () else unexpected t (some (.keyword word))

def command : (fuel : Nat) → (newlines : Bool) → Parse Command
  | 0, _ => fail "Too deep"
  | fuel + 1, newlines => do
    let t ← token fuel true newlines
    match t with
    | .word _ | .redirect .. => do
      pushBack t
      let line := (← get).line
      simple fuel line [] [] []
    | .openParen => do
      let body ← list fuel .body true []
      match ← token fuel true false with
      | .closeParen => redirections fuel (.subshell body)
      | t => unexpected t (some .closeParen)
    | .keyword "\x7b" => do
      let body ← list fuel .body true []
      expect fuel "\x7d"
      redirections fuel (.group body)
    | .keyword "if" => do redirections fuel (← conditional fuel)
    | .keyword "while" | .keyword "until" => do
      let condition ← list fuel .body true []
      expect fuel "do"
      let body ← list fuel .body true []
      expect fuel "done"
      redirections fuel (.loop (t.isKeyword "until") condition body)
    | .keyword "for" => do
      match ← token fuel false false with
      | .word w =>
        match plain? w with
        | some name => do
          if !isName name then fail "Bad for loop variable"
          let words ← match ← token fuel true true with
            | .keyword "in" => forWords fuel []
            | .semicolon => pure [[.parameter "@" .none true]]
            | t => pushBack t; pure [[.parameter "@" .none true]]
          let t ← token fuel true true
          if !t.isKeyword "do" then unexpected t (some (.keyword "do"))
          let body ← list fuel .body true []
          expect fuel "done"
          redirections fuel (.each name words body)
        | none => fail "Bad for loop variable"
      | _ => fail "Bad for loop variable"
    | .keyword "case" => do
      match ← token fuel false false with
      | .word w => do
        let t ← token fuel true true
        if !t.isKeyword "in" then unexpected t (some (.keyword "in"))
        redirections fuel (.choice w (← clauses fuel))
      | t => unexpected t (some (.word []))
    | t => unexpected t none

/-- The words of a loop up to the end of the line. -/
def forWords : (fuel : Nat) → List Word → Parse (List Word)
  | 0, _ => fail "Too deep"
  | fuel + 1, before => do
    match ← token fuel false false with
    | .word w => forWords fuel (w :: before)
    | .newline | .semicolon => return before.reverse
    | t => unexpected t none

/-- A branch after its `if` or `elif`. -/
def conditional : (fuel : Nat) → Parse Command
  | 0 => fail "Too deep"
  | fuel + 1 => do
    let condition ← list fuel .body true []
    expect fuel "then"
    let yes ← list fuel .body true []
    let t ← token fuel true false
    if t.isKeyword "elif" then return .branch condition yes [← conditional fuel]
    else if t.isKeyword "else" then
      let no ← list fuel .body true []
      expect fuel "fi"
      return .branch condition yes no
    else if t.isKeyword "fi" then return .branch condition yes []
    else unexpected t (some (.keyword "fi"))

/-- The clauses of a choice, and its end. -/
def clauses : (fuel : Nat) → Parse (List (List Word × List Command))
  | 0 => fail "Too deep"
  | fuel + 1 => do
    let t ← token fuel true true
    if t.isKeyword "esac" then return []
    let t ← match t with
      | .openParen => token fuel false false
      | t => pure t
    let patterns ← patterns fuel t
    let body ← list fuel .clause true []
    let t ← token fuel true true
    match t with
    | .endClause => return (patterns, body) :: (← clauses fuel)
    | t =>
      if t.isKeyword "esac" then return [(patterns, body)]
      unexpected t (some .endClause)

/-- The patterns of a clause, the first of which has been read. -/
def patterns : (fuel : Nat) → Token → Parse (List Word)
  | 0, _ => fail "Too deep"
  | fuel + 1, t => do
    let word : Word := match t with
      | .word w => w
      | .keyword s => [.text s false]
      | _ => []
    match ← (match t with
      | .endOfText => pure t
      | _ => token fuel false false) with
    | .pipe => return word :: (← patterns fuel (← token fuel false false))
    | .closeParen => return [word]
    | t => unexpected t (some .closeParen)

/-- A redirection after its sign. -/
def redirection : (fuel : Nat) → (fd : Nat) → Redirector → Parse Redirection
  | 0, _, _ => fail "Too deep"
  | fuel + 1, fd, kind => do
    match ← token fuel false false with
    | .word w =>
      match kind with
      | .file opening => return .file fd opening w
      | .duplicate => return .duplicate fd w
      | .here stripped => do
        let (mark, quoted) := literal w
        let text ← takeHere mark stripped
        if quoted then return .here fd [.text text true]
        else do
          let after ← get
          set { rest := text.toList, line := after.line : Cursor }
          let body ← parts fuel .here 0 []
          set after
          return .here fd body
    | t => unexpected t none

/-- The redirections behind a command. -/
def redirections : (fuel : Nat) → Command → Parse Command
  | 0, _ => fail "Too deep"
  | fuel + 1, c => do
    match ← token fuel true false with
    | .redirect fd kind => do
      let r ← redirection fuel fd kind
      match c with
      | .redirected inner rs => redirections fuel (.redirected inner (rs ++ [r]))
      | c => redirections fuel (.redirected c [r])
    | t => pushBack t; return c

/-- A simple command, or the definition of a function. All that is read so far has the latest in
front. -/
def simple : (fuel line : Nat) → List (String × Word) → List Word → List Redirection → Parse Command
  | 0, _, _, _, _ => fail "Too deep"
  | fuel + 1, line, assignments, words, redirects => do
    match ← token fuel false false with
    | .word w =>
      match if words.isEmpty then assignment? w else none with
      | some a => simple fuel line (a :: assignments) words redirects
      | none => simple fuel line assignments (w :: words) redirects
    | .redirect fd kind => do
      let r ← redirection fuel fd kind
      simple fuel line assignments words (r :: redirects)
    | .openParen =>
      match words, assignments, redirects with
      | [w], [], [] => do
        match ← token fuel false false with
        | .closeParen => pure ()
        | t => unexpected t (some .closeParen)
        match plain? w with
        | some name =>
          if !isName name || specialCommands.contains name then fail "Bad function name"
          return .function name (← command fuel true)
        | none => fail "Bad function name"
      | _, _, _ => do
        pushBack .openParen
        return .simple line assignments.reverse words.reverse redirects.reverse
    | t => do
      pushBack t
      return .simple line assignments.reverse words.reverse redirects.reverse

end

/-- More levels than the readers go down for any text. -/
def depth : Nat := 1000000000

/-- The commands of the next line, and what follows them; nothing at the end of the text. -/
def nextLine (c : Cursor) : Except Mistake (Option (List Command × Cursor)) := do
  let (commands, c') ← (list depth .line true []).run { c with pushed? := none }
  match commands, c'.pushed? with
  | [], some .endOfText => return none
  | _, _ => return some (commands, { c' with pushed? := none })

end Parser

end ShellVM.Shell
