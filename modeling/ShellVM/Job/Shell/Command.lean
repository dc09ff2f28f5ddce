/-!
# Commands of the shell

A script is a row of commands. A simple command is a row of words; a word is a row of parts: text,
and what is to be put in its place when the word is used, each of them quoted or not.
-/

namespace ShellVM.Shell

/-- What a parameter is used for besides its value, if it is unset. -/
inductive Fallback where
  /-- Another value takes its place. -/
  | value
  /-- Another value takes its place and becomes its own. -/
  | assign
  /-- The shell ends with a message. -/
  | require
  /-- The other way round: another value takes its place if it is set. -/
  | replace
deriving DecidableEq

/-- How a file is opened. -/
inductive Opening where
  | read
  | write
  | append
  | both
deriving DecidableEq

mutual

inductive Part where
  | text (s : String) (quoted : Bool)
  /-- A pair of quotes, which makes a word even if it is empty. -/
  | quotes
  | parameter (name : String) (change : Change) (quoted : Bool)
  /-- The output of commands. -/
  | output (commands : List Command) (quoted : Bool)
  /-- The value of an arithmetic expression. -/
  | arithmetic (expression : List Part) (quoted : Bool)

inductive Change where
  | none
  /-- Its length takes the place of the value. -/
  | length
  /-- With `orEmpty`, an empty value counts as none. -/
  | fallback (kind : Fallback) (orEmpty : Bool) (word : List Part)
  /-- The shortest or longest start or end of the value that a pattern matches is taken away. -/
  | trim (atEnd longest : Bool) (pattern : List Part)
  /-- There is no such change. -/
  | bad

inductive Redirection where
  | file (fd : Nat) (opening : Opening) (path : List Part)
  /-- The descriptor becomes a copy of another, or is closed for a dash. -/
  | duplicate (fd : Nat) (source : List Part)
  /-- The input is a text of the script. -/
  | here (fd : Nat) (text : List Part)

inductive Command where
  /-- Assignments, words and redirections, and the line where they stand. -/
  | simple (line : Nat) (assignments : List (String × List Part)) (words : List (List Part))
      (redirections : List Redirection)
  | pipeline (stages : List Command)
  | not (command : Command)
  | and (left right : Command)
  | or (left right : Command)
  | background (command : Command)
  | group (body : List Command)
  /-- A group whose changes to the shell are forgotten. -/
  | subshell (body : List Command)
  | branch (condition yes no : List Command)
  /-- Repeats the body as long as the condition ends well, or, with `isUntil`, as long as it does
  not. -/
  | loop (isUntil : Bool) (condition body : List Command)
  | each (name : String) (words : List (List Part)) (body : List Command)
  | choice (word : List Part) (clauses : List (List (List Part) × List Command))
  | function (name : String) (body : Command)
  | redirected (command : Command) (redirections : List Redirection)

end

abbrev Word := List Part

instance : Inhabited Command := ⟨.group []⟩

end ShellVM.Shell
