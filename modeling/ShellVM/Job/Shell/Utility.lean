import ShellVM.Job.Shell.Format
import ShellVM.Job.Shell.Session

/-!
# Programs

What the programs besides the shell do: from their arguments and their input to what they write and
how they end.
-/

namespace ShellVM.Shell

/-- How a name is shown in a message: as it is, or in quotes if a shell would not read it as one
word. -/
def shownName (name : String) : String :=
  let isPlain (c : Char) : Bool := c.isAlphanum || "%+,-./@_]".toList.contains c
  let isPrintable (c : Char) : Bool := 32 ≤ c.toNat && c.toNat < 127
  let cs := name.toList
  let oddStart := match cs with
    | '#' :: _ | '~' :: _ => true
    | _ => false
  let braces := cs == ['\x7b'] || cs == ['\x7d']
  let isMeek (c : Char) : Bool := isPlain c || "#~\x7b\x7d".toList.contains c
  if cs.all isMeek && !oddStart && !braces && !cs.isEmpty then name
  else if cs.contains '\'' && cs.all (fun c => isPrintable c && !"\"$`\\!".toList.contains c) then
    "\"" ++ name ++ "\""
  else
    let octal (c : Char) : String :=
      match c with
      | '\n' => "\\n"
      | '\t' => "\\t"
      | '\x0d' => "\\r"
      | '\x07' => "\\a"
      | '\x08' => "\\b"
      | '\x0b' => "\\v"
      | '\x0c' => "\\f"
      | c =>
        let digits := String.ofList (Nat.toDigits 8 c.toNat)
        "\\" ++ String.ofList (List.replicate (3 - digits.length) '0') ++ digits
    let (s, odd) := cs.foldl (fun ((s, odd) : String × Bool) c =>
      if c == '\'' then ((if odd then s ++ "''" else s) ++ "'\\''", false)
      else if isPrintable c then ((if odd then s ++ "''" else s).push c, false)
      else ((if odd then s else s ++ "'$'") ++ octal c, true)) ("'", false)
    if odd then s ++ "'" else s ++ "'"

namespace Session

/-- A message of a program. -/
def report (s : Session) (program message : String) : Session :=
  s.put 2 (program ++ ": " ++ message ++ "\n")

/-- A message about arguments that a program does not take. -/
def misuse (s : Session) (program message : String) : Session :=
  ((s.report program message).put 2 ("Try '" ++ program ++ " --help' for more information.\n")).finish 1

/-! ## Copying files -/

structure CatOptions where
  number : Bool := false
  numberFilled : Bool := false
  squeeze : Bool := false
  ends : Bool := false
  tabs : Bool := false
  visible : Bool := false

def CatOptions.set? (o : CatOptions) : Char → Option CatOptions
  | 'n' => some { o with number := true }
  | 'b' => some { o with numberFilled := true }
  | 's' => some { o with squeeze := true }
  | 'E' => some { o with ends := true }
  | 'T' => some { o with tabs := true }
  | 'v' => some { o with visible := true }
  | 'A' => some { o with visible := true, ends := true, tabs := true }
  | 'e' => some { o with visible := true, ends := true }
  | 't' => some { o with visible := true, tabs := true }
  | 'u' => some o
  | _ => none

def CatOptions.setAll? : List Char → CatOptions → Except Char CatOptions
  | [], o => .ok o
  | c :: rest, o =>
    match o.set? c with
    | some o => setAll? rest o
    | none => .error c

/-- The letter of an option that is spelled out. -/
def catLetter? (option : String) : Option Char :=
  [("--number", 'n'), ("--number-nonblank", 'b'), ("--squeeze-blank", 's'), ("--show-ends", 'E'),
    ("--show-tabs", 'T'), ("--show-nonprinting", 'v'), ("--show-all", 'A')].lookup option

/-- The options and the files that arguments name. -/
def catArguments : List String → CatOptions → List String → Except String (CatOptions × List String)
  | [], o, names => .ok (o, names.reverse)
  | "--" :: rest, o, names => .ok (o, names.reverse ++ rest)
  | a :: rest, o, names =>
    if a.startsWith "--" then
      match catLetter? a >>= o.set? with
      | some o => catArguments rest o names
      | none => .error ("unrecognized option '" ++ a ++ "'")
    else if a.startsWith "-" && a != "-" then
      match o.setAll? (a.toList.drop 1) with
      | .ok o => catArguments rest o names
      | .error c => .error ("invalid option -- '" ++ c.toString ++ "'")
    else catArguments rest o (a :: names)

/-- A byte as it is shown. -/
def visibleByte (o : CatOptions) (c : Char) : String :=
  let low (n : Nat) : String :=
    if n < 32 then "^" ++ (Char.ofNat (n + 64)).toString
    else if n = 127 then "^?"
    else (Char.ofNat n).toString
  if c == '\t' then (if o.tabs then "^I" else "\t")
  else if !o.visible then c.toString
  else if c.toNat < 128 then low c.toNat
  else "M-" ++ low (c.toNat - 128)

/-- Shows lines, each with whether it is complete. -/
def catLines (o : CatOptions) : List (List Char × Bool) → (line : Nat) → (blank : Bool) → String → String
  | [], _, _, before => before
  | (cs, complete) :: rest, line, blank, before =>
    if cs.isEmpty && (!complete || (o.squeeze && blank)) then catLines o rest line blank before
    else
      let numbered := if o.numberFilled then !cs.isEmpty else o.number
      let digits := line.repr
      let front := if numbered then String.ofList (List.replicate (6 - digits.length) ' ') ++ digits ++ "\t" else ""
      let text := cs.foldl (fun s c => s ++ visibleByte o c) ""
      let tail := if complete then (if o.ends then "$\n" else "\n") else ""
      catLines o rest (if numbered then line + 1 else line) cs.isEmpty (before ++ front ++ text ++ tail)

/-- Cuts a text into lines, each with whether it is complete. -/
def linesOf (cs : List Char) : List (List Char × Bool) :=
  let (last, lines) := cs.foldr (fun c (line, lines) =>
    if c == '\n' then ([], line :: lines) else (c :: line, lines)) (([] : List Char), ([] : List (List Char)))
  match (last :: lines).reverse with
  | [] => []
  | open' :: done => (done.map fun l => (l, true)).reverse ++ [(open', false)]

/-- The contents of one file, or of the input. -/
def contents (s : Session) (name : String) : Except Refusal (List Char × Session) :=
  if name == "-" || name == "/dev/stdin" then
    if s.channel? 0 == some .directory then .error .isDirectory else .ok (s.pending, s.setPending [])
  else do
    let bytes ← s.files.read name
    return (bytes.toList.map fun b => Char.ofNat b.toNat, s)

def cat (program : String) (arguments : List String) (s : Session) : Session :=
  match catArguments arguments {} [] with
  | .error message => s.misuse program message
  | .ok (o, names) =>
    let names := if names.isEmpty then ["-"] else names
    let (text, s) := names.foldl (fun ((text, s) : List Char × Session) name =>
      match s.contents name with
      | .ok (cs, s) => (text ++ cs, s)
      | .error refusal =>
        (text, (s.report program (shownName name ++ ": " ++ refusal.text)).finish 1)) ([], s.finish 0)
    let plain := !(o.number || o.numberFilled || o.squeeze || o.ends || o.tabs || o.visible)
    s.put 1 (if plain then String.ofList text else catLines o (linesOf text) 1 false "")

/-! ## The other programs -/

/-- Is this a time to sleep: a number, and perhaps a unit? -/
def isTime (s : String) : Bool :=
  let cs := s.toList
  let digits := match cs.reverse with
    | c :: rest => if "smhd".toList.contains c then rest.reverse else cs
    | [] => cs
  match Number.readFloat? (String.ofList digits) with
  | some x => x ≥ 0 && !s.startsWith "-"
  | none => false

def sleep (program : String) (arguments : List String) (s : Session) : Session :=
  let invalid (a : String) : String := "invalid time interval '" ++ a ++ "'"
  match arguments.find? (fun a => a.startsWith "-" && a != "-"), arguments, arguments.filter (!isTime ·) with
  | some a, _, _ => s.misuse program ("invalid option -- '" ++ ((a.drop 1).take 1).toString ++ "'")
  | none, [], _ => s.misuse program "missing operand"
  | none, _, [] => { s with beforeSleep? := s.beforeSleep?.or (s.sinks[0]?), status := 0 }
  | none, _, bad =>
    let s := bad.dropLast.foldl (fun s a => s.report program (invalid a)) s
    s.misuse program (invalid (bad.getLastD ""))

/-- Writes what a format has come to. The shell writes its messages first. -/
def writeFormatted (s : Session) (d : Dialect) (say : Session → String → Session) (f : Formatted) : Session :=
  let inOrder := f.pieces.reverse
  let pieces : List (Bool × String) := match d with
    | .shell => inOrder.filter Prod.fst ++ inOrder.filter (!Prod.fst ·)
    | .program => inOrder
  let s := pieces.foldl (fun s (p : Bool × String) => if p.1 then say s p.2 else s.put 1 p.2) s
  s.finish f.status

/-- Runs a program that is not the shell. `name` is how it was called. -/
def utility (program name : String) (arguments : List String) (s : Session) : Session :=
  match program with
  | "true" => s.finish 0
  | "false" => s.finish 1
  | "echo" => (s.put 1 (echo .program arguments)).finish 0
  | "cat" => s.cat name arguments
  | "sleep" => s.sleep name arguments
  | "printf" =>
    match if arguments.head? == some "--" then arguments.drop 1 else arguments with
    | [] => s.misuse name "missing operand"
    | format :: rest => s.writeFormatted .program (fun s m => s.report name m) (printf .program format rest)
  | _ => s.finish 127

end Session

end ShellVM.Shell
