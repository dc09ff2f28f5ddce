import ShellVM.Job.Shell.Arithmetic
import ShellVM.Number.Layout

/-!
# Formatted output

The `printf` and `echo` of the shell and the programs of these names: a format is written with its
escapes and conversions replaced, again and again until the arguments are used up.
-/

namespace ShellVM.Shell

/-- A command of the shell, or the program of the same name. -/
inductive Dialect where
  | shell
  | program
deriving DecidableEq

def raw (n : Nat) : String := (Char.ofNat (n % 256)).toString

/-! ## Escapes -/

/-- What stands after a backslash: what it gives and the number of characters it takes. -/
def escape (d : Dialect) (quotes : Bool) (cs : List Char) : String × Nat :=
  match cs with
  | [] => ("\\", 0)
  | c :: rest =>
    match c with
    | 'n' => ("\n", 1)
    | 't' => ("\t", 1)
    | 'r' => (raw 13, 1)
    | 'a' => (raw 7, 1)
    | 'b' => (raw 8, 1)
    | 'e' => (raw 27, 1)
    | 'f' => (raw 12, 1)
    | 'v' => (raw 11, 1)
    | '\\' => ("\\", 1)
    | '"' => (if quotes then "\"" else "\\\"", 1)
    | 'x' =>
      let digits := (rest.take 2).takeWhile Arithmetic.isHexDigit
      if d == .shell || digits.isEmpty then ("\\x", 1)
      else (raw (Arithmetic.valueOf 16 digits), 1 + digits.length)
    | _ =>
      let digits := (cs.take 3).takeWhile Arithmetic.isOctalDigit
      if digits.isEmpty then ("\\" ++ c.toString, 1)
      else (raw (Arithmetic.valueOf 8 digits), digits.length)

/-- A text with its escapes replaced, and whether it goes on: `\c` ends all output. `\0` may be
followed by three more digits here. -/
def unescape (d : Dialect) (quotes : Bool) : (fuel : Nat) → List Char → String → String × Bool
  | 0, _, before | _, [], before => (before, true)
  | _, '\\' :: 'c' :: _, before => (before, false)
  | fuel + 1, '\\' :: rest, before =>
    let rest' := match rest with
      | '0' :: more => if more.head?.any Arithmetic.isOctalDigit then more else rest
      | _ => rest
    let (s, n) := escape d quotes rest'
    unescape d quotes fuel (rest'.drop n) (before ++ s)
  | fuel + 1, c :: rest, before => unescape d quotes fuel rest (before.push c)

/-- The output of `echo`. The command of the shell replaces escapes; the program does so if it is
asked to. -/
def echo (d : Dialect) (arguments : List String) : String :=
  let isFlag (a : String) : Bool :=
    match d with
    | .shell => a == "-n"
    | .program => a.startsWith "-" && a.length != 1 && (a.toList.drop 1).all ("neE".toList.contains ·)
  let flags := match d with
    | .shell => (arguments.take 1).takeWhile isFlag
    | .program => arguments.takeWhile isFlag
  let letters := flags.flatMap String.toList
  let text := " ".intercalate (arguments.drop flags.length)
  let interprets := d == .shell || (letters.filter fun c => c == 'e' || c == 'E').getLast? == some 'e'
  let (s, goesOn) := if interprets then unescape d false (text.length + 1) text.toList "" else (text, true)
  if goesOn && !letters.contains 'n' then s ++ "\n" else s

/-! ## Conversions -/

/-- A conversion: its flags, width, precision and letter. -/
structure Conversion where
  flags : List Char
  width : Nat
  precision? : Option Nat
  letter : Char

namespace Conversion

def left (c : Conversion) : Bool := c.flags.contains '-'

def pad (c : Conversion) (s : String) : String :=
  let blanks := String.ofList (List.replicate (c.width - s.length) ' ')
  if c.left then s ++ blanks else blanks ++ s

/-- The sign that a number is written with. -/
def sign (c : Conversion) (negative : Bool) : String :=
  if negative then "-" else if c.flags.contains '+' then "+" else if c.flags.contains ' ' then " " else ""

/-- Fills a number up to the width, with zeros behind its sign if the flags say so. -/
def padNumber (c : Conversion) (zeros : Bool) (sign digits : String) : String :=
  if zeros && c.flags.contains '0' && !c.left then
    sign ++ String.ofList (List.replicate (c.width - sign.length - digits.length) '0') ++ digits
  else c.pad (sign ++ digits)

def integer (c : Conversion) (sign digits : String) : String :=
  let least := c.precision?.getD 1
  c.padNumber c.precision?.isNone sign
    (String.ofList (List.replicate (least - digits.length) '0') ++ digits)

end Conversion

def renderBase (base : Nat) (upper : Bool) (n : Nat) : String :=
  let s := String.ofList (Nat.toDigits base n)
  if upper then s.map Char.toUpper else s

/-- How an argument reads as a number. -/
inductive Reading where
  | good
  | none
  | partly
  | outOfRange
deriving DecidableEq

/-- The integer at the front of an argument. A quote stands for the code of what follows it. -/
def readNumber (s : String) : Int × Reading :=
  match s.toList with
  | '\'' :: rest | '"' :: rest => ((rest.head?.map Char.toNat).getD 0, .good)
  | [] => (0, .good)
  | cs =>
    let (negative, digits) := Number.splitSign (cs.dropWhile fun c => c == ' ' || c == '\t' || c == '\n')
    let (n, width) := Arithmetic.readDigits digits
    let value : Int := if negative then -(n : Int) else n
    if width = 0 then (0, .none)
    else if 9223372036854775807 < value then (9223372036854775807, .outOfRange)
    else if value < -9223372036854775808 then (-9223372036854775808, .outOfRange)
    else (value, if width = digits.length then .good else .partly)

/-- The float at the front of an argument. -/
def readFloat (s : String) : Float × Reading :=
  let (negative, cs) := Number.splitSign (s.toList.dropWhile fun c => c == ' ')
  let whole := cs.takeWhile Char.isDigit
  let fraction := match cs.drop whole.length with
    | '.' :: more => '.' :: more.takeWhile Char.isDigit
    | _ => []
  let rest := cs.drop (whole.length + fraction.length)
  let exponent := match rest with
    | mark :: more =>
      let (_, digits) := Number.splitSign more
      let n := (digits.takeWhile Char.isDigit).length
      if (mark == 'e' || mark == 'E') && n != 0 then rest.take (rest.length - digits.length + n) else []
    | [] => []
  let text := whole ++ fraction ++ exponent
  match s.toList, Number.readDecimal? text with
  | [], _ => (0, .good)
  | '\'' :: c :: _, _ | '"' :: c :: _, _ => (Float.ofNat c.toNat, .good)
  | _, some x => (if negative then -x else x, if text.length = cs.length then .good else .partly)
  | _, none => (0, .none)

/-- The digits of a positive float with one before the point and `places` behind it, as an integer,
and its power of ten. -/
def scaled (places : Nat) (x : Float) : Nat × Int :=
  match Number.shape x.toBits with
  | .finite _ b =>
    let at' (e : Int) : Nat :=
      let power := (places : Int) - e
      Number.roundDiv (b.m * Nat.pow 2 b.q.toNat * Nat.pow 10 power.toNat)
        (Nat.pow 2 (-b.q).toNat * Nat.pow 10 (-power).toNat)
    let exact := b.m * Nat.pow 2 b.q.toNat
    let estimate : Int :=
      if 0 ≤ b.q then (Nat.toDigits 10 exact).length - 1
      else (Nat.toDigits 10 (b.m * Nat.pow 10 1200 / Nat.pow 2 (-b.q).toNat)).length - 1201
    if Nat.pow 10 (places + 1) ≤ at' estimate then (at' (estimate + 1), estimate + 1)
    else (at' estimate, estimate)
  | _ => (0, 0)

def withPoint (places : Nat) (digits : String) : String :=
  let cs := digits.toList
  let whole := cs.take (cs.length - places)
  if places = 0 then digits else String.ofList whole ++ "." ++ String.ofList (cs.drop whole.length)

def scientific (places : Nat) (x : Float) : String :=
  let (n, e) := scaled places x
  let digits := n.repr
  let padded := String.ofList (List.replicate (places + 1 - digits.length) '0') ++ digits
  let exponent := e.natAbs.repr
  withPoint places padded ++ "e" ++ (if e < 0 then "-" else "+") ++
    (if exponent.length < 2 then "0" ++ exponent else exponent)

/-- Takes the zeros off the end of a fraction. -/
def dropZeros (s : String) : String :=
  if s.contains '.' then
    let cs := (s.toList.reverse.dropWhile (· == '0'))
    String.ofList (match cs with
      | '.' :: rest => rest
      | cs => cs).reverse
  else s

/-- Either of the two other layouts, whichever suits the size of the number. -/
def general (precision : Nat) (x : Float) : String :=
  let precision := max precision 1
  let (_, e) := scaled (precision - 1) x
  if x == 0 then "0"
  else if -4 ≤ e && e < precision then dropZeros (Number.fixed ((precision : Int) - 1 - e).toNat x)
  else
    match (scientific (precision - 1) x).splitOn "e" with
    | [mantissa, exponent] => dropZeros mantissa ++ "e" ++ exponent
    | _ => ""

/-- What one conversion writes for an argument and how the argument reads; none if there is no such
conversion. -/
def convert? (c : Conversion) (argument : String) : Option (String × Reading) :=
  let unsigned (base : Nat) (upper : Bool) (mark : String) :=
    let (n, reading) := readNumber argument
    let m := (n % 18446744073709551616).toNat
    let marked := c.flags.contains '#' && m != 0
    (c.integer (if marked && base == 16 then mark else "")
      ((if marked && base == 8 then mark else "") ++ renderBase base upper m), reading)
  let float (text : Float → String) (upper : Bool) :=
    let (x, reading) := readFloat argument
    let digits := text x.abs
    (c.padNumber true (c.sign (x.toBits ≥ 9223372036854775808)) (if upper then digits.map Char.toUpper else digits),
      reading)
  let places := c.precision?.getD 6
  match c.letter with
  | 's' => some (c.pad (match c.precision? with
      | some n => (argument.take n).toString
      | none => argument), .good)
  | 'c' => some (c.pad (if argument.isEmpty then raw 0 else (argument.take 1).toString), .good)
  | 'd' | 'i' =>
    let (n, reading) := readNumber argument
    some (c.integer (c.sign (n < 0)) n.natAbs.repr, reading)
  | 'u' => some (unsigned 10 false "")
  | 'x' => some (unsigned 16 false "0x")
  | 'X' => some (unsigned 16 true "0X")
  | 'o' => some (unsigned 8 false "0")
  | 'f' | 'F' => some (float (Number.fixed places) false)
  | 'e' => some (float (scientific places) false)
  | 'E' => some (float (scientific places) true)
  | 'g' => some (float (general places) false)
  | 'G' => some (float (general places) true)
  | _ => none

/-! ## Formats -/

/-- What a format has come to: the output and the messages in order, with the latest in front. -/
structure Formatted where
  pieces : List (Bool × String) := []
  status : Int := 0
  arguments : List String
  /-- Has a conversion taken an argument? -/
  used : Bool := false
  stopped : Bool := false

namespace Formatted

def write (f : Formatted) (s : String) : Formatted := { f with pieces := (false, s) :: f.pieces }

def warn (f : Formatted) (message : String) (status : Int) : Formatted :=
  { f with pieces := (true, message) :: f.pieces, status }

def stop (f : Formatted) : Formatted := { f with stopped := true }

/-- Takes an argument. -/
def take (f : Formatted) : String × Formatted :=
  (f.arguments.headD "", { f with arguments := f.arguments.drop 1, used := true })

/-- A number in a conversion: digits, or a star for an argument. -/
def count (cs : List Char) (f : Formatted) : Int × List Char × Formatted :=
  match cs with
  | '*' :: rest =>
    let (a, f) := f.take
    ((readNumber a).1, rest, f)
  | cs =>
    let digits := cs.takeWhile Char.isDigit
    (Number.digitsValue digits, cs.drop digits.length, f)

/-- Reads a conversion after its percent sign; the text of it is for messages. -/
def conversion (d : Dialect) (cs : List Char) (f : Formatted) :
    Option Conversion × String × List Char × Formatted :=
  let flags := cs.takeWhile ("-0+ #".toList.contains ·)
  let (width, rest, f) := count (cs.drop flags.length) f
  let flags := if width < 0 then '-' :: flags else flags
  let (precision?, rest, f) := match rest with
    | '.' :: more =>
      let (n, rest, f) := count more f
      (if n < 0 then none else some n.toNat, rest, f)
    | _ => (none, rest, f)
  let rest := match d with
    | .shell => rest
    | .program => rest.dropWhile ("hlLjzt".toList.contains ·)
  match rest with
  | [] => (none, String.ofList ('%' :: cs), [], f)
  | letter :: after =>
    (some ⟨flags, width.natAbs, precision?, letter⟩,
      String.ofList ('%' :: cs.take (cs.length - after.length)), after, f)

/-- How a doubtful argument is called in a message. -/
def complaint (d : Dialect) (argument : String) : Reading → Option String
  | .good => none
  | .none => some (match d with
    | .shell => argument ++ ": expected numeric value"
    | .program => "'" ++ argument ++ "': expected a numeric value")
  | .partly => some (match d with
    | .shell => argument ++ ": not completely converted"
    | .program => "'" ++ argument ++ "': value not completely converted")
  | .outOfRange => some ((match d with
    | .shell => argument
    | .program => "'" ++ argument ++ "'") ++ ": Numerical result out of range")

def invalid (d : Dialect) (text : String) (f : Formatted) : Formatted :=
  match d with
  | .shell => (f.warn (text ++ ": invalid directive") 2).stop
  | .program => (f.warn (text ++ ": invalid conversion specification") 1).stop

/-- Carries out one conversion. -/
def convert (d : Dialect) (cs : List Char) (f : Formatted) : List Char × Formatted :=
  match conversion d cs f with
  | (none, text, rest, f) =>
    (rest, match d with
      | .shell => (f.warn "missing format character" 2).stop
      | .program => f.invalid d text)
  | (some c, text, rest, f) =>
    if c.letter == 'b' then
      if d == .program && text != "%b" then (rest, f.invalid d text)
      else
        let (a, f) := f.take
        let (s, goesOn) := unescape d (d == .program) (a.length + 1) a.toList ""
        let s := match c.precision? with
          | some n => (s.take n).toString
          | none => s
        let f := f.write (c.pad s)
        (rest, if goesOn then f else f.stop)
    else
      let (a, f') := f.take
      match convert? c a with
      | none => (rest, f.invalid d text)
      | some (s, reading) =>
        let f := match complaint d a reading with
          | some message => f'.warn message 1
          | none => f'
        (rest, f.write s)

/-- Goes through the format once. -/
def once (d : Dialect) : (fuel : Nat) → List Char → Formatted → Formatted
  | 0, _, f | _, [], f => f
  | fuel + 1, '\\' :: rest, f =>
    match d, rest with
    | .program, 'c' :: _ => f.stop
    | .program, 'x' :: digit =>
      if digit.head?.any Arithmetic.isHexDigit then
        let (s, n) := escape d true rest
        once d fuel (rest.drop n) (f.write s)
      else (f.warn "missing hexadecimal number in escape" 1).stop
    | _, _ =>
      let (s, n) := escape d (d == .program) rest
      once d fuel (rest.drop n) (f.write s)
  | fuel + 1, '%' :: '%' :: rest, f => once d fuel rest (f.write "%")
  | fuel + 1, '%' :: rest, f =>
    let (rest, f) := convert d rest f
    if f.stopped then f else once d fuel rest f
  | fuel + 1, c :: rest, f =>
    let plain := (c :: rest).takeWhile fun c => c != '\\' && c != '%'
    once d fuel ((c :: rest).drop plain.length) (f.write (String.ofList plain))

/-- Repeats the format while it takes arguments and some are left. -/
def repeated (d : Dialect) (format : String) : (fuel : Nat) → Formatted → Formatted
  | 0, f => f
  | fuel + 1, f =>
    let f := once d (format.length + 1) format.toList { f with used := false }
    if f.stopped then f
    else if f.arguments.isEmpty then f
    else if f.used then repeated d format fuel f
    else
      match d with
      | .shell => f
      | .program =>
        f.warn ("warning: ignoring excess arguments, starting with '" ++ f.arguments.headD "" ++ "'") f.status

end Formatted

/-- All that `printf` comes to. -/
def printf (d : Dialect) (format : String) (arguments : List String) : Formatted :=
  Formatted.repeated d format (arguments.length + 1) { arguments }

end ShellVM.Shell
