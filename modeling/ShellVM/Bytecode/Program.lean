import ShellVM.Bytecode.Constant
import ShellVM.Fault
import ShellVM.Library

/-!
# Pages and programs

A page is the code of one function or script with its constants and its line table, which says from
which offset on the code belongs to which source line. A program is a row of pages together with the
library functions that they name.
-/

namespace ShellVM

structure Page where
  name : String
  arity : UInt8
  code : Array UInt8
  constants : ConstantTable
  /-- Offsets and the source lines that begin there. -/
  lines : Array (UInt32 × UInt32)

namespace Page

instance : Inhabited Page := ⟨⟨"", 0, #[], .empty, #[]⟩⟩

def empty (name : String) (arity : UInt8) : Page := ⟨name, arity, #[], .empty, #[]⟩

end Page

/-- Halves `size` places from `base` on until one is left, staying on the side where `holds` holds. -/
def bisect (holds : Nat → Bool) : (fuel base size : Nat) → Nat
  | 0, base, _ => base
  | fuel + 1, base, size =>
    if size ≤ 1 then base
    else
      let half := size / 2
      bisect holds fuel (if holds (base + half) then base + half else base) (size - half)

/-- The number of places in front for which `holds` holds, of `size` in all, if it holds for none
after those. Otherwise some place where it stops to hold. -/
def partitionPoint (holds : Nat → Bool) (size : Nat) : Nat :=
  if size = 0 then 0
  else
    let base := bisect holds size 0 size
    if holds base then base + 1 else base

namespace Page

/-- The source line of the instruction at an offset. -/
def lineAt? (p : Page) (offset : Nat) : Option UInt32 :=
  if offset < 4294967296 then
    let after := partitionPoint
      (fun i => (p.lines[i]?).any fun (start, _) => start.toNat ≤ offset) p.lines.size
    if after = 0 then none else (p.lines[after - 1]?).map Prod.snd
  else none

/-- From here on the code belongs to a line. -/
def markLine (p : Page) (line : UInt32) : Page :=
  if p.code.size < 4294967296 then
    let offset := p.code.size.toUInt32
    match p.lines.back? with
    | some (start, last) =>
      if last = line then p
      else if start = offset then { p with lines := p.lines.pop.push (start, line) }
      else { p with lines := p.lines.push (offset, line) }
    | none => { p with lines := p.lines.push (offset, line) }
  else p

/-- Takes over everything but the name. -/
def replaceBody (p other : Page) : Page := { other with name := p.name }

end Page

/-- A library function that a program names; it is there once the program is bound. -/
structure LibraryEntry where
  name : String
  function? : Option LibraryFunction
deriving DecidableEq

structure Program where
  pages : Array Page
  library : Array LibraryEntry

namespace Program

instance : Inhabited Program := ⟨⟨#[], #[]⟩⟩

def empty : Program := ⟨#[], #[]⟩

def page? (p : Program) (index : UInt16) : Option Page := p.pages[index.toNat]?

def unbound (name : String) : Cause := .custom ("unbound library function '" ++ name ++ "'")

def libraryFunction (p : Program) (index : UInt16) : Except Cause LibraryFunction :=
  match p.library[index.toNat]? with
  | none => .error (.internal (.libraryOutOfRange index.toNat))
  | some ⟨name, none⟩ => .error (unbound name)
  | some ⟨_, some f⟩ => .ok f

/-- Binds the entries up to the first that the library does not have, whose name is given. -/
def bindEntries (library : Library) : List LibraryEntry → List LibraryEntry × Option String
  | [] => ([], none)
  | entry :: rest =>
    match library.get? entry.name with
    | none => (entry :: rest, some entry.name)
    | some f =>
      let (rest, missing?) := bindEntries library rest
      (⟨entry.name, some f⟩ :: rest, missing?)

/-- Looks the library functions of a program up by name. Entries before a missing one stay bound. -/
def bind (p : Program) (library : Library) : Program × Option Cause :=
  let (entries, missing?) := bindEntries library p.library.toList
  ({ p with library := entries.toArray }, missing?.map unbound)

end Program

end ShellVM
