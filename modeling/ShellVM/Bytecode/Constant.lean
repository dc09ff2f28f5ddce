import ShellVM.Number.Layout
import ShellVM.Number.Word
import ShellVM.Text.Quoted
import Std.Data.HashMap

/-!
# Constants

The constants of a page stand in a table without repetitions, with nil in front. Floats are told
apart by their bits. An index finds the key of a constant that is already there.
-/

namespace ShellVM

inductive Constant where
  | nil
  | boolean (b : Bool)
  | integer (n : Int64)
  | float (bits : UInt64)
  | string (s : String)
  /-- A function of the program, by page. -/
  | page (index : UInt16)
  /-- A library function, by its place in the program's library. -/
  | libraryFunction (index : UInt16)
  | shape (name : String) (fields : List String)
deriving DecidableEq

namespace Constant

instance : Hashable Int64 := ⟨fun n => hash n.toUInt64⟩

deriving instance Hashable for Constant

def render : Constant → String
  | nil => "nil"
  | boolean b => if b then "true" else "false"
  | integer n => Word.render n
  | float bits => Number.marked (Float.ofBits bits)
  | string s => Text.quoted s
  | page index => "<page " ++ index.toNat.repr ++ ">"
  | libraryFunction index => "<std " ++ index.toNat.repr ++ ">"
  | shape name fields => name ++ " \x7b " ++ ", ".intercalate fields ++ " \x7d"

end Constant

structure ConstantTable where
  entries : Array Constant
  index : Std.HashMap Constant UInt16

namespace ConstantTable

/-- The number of keys. -/
def capacity : Nat := 65536

/-- The index of a row of constants: the first place of each, as far as keys reach. -/
def indexOf (entries : List Constant) : Std.HashMap Constant UInt16 :=
  ((entries.take capacity).foldl
    (fun (state : Std.HashMap Constant UInt16 × Nat) c =>
      (state.1.insertIfNew c state.2.toUInt16, state.2 + 1)) (∅, 0)).1

/-- The table of a row of constants; nil comes in front unless it stands there already. -/
def ofList (constants : List Constant) : ConstantTable :=
  let entries := if constants.head? = some .nil then constants else .nil :: constants
  ⟨entries.toArray, indexOf entries⟩

def empty : ConstantTable := ofList []

/-- The key of a constant, which is added if it is new. A full table takes no new one. -/
def add (t : ConstantTable) (c : Constant) : Option UInt16 × ConstantTable :=
  match t.index[c]? with
  | some key => (some key, t)
  | none =>
    if t.entries.size < capacity then
      let key := t.entries.size.toUInt16
      (some key, ⟨t.entries.push c, t.index.insert c key⟩)
    else (none, t)

def get? (t : ConstantTable) (key : UInt16) : Option Constant := t.entries[key.toNat]?

def size (t : ConstantTable) : Nat := t.entries.size

/-- The key of nil in every table. -/
def nilKey : UInt16 := 0

end ConstantTable

end ShellVM
