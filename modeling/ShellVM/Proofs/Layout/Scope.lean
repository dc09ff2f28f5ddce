import ShellVM.Compile.Expression

/-!
# Scopes

What is known about the machine at a place of a finished page: the locals in scope and their slots, the height of the
stack above the base of the call, the zones that are open, and the innermost loop (`Scope`). `Shape` is the part of it
that the code itself depends on. A `Sheet` is a finished page together with the program it belongs to; `Sheet.Has` and
`Sheet.Jumps` say which instruction stands at an offset.
-/

namespace ShellVM

/-- An open region; a `try` region knows the height of the stack at which its handler goes on. -/
inductive Zone where
  | attempt (height : Nat)
  | each
deriving DecidableEq

namespace Zone

def region : Zone → Region
  | attempt _ => .attempt
  | each => .each

/-- The height below which code inside the zones takes nothing off the stack. -/
def floor : List Zone → Nat
  | [] => 0
  | attempt height :: _ => height
  | each :: zones => floor zones

/-- Inner `try` regions start at least as high as outer ones, and all of them at most at `height`. -/
def Nested : (height : Nat) → List Zone → Prop
  | _, [] => True
  | height, attempt h :: zones => h ≤ height ∧ Nested h zones
  | height, each :: zones => Nested height zones

/-- The number of `try` regions among the zones. -/
def attempts : List Zone → Nat
  | [] => 0
  | attempt _ :: zones => attempts zones + 1
  | each :: zones => attempts zones

/-- The number of loops over items among the zones. -/
def eaches : List Zone → Nat
  | [] => 0
  | attempt _ :: zones => eaches zones
  | each :: zones => eaches zones + 1

theorem attempts_append (inner outer : List Zone) :
    attempts (inner ++ outer) = attempts inner + attempts outer := by
  induction inner with
  | nil => exact (Nat.zero_add _).symm
  | cons z inner ih =>
    cases z with
    | attempt h =>
      simp only [List.cons_append, attempts, ih]
      omega
    | each => exact ih

theorem eaches_append (inner outer : List Zone) : eaches (inner ++ outer) = eaches inner + eaches outer := by
  induction inner with
  | nil => exact (Nat.zero_add _).symm
  | cons z inner ih =>
    cases z with
    | attempt h => exact ih
    | each =>
      simp only [List.cons_append, eaches, ih]
      omega

theorem Nested.mono {h h' : Nat} (hh : h ≤ h') : ∀ {zones : List Zone}, Nested h zones → Nested h' zones
  | [], _ => trivial
  | attempt _ :: _, hn => ⟨Nat.le_trans hn.1 hh, hn.2⟩
  | each :: zones, hn => @Nested.mono _ _ hh zones hn

theorem Nested.floor_le {h : Nat} : ∀ {zones : List Zone}, Nested h zones → floor zones ≤ h
  | [], _ => Nat.zero_le _
  | attempt _ :: _, hn => hn.1
  | each :: zones, hn => @Nested.floor_le _ zones hn

end Zone

/-- What code depends on: the height of the stack, the open zones, the slots whose locals live in cells, and the number
of cells put aside for a closure. -/
structure Shape where
  height : Nat
  zones : List Zone
  cells : List UInt8
  pending : Nat
deriving DecidableEq

/-- A loop: where its next round starts, where it is left, and the shape between two rounds. -/
structure Loop where
  start : Nat
  exit : Nat
  shape : Shape

structure Scope where
  /-- The locals, the latest first. -/
  locals : List Local
  depth : Nat
  height : Nat
  zones : List Zone
  loop? : Option Loop

/-- The slots of the locals that live in cells. -/
def boxedSlots (locals : List Local) : List UInt8 := (locals.filter (·.boxed)).map (·.slot)

namespace Scope

/-- The same scope with `n` more values on the stack. -/
def raise (Γ : Scope) (n : Nat) : Scope := { Γ with height := Γ.height + n }

/-- The same scope with one more value on the stack. -/
def push (Γ : Scope) : Scope := Γ.raise 1

/-- A scope that starts here. -/
def inner (Γ : Scope) : Scope := { Γ with depth := Γ.depth + 1 }

/-- The scope after new locals, which are values on top of the stack. -/
def grow (Γ : Scope) (new : List Local) : Scope :=
  { Γ with locals := new ++ Γ.locals, height := Γ.height + new.length }

/-- The scope inside a zone. -/
def enter (Γ : Scope) (z : Zone) : Scope := { Γ with zones := z :: Γ.zones }

/-- The scope inside the body of a loop. -/
def within (Γ : Scope) (l : Loop) : Scope := { Γ with loop? := some l }

def shape (Γ : Scope) : Shape := ⟨Γ.height, Γ.zones, boxedSlots Γ.locals, 0⟩

@[simp] theorem raise_raise (Γ : Scope) (m n : Nat) : (Γ.raise m).raise n = Γ.raise (m + n) := by
  simp [raise, Nat.add_assoc]

end Scope

/-- A finished page, the names that its code refers to, and the program that it is a part of. -/
structure Sheet where
  program : Program
  /-- The page of each function. -/
  functions : List (Nat × UInt16)
  page : Page
  captures : List String
  captured : List String
  isEntry : Bool

/-- The instruction with opcode `op` and these operands can be read at an offset. -/
def Reads (code : Array UInt8) (offset : Nat) (op : Op) (operands : List UInt8) : Prop :=
  ∃ byte, code[offset]? = some byte ∧ readInstruction code offset byte = .ok ⟨offset, op, operands⟩

namespace Sheet

variable (S : Sheet)

/-- An instruction stands at an offset. -/
def Has (p : Nat) (op : Op) (operands : List UInt8) : Prop := Reads S.page.code p op operands

/-- A jump to `target` stands at an offset. -/
def Jumps (p : Nat) (op : Op) (target : Nat) : Prop :=
  ∃ operands, S.Has p op operands ∧ Instruction.target? ⟨p, op, operands⟩ = some target

/-- Where a variable lives at a place of the page. -/
def place? (Γ : Scope) (name : String) : Option Emit.Place :=
  match Γ.locals.find? (·.name == name) with
  | some l => some (if l.boxed then .cell l.slot else .slot l.slot)
  | none =>
    match S.captures.findIdx? (· == name) with
    | some i => if i ≤ 255 then some (.capture i.toUInt8) else none
    | none => none

end Sheet

/-! ## Bytes -/

/-- A row of bytes stands at an offset. -/
def HasBytes (code : Array UInt8) (offset : Nat) (bytes : List UInt8) : Prop :=
  ∀ k, k < bytes.length → code[offset + k]? = bytes[k]?

theorem HasBytes.tail {code : Array UInt8} {p : Nat} {b : UInt8} {bs : List UInt8} (h : HasBytes code p (b :: bs)) :
    HasBytes code (p + 1) bs := by
  intro k hk
  have := h (k + 1) (by simpa using hk)
  rwa [show p + (k + 1) = p + 1 + k by omega] at this

theorem bytesFrom?_eq {code : Array UInt8} : ∀ {bytes : List UInt8} {p : Nat}, HasBytes code p bytes →
    bytesFrom? code p bytes.length = some bytes
  | [], _, _ => rfl
  | b :: bs, p, h => by
    have h0 : code[p]? = some b := by simpa using h 0 (by simp)
    simp [bytesFrom?, h0, bytesFrom?_eq h.tail]

theorem length_of_bytesFrom? {code : Array UInt8} : ∀ {n p : Nat} {bytes : List UInt8},
    bytesFrom? code p n = some bytes → bytes.length = n
  | 0, _, _, h => by cases h; rfl
  | n + 1, p, bytes, h => by
    simp only [bytesFrom?, Option.bind_eq_bind, Option.bind_eq_some_iff] at h
    obtain ⟨b, -, rest, hr, h⟩ := h
    cases h
    simp [length_of_bytesFrom? hr]

/-- The bytes of an instruction read as the instruction. -/
theorem Reads.of_bytes {code : Array UInt8} {p : Nat} {op : Op} {operands : List UInt8}
    (hw : operands.length = op.width) (h : HasBytes code p (op.toByte :: operands)) : Reads code p op operands := by
  refine ⟨op.toByte, by simpa using h 0 (by simp), ?_⟩
  simp only [readInstruction, Op.ofByte?_toByte]
  rw [← hw, bytesFrom?_eq h.tail]

theorem readInstruction_offset {code : Array UInt8} {p : Nat} {b : UInt8} {i : Instruction}
    (h : readInstruction code p b = .ok i) : i.offset = p := by
  unfold readInstruction at h
  split at h
  · cases h
  · split at h <;> cases h
    rfl

theorem Reads.lt {code : Array UInt8} {p : Nat} {op : Op} {operands : List UInt8} (h : Reads code p op operands) :
    p < code.size := by
  obtain ⟨b, hb, -⟩ := h
  exact (Array.getElem?_eq_some_iff.1 hb).1

theorem Reads.length {code : Array UInt8} {p : Nat} {op : Op} {operands : List UInt8} (h : Reads code p op operands) :
    operands.length = op.width := by
  obtain ⟨b, -, hr⟩ := h
  unfold readInstruction at hr
  split at hr
  · cases hr
  · split at hr
    · cases hr
    · next hb => cases hr; exact length_of_bytesFrom? hb

/-- The word of two bytes is the word whose bytes they are. -/
@[simp] theorem wordAt?_wordBytes (w : UInt16) (rest : List UInt8) : wordAt? (wordBytes w ++ rest) 0 = some w := by
  simp only [wordAt?, wordBytes, List.cons_append, List.nil_append, List.getElem?_cons_zero, List.getElem?_cons_succ,
    Option.bind_eq_bind, Option.bind_some, Option.pure_def, Option.some.injEq]
  apply UInt16.toNat.inj
  have := w.toNat_lt
  simp only [UInt16.toNat_add, UInt16.toNat_mul, UInt8.toNat_toUInt16, UInt16.toNat_toUInt8, UInt16.toNat_shiftRight,
    UInt16.reduceToNat, Nat.reduceMod, Nat.shiftRight_eq_div_pow]
  omega

@[simp] theorem Instruction.word_wordBytes (p : Nat) (op : Op) (w : UInt16) (rest : List UInt8) :
    Instruction.word ⟨p, op, wordBytes w ++ rest⟩ 0 = w := by
  simp [Instruction.word]

end ShellVM
