import ShellVM.Proofs.Layout.Scope

/-!
# How constructs lie in code

For every construct of the language, where the code of its parts and its own instructions lie in a finished page, and
where its jumps go. A `Part` is code that leaves one value; a `Layout` may also bring new locals into scope. Jumps are
given by their targets, so nothing here knows that the compiler fills them in later.
-/

namespace ShellVM

/-- Code from an offset up to another one that leaves one value. -/
abbrev Part := Scope → Nat → Nat → Prop

/-- Code from an offset up to another one that leads from a scope to a scope. -/
abbrev Layout := Scope → Nat → Scope → Nat → Prop

/-- A part as a layout. -/
def Part.layout (part : Part) : Layout := fun Γ p Γ' p' => part Γ p p' ∧ Γ' = Γ.push

/-- One part after the other. -/
def Part.both (first second : Part) : Part := fun Γ p p' => ∃ p₁, first Γ p p₁ ∧ second Γ.push p₁ p'

namespace Emit.Place

def loadOp : Emit.Place → Op
  | slot _ => .load
  | cell _ => .loadCell
  | capture _ => .loadCapture

def storeOp : Emit.Place → Op
  | slot _ => .store
  | cell _ => .storeCell
  | capture _ => .storeCapture

def operand : Emit.Place → UInt8
  | slot s => s
  | cell s => s
  | capture i => i

end Emit.Place

namespace Sheet

variable (S : Sheet)

/-! ## Single instructions -/

def constant (c : Constant) : Part := fun _ p p' =>
  ∃ key, S.page.constants.get? key = some c ∧ S.Has p .const (wordBytes key) ∧ p' = p + 3

def nil : Part := fun _ p p' =>
  S.page.constants.get? ConstantTable.nilKey = some .nil ∧ S.Has p .const (wordBytes ConstantTable.nilKey) ∧
    p' = p + 3

/-- An instruction that drops `count` values; there is none if there is nothing to drop. -/
def drops (op : Op) (count p p' : Nat) : Prop :=
  if count = 0 then p' = p else count ≤ 255 ∧ S.Has p op [count.toUInt8] ∧ p' = p + 2

/-- The instructions that close zones, innermost first. -/
def closes : List Zone → (p p' : Nat) → Prop
  | [], p, p' => p' = p
  | z :: zones, p, p' => S.Has p z.region.closing [] ∧ closes zones (p + 1) p'

/-! ## Locals -/

/-- A value in a slot becomes a local. -/
def declares (depth : Nat) (name : String) (slot p : Nat) (l : Local) (p' : Nat) : Prop :=
  slot ≤ 255 ∧ l = ⟨name, depth, slot.toUInt8, S.captured.contains name⟩ ∧
    if l.boxed then S.Has p .makeCell [l.slot] ∧ p' = p + 2 else p' = p

/-- The values from a slot on become locals. -/
def declaresAll (depth : Nat) : List String → (slot p : Nat) → List Local → (p' : Nat) → Prop
  | [], _, p, new, p' => new = [] ∧ p' = p
  | name :: names, slot, p, new, p' =>
    ∃ l p₁ rest, S.declares depth name slot p l p₁ ∧ declaresAll depth names (slot + 1) p₁ rest p' ∧
      new = rest ++ [l]

/-- The value in a slot becomes a local, or its items become several. -/
def unpacks (depth : Nat) (names : List String) (slot p : Nat) (new : List Local) (p' : Nat) : Prop :=
  match names with
  | [name] => ∃ l, S.declares depth name slot p l p' ∧ new = [l]
  | names => names.length ≤ 255 ∧ S.Has p .unpack [names.length.toUInt8] ∧
      S.declaresAll depth names slot (p + 2) new p'

def declaration (names : List String) (value : Part) : Layout := fun Γ p Γ' p' =>
  ∃ p₁ new, value Γ p p₁ ∧ S.unpacks Γ.depth names Γ.height p₁ new p' ∧ Γ' = Γ.grow new

/-! ## Values from parts -/

/-- Code that leaves a value on top of new locals, which are dropped from under it at the end. -/
def block (items : Layout) : Part := fun Γ p p' =>
  ∃ new p₁, (∀ l ∈ new, l.depth = Γ.inner.depth) ∧ items Γ.inner p (Γ.inner.grow new).push p₁ ∧
    S.drops .unwind new.length p₁ p'

/-- Code that leaves no value, followed by nil. -/
def thenNil (code : Layout) : Layout := fun Γ p Γ' p' =>
  ∃ Γ₁ p₁, code Γ p Γ₁ p₁ ∧ S.nil Γ₁ p₁ p' ∧ Γ' = Γ₁.push

/-- Code that leaves no value is a scope of its own and is followed by nil. -/
def valued (producesValue : Bool) (code : Layout) : Part :=
  if producesValue then fun Γ p p' => code Γ p Γ.push p' else S.block (S.thenNil code)

/-- An instruction behind the parts that leave its operands. -/
def after (parts : Part) (op : Op) (operands : List UInt8) : Part := fun Γ p p' =>
  ∃ p₁, parts Γ p p₁ ∧ S.Has p₁ op operands ∧ p' = p₁ + 1 + operands.length

/-- An instruction on `count` values. -/
def counted (parts : Part) (op : Op) (count : Nat) : Part := fun Γ p p' =>
  count ≤ 65535 ∧ S.after parts op (wordBytes count.toUInt16) Γ p p'

def shortCircuit (op : Op) (left right : Part) : Part := fun Γ p p' =>
  ∃ p₁ p₂, left Γ p p₁ ∧ S.Jumps p₁ op p₂ ∧ S.Has (p₁ + 3) .pop [] ∧ right Γ (p₁ + 4) p₂ ∧
    S.Has p₂ .cast [Kind.boolean.tag] ∧ p' = p₂ + 2

def branch (condition yes no : Part) : Part := fun Γ p p' =>
  ∃ p₁ p₂, condition Γ p p₁ ∧ S.Jumps p₁ .popJumpIfNot (p₂ + 3) ∧ yes Γ (p₁ + 3) p₂ ∧
    S.Jumps p₂ .jump p' ∧ no Γ (p₂ + 3) p'

/-! ## Loops -/

def loop (condition body : Part) : Layout := fun Γ p Γ' p' =>
  ∃ p₁ p₂, condition Γ p p₁ ∧ S.Jumps p₁ .popJumpIfNot p' ∧ body (Γ.within ⟨p, p', Γ.shape⟩) (p₁ + 3) p₂ ∧
    S.Has p₂ .pop [] ∧ S.Jumps (p₂ + 1) .jumpBackward p ∧ p' = p₂ + 4 ∧ Γ' = Γ

/-- The scope of the body of a loop over items, before its names are declared. -/
def eachScope (Γ : Scope) (start exit : Nat) : Scope :=
  ((Γ.enter .each).within ⟨start, exit, (Γ.enter .each).shape⟩).inner

def each (names : List String) (iterable body : Part) : Layout := fun Γ p Γ' p' =>
  ∃ p₁ new p₂ p₃ p₄, iterable Γ p p₁ ∧ S.Has p₁ .getIter [] ∧ S.Jumps (p₁ + 1) .forIter (p₄ + 3) ∧
    S.unpacks (Γ.depth + 1) names Γ.height (p₁ + 4) new p₂ ∧
    body ((eachScope Γ (p₁ + 1) (p₄ + 3)).grow new) p₂ p₃ ∧ S.Has p₃ .pop [] ∧
    S.drops .popN new.length (p₃ + 1) p₄ ∧ S.Jumps p₄ .jumpBackward (p₁ + 1) ∧ S.Has (p₄ + 3) .endFor [] ∧
    p' = p₄ + 4 ∧ Γ' = Γ

/-- What closes the zones opened since the body of the innermost loop started, and drops the values above it. -/
def unwinds (Γ : Scope) (l : Loop) (p p' : Nat) : Prop :=
  ∃ inner p₁, Γ.zones = inner ++ l.shape.zones ∧ S.closes inner p p₁ ∧
    S.drops .popN (Γ.height - l.shape.height) p₁ p'

def leaveLoop : Layout := fun Γ p Γ' p' =>
  ∃ l p₁, Γ.loop? = some l ∧ S.unwinds Γ l p p₁ ∧ S.Jumps p₁ .jump l.exit ∧ p' = p₁ + 3 ∧ Γ' = Γ

def nextRound : Layout := fun Γ p Γ' p' =>
  ∃ l p₁, Γ.loop? = some l ∧ S.unwinds Γ l p p₁ ∧ S.Jumps p₁ .jumpBackward l.start ∧ p' = p₁ + 3 ∧ Γ' = Γ

def leavePage (value : Part) : Layout := fun Γ p Γ' p' =>
  ∃ p₁ p₂ p₃, value Γ p p₁ ∧ S.closes Γ.zones p₁ p₂ ∧ S.drops .unwind Γ.height p₂ p₃ ∧ S.Has p₃ .ret [] ∧
    p' = p₃ + 1 ∧ Γ' = Γ

/-! ## Regions -/

/-- The code of a handler, which finds the error on top of the stack. -/
def handles (binding? : Option String) (handler : Part) : Part := fun Γ p p' =>
  match binding? with
  | some name => ∃ l p₁ p₂, S.declares (Γ.depth + 1) name Γ.height p l p₁ ∧ handler (Γ.inner.grow [l]) p₁ p₂ ∧
      S.drops .unwind 1 p₂ p'
  | none => S.Has p .pop [] ∧ handler Γ (p + 1) p'

def attempt (body : Part) (binding? : Option String) (handler : Part) : Part := fun Γ p p' =>
  ∃ p₁, S.Jumps p .enterTry (p₁ + 4) ∧ body (Γ.enter (.attempt Γ.height)) (p + 3) p₁ ∧ S.Has p₁ .endTry [] ∧
    S.Jumps (p₁ + 1) .jump p' ∧ S.handles binding? handler Γ (p₁ + 4) p'

/-! ## Pages -/

/-- The scope in which the body of a page starts. -/
def bodyScope (new : List Local) (arity : Nat) : Scope := ⟨new, 0, arity, [], none⟩

/-- The page is a body behind its parameters. -/
def Holds (parameters : List String) (body : Part) : Prop :=
  S.page.arity.toNat = parameters.length ∧
    ∃ new p₁ p₂, S.declaresAll 0 parameters 0 0 new p₁ ∧ body (bodyScope new parameters.length) p₁ p₂ ∧
      S.drops .unwind parameters.length p₂ S.page.code.size

/-- The sheet of another page of the same program. -/
def other (page : Page) (captures captured : List String) : Sheet :=
  ⟨S.program, S.functions, page, captures, captured, false⟩

/-- A cell is put aside for a closure. -/
def puts (Γ : Scope) (name : String) (p : Nat) : Prop :=
  (∃ slot, S.place? Γ name = some (.cell slot) ∧ S.Has p .captureLocal [slot]) ∨
    ∃ i, S.place? Γ name = some (.capture i) ∧ S.Has p .captureOuter [i]

def putsAll (Γ : Scope) : List String → (p p' : Nat) → Prop
  | [], p, p' => p' = p
  | name :: names, p, p' => S.puts Γ name p ∧ putsAll Γ names (p + 2) p'

/-- A closure over captured variables; `body` says what the page of the closure holds. -/
def closure (captures : List String) (body : Page → Prop) : Part := fun Γ p p' =>
  ∃ p₁ key index page, S.putsAll Γ captures p p₁ ∧ captures.length ≤ 255 ∧
    S.page.constants.get? key = some (.page index) ∧
    S.Has p₁ .makeClosure (wordBytes key ++ [captures.length.toUInt8]) ∧ p' = p₁ + 4 ∧
    S.program.page? index = some page ∧ body page

/-! ## Calls -/

def callOp (root : Bool) (plain rooted inherited : Op) : Op :=
  if root then if S.isEntry then rooted else inherited else plain

/-- A call whose callee is on the stack already; `arguments` leaves `count` values. -/
def call (root : Bool) (count : Nat) (arguments : Part) : Part := fun Γ p p' =>
  ∃ p₁, arguments Γ.push p p₁ ∧ count ≤ 255 ∧ S.Has p₁ (S.callOp root .call .rootCall .maybeRootCall) [count.toUInt8] ∧
    p' = p₁ + 2

def libraryCall (f : LibraryFunction) (count : Nat) (arguments : Part) : Part := fun Γ p p' =>
  ∃ p₁ key index entry, S.page.constants.get? key = some (.libraryFunction index) ∧
    S.program.library[index.toNat]? = some entry ∧ entry.function? = some f ∧ arguments Γ p p₁ ∧ count ≤ 255 ∧
    S.Has p₁ .callStd (wordBytes key ++ [count.toUInt8]) ∧ p' = p₁ + 4

def programCall (settings : ProgramSettings) (root : Bool) (count pairs : Nat) (name arguments : Part)
    (piped? : Option Part) (environment : Part) : Part := fun Γ p p' =>
  ∃ p₁ p₂ p₃ p₄, name Γ p p₁ ∧ arguments Γ.push p₁ p₂ ∧
    (match piped? with
      | some piped => piped (Γ.raise (1 + count)) p₂ p₃
      | none => p₃ = p₂) ∧
    environment (Γ.raise (1 + count + if piped?.isSome then 1 else 0)) p₃ p₄ ∧ count ≤ 255 ∧ pairs ≤ 255 ∧
    S.Has p₄ (S.callOp root .callProgram .rootCallProgram .maybeRootCallProgram)
      ([count.toUInt8] ++ wordBytes ((Emit.programFlags settings).withIf .piped piped?.isSome).bits ++
        [pairs.toUInt8]) ∧ p' = p₄ + 5

end Sheet

end ShellVM
