import ShellVM.Proofs.Layout.Construct

/-!
# How expressions lie in code

`Expr.Lies` says that the code of an expression lies in a finished page from an offset up to another one. It is a
relation between expressions and code: which slots, keys and pages the code names is up to the page, as long as they
are the right ones.

The effect on the stack of an instruction may depend on its operands, which say how many values it takes.
-/

namespace ShellVM

/-- The flags of a range instruction. -/
def rangeFlags (hasFirst hasLast inclusive : Bool) : UInt8 :=
  (if hasFirst then RangeFlag.hasFirst else 0) ||| (if hasLast then RangeFlag.hasLast else 0) |||
    (if inclusive then RangeFlag.inclusive else 0)

mutual

/-- The code of an expression. -/
def Expr.Lies : Expr → Sheet → Layout
  | .mk _ node, S => node.Lies S

def Node.Lies : Node → Sheet → Layout
  | .literal l, S => (S.constant l.constant).layout
  | .interpolation parts, S => (S.counted (ValuesLie parts S) .buildString parts.length).layout
  | .list items, S => (S.counted (ValuesLie items S) .buildList items.length).layout
  | .tuple items, S => (S.counted (ValuesLie items S) .buildTuple items.length).layout
  | .set items, S => (S.counted (ValuesLie items S) .buildSet items.length).layout
  | .dictionary entries, S => (S.counted (EntriesLie entries S) .buildDict entries.length).layout
  | .range first? last? inclusive, S =>
    (S.after (fun Γ p p' => ∃ p₁, PartLies first? S Γ p p₁ ∧ PartLies last? S (Γ.raise first?.toList.length) p₁ p')
      .buildRange [rangeFlags first?.isSome last?.isSome inclusive]).layout
  | .struct name fields, S => Part.layout fun Γ p p' =>
    ∃ key, S.page.constants.get? key = some (.shape name (fields.map Prod.fst)) ∧
      S.after (FieldsLie fields S) .buildStruct (wordBytes key) Γ p p'
  | .variable name, S => Part.layout fun Γ p p' =>
    ∃ place, S.place? Γ name = some place ∧ S.Has p place.loadOp [place.operand] ∧ p' = p + 2
  | .declare names value, S => S.declaration names (S.valued value.producesValue (value.Lies S))
  | .assign (.mk _ target) value, S =>
    match target with
    | .variable name => Part.layout fun Γ p p' =>
      ∃ place, S.place? Γ name = some place ∧
        S.after (S.valued value.producesValue (value.Lies S)) place.storeOp [place.operand] Γ p p'
    | .index container index =>
      (S.after (Part.both (Part.both (S.valued value.producesValue (value.Lies S))
        (S.valued container.producesValue (container.Lies S))) fun Γ =>
          S.valued index.producesValue (index.Lies S) Γ.push) .indexStore []).layout
    | .field container name =>
      (S.after (Part.both (Part.both (S.valued value.producesValue (value.Lies S))
        (S.valued container.producesValue (container.Lies S))) fun Γ => S.constant (.string name) Γ.push)
          .indexStore []).layout
    | _ => fun _ _ _ _ => False
  | .binary .and left right, S =>
    (S.shortCircuit .jumpIfNot (S.valued left.producesValue (left.Lies S))
      (S.valued right.producesValue (right.Lies S))).layout
  | .binary .or left right, S =>
    (S.shortCircuit .jumpIf (S.valued left.producesValue (left.Lies S))
      (S.valued right.producesValue (right.Lies S))).layout
  | .binary o left right, S =>
    (S.after (Part.both (S.valued left.producesValue (left.Lies S)) (S.valued right.producesValue (right.Lies S)))
      o.opcode []).layout
  | .unary o operand, S => (S.after (S.valued operand.producesValue (operand.Lies S)) o.opcode []).layout
  | .cast value target, S => (S.after (S.valued value.producesValue (value.Lies S)) .cast [target.tag]).layout
  | .index target index, S =>
    (S.after (Part.both (S.valued target.producesValue (target.Lies S)) (S.valued index.producesValue (index.Lies S)))
      .index []).layout
  | .field target name, S =>
    (S.after (Part.both (S.valued target.producesValue (target.Lies S)) (S.constant (.string name))) .index []).layout
  | .block items, S => (S.block (ItemsLie items S)).layout
  | .branch condition yes no?, S =>
    (S.branch (S.valued condition.producesValue (condition.Lies S)) (S.valued yes.producesValue (yes.Lies S))
      (match no? with
        | some no => S.valued no.producesValue (no.Lies S)
        | none => S.nil)).layout
  | .loop condition body, S =>
    S.loop (S.valued condition.producesValue (condition.Lies S)) (S.valued body.producesValue (body.Lies S))
  | .each names iterable body, S =>
    S.each names (S.valued iterable.producesValue (iterable.Lies S)) (S.valued body.producesValue (body.Lies S))
  | .break, S => S.leaveLoop
  | .continue, S => S.nextRound
  | .return value?, S =>
    S.leavePage (match value? with
      | some value => S.valued value.producesValue (value.Lies S)
      | none => S.nil)
  | .attempt body binding? handler, S =>
    (S.attempt (S.valued body.producesValue (body.Lies S)) binding?
      (S.valued handler.producesValue (handler.Lies S))).layout
  | .define .., _ => fun Γ p Γ' p' => p' = p ∧ Γ' = Γ
  | .closure parameters captures body, S =>
    (S.closure captures fun page => (S.other page captures body.captured).Holds parameters
      ((S.other page captures body.captured).valued body.producesValue
        (body.Lies (S.other page captures body.captured)))).layout
  | .call target arguments root, S => (target.Lies S arguments.length root (ValuesLie arguments S)).layout

/-- The code of a call, given that of its arguments. -/
def Target.Lies : Target → Sheet → (count : Nat) → (root : Bool) → (arguments : Part) → Part
  | .function id, S, count, root, arguments => fun Γ p p' =>
    ∃ p₁ index, S.functions.lookup id = some index ∧ S.constant (.page index) Γ p p₁ ∧
      S.call root count arguments Γ p₁ p'
  | .value callee, S, count, root, arguments => fun Γ p p' =>
    ∃ p₁, S.valued callee.producesValue (callee.Lies S) Γ p p₁ ∧ S.call root count arguments Γ p₁ p'
  | .library f, S, count, _, arguments => S.libraryCall f count arguments
  | .program name piped? environment settings, S, count, root, arguments =>
    S.programCall settings root count environment.length (S.valued name.producesValue (name.Lies S)) arguments
      (match piped? with
        | some piped => some (S.valued piped.producesValue (piped.Lies S))
        | none => none)
      (VariablesLie environment S)

/-- The code of an expression that may be missing. -/
def PartLies : Option Expr → Sheet → Part
  | none, _ => fun _ p p' => p' = p
  | some e, S => S.valued e.producesValue (e.Lies S)

/-- The code of expressions one after the other, each of which leaves a value. -/
def ValuesLie : List Expr → Sheet → Part
  | [], _ => fun _ p p' => p' = p
  | e :: rest, S => Part.both (S.valued e.producesValue (e.Lies S)) (ValuesLie rest S)

def EntriesLie : List (Expr × Expr) → Sheet → Part
  | [], _ => fun _ p p' => p' = p
  | (k, v) :: rest, S =>
    Part.both (S.valued k.producesValue (k.Lies S))
      (Part.both (S.valued v.producesValue (v.Lies S)) (EntriesLie rest S))

def FieldsLie : List (String × Expr) → Sheet → Part
  | [], _ => fun _ p p' => p' = p
  | (_, v) :: rest, S => Part.both (S.valued v.producesValue (v.Lies S)) (FieldsLie rest S)

def VariablesLie : List (String × Expr) → Sheet → Part
  | [], _ => fun _ p p' => p' = p
  | (name, v) :: rest, S =>
    Part.both (S.constant (.string name)) (Part.both (S.valued v.producesValue (v.Lies S)) (VariablesLie rest S))

/-- The items of a block leave the value of the last one, or nil. -/
def ItemsLie : List Expr → Sheet → Layout
  | [], S => S.nil.layout
  | [e], S => if e.producesValue then e.Lies S else S.thenNil (e.Lies S)
  | e :: rest, S => fun Γ p Γ' p' =>
    if e.producesValue then ∃ p₁, e.Lies S Γ p Γ.push p₁ ∧ S.Has p₁ .pop [] ∧ ItemsLie rest S Γ (p₁ + 1) Γ' p'
    else ∃ Γ₁ p₁, e.Lies S Γ p Γ₁ p₁ ∧ ItemsLie rest S Γ₁ p₁ Γ' p'

end

/-- The page is the code of a body, whose environment has `n` cells. -/
def Program.Laid (program : Program) (functions : List (Nat × UInt16)) (page : Page) (n : Nat) : Prop :=
  ∃ (parameters captures captured : List String) (isEntry : Bool) (body : Expr),
    let S : Sheet := ⟨program, functions, page, captures, captured, isEntry⟩
    captures.length = n ∧ S.Holds parameters (S.valued body.producesValue (body.Lies S))

/-- The page is the code of the body of a function or a closure, whose environment has `n` cells. -/
def Program.LaidBody (program : Program) (functions : List (Nat × UInt16)) (page : Page) (n : Nat) : Prop :=
  ∃ (parameters captures captured : List String) (body : Expr),
    let S : Sheet := ⟨program, functions, page, captures, captured, false⟩
    captures.length = n ∧ S.Holds parameters (S.valued body.producesValue (body.Lies S))

theorem Program.LaidBody.laid {program : Program} {functions : List (Nat × UInt16)} {page : Page} {n : Nat}
    (h : program.LaidBody functions page n) : program.Laid functions page n := by
  obtain ⟨parameters, captures, captured, body, h⟩ := h
  exact ⟨parameters, captures, captured, false, body, h⟩

/-! ## How many values instructions take -/

/-- The operand of an instruction that builds from `n` values. -/
theorem stackEffect?_wordBytes {n : Nat} (h : n ≤ 65535) :
    (wordAt? (wordBytes n.toUInt16) 0).map UInt16.toNat = some n := by
  have hw := wordAt?_wordBytes n.toUInt16 []
  rw [List.append_nil] at hw
  rw [hw, Option.map_some, UInt16.toNat_ofNat', Nat.mod_eq_of_lt (by omega)]

theorem stackEffect?_build {o : Op} (ho : o = .buildList ∨ o = .buildTuple ∨ o = .buildSet ∨ o = .buildString)
    {n : Nat} (h : n ≤ 65535) : o.stackEffect? (wordBytes n.toUInt16) = some (n, 1) := by
  have := stackEffect?_wordBytes h
  rcases ho with rfl | rfl | rfl | rfl <;> simp [Op.stackEffect?, this]

theorem stackEffect?_rangeFlags (first? last? : Option Expr) (inclusive : Bool) :
    Op.stackEffect? .buildRange [rangeFlags first?.isSome last?.isSome inclusive] =
      some (first?.toList.length + last?.toList.length, 1) := by
  have hflags (b b' b'' : Bool) : Op.stackEffect? .buildRange [rangeFlags b b' b''] = some (b.toNat + b'.toNat, 1) := by
    cases b <;> cases b' <;> cases b'' <;> rfl
  rw [hflags]
  cases first? <;> cases last? <;> rfl

theorem stackEffect?_buildDict {n : Nat} (h : n ≤ 65535) :
    Op.stackEffect? .buildDict (wordBytes n.toUInt16) = some (n * 2, 1) := by
  have := stackEffect?_wordBytes h
  simp only [Op.stackEffect?, Option.bind_eq_bind]
  cases hw : wordAt? (wordBytes n.toUInt16) 0 with
  | none => simp [hw] at this
  | some w =>
    have hw' : w.toNat = n := by simpa [hw] using this
    simp [hw']

/-- The flags tell whether something is piped into the program. -/
theorem contains_piped (settings : ProgramSettings) (piped : Bool) :
    ((Emit.programFlags settings).withIf .piped piped).contains .piped = piped := by
  obtain ⟨a, b, c, d, e⟩ := settings
  cases a <;> cases b <;> cases c <;> cases d <;> cases e <;> cases piped <;> rfl

theorem programCall_effect {o : Op} (ho : o = .callProgram ∨ o = .rootCallProgram ∨ o = .maybeRootCallProgram)
    (count pairs : UInt8) (flags : UInt16) :
    o.width = 4 ∧ o.stackEffect? ([count] ++ wordBytes flags ++ [pairs]) =
      some (1 + count.toNat + (CallFlags.contains ⟨flags⟩ .piped).toNat + pairs.toNat * 2, 1) := by
  have hw : wordAt? ([count] ++ wordBytes flags ++ [pairs]) 1 = some flags := wordAt?_wordBytes flags [pairs]
  have hp : (if CallFlags.contains ⟨flags⟩ .piped = true then 1 else 0) =
      (CallFlags.contains ⟨flags⟩ .piped).toNat := by
    cases CallFlags.contains ⟨flags⟩ .piped <;> rfl
  rcases ho with rfl | rfl | rfl <;>
    exact ⟨rfl, by simp only [Op.stackEffect?, hw, ← hp]; rfl⟩

end ShellVM
