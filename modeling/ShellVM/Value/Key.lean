import ShellVM.Range

/-!
# Keys

The values that may stand as a key of a dictionary or as an item of a set: those that cannot change
later. A key is hashed through the writes that it makes (`Key.writes`).
-/

namespace ShellVM

inductive Key where
  | boolean (b : Bool)
  | integer (n : Int64)
  | string (s : String)
  | range (r : Range)
  | tuple (items : List Key)

namespace Key

mutual

def beq : Key → Key → Bool
  | boolean a, boolean b => a == b
  | integer a, integer b => a == b
  | string a, string b => a == b
  | range a, range b => decide (a = b)
  | tuple a, tuple b => beqAll a b
  | _, _ => false

def beqAll : List Key → List Key → Bool
  | [], [] => true
  | a :: as, b :: bs => beq a b && beqAll as bs
  | _, _ => false

end

instance : BEq Key := ⟨beq⟩

mutual

theorem eq_of_beq_key : ∀ a b : Key, beq a b = true → a = b
  | boolean a, boolean b, h => by simpa [beq] using h
  | integer a, integer b, h => by simpa [beq] using h
  | string a, string b, h => by simpa [beq] using h
  | range a, range b, h => by simpa [beq] using h
  | tuple a, tuple b, h => by
    rw [beq] at h
    rw [eq_of_beqAll a b h]
  | boolean _, integer _, h | boolean _, string _, h | boolean _, range _, h
  | boolean _, tuple _, h | integer _, boolean _, h | integer _, string _, h
  | integer _, range _, h | integer _, tuple _, h | string _, boolean _, h
  | string _, integer _, h | string _, range _, h | string _, tuple _, h
  | range _, boolean _, h | range _, integer _, h | range _, string _, h
  | range _, tuple _, h | tuple _, boolean _, h | tuple _, integer _, h
  | tuple _, string _, h | tuple _, range _, h => by simp [beq] at h

theorem eq_of_beqAll : ∀ as bs : List Key, beqAll as bs = true → as = bs
  | [], [], _ => rfl
  | a :: as, b :: bs, h => by
    rw [beqAll, Bool.and_eq_true] at h
    rw [eq_of_beq_key a b h.1, eq_of_beqAll as bs h.2]
  | [], _ :: _, h | _ :: _, [], h => by simp [beqAll] at h

end

mutual

theorem beq_refl : ∀ a : Key, beq a a = true
  | boolean _ | integer _ | string _ | range _ => by simp [beq]
  | tuple as => by rw [beq]; exact beqAll_refl as

theorem beqAll_refl : ∀ as : List Key, beqAll as as = true
  | [] => rfl
  | a :: as => by rw [beqAll, beq_refl a, beqAll_refl as]; rfl

end

instance : LawfulBEq Key where
  eq_of_beq := eq_of_beq_key _ _
  rfl := beq_refl _

/-- One write to a hash. -/
inductive Write where
  | byte (n : UInt8)
  | word (n : Int64)
  /-- Which of its cases an optional part is. -/
  | choice (n : Int64)
  | size (n : Nat)
  | bytes (b : ByteArray)

def Write.digest : Write → UInt64
  | .byte n => hash n
  | .word n | .choice n => hash n.toUInt64
  | .size n => hash n
  | .bytes b => hash b

def writesBoolean (b : Bool) : List Write := [.byte b.toUInt8]

/-- The bytes of a text, and one that ends it and stands in no text. -/
def writesString (s : String) : List Write := [.bytes s.toUTF8, .byte 0xff]

def writesWord? : Option Int64 → List Write
  | none => [.choice 0]
  | some n => [.choice 1, .word n]

def writesRange (r : Range) : List Write :=
  writesWord? r.first? ++ writesWord? r.last? ++ writesWord? r.step? ++ writesBoolean r.inclusive

mutual

/-- What a key writes to a hash: a mark for its kind, then its content. -/
def writes : Key → List Write
  | boolean b => .byte 0 :: writesBoolean b
  | integer n => [.byte 1, .word n]
  | string s => .byte 2 :: writesString s
  | tuple items => .byte 3 :: .size items.length :: writesAll items
  | range r => .byte 4 :: writesRange r

def writesAll : List Key → List Write
  | [] => []
  | k :: ks => writes k ++ writesAll ks

end

instance : Hashable Key := ⟨fun k => k.writes.foldl (fun h w => mixHash h w.digest) 7⟩

end Key

end ShellVM
