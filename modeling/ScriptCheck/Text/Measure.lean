/-!
# Measures of text

Offsets into a script count the bytes of its UTF-8 form, while the columns shown to an editor
count UTF-16 code units. Both are sums over the characters, so they add up over concatenation
(`bytes_append`, `units_append`).
-/

namespace ScriptCheck.Text

/-- The number of bytes of the UTF-8 form of a text. -/
def bytes : List Char → Nat
  | [] => 0
  | c :: cs => c.utf8Size + bytes cs

/-- The number of UTF-16 code units of a character: two outside the basic plane. -/
def unitsOf (c : Char) : Nat :=
  if c.toNat < 0x10000 then 1 else 2

/-- The number of code units of the UTF-16 form of a text. -/
def units : List Char → Nat
  | [] => 0
  | c :: cs => unitsOf c + units cs

@[simp] theorem bytes_nil : bytes [] = 0 := rfl

@[simp] theorem bytes_cons (c : Char) (cs : List Char) :
    bytes (c :: cs) = c.utf8Size + bytes cs := rfl

@[simp] theorem units_nil : units [] = 0 := rfl

@[simp] theorem units_cons (c : Char) (cs : List Char) :
    units (c :: cs) = unitsOf c + units cs := rfl

theorem unitsOf_pos (c : Char) : 0 < unitsOf c := by
  unfold unitsOf
  split <;> decide

@[simp] theorem bytes_append (as bs : List Char) : bytes (as ++ bs) = bytes as + bytes bs := by
  induction as with
  | nil => simp
  | cons c cs ih => simp [ih, Nat.add_assoc]

@[simp] theorem units_append (as bs : List Char) : units (as ++ bs) = units as + units bs := by
  induction as with
  | nil => simp
  | cons c cs ih => simp [ih, Nat.add_assoc]

/-- Only the empty text has no bytes. -/
theorem bytes_eq_zero {cs : List Char} : bytes cs = 0 ↔ cs = [] := by
  cases cs with
  | nil => simp
  | cons c cs =>
    have := c.utf8Size_pos
    simp only [bytes_cons, reduceCtorEq, iff_false]
    omega

end ScriptCheck.Text
