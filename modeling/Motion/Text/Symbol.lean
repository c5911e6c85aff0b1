/-!
Texts whose symbols are characters or halves of surrogate pairs that stand alone. Such a half is no
character, so a text with halves is kept as characters in which a mark announces them: a half is
kept as the mark and a character that counts the halves, and a mark that is meant as itself is kept
doubled. Keeping goes symbol by symbol, so that kept texts are joined by joining their characters.
-/

set_option autoImplicit false
set_option relaxedAutoImplicit false

namespace Motion.Text

/-- A symbol of a text: a character, or the half of a surrogate pair with the given number. -/
inductive Symbol where
  | char (c : Char)
  | half (number : Fin 0x800)
deriving DecidableEq, Repr

/-- The character that announces a half. -/
def halfMark : Char := Char.ofNat 0x10FFFF

/-- The code point of the character that stands for the first half. -/
def firstCounter : Nat := 0x100000

/-- The UTF-16 unit of the first half. -/
def firstUnit : Nat := 0xD800

namespace Symbol

/-- The characters that a symbol is kept as. -/
def kept : Symbol → List Char
  | char c => if c = halfMark then [halfMark, halfMark] else [c]
  | half number => [halfMark, Char.ofNat (firstCounter + number.val)]

/-- The symbol of a UTF-16 unit. -/
def ofUnit (unit : Nat) : Symbol :=
  if h : firstUnit ≤ unit ∧ unit - firstUnit < 0x800 then half ⟨unit - firstUnit, h.2⟩
  else char (Char.ofNat unit)

/-- Whether a symbol is a character. -/
def isChar : Symbol → Bool
  | char _ => true
  | half _ => false

/-- The nearest character: a half becomes the sign for what cannot be shown. -/
def toChar : Symbol → Char
  | char c => c
  | half _ => Char.ofNat 0xFFFD

end Symbol

/-- A text without halves as it is kept. -/
def keep (s : List Char) : List Char :=
  s.flatMap fun c => (Symbol.char c).kept

/-- The half that a character behind a mark counts. -/
def counted? (c : Char) : Option (Fin 0x800) :=
  if h : firstCounter ≤ c.toNat ∧ c.toNat - firstCounter < 0x800 then
    some ⟨c.toNat - firstCounter, h.2⟩
  else none

/-- The symbols of a kept text. -/
def symbols : List Char → List Symbol
  | [] => []
  | [c] => [.char c]
  | c :: d :: rest =>
    if c = halfMark then
      match counted? d with
      | some number => .half number :: symbols rest
      | none => if d = halfMark then .char c :: symbols rest else .char c :: symbols (d :: rest)
    else .char c :: symbols (d :: rest)

theorem counted?_halfMark : counted? halfMark = none := by
  decide

theorem counted?_kept (number : Fin 0x800) :
    counted? (Char.ofNat (firstCounter + number.val)) = some number := by
  have bound := number.isLt
  have valid : (firstCounter + number.val).isValidChar := by
    unfold firstCounter
    right
    omega
  have value : (Char.ofNat (firstCounter + number.val)).toNat = firstCounter + number.val := by
    have valued : Char.ofNat (firstCounter + number.val)
        = Char.ofNatAux (firstCounter + number.val) valid := dif_pos valid
    rw [valued]
    rfl
  unfold counted?
  simp [value]

/-- A symbol is read back from the front of a kept text. -/
theorem symbols_kept_append (x : Symbol) (s : List Char) :
    symbols (x.kept ++ s) = x :: symbols s := by
  cases x with
  | char c =>
    by_cases h : c = halfMark
    · simp [Symbol.kept, h, symbols, counted?_halfMark]
    · cases s with
      | nil => simp [Symbol.kept, h, symbols]
      | cons d rest => simp [Symbol.kept, h, symbols]
  | half number => simp [Symbol.kept, symbols, counted?_kept]

/-- The symbols of a text are those that it has been kept from. -/
theorem symbols_flatMap_kept (xs : List Symbol) : symbols (xs.flatMap Symbol.kept) = xs := by
  induction xs with
  | nil => rfl
  | cons x xs ih => rw [List.flatMap_cons, symbols_kept_append, ih]

/-- The symbols of a text without halves are its characters. -/
theorem symbols_keep (s : List Char) : symbols (keep s) = s.map Symbol.char := by
  have kept : keep s = (s.map Symbol.char).flatMap Symbol.kept := by
    simp [keep, List.flatMap_map]
  rw [kept, symbols_flatMap_kept]

/-- Whether a kept text holds no half. -/
def isWhole (s : List Char) : Bool :=
  (symbols s).all Symbol.isChar

theorem isWhole_keep (s : List Char) : isWhole (keep s) = true := by
  rw [isWhole, symbols_keep]
  simp [Symbol.isChar]

/-- The characters of a kept text. -/
def release (s : List Char) : List Char :=
  (symbols s).map Symbol.toChar

theorem release_keep (s : List Char) : release (keep s) = s := by
  rw [release, symbols_keep]
  simp [Symbol.toChar, Function.comp_def]

end Motion.Text
