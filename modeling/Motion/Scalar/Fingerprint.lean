import Motion.Scalar.Basic

/-!
Equality by value and fingerprints. A number has the residue of its value modulo a prime, with the
sign of the number, so that numbers that are equal by value have one fingerprint whatever their
kind. The powers of two return after 61 steps, and with them the residues of all denominators of
binary64 numbers. Among data a truth value is equal to the number 0 or 1.
-/

set_option autoImplicit false
set_option relaxedAutoImplicit false

namespace Motion

namespace Number

/-- The prime `2 ^ 61 - 1`. -/
def fingerprintPrime : Nat := 0x1FFFFFFFFFFFFFFF

/-- The fingerprints of the infinities, up to sign. -/
def infiniteFingerprint : Int := 314159

/-- The residue of the value of a rational whose denominator is a power of two, with its sign. No
residue is -1. -/
def residue (q : Rat) : Int :=
  let inverse := Nat.pow 2 (61 - Nat.log2 q.den % 61)
  let magnitude := q.num.natAbs * inverse % fingerprintPrime
  if q.num < 0 then (if magnitude = 1 then -2 else -magnitude) else magnitude

/-- The fingerprint of a number; NaN has none. -/
def fingerprint? (x : Number) : Option Int :=
  match x with
  | .float (.infinite negative) =>
    some (if negative then -infiniteFingerprint else infiniteFingerprint)
  | x => x.toRat?.map residue

/-- Whether two numbers have one fingerprint. -/
def agrees (x y : Number) : Bool :=
  x.fingerprint?.isSome && x.fingerprint? == y.fingerprint?

end Number

/-- Whether two slopes have one fingerprint; that of a text is the text. -/
def Slope.agrees : Slope → Slope → Bool
  | num x, num y => x.agrees y
  | expr s, expr t => s == t
  | _, _ => false

/-- Whether two scalars have one fingerprint, which is that of the number, or of the expression and
its slope. -/
def Scalar.agrees : Scalar → Scalar → Bool
  | literal x, literal y => x.agrees y
  | expr s none, expr t none => s == t
  | expr s (some p), expr t (some q) => s == t && p.agrees q
  | _, _ => false

namespace Data

mutual

/-- Equality by value. -/
def same : Data → Data → Bool
  | .null, .null => true
  | .bool p, .bool q => p == q
  | .bool p, .num n => n.same (.int p.toNat)
  | .num n, .bool p => n.same (.int p.toNat)
  | .num m, .num n => m.same n
  | .str s, .str t => s == t
  | .list xs, .list ys => sameItems xs ys
  | .obj ms, .obj ns => ms.length = ns.length && sameMembers ms ns
  | _, _ => false

def sameItems : List Data → List Data → Bool
  | [], [] => true
  | x :: xs, y :: ys => x.same y && sameItems xs ys
  | _, _ => false

/-- Whether other members have the same values under all the keys of some. -/
def sameMembers : List (String × Data) → Members → Bool
  | [], _ => true
  | (key, value) :: rest, others =>
    (Entries.get? others key).any value.same && sameMembers rest others

end

/-- Whether a value has a fingerprint: lists and objects have none. -/
def hasFingerprint : Data → Bool
  | .list _ => false
  | .obj _ => false
  | _ => true

/-- Whether two values that have one are of one fingerprint: numbers by theirs, other values by
equality. -/
def agrees : Data → Data → Bool
  | .num x, .num y => x.agrees y
  | x, y => x.same y

end Data

namespace Operand

/-- Equality by value; a scalar is equal to scalars only. -/
def same : Operand → Operand → Bool
  | scalar x, scalar y => x.same y
  | data x, data y => x.same y
  | _, _ => false

/-- Whether two operands have one fingerprint, which lists and objects do not have. -/
def agrees (x y : Operand) : Except Fault Bool :=
  match x, y with
  | scalar x, scalar y => .ok (x.agrees y)
  | scalar _, data d => if d.hasFingerprint then .ok false else .error .wrongType
  | data d, scalar _ => if d.hasFingerprint then .ok false else .error .wrongType
  | data c, data d =>
    if c.hasFingerprint && d.hasFingerprint then .ok (c.agrees d) else .error .wrongType

end Operand

end Motion
