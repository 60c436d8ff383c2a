import Tern.Fault
import Tern.Value.Basic

/-!
# Operators

The binary operators stand in four tiers, from the loosest to the tightest; the two unary ones
stand in front of their operand. Operators act on values that have been computed already, so `&&`
and `||` always see both sides.
-/

namespace Tern

/-- Binary operators. -/
inductive BinaryOp where
  | and | or
  | eq | ne | lt | gt | le | ge
  | add | sub
  | mul | div | mod
  deriving DecidableEq, Repr

/-- Operators of one tier bind equally tightly. -/
inductive Tier where
  | logical | comparison | additive | multiplicative
  deriving DecidableEq, Repr

/-- The operator of the tier that the token stands for. -/
def Tier.operator? : Tier → Kind → Option BinaryOp
  | logical, .symbol .andAnd => some .and
  | logical, .symbol .orOr => some .or
  | comparison, .symbol .equalEqual => some .eq
  | comparison, .symbol .notEqual => some .ne
  | comparison, .symbol .less => some .lt
  | comparison, .symbol .greater => some .gt
  | comparison, .symbol .lessEqual => some .le
  | comparison, .symbol .greaterEqual => some .ge
  | additive, .symbol .plus => some .add
  | additive, .symbol .minus => some .sub
  | multiplicative, .symbol .star => some .mul
  | multiplicative, .symbol .slash => some .div
  | multiplicative, .symbol .percent => some .mod
  | _, _ => none

namespace BinaryOp

/-- The symbol that the operator is written with. -/
def mark : BinaryOp → Symbol
  | and => .andAnd
  | or => .orOr
  | eq => .equalEqual
  | ne => .notEqual
  | lt => .less
  | gt => .greater
  | le => .lessEqual
  | ge => .greaterEqual
  | add => .plus
  | sub => .minus
  | mul => .star
  | div => .slash
  | mod => .percent

/-- The operator as it is written. -/
def text (op : BinaryOp) : String := op.mark.text

/-- The complaint that the operator has no meaning for these operands. -/
def mismatch (op : BinaryOp) (left right : Value) : Cause :=
  .operandMismatch op.text left.typeName right.typeName

/-- A number that has to exist, or else the operation overflows. -/
def checked (operation : String) : Option Number → Except Cause Value
  | some n => .ok (.number n)
  | none => .error (.integerOverflow operation)

/-- Both operands are truth values, or there is a mismatch. -/
def onBooleans (op : BinaryOp) (f : Bool → Bool → Bool) (left right : Value) :
    Except Cause Value :=
  match left.bool?, right.bool? with
  | some a, some b => .ok (.boolean (f a b))
  | _, _ => .error (op.mismatch left right)

/-- The operands have an order, or there is a mismatch. -/
def onOrder (op : BinaryOp) (holds : Ordering → Bool) (left right : Value) :
    Except Cause Value :=
  match left.order? right with
  | some order => .ok (.boolean (holds order))
  | none => .error (op.mismatch left right)

/-- Both operands are numbers, or there is a mismatch. -/
def onNumbers (op : BinaryOp) (f : Number → Number → Except Cause Value) (left right : Value) :
    Except Cause Value :=
  match left.number?, right.number? with
  | some a, some b => f a b
  | _, _ => .error (op.mismatch left right)

/-- `+` adds numbers, and joins texts as soon as one side is a text. -/
def plus (left right : Value) : Except Cause Value :=
  match left, right with
  | .number a, .number b => checked "addition" (Number.add? a b)
  | .text a, _ => .ok (.text (a ++ right.display))
  | _, .text b => .ok (.text (left.display ++ b))
  | _, _ => .error (mismatch .add left right)

/-- Applies the operator. -/
def apply (op : BinaryOp) (left right : Value) : Except Cause Value :=
  match op with
  | and => op.onBooleans (· && ·) left right
  | or => op.onBooleans (· || ·) left right
  | eq => .ok (.boolean (left.equals right))
  | ne => .ok (.boolean (!left.equals right))
  | lt => op.onOrder (· = .lt) left right
  | gt => op.onOrder (· = .gt) left right
  | le => op.onOrder (· ≠ .gt) left right
  | ge => op.onOrder (· ≠ .lt) left right
  | add => plus left right
  | sub => op.onNumbers (fun a b => checked "subtraction" (Number.sub? a b)) left right
  | mul => op.onNumbers (fun a b => checked "multiplication" (Number.mul? a b)) left right
  | div =>
    op.onNumbers (fun a b =>
      if b = 0 then .error .divisionByZero else checked "division" (Number.div? a b)) left right
  | mod =>
    op.onNumbers (fun a b =>
      if b = 0 then .error .divisionByZero else checked "remainder" (Number.rem? a b)) left right

end BinaryOp

/-- Operators in front of one operand. -/
inductive UnaryOp where
  /-- The other truth value. -/
  | not
  /-- The opposite number. -/
  | neg
  deriving DecidableEq, Repr

namespace UnaryOp

/-- The operator that the token stands for in front of an operand. -/
def ofKind? : Kind → Option UnaryOp
  | .symbol .bang => some not
  | .symbol .minus => some neg
  | _ => none

/-- The symbol that the operator is written with. -/
def mark : UnaryOp → Symbol
  | not => .bang
  | neg => .minus

/-- The operator as it is written. -/
def text (op : UnaryOp) : String := op.mark.text

/-- Applies the operator. -/
def apply : UnaryOp → Value → Except Cause Value
  | not, .boolean b => .ok (.boolean !b)
  | neg, .number n => BinaryOp.checked "negation" (Number.neg? n)
  | op, value => .error (.invalidOperand op.text value.typeName)

end UnaryOp

end Tern
