import Scambio.Lib.Header

/-!
# Rules — the configuration in memory (`stribution/stribution.h`)

The unions of the source are sum types.  A part of a test that its line does not set is what `Calloc` left,
here `none`.  `stribution.c` tells which tests apply to a message: `none` where it would stop the program.
-/

namespace Scambio

open Library

def STRIB_STANZA : Bytes := ascii "strib-stanza"

def NB_MAX_TESTS : Nat := 1000

/-- `enum strib_op`; `invalid` is the -1 of an unknown operator. -/
inductive StribOp
  | always
  | set
  | unset
  | gt
  | ge
  | lt
  | le
  | eq
  | re
  | invalid
  deriving DecidableEq, Repr

def StribOp.isConstant (op : StribOp) : Bool :=
  op == .always

def StribOp.isUnary (op : StribOp) : Bool :=
  op == .set || op == .unset

def StribOp.isBinary (op : StribOp) : Bool :=
  op == .gt || op == .ge || op == .lt || op == .le || op == .eq || op == .re

inductive StribValue
  | string (string : Bytes)
  | number (number : Int)
  | deref (name : Bytes)
  deriving DecidableEq, Repr

structure StribCondition where
  op : StribOp
  fieldName : Option Bytes
  value : Option StribValue
  deriving DecidableEq, Repr

/-- `enum action_type`; `invalid` is the -1 of an unknown action. -/
inductive ActionType
  | delete
  | copy
  | move
  | invalid
  deriving DecidableEq, Repr

inductive StribDest
  | string (string : Bytes)
  | deref (name : Bytes)
  deriving DecidableEq, Repr

structure StribAction where
  type : ActionType
  dest : Option StribDest
  deriving DecidableEq, Repr

structure StribTest where
  condition : StribCondition
  action : StribAction
  deriving DecidableEq, Repr

/-! ## Conditions (`stribution.c`) -/

def headerSearch (h : Header) (name : Bytes) : Option Bytes :=
  (headerFind h name).map HeaderField.value

def binaryOpNum (op : StribOp) (a b : Int) : Bool :=
  match op with
  | .gt => a > b
  | .ge => a ≥ b
  | .lt => a < b
  | .le => a ≤ b
  | .eq => a == b
  | _ => false

/-- `binary_op_str`, with the order of `strcmp`. -/
def binaryOpStr (op : StribOp) (a b : Bytes) : Bool :=
  match op with
  | .gt => b < a
  | .ge => b ≤ a
  | .lt => a < b
  | .le => a ≤ b
  | .eq => a == b
  | _ => false

/-- `str2num` -/
def str2num (str : Bytes) : Option Int :=
  if (strtoll str).2 = [] then some (strtoll str).1 else none

/-- The end of `condition_eval`, on the value of the field. -/
def valueEval (regexec : Bytes → Bytes → Bool) (op : StribOp) (value : Option StribValue) (fieldValue : Bytes)
    (head : Header) : Option Bool :=
  match value with
  | some (.number n) =>
      match str2num fieldValue with
      | none => some false
      | some fieldNum => some (binaryOpNum op fieldNum n)
  | some (.string s) => some (if op = .re then regexec s fieldValue else binaryOpStr op fieldValue s)
  | some (.deref name) => if op = .re then none else (headerSearch head name).map (binaryOpStr op fieldValue)
  | none => none

/-- `condition_eval`.  `regexec` tells whether a compiled expression matches. -/
def conditionEval (regexec : Bytes → Bytes → Bool) (cond : StribCondition) (head : Header) : Option Bool :=
  match cond.op, cond.fieldName with
  | .always, _ => some true
  | .invalid, _ => none
  | _, none => none
  | .set, some name => some (headerSearch head name).isSome
  | .unset, some name => some (headerSearch head name).isNone
  | op, some name =>
      match headerSearch head name with
      | none => some false
      | some fieldValue => valueEval regexec op cond.value fieldValue head

end Scambio
