import Scambio.Commons.CString

/-!
# Error — the error stack (`lib/error.c`)

Functions whose errors simply propagate are modelled with `Except Err`.  The stack itself is needed
where an error is cleared, saved or restored while another one is pending.
-/

namespace Scambio

/-- What stops a function: an error it pushed, or an `assert` that aborts the process. -/
inductive Err
  | push (code : Nat) (str : Bytes)
  | abort (assertion : Bytes)
  deriving DecidableEq, Repr

/-- A write behind the end of a block.  Nothing is known of the process after it, so that it is taken to end there. -/
def overrun : Err := .abort (ascii "write behind the end of a block")

def ENOENT : Nat := 2
def EINVAL : Nat := 22
def ENOMSG : Nat := 42

/-- `struct errbuf`, both stacks with their top first. -/
structure ErrBuf where
  errStack : List Err
  ackStack : List Nat
  deriving DecidableEq, Repr

namespace ErrBuf

/-- `errbuf_new`. -/
def new : ErrBuf :=
  { errStack := [], ackStack := [0] }

def nbExpectedErrors (eb : ErrBuf) : Nat :=
  eb.ackStack.headD 0

def isError (eb : ErrBuf) : Bool :=
  decide (eb.nbExpectedErrors < eb.errStack.length)

def errorPush (eb : ErrBuf) (e : Err) : ErrBuf :=
  { eb with errStack := e :: eb.errStack }

def errorClear (eb : ErrBuf) : ErrBuf :=
  { eb with errStack := eb.errStack.drop (eb.errStack.length - eb.nbExpectedErrors) }

@[simp] theorem isError_new : new.isError = false := rfl

@[simp] theorem isError_errorClear (eb : ErrBuf) : eb.errorClear.isError = false := by
  simp only [isError, errorClear, nbExpectedErrors, List.length_drop, decide_eq_false_iff_not]
  omega

end ErrBuf
end Scambio
