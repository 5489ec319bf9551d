import Scambio.Commons.CString

/-!
# Host — what the C program leaves to the machine it runs on

Two things the source relies on are not fixed by the language: what a buffer fresh from `malloc`
contains, and where a positional write lands on a descriptor opened with `O_APPEND`.  Everything
that depends on them takes a `Host`.
-/

namespace Scambio

/-- Where `pth_pwrite` puts its data on an `O_APPEND` descriptor. -/
inductive PwriteMode
  | atOffset
  | atEnd
  deriving DecidableEq, Repr

class Host where
  /-- The C string found in the fresh buffer of the `parse` call that starts at the given text. -/
  freshBuf : Bytes → Bytes
  appendPwrite : PwriteMode

/-- A host whose fresh buffers are empty strings, and whose positional writes land where asked. -/
@[reducible] def plainHost : Host :=
  { freshBuf := fun _ => [], appendPwrite := .atOffset }

/-- The same with the positional writes of Linux. -/
@[reducible] def linuxHost : Host :=
  { freshBuf := fun _ => [], appendPwrite := .atEnd }

end Scambio
