import Scambio.Commons.Auth
import Scambio.Lib.Mdir

/-!
# Queries — what the server does of a PUT or a REM (`mdsyncd/queries.c`)

`addHeader` checks the permissions of the user, names it in the header and patches the mdir.  What
`mdir_lookup` returns are arguments: the mdir of the query, and the one that a patch of type dir has just
linked in it.  The name that is looked up comes with the patch, so that this one may be the first one again:
by a removal, whose sc-name is not linked, with a name such as "../root/folder".
-/

namespace Scambio

open Library

section Queries

variable [Host] (sys : Sys) (maxJnlSize : Nat)

omit [Host] in
/-- The permissions of a new folder. -/
def defaultFolderPerms (user : User) : Header :=
  let perms := headerFieldNew [] SC_TYPE_FIELD SC_PERM_TYPE
  let perms := headerFieldNew perms SC_ALLOW_READ_FIELD user.name
  let perms := headerFieldNew perms SC_ALLOW_WRITE_FIELD user.name
  let perms := headerFieldNew perms SC_ALLOW_ADMIN_FIELD user.name
  let perms := headerFieldNew perms SC_DENY_READ_FIELD (ascii "*")
  let perms := headerFieldNew perms SC_DENY_WRITE_FIELD (ascii "*")
  headerFieldNew perms SC_DENY_ADMIN_FIELD (ascii "*")

def setDefaultPerms (m : Mdir) (user : User) : PatchResult :=
  mdirPatch sys maxJnlSize m .add (defaultFolderPerms user) 0

/-- What `mdir_lookup` finds under a name in a folder: this folder itself, or another mdir. -/
inductive FoundMdir
  | itself
  | other (m : Mdir)

/-- What `add_header` leaves: the mdir, what was found for the new folder if any, the header and the
version. -/
structure AddResult where
  mdir : Mdir
  child : Option FoundMdir
  header : Header
  result : Except Err Int

/-- `add_header` in the mdir `m`; `lookup` is what `mdir_lookup` finds, at the time of the call, under
the given name in it. -/
def addHeader (m : Mdir) (lookup : Bytes → Except Err FoundMdir) (h : Header) (action : Action)
    (user : User) : AddResult :=
  if (headerHasType h SC_PERM_TYPE && !userCanAdmin user m.permissions) ||
      !userCanWrite user m.permissions then
    ⟨m, none, h, .error (.push 0 (ascii "No permission"))⟩
  else
    let isNewDir := headerIsDirectory h && (headerFind h SC_DIRID_FIELD).isNone
    if (headerFind h SC_USER_FIELD).isSome then
      ⟨m, none, h, .error (.push 0 (ascii "Header already has username"))⟩
    else
      let r := mdirPatch sys maxJnlSize m action (headerFieldNew h SC_USER_FIELD user.name) 0
      match r.result with
      | .error e => ⟨r.mdir, none, r.header, .error e⟩
      | .ok version =>
          if isNewDir then
            match headerFind r.header SC_NAME_FIELD with
            | none => ⟨r.mdir, none, r.header, .error (.abort (ascii "name_field"))⟩
            | some nameField =>
                match lookup nameField.value with
                -- set_default_perms goes through the NULL mdir
                | .error _ => ⟨r.mdir, none, r.header, .error (.abort (ascii "child"))⟩
                | .ok .itself =>
                    let c := setDefaultPerms sys maxJnlSize r.mdir user
                    ⟨c.mdir, some .itself, r.header, c.result.map fun _ => version⟩
                | .ok (.other child) =>
                    let c := setDefaultPerms sys maxJnlSize child user
                    ⟨r.mdir, some (.other c.mdir), r.header, c.result.map fun _ => version⟩
          else ⟨r.mdir, none, r.header, .ok version⟩

/-- The room in the buffer of `header_debug`. -/
def DEBUG_ROOM : Nat := 1000

/-- `exec_putrem` on a mdir that was found: what `add_header` leaves, or the error of `header_read`,
and the bytes left on the connection.  The answer is 200 with the version, or 502.  In between,
`header_debug` prints the header into a buffer. -/
def execPutrem (m : Mdir) (lookup : Bytes → Except Err FoundMdir) (action : Action) (user : User)
    (fd : Bytes) : AddResult × Bytes :=
  match headerRead fd with
  | (.error e, rest) => (⟨m, none, [], .error e⟩, rest)
  | (.ok h, rest) =>
      if dumpFills DEBUG_ROOM h then (⟨m, none, h, .error overrun⟩, rest)
      else (addHeader sys maxJnlSize m lookup h action user, rest)

variable {sys maxJnlSize}

end Queries

end Scambio
