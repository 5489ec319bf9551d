import Scambio.Lib.Header

/-!
# Auth — users and what they may do in a mdir (`commons/auth.c`)

`checkUserPerms` goes through the fields of the permissions of a mdir in order and the first that
names the user decides; when none does, the default permissions are tried, and then it is no.
-/

namespace Scambio

open Library

def SC_ALLOW_READ_FIELD : Bytes := ascii "sc-allow-read"
def SC_ALLOW_WRITE_FIELD : Bytes := ascii "sc-allow-write"
def SC_ALLOW_ADMIN_FIELD : Bytes := ascii "sc-allow-admin"
def SC_DENY_READ_FIELD : Bytes := ascii "sc-deny-read"
def SC_DENY_WRITE_FIELD : Bytes := ascii "sc-deny-write"
def SC_DENY_ADMIN_FIELD : Bytes := ascii "sc-deny-admin"

/-- A loaded user: its name, and the answers of `is_in_group_rec` for it; `none` when a group met on
the way cannot be loaded. -/
structure User where
  name : Bytes
  isInGroupRec : Bytes → Option Bool

/-- A user that belongs to every group. -/
def bob : User :=
  { name := ascii "bob", isInGroupRec := fun _ => some true }

def userIsInGroup (user : User) (groupname : Bytes) (ifUnknown : Bool) : Bool :=
  (user.isInGroupRec groupname).getD ifUnknown

/-- The first field of a permission header that decides. -/
def permOfFields (user : User) (allowField denyField : Bytes) : Header → Option Bool
  | [] => none
  | hf :: h =>
      -- unknown users are not us, but we are in unknown groups
      if hf.name = allowField then
        if userIsInGroup user hf.value false then some true
        else permOfFields user allowField denyField h
      else if hf.name = denyField then
        if userIsInGroup user hf.value true then some false
        else permOfFields user allowField denyField h
      else permOfFields user allowField denyField h

/-- `default_perms`, as `auth_init` fills it. -/
def defaultPerms : Header :=
  [ { name := SC_ALLOW_READ_FIELD, value := ascii "*" },
    { name := SC_DENY_WRITE_FIELD, value := ascii "*" },
    { name := SC_ALLOW_ADMIN_FIELD, value := ascii "admin" },
    { name := SC_DENY_ADMIN_FIELD, value := ascii "*" } ]

def checkUserPerms (user : User) (perms : Option Header) (allowField denyField : Bytes) : Bool :=
  ((perms.bind (permOfFields user allowField denyField)).or
    (permOfFields user allowField denyField defaultPerms)).getD false

def userCanAdmin (user : User) (perms : Option Header) : Bool :=
  checkUserPerms user perms SC_ALLOW_ADMIN_FIELD SC_DENY_ADMIN_FIELD

def userCanRead (user : User) (perms : Option Header) : Bool :=
  checkUserPerms user perms SC_ALLOW_READ_FIELD SC_DENY_READ_FIELD || userCanAdmin user perms

def userCanWrite (user : User) (perms : Option Header) : Bool :=
  checkUserPerms user perms SC_ALLOW_WRITE_FIELD SC_DENY_WRITE_FIELD || userCanAdmin user perms

/-- Who may administrate may read and write. -/
theorem userCanWrite_of_userCanAdmin {user : User} {perms : Option Header}
    (h : userCanAdmin user perms = true) : userCanRead user perms = true ∧
      userCanWrite user perms = true := by
  simp [userCanRead, userCanWrite, h]

end Scambio
