import Scambio.Lib.Error

/-!
# Cnx — queries waiting for their answer (`lib/cnx.c`)

A connection numbers its queries and remembers those that were sent, the last one first.  An answer
takes its query out of the list, and drops on its way the queries that waited for too long.
-/

namespace Scambio

/-- `struct mdir_sent_query`, with the structure it is embedded in. -/
structure SentQuery (α : Type) where
  seq : Int
  creation : Int
  owner : α

/-- `struct mdir_cnx`; it is usable once connected and authenticated. -/
structure Cnx (α : Type) where
  usable : Bool
  nextSeq : Int
  sentQueries : List (SentQuery α)

def SQ_TIMEOUT : Int := 20

section Cnx

variable {α : Type}

/-- `mdir_cnx_query` for a keyword other than auth, given the outcome of the write. -/
def cnxQuery (cnx : Cnx α) (owner : α) (now : Int) (written : Option Err) : Cnx α × Except Err Unit :=
  if !cnx.usable then (cnx, .error (.push 0 (ascii "cnx not useable yet")))
  else
    let seq := cnx.nextSeq
    let cnx := { cnx with nextSeq := seq + 1 }
    match written with
    | some e => (cnx, .error e)
    | none =>
        ({ cnx with
            sentQueries := { seq := seq, creation := now, owner := owner } :: cnx.sentQueries }, .ok ())

/-- The loop of `mdir_cnx_query_retrieve`: the queries that stay, and the one that is answered. -/
def retrieveLoop (now seq : Int) : List (SentQuery α) → List (SentQuery α) × Option (SentQuery α)
  | [] => ([], none)
  | sq :: sqs =>
      if sq.seq = seq then (sqs, some sq)
      else
        let (rest, found) := retrieveLoop now seq sqs
        (if sq.creation + SQ_TIMEOUT < now then rest else sq :: rest, found)

def cnxQueryRetrieve (cnx : Cnx α) (now seq : Int) : Cnx α × Except Err (SentQuery α) :=
  match retrieveLoop now seq cnx.sentQueries with
  | (sqs, some sq) => ({ cnx with sentQueries := sqs }, .ok sq)
  | (sqs, none) =>
      ({ cnx with sentQueries := sqs },
        .error (.push 0 (ascii "Unexpected answer for seq# " ++ printInt seq)))

/-- What is retrieved was sent, under that number. -/
theorem retrieveLoop_some {now seq : Int} {sqs rest : List (SentQuery α)} {sq : SentQuery α}
    (h : retrieveLoop now seq sqs = (rest, some sq)) : sq ∈ sqs ∧ sq.seq = seq := by
  induction sqs generalizing rest with
  | nil => cases h
  | cons q sqs ih =>
      by_cases hseq : q.seq = seq
      · rw [retrieveLoop, if_pos hseq] at h
        cases h
        exact ⟨List.mem_cons_self, hseq⟩
      · rw [retrieveLoop, if_neg hseq] at h
        rcases hr : retrieveLoop now seq sqs with ⟨rest', found⟩
        rw [hr] at h
        simp only [Prod.mk.injEq] at h
        rcases h with ⟨-, rfl⟩
        rcases ih hr with ⟨hmem, hs⟩
        exact ⟨List.mem_cons_of_mem _ hmem, hs⟩

end Cnx

end Scambio
