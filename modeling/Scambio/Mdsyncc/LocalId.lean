import Scambio.Mdsyncc.ClientRuns

/-!
# LocalId — a patch of ours comes back with the number of its transient file

The answer to a PUT tells which version the transient patch became, and `patch_ctor` looks that up
when it receives the patch.  So the patch is tied to its transient number if the answer is handled
first, and it is not if the patch is received while the answer is still waited for: that application
is then delayed does not help, since nothing looks at the queued header again.
-/

namespace Scambio

open Library

/-- The values of the sc-localid fields. -/
def localIds (h : Header) : List Bytes :=
  (h.filter fun hf => strcaseeq hf.name SC_LOCALID_FIELD).map HeaderField.value

theorem localIds_tied {h : Header} (hnone : localIds h = []) (value : Bytes) :
    localIds (headerFieldNew h SC_LOCALID_FIELD value) = [value] := by
  have hid : strcaseeq (SC_LOCALID_FIELD.map tolower) SC_LOCALID_FIELD = true := by decide
  unfold localIds at hnone
  simp [localIds, headerFieldNew, List.filter_append, hnone, hid]

section Handed

variable [Host] (maxJnlSize : Nat)

/-- The patches that the loop of `try_apply` hands to `mdir_patch`. -/
def handedLoop (sys : Sys) : Mdir → List Patch → List Patch
  | _, [] => []
  | m, patch :: patches =>
      if mdirLastVersion m ≠ patch.oldVersion then []
      else if ¬ patch.newVersion > patch.oldVersion then []
      else
        let r := mdirPatch sys maxJnlSize m patch.action patch.header (nbDeletedOf patch)
        patch ::
          match r.result with
          | .error _ => []
          | .ok version =>
              if version ≠ patch.newVersion then [] else handedLoop sys r.mdir patches

theorem handedLoop_subset (sys : Sys) (m : Mdir) (patches : List Patch) :
    handedLoop maxJnlSize sys m patches ⊆ patches := by
  induction patches generalizing m with
  | nil => exact List.Subset.refl _
  | cons p ps ih =>
      unfold handedLoop
      split_ifs
      · exact List.nil_subset _
      · refine List.cons_subset_cons _ ?_
        split
        · exact List.nil_subset _
        · split_ifs
          · exact List.nil_subset _
          · exact ih _
      · exact List.nil_subset _

/-- The patch that an event adds to the queue. -/
def receivedBy (c : Mdirc) : Event → Option Patch
  | .patch _ oldVersion newVersion action fd =>
      if c.reading then (received c oldVersion newVersion action fd).map Prod.fst else none
  | _ => none

/-- The patches that an event hands to `mdir_patch`. -/
def handed (c : Mdirc) : Event → List Patch
  | .patch sys oldVersion newVersion action fd =>
      match receivedBy c (.patch sys oldVersion newVersion action fd) with
      | none => []
      | some p =>
          if c.nbPendingAcks = 0 then handedLoop maxJnlSize sys c.mdir (insertPatch p c.patches)
          else []
  | _ => []

omit [Host] in
/-- The version and the transient number that an answer gives. -/
def learnedBy (c : Mdirc) : Event → Option C2lMap
  | .answer kw now seq status compl =>
      if c.reading then learned c kw now seq status compl else none
  | _ => none

/-- The header that comes with a PATCH command. -/
def sentHeader : Event → Option Header
  | .patch _ _ _ _ fd => (headerRead fd).1.toOption
  | _ => none

omit [Host] in
def Learned (trace : List (Mdirc × Event)) (map : C2lMap) : Prop :=
  ∃ s ∈ trace, learnedBy s.1 s.2 = some map

def Received (trace : List (Mdirc × Event)) (version : Int) : Prop :=
  ∃ s ∈ trace, ∃ p, receivedBy s.1 s.2 = some p ∧ p.newVersion = version

/-- Every header handed to `mdir_patch` for a version that was given to a transient patch has exactly
one sc-localid field, with its number. -/
def TiedToTransient (trace : List (Mdirc × Event)) : Prop :=
  ∀ s ∈ trace, ∀ p ∈ handed maxJnlSize s.1 s.2, ∀ map, Learned trace map →
    map.central = p.newVersion → localIds p.header = [printInt map.local']

/-- The answer that gives a version is handled before the patch that creates it is received, and
alone; that patch is received once, without an sc-localid field. -/
def AnswerFirst (trace : List (Mdirc × Event)) (c : Mdirc) (e : Event) : Prop :=
  (∀ map, learnedBy c e = some map → ¬ Received trace map.central ∧
    ∀ map', Learned trace map' → map'.central ≠ map.central) ∧
  ∀ p, receivedBy c e = some p → (∃ map, Learned trace map ∧ map.central = p.newVersion) →
    ¬ Received trace p.newVersion ∧ ∀ h, sentHeader e = some h → localIds h = []

omit [Host] in
theorem learned_snoc {trace : List (Mdirc × Event)} {c : Mdirc} {e : Event} {map : C2lMap} :
    Learned (trace ++ [(c, e)]) map ↔ Learned trace map ∨ learnedBy c e = some map := by
  simp [Learned, or_and_right, exists_or]

theorem received_snoc {trace : List (Mdirc × Event)} {c : Mdirc} {e : Event} {v : Int} :
    Received (trace ++ [(c, e)]) v ↔
      Received trace v ∨ ∃ p, receivedBy c e = some p ∧ p.newVersion = v := by
  simp [Received, or_and_right, exists_or]

/-- What a run keeps. -/
structure Ties (trace : List (Mdirc × Event)) (c : Mdirc) : Prop where
  tied : TiedToTransient maxJnlSize trace
  handed_received : ∀ s ∈ trace, ∀ p ∈ handed maxJnlSize s.1 s.2, Received trace p.newVersion
  queue_received : ∀ p ∈ c.patches, Received trace p.newVersion
  maps_learned : ∀ map ∈ c.c2lMaps, Learned trace map
  waiting : ∀ map, Learned trace map → ¬ Received trace map.central → map ∈ c.c2lMaps
  unique : ∀ map map', Learned trace map → Learned trace map' → map.central = map'.central → map = map'
  queue_tied : c.reading = true → ∀ map, Learned trace map → ∀ p ∈ c.patches,
    p.newVersion = map.central → localIds p.header = [printInt map.local']

variable {maxJnlSize} {trace : List (Mdirc × Event)} {c : Mdirc} {e : Event}

/-- The header of the patch that is received is tied to the transient number of its version. -/
theorem Ties.received_tied (h : Ties maxJnlSize trace c) (hok : AnswerFirst trace c e) {p : Patch}
    (hp : receivedBy c e = some p) {map : C2lMap} (hmap : Learned trace map)
    (hv : p.newVersion = map.central) : localIds p.header = [printInt map.local'] := by
  cases e with
  | patch sys oldVersion newVersion action fd =>
      rcases hok.2 p hp ⟨map, hmap, hv.symm⟩ with ⟨hfirst, hids⟩
      simp only [receivedBy] at hp
      split_ifs at hp
      rcases Option.map_eq_some_iff.1 hp with ⟨⟨p', maps⟩, hrec, rfl⟩
      unfold received at hrec
      split at hrec
      · next act hd hact hhead =>
          cases hrec
          -- the map is there, and it is the only one of that version
          have hin : map ∈ c.c2lMaps := h.waiting map hmap (hv ▸ hfirst)
          have hsearch : c2lSearch c.c2lMaps newVersion = some map := by
            cases hs : c2lSearch c.c2lMaps newVersion with
            | none =>
                have hne := List.find?_eq_none.1 hs map hin
                simp only [beq_iff_eq] at hne
                exact absurd hv.symm hne
            | some map' =>
                have hmem := List.mem_of_find?_eq_some hs
                have hcen : map'.central = newVersion := by simpa using List.find?_some hs
                rw [h.unique map' map (h.maps_learned map' hmem) hmap (hcen.trans hv)]
          have hempty : localIds hd = [] := hids hd (by simp [sentHeader, hhead, Except.toOption])
          simp only [tieLocalId, hsearch]
          exact localIds_tied hempty _
      · cases hrec
  | _ => cases hp

theorem receivedBy_mem_handed {p : Patch} (hp : p ∈ handed maxJnlSize c e) :
    receivedBy c e = some p ∨ p ∈ c.patches ∧ c.reading = true := by
  cases e with
  | patch sys oldVersion newVersion action fd =>
      simp only [handed] at hp
      split at hp
      · cases hp
      · next q hq =>
          split_ifs at hp
          · have hread : c.reading = true := by
              by_contra hn
              simp [receivedBy, hn] at hq
            rcases mem_insertPatch (handedLoop_subset maxJnlSize sys c.mdir _ hp) with rfl | hmem
            · exact .inl hq
            · exact .inr ⟨hmem, hread⟩
          · cases hp
  | _ => cases hp

/-- Whatever an event hands to `mdir_patch` is tied, and stays so whatever the event teaches. -/
theorem Ties.tied_snoc (h : Ties maxJnlSize trace c) (hok : AnswerFirst trace c e) :
    TiedToTransient maxJnlSize (trace ++ [(c, e)]) ∧
    ∀ s ∈ trace ++ [(c, e)], ∀ p ∈ handed maxJnlSize s.1 s.2,
      Received (trace ++ [(c, e)]) p.newVersion := by
  have hrec : ∀ s ∈ trace ++ [(c, e)], ∀ p ∈ handed maxJnlSize s.1 s.2,
      Received (trace ++ [(c, e)]) p.newVersion := by
    intro s hs p hp
    rw [received_snoc]
    rcases List.mem_append.1 hs with hs | hs
    · exact .inl (h.handed_received s hs p hp)
    · rw [List.mem_singleton.1 hs] at hp
      rcases receivedBy_mem_handed hp with hnew | ⟨hold, -⟩
      · exact .inr ⟨p, hnew, rfl⟩
      · exact .inl (h.queue_received p hold)
  refine ⟨fun s hs p hp map hmap hv => ?_, hrec⟩
  rcases learned_snoc.1 hmap with hmap | hmap
  · rcases List.mem_append.1 hs with hs | hs
    · exact h.tied s hs p hp map hmap hv
    · rw [List.mem_singleton.1 hs] at hp
      rcases receivedBy_mem_handed hp with hnew | ⟨hold, hread⟩
      · exact h.received_tied hok hnew hmap hv.symm
      · exact h.queue_tied hread map hmap p hold hv.symm
  · -- the version is given by this very event, that is no patch: it was not received before
    have hnone : receivedBy c e = none := by
      cases e with
      | answer kw now seq status compl => rfl
      | _ => cases hmap
    rcases received_snoc.1 (hrec s hs p hp) with hbefore | ⟨q, hq, -⟩
    · exact absurd (hv ▸ hbefore) (hok.1 map hmap).1
    · rw [hnone] at hq
      cases hq

/-! ## One event -/

/-- The patches left by `try_apply` were in the queue; only the one that was refused has changed. -/
theorem tryApplyLoop_left (maxJnlSize : Nat) (sys : Sys) (m : Mdir) (patches : List Patch) :
    ∀ q ∈ (tryApplyLoop sys maxJnlSize m patches).2.1, ∃ q' ∈ patches, q.newVersion = q'.newVersion ∧
      ((tryApplyLoop sys maxJnlSize m patches).2.2 = .ok () → q = q') := by
  induction patches generalizing m with
  | nil =>
      intro q hq
      cases hq
  | cons p ps ih =>
      have hhead : ∀ hd, ∀ q ∈ { p with header := hd } :: ps, ∃ q' ∈ p :: ps,
          q.newVersion = q'.newVersion := by
        intro hd q hq
        rcases List.mem_cons.1 hq with rfl | hq
        · exact ⟨p, List.mem_cons_self, rfl⟩
        · exact ⟨q, List.mem_cons_of_mem _ hq, rfl⟩
      unfold tryApplyLoop
      split_ifs
      · exact fun q hq => ⟨q, hq, rfl, fun _ => rfl⟩
      · simp only
        split
        · intro q hq
          rcases hhead _ q hq with ⟨q', hq', hv⟩
          exact ⟨q', hq', hv, fun h => by cases h⟩
        · split_ifs
          · intro q hq
            rcases hhead _ q hq with ⟨q', hq', hv⟩
            exact ⟨q', hq', hv, fun h => by cases h⟩
          · intro q hq
            rcases ih _ q hq with ⟨q', hq', hrest⟩
            exact ⟨q', List.mem_cons_of_mem _ hq', hrest⟩
      · exact fun q hq => ⟨q, hq, rfl, fun _ => rfl⟩

/-- What an event does to the queue and to the maps. -/
structure Moves (c : Mdirc) (e : Event) (c' : Mdirc) : Prop where
  reading : c'.reading = true → c.reading = true
  patches : ∀ q ∈ c'.patches, ∃ q', (q' ∈ c.patches ∨ receivedBy c e = some q') ∧
    q.newVersion = q'.newVersion ∧ (c'.reading = true → q = q')
  maps : ∀ map ∈ c'.c2lMaps, map ∈ c.c2lMaps ∨ learnedBy c e = some map
  kept : ∀ map, map ∈ c.c2lMaps ∨ learnedBy c e = some map →
    (∀ p, receivedBy c e = some p → p.newVersion ≠ map.central) → map ∈ c'.c2lMaps

/-- An event that is not for the reader. -/
theorem Moves.of_frame {c' : Mdirc} (hq : SameQueue c c') (hm : c'.c2lMaps = c.c2lMaps)
    (hl : learnedBy c e = none) : Moves c e c' := by
  refine ⟨fun h => hq.reading ▸ h, fun q hmem => ⟨q, .inl (hq.patches ▸ hmem), rfl, fun _ => rfl⟩,
    fun map hmem => .inl (hm ▸ hmem), fun map hmem _ => ?_⟩
  rcases hmem with hmem | hmem
  · exact hm ▸ hmem
  · rw [hl] at hmem
    cases hmem

theorem Moves.of_answer {kw : Kw} {now seq status : Int} {compl : Bytes} {c' : Mdirc}
    (hread : c.reading = true) (h : readerOutcome (finalize c kw now seq status compl) = some c') :
    Moves c (.answer kw now seq status compl) c' := by
  rcases finalize_frame c kw now seq status compl with ⟨hq, hm, -⟩
  have hlearn : learnedBy c (.answer kw now seq status compl) = learned c kw now seq status compl := by
    simp [learnedBy, hread]
  have hstate : c'.patches = c.patches ∧
      c'.c2lMaps = (learned c kw now seq status compl).toList ++ c.c2lMaps := by
    rcases hf : finalize c kw now seq status compl with ⟨c₁, r⟩
    rw [hf] at h hq hm
    rcases readerOutcome_some h with ⟨-, rfl⟩ | ⟨_, _, -, rfl⟩
    · exact ⟨hq.patches, hm⟩
    · exact ⟨hq.patches, hm⟩
  refine ⟨fun _ => hread, fun q hmem => ⟨q, .inl (hstate.1 ▸ hmem), rfl, fun _ => rfl⟩, ?_, ?_⟩
  · intro map hmem
    rw [hstate.2] at hmem
    rcases List.mem_append.1 hmem with hmem | hmem
    · exact .inr (hlearn ▸ Option.mem_toList.1 hmem)
    · exact .inl hmem
  · intro map hmem _
    rw [hstate.2]
    rcases hmem with hmem | hmem
    · exact List.mem_append_right _ hmem
    · exact List.mem_append_left _ (Option.mem_toList.2 (hlearn ▸ hmem))

omit [Host] in
/-- Only the map of the version received is used up. -/
theorem tieLocalId_maps (maps : List C2lMap) (v : Int) (h : Header) :
    (tieLocalId maps v h).2 ⊆ maps ∧
      ∀ map ∈ maps, map.central ≠ v → map ∈ (tieLocalId maps v h).2 := by
  unfold tieLocalId
  cases hs : c2lSearch maps v with
  | none => exact ⟨List.Subset.refl _, fun map hmem _ => hmem⟩
  | some c2l =>
      have hcen : c2l.central = v := by simpa using List.find?_some hs
      refine ⟨List.erase_subset, fun map hmem hne => ?_⟩
      refine (List.mem_erase_of_ne ?_).2 hmem
      rintro rfl
      exact hne hcen

theorem Moves.of_patch {sys : Sys} {oldVersion newVersion : Int} {action fd : Bytes} {c' : Mdirc}
    (hread : c.reading = true)
    (h : readerOutcome (patchService sys maxJnlSize c oldVersion newVersion action fd) = some c') :
    Moves c (.patch sys oldVersion newVersion action fd) c' := by
  cases hrec : received c oldVersion newVersion action fd with
  | none =>
      rcases patchService_of_refused hrec sys maxJnlSize with ⟨e, he⟩
      have hstate : c'.patches = c.patches ∧ c'.c2lMaps = c.c2lMaps := by
        rw [he] at h
        rcases readerOutcome_some h with ⟨-, rfl⟩ | ⟨_, _, -, rfl⟩ <;> exact ⟨rfl, rfl⟩
      refine ⟨fun _ => hread, fun q hmem => ⟨q, .inl (hstate.1 ▸ hmem), rfl, fun _ => rfl⟩,
        fun map hmem => .inl (hstate.2 ▸ hmem), fun map hmem _ => ?_⟩
      rcases hmem with hmem | hmem
      · exact hstate.2 ▸ hmem
      · cases hmem
  | some r =>
      rcases r with ⟨p, maps⟩
      have hby : receivedBy c (.patch sys oldVersion newVersion action fd) = some p := by
        simp [receivedBy, hread, hrec]
      have hmaps : maps ⊆ c.c2lMaps ∧ ∀ map ∈ c.c2lMaps, map.central ≠ p.newVersion → map ∈ maps := by
        unfold received at hrec
        split at hrec
        · cases hrec
          exact tieLocalId_maps ..
        · cases hrec
      -- what `try_apply` leaves of the queue
      have hstate : c'.c2lMaps = maps ∧ ∀ q ∈ c'.patches, ∃ q' ∈ insertPatch p c.patches,
          q.newVersion = q'.newVersion ∧ (c'.reading = true → q = q') := by
        rw [patchService_of_received hrec] at h
        unfold tryApply at h
        split_ifs at h
        · rcases readerOutcome_some h with ⟨-, rfl⟩ | ⟨_, _, -, rfl⟩ <;>
            exact ⟨rfl, fun q hmem => ⟨q, hmem, rfl, fun _ => rfl⟩⟩
        · have hleft := tryApplyLoop_left maxJnlSize sys c.mdir (insertPatch p c.patches)
          rcases hloop : tryApplyLoop sys maxJnlSize c.mdir (insertPatch p c.patches) with ⟨m, ps, r⟩
          rw [hloop] at hleft
          simp only [hloop] at h
          rcases readerOutcome_some h with ⟨hr, rfl⟩ | ⟨_, _, -, rfl⟩
          · refine ⟨rfl, fun q hmem => ?_⟩
            rcases hleft q hmem with ⟨q', hq', hv, heq⟩
            exact ⟨q', hq', hv, fun _ => heq hr⟩
          · refine ⟨rfl, fun q hmem => ?_⟩
            rcases hleft q hmem with ⟨q', hq', hv, -⟩
            exact ⟨q', hq', hv, fun hf => by cases hf⟩
      refine ⟨fun _ => hread, fun q hmem => ?_, fun map hmem => .inl (hmaps.1 (hstate.1 ▸ hmem)),
        fun map hmem hne => ?_⟩
      · rcases hstate.2 q hmem with ⟨q', hq', hrest⟩
        rcases mem_insertPatch hq' with rfl | hq'
        · exact ⟨q', .inr hby, hrest⟩
        · exact ⟨q', .inl hq', hrest⟩
      · rcases hmem with hmem | hmem
        · exact hstate.1 ▸ hmaps.2 map hmem (hne p hby).symm
        · cases hmem

theorem handle_moves {c' : Mdirc} (h : handle maxJnlSize c e = some c') : Moves c e c' := by
  cases e with
  | files files =>
      cases h
      exact Moves.of_frame ⟨rfl, rfl, rfl⟩ rfl rfl
  | otherQuery now written =>
      cases h
      exact Moves.of_frame ⟨rfl, rfl, rfl⟩ rfl rfl
  | subscribe new hidden now written =>
      cases h
      rcases subscribe_frame c new hidden now written with ⟨hq, hm, -⟩
      exact Moves.of_frame hq hm rfl
  | transients entries now =>
      cases h
      rcases lsTransients_frame c entries now with ⟨hq, hm, -⟩
      exact Moves.of_frame hq hm rfl
  | answer kw now seq status compl =>
      simp only [handle] at h
      split_ifs at h with hread
      · exact Moves.of_answer hread h
      · cases h
        exact Moves.of_frame (SameQueue.refl c) rfl (by simp [learnedBy, hread])
  | patch sys oldVersion newVersion action fd =>
      simp only [handle] at h
      split_ifs at h with hread
      · exact Moves.of_patch hread h
      · cases h
        exact Moves.of_frame (SameQueue.refl c) rfl rfl

/-! ## Runs -/

theorem Ties.step (h : Ties maxJnlSize trace c) (hok : AnswerFirst trace c e) {c' : Mdirc}
    (hm : Moves c e c') : Ties maxJnlSize (trace ++ [(c, e)]) c' := by
  rcases h.tied_snoc hok with ⟨htied, hhanded⟩
  refine ⟨htied, hhanded, ?_, ?_, ?_, ?_, ?_⟩
  · intro q hq
    rcases hm.patches q hq with ⟨q', hq' | hq', hv, -⟩
    · exact received_snoc.2 (.inl (hv ▸ h.queue_received q' hq'))
    · exact received_snoc.2 (.inr ⟨q', hq', hv.symm⟩)
  · intro map hmap
    rcases hm.maps map hmap with hmap | hmap
    · exact learned_snoc.2 (.inl (h.maps_learned map hmap))
    · exact learned_snoc.2 (.inr hmap)
  · intro map hmap hnot
    rw [received_snoc, not_or] at hnot
    refine hm.kept map ?_ fun p hp hv => hnot.2 ⟨p, hp, hv⟩
    exact (learned_snoc.1 hmap).imp_left fun hl => h.waiting map hl hnot.1
  · intro map map' hmap hmap' hv
    rcases learned_snoc.1 hmap with hl | hl
    · rcases learned_snoc.1 hmap' with hl' | hl'
      · exact h.unique map map' hl hl' hv
      · exact absurd hv ((hok.1 map' hl').2 map hl)
    · rcases learned_snoc.1 hmap' with hl' | hl'
      · exact absurd hv.symm ((hok.1 map hl).2 map' hl')
      · rw [hl] at hl'
        exact Option.some.inj hl'
  · intro hread map hmap q hq hv
    rcases hm.patches q hq with ⟨q', hq', -, heq⟩
    obtain rfl := heq hread
    rcases learned_snoc.1 hmap with hl | hl
    · rcases hq' with hq' | hq'
      · exact h.queue_tied (hm.reading hread) map hl q hq' hv
      · exact h.received_tied hok hq' hl hv
    · -- a version just given was not received, neither before nor now
      rcases hq' with hq' | hq'
      · exact absurd (hv ▸ h.queue_received q hq') (hok.1 map hl).1
      · cases e with
        | answer kw now seq status compl => cases hq'
        | _ => cases hl

theorem Ties.start (m : Mdir) (cnx : Cnx (Option Command)) (files : Bytes → Option Bytes) :
    Ties maxJnlSize [] (Mdirc.new m cnx files) := by
  have hnone : ∀ map, ¬ Learned [] map := by
    rintro map ⟨s, hs, -⟩
    cases hs
  constructor
  · exact fun s hs => absurd hs List.not_mem_nil
  · exact fun s hs => absurd hs List.not_mem_nil
  · exact fun p hp => absurd hp List.not_mem_nil
  · exact fun map hmap => absurd hmap List.not_mem_nil
  · exact fun map hmap => absurd hmap (hnone map)
  · exact fun map _ hmap => absurd hmap (hnone map)
  · exact fun _ map hmap => absurd hmap (hnone map)

/-- In every run where answers come first, whatever event comes next, the headers handed to
`mdir_patch` are tied to their transient numbers. -/
theorem tied_to_transient_of_run {m : Mdir} {cnx : Cnx (Option Command)} {files : Bytes → Option Bytes}
    (run : ClientRun maxJnlSize AnswerFirst (Mdirc.new m cnx files) trace c)
    (hok : AnswerFirst trace c e) : TiedToTransient maxJnlSize (trace ++ [(c, e)]) := by
  have hties : Ties maxJnlSize trace c := by
    exact ClientRun.invariant (P := Ties maxJnlSize) (Ties.start m cnx files)
      (fun hP hok h => hP.step hok (handle_moves h)) run
  exact (hties.tied_snoc hok).1

omit [Host] in
/-- The answer comes first, then the patch: it is handed over with its number. -/
theorem tied_to_transient_of_run_sample :
    let _ := plainHost
    let c₁ := (lsTransients oneTransient (.ok [(ascii "+5", none)]) 0).1
    let c₂ := (finalize c₁ .put 1 1 200 (ascii "1")).1
    TiedToTransient 10 [(oneTransient, .transients (.ok [(ascii "+5", none)]) 0),
      (c₁, .answer .put 1 1 200 (ascii "1")),
      (c₂, .patch quietSys 0 1 (ascii "+") (ascii "sc-type: im\n\n"))] := by
  intro _ c₁ c₂
  have run₁ : ClientRun 10 AnswerFirst oneTransient
      ([] ++ [(oneTransient, .transients (.ok [(ascii "+5", none)]) 0)]) c₁ :=
    ClientRun.step _ ClientRun.start ⟨fun map h => (by cases h), fun p h => (by cases h)⟩ rfl
  have run₂ : ClientRun 10 AnswerFirst oneTransient
      ([] ++ [(oneTransient, .transients (.ok [(ascii "+5", none)]) 0)] ++
        [(c₁, .answer .put 1 1 200 (ascii "1"))]) c₂ := by
    refine ClientRun.step _ run₁ ⟨fun map _ => ⟨?_, ?_⟩, fun p h => (by cases h)⟩
      (handle_answer_ok (by decide) (eq_ok_of_toOption (by decide)))
    · rintro ⟨s, hs, p, hp, -⟩
      rw [List.mem_singleton.1 hs] at hp
      cases hp
    · rintro map' ⟨s, hs, hl⟩
      rw [List.mem_singleton.1 hs] at hl
      cases hl
  refine tied_to_transient_of_run run₂ ⟨fun map h => (by cases h), fun p _ _ => ⟨?_, ?_⟩⟩
  · rintro ⟨s, hs, q, hq, -⟩
    simp only [List.nil_append, List.singleton_append, List.mem_cons, List.not_mem_nil, or_false] at hs
    rcases hs with rfl | rfl <;> cases hq
  · intro h hh
    have hsent : sentHeader (.patch quietSys 0 1 (ascii "+") (ascii "sc-type: im\n\n")) =
        some [⟨ascii "sc-type", ascii "im"⟩] := by decide
    rw [hsent] at hh
    cases hh
    decide

omit [Host] in
/-- The patch is received while the answer is waited for: it is handed over later without number. -/
theorem untied_when_patch_first :
    let _ := plainHost
    ∃ trace c, ClientRun 10 (fun _ _ _ => True) oneTransient trace c ∧ ¬ TiedToTransient 10 trace := by
  intro _
  let patch₁ : Event := .patch quietSys 0 1 (ascii "+") (ascii "sc-type: im\n\n")
  let patch₂ : Event := .patch quietSys 1 2 (ascii "+") (ascii "sc-type: im\n\n")
  let c₁ := (lsTransients oneTransient (.ok [(ascii "+5", none)]) 0).1
  let c₂ := (patchService quietSys 10 c₁ 0 1 (ascii "+") (ascii "sc-type: im\n\n")).1
  let c₃ := (finalize c₂ .put 1 1 200 (ascii "1")).1
  let c₄ := (patchService quietSys 10 c₃ 1 2 (ascii "+") (ascii "sc-type: im\n\n")).1
  have run₁ : ClientRun 10 (fun _ _ _ => True) oneTransient _ c₁ :=
    ClientRun.step (.transients (.ok [(ascii "+5", none)]) 0) ClientRun.start trivial rfl
  have run₂ : ClientRun 10 (fun _ _ _ => True) oneTransient _ c₂ :=
    ClientRun.step patch₁ run₁ trivial
      (handle_patch_ok (by decide) (eq_ok_of_toOption (by decide)))
  have run₃ : ClientRun 10 (fun _ _ _ => True) oneTransient _ c₃ :=
    ClientRun.step (.answer .put 1 1 200 (ascii "1")) run₂ trivial
      (handle_answer_ok (by decide) (eq_ok_of_toOption (by decide)))
  have run₄ : ClientRun 10 (fun _ _ _ => True) oneTransient _ c₄ :=
    ClientRun.step patch₂ run₃ trivial
      (handle_patch_ok (by decide) (eq_ok_of_toOption (by decide)))
  refine ⟨_, c₄, run₄, fun htied => ?_⟩
  have hhanded : ⟨0, 1, [⟨ascii "sc-type", ascii "im"⟩], .add⟩ ∈ handed 10 c₃ patch₂ := by
    decide
  have hlearned : learnedBy c₂ (.answer .put 1 1 200 (ascii "1")) = some ⟨1, 5⟩ := by decide
  have hids := htied (c₃, patch₂) (by simp) _ hhanded ⟨1, 5⟩
    ⟨(c₂, .answer .put 1 1 200 (ascii "1")), by simp, hlearned⟩ rfl
  revert hids
  decide

end Handed

end Scambio
