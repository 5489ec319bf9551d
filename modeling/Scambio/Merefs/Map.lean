import Scambio.Merefs.File

/-!
# Map — the saved map of merefs (`merefs/map.c`)

The map is a list of files of which the name and the digest matter.  It is saved as a sequence of records of
a fixed size, over what the file held before.  `mapSurvives_iff` tells when what is loaded is what was saved.
-/

namespace Scambio

open Library

/-! ## The functions of `map.c` -/

/-- The bytes of an array of `size` bytes that holds `s`; `slack` is what the memory holds after the NUL. -/
def arrayBytes (size : Nat) (s slack : Bytes) : Bytes :=
  (s ++ 0 :: slack).takeD size 0

/-- What `map_save` writes for a file. -/
def mapRecord (file : MereFile) (slack : Bytes × Bytes) : Bytes :=
  arrayBytes PATH_MAX file.name slack.1 ++ arrayBytes (MAX_DIGEST_STRLEN + 1) file.digest slack.2

def mapRecords (slack : Nat → Bytes × Bytes) : Nat → List MereFile → Bytes
  | _, [] => []
  | n, file :: files => mapRecord file (slack n) ++ mapRecords slack (n + 1) files

/-- `map_save`: what is in the file then.  It is opened with `O_WRONLY` alone, so that the end of what it held
remains. -/
def mapSave (slack : Nat → Bytes × Bytes) (files : List MereFile) (before : Bytes) : Bytes :=
  mapRecords slack 0 files ++ before.drop (mapRecords slack 0 files).length

/-- The loop of `map_load`; each round reads a byte at least. -/
def mapLoadLoop : Nat → Bytes → List MereFile → List MereFile × Option Err
  | 0, _, files => (files, none)
  | fuel + 1, fd, files =>
      -- the end of file is an error with code 0, which is cleared
      if fd.length < PATH_MAX then (files, none)
      else
        let path := cstr (fd.take PATH_MAX)
        let fd := fd.drop PATH_MAX
        if fd.length < MAX_DIGEST_STRLEN + 1 then (files, some (.push 0 (ascii "EOF")))
        else
          let digest := cstr (fd.take (MAX_DIGEST_STRLEN + 1))
          mapLoadLoop fuel (fd.drop (MAX_DIGEST_STRLEN + 1)) (fileNew files path digest [] 0)

/-- `map_load`: the files, and the error that is left. -/
def mapLoad (fd : Bytes) : List MereFile × Option Err :=
  mapLoadLoop (fd.length + 1) fd []

def mapGetDigest (files : List MereFile) (fname : Bytes) : Option Bytes :=
  (fileSearch files fname).map MereFile.digest

/-- `file_set_digest` on the first file of that name. -/
def setDigest (name digest : Bytes) : List MereFile → List MereFile
  | [] => []
  | file :: files =>
      if file.name = name then { file with digest := snprintf (MAX_DIGEST_STRLEN + 1) digest } :: files
      else file :: setDigest name digest files

def mapSet (files : List MereFile) (fname digest : Bytes) : List MereFile :=
  match fileSearch files fname with
  | some _ => setDigest (sanitize fname) digest files
  | none => fileNew files fname digest [] 0

/-! ## Records -/

/-- What `file_ctor` makes, with a digest that fits. -/
structure MereFile.Fits (file : MereFile) : Prop where
  relative : sanitize file.name = file.name
  name_length : file.name.length < PATH_MAX
  name_nul : (0 : UInt8) ∉ file.name
  digest_length : file.digest.length ≤ MAX_DIGEST_STRLEN
  digest_nul : (0 : UInt8) ∉ file.digest

instance MereFile.decidableFits (file : MereFile) : Decidable file.Fits :=
  decidable_of_iff
    (sanitize file.name = file.name ∧ file.name.length < PATH_MAX ∧ (0 : UInt8) ∉ file.name ∧
      file.digest.length ≤ MAX_DIGEST_STRLEN ∧ (0 : UInt8) ∉ file.digest)
    ⟨fun h => ⟨h.1, h.2.1, h.2.2.1, h.2.2.2.1, h.2.2.2.2⟩,
      fun h => ⟨h.relative, h.name_length, h.name_nul, h.digest_length, h.digest_nul⟩⟩

theorem length_arrayBytes (size : Nat) (s slack : Bytes) : (arrayBytes size s slack).length = size :=
  List.takeD_length _ _ _

/-- The string stands at the start of the array, with its NUL. -/
theorem arrayBytes_eq {size : Nat} {s : Bytes} (hlen : s.length < size) (slack : Bytes) :
    ∃ rest, arrayBytes size s slack = s ++ 0 :: rest := by
  unfold arrayBytes
  induction s generalizing size with
  | nil =>
      obtain ⟨n, rfl⟩ : ∃ n, size = n + 1 := ⟨size - 1, by simp at hlen; omega⟩
      exact ⟨_, rfl⟩
  | cons c s ih =>
      obtain ⟨n, rfl⟩ : ∃ n, size = n + 1 := ⟨size - 1, by simp at hlen; omega⟩
      rcases ih (by simpa using hlen) with ⟨rest, hrest⟩
      exact ⟨rest, congrArg (c :: ·) hrest⟩

theorem cstr_arrayBytes {size : Nat} {s : Bytes} (hlen : s.length < size) (hnul : (0 : UInt8) ∉ s) (slack : Bytes) :
    cstr (arrayBytes size s slack) = s := by
  rcases arrayBytes_eq hlen slack with ⟨rest, hrest⟩
  have hend : cstr (0 :: rest) = [] := rfl
  rw [hrest, cstr_append hnul, hend, List.append_nil]

theorem length_mapRecord (file : MereFile) (slack : Bytes × Bytes) :
    (mapRecord file slack).length = PATH_MAX + (MAX_DIGEST_STRLEN + 1) := by
  rw [mapRecord, List.length_append, length_arrayBytes, length_arrayBytes]

theorem length_mapRecords (slack : Nat → Bytes × Bytes) (n : Nat) (files : List MereFile) :
    (mapRecords slack n files).length = files.length * (PATH_MAX + (MAX_DIGEST_STRLEN + 1)) := by
  induction files generalizing n with
  | nil => simp [mapRecords]
  | cons file files ih =>
      rw [mapRecords, List.length_append, length_mapRecord, ih, List.length_cons, Nat.succ_mul, Nat.add_comm]

/-- The records of the last files are at the end. -/
theorem drop_mapRecords (slack : Nat → Bytes × Bytes) (n k : Nat) (files : List MereFile) :
    (mapRecords slack n files).drop (k * (PATH_MAX + (MAX_DIGEST_STRLEN + 1))) =
      mapRecords slack (n + k) (files.drop k) := by
  induction k generalizing n files with
  | zero => simp
  | succ k ih =>
      cases files with
      | nil => simp [mapRecords]
      | cons file files =>
          have hfirst : (k + 1) * (PATH_MAX + (MAX_DIGEST_STRLEN + 1)) =
              (mapRecord file (slack n)).length + k * (PATH_MAX + (MAX_DIGEST_STRLEN + 1)) := by
            rw [length_mapRecord, Nat.succ_mul, Nat.add_comm]
          rw [mapRecords, hfirst, ← List.drop_drop, List.drop_left, ih, List.drop_succ_cons]
          congr 1
          omega

/-- What is loaded of a record. -/
def MereFile.loaded (file : MereFile) : MereFile :=
  { file with resource := [], version := 0 }

theorem fileCtor_of_fits {file : MereFile} (h : file.Fits) : fileCtor file.name file.digest [] 0 = file.loaded := by
  have hname := h.name_length
  have hdigest := h.digest_length
  have hmax : MAX_DIGEST_STRLEN = 64 := rfl
  rw [fileCtor, h.relative, snprintf, snprintf, snprintf, List.take_of_length_le (by omega),
    List.take_of_length_le (by omega)]
  rfl

/-- One round of `map_load`. -/
theorem mapLoadLoop_record {file : MereFile} (h : file.Fits) (fuel : Nat) (slack : Bytes × Bytes) (fd : Bytes)
    (files : List MereFile) :
    mapLoadLoop (fuel + 1) (mapRecord file slack ++ fd) files = mapLoadLoop fuel fd (file.loaded :: files) := by
  have hdigest := h.digest_length
  have hname : ∀ x, (arrayBytes PATH_MAX file.name slack.1 ++ x).take PATH_MAX = arrayBytes PATH_MAX file.name slack.1 :=
    fun x => List.take_left' (length_arrayBytes _ _ _)
  have hrest : ∀ x, (arrayBytes PATH_MAX file.name slack.1 ++ x).drop PATH_MAX = x :=
    fun x => List.drop_left' (length_arrayBytes _ _ _)
  have hread : ∀ x, (arrayBytes (MAX_DIGEST_STRLEN + 1) file.digest slack.2 ++ x).take (MAX_DIGEST_STRLEN + 1) =
      arrayBytes (MAX_DIGEST_STRLEN + 1) file.digest slack.2 := fun x => List.take_left' (length_arrayBytes _ _ _)
  have hrest' : ∀ x, (arrayBytes (MAX_DIGEST_STRLEN + 1) file.digest slack.2 ++ x).drop (MAX_DIGEST_STRLEN + 1) = x :=
    fun x => List.drop_left' (length_arrayBytes _ _ _)
  rw [mapLoadLoop, mapRecord, List.append_assoc]
  simp only [hname, hrest, hread, hrest', List.length_append, length_arrayBytes]
  rw [if_neg (by omega), if_neg (by omega), cstr_arrayBytes h.name_length h.name_nul,
    cstr_arrayBytes (by omega) h.digest_nul, fileNew, fileCtor_of_fits h]

theorem mapLoadLoop_end (fuel : Nat) (files : List MereFile) : mapLoadLoop fuel [] files = (files, none) := by
  cases fuel with
  | zero => rfl
  | succ fuel => exact if_pos (by decide)

theorem mapLoadLoop_records {files : List MereFile} (h : ∀ f ∈ files, f.Fits) (slack : Nat → Bytes × Bytes) (n : Nat)
    (fuel : Nat) (hfuel : files.length ≤ fuel) (fd : Bytes) (acc : List MereFile) :
    mapLoadLoop fuel (mapRecords slack n files ++ fd) acc =
      mapLoadLoop (fuel - files.length) fd ((files.map MereFile.loaded).reverse ++ acc) := by
  induction files generalizing n fuel acc with
  | nil => rfl
  | cons file files ih =>
      obtain ⟨fuel, rfl⟩ : ∃ f, fuel = f + 1 := ⟨fuel - 1, by simp at hfuel; omega⟩
      rw [mapRecords, List.append_assoc, mapLoadLoop_record (h file List.mem_cons_self),
        ih (fun f hf => h f (List.mem_cons_of_mem _ hf)) _ _ (by simpa using hfuel)]
      simp

/-- What is loaded once the map is saved over an older one: the last record first, and what remains of the
older one before. -/
theorem mapLoad_mapSave {files older : List MereFile} (h : ∀ f ∈ files, f.Fits) (holder : ∀ f ∈ older, f.Fits)
    (slack slack' : Nat → Bytes × Bytes) :
    mapLoad (mapSave slack files (mapRecords slack' 0 older)) =
      (((files ++ older.drop files.length).map MereFile.loaded).reverse, none) := by
  have hsaved : mapSave slack files (mapRecords slack' 0 older) =
      mapRecords slack 0 files ++ (mapRecords slack' files.length (older.drop files.length) ++ []) := by
    rw [mapSave, length_mapRecords, drop_mapRecords, Nat.zero_add, List.append_nil]
  have hdrop : ∀ f ∈ older.drop files.length, f.Fits := fun f hf => holder f (List.mem_of_mem_drop hf)
  have hcount : files.length + (older.drop files.length).length ≤
      (mapSave slack files (mapRecords slack' 0 older)).length := by
    rw [hsaved, List.append_nil, List.length_append, length_mapRecords, length_mapRecords]
    have hpos : 0 < PATH_MAX + (MAX_DIGEST_STRLEN + 1) := by decide
    exact Nat.add_le_add (Nat.le_mul_of_pos_right _ hpos) (Nat.le_mul_of_pos_right _ hpos)
  rw [mapLoad, hsaved] at *
  rw [mapLoadLoop_records h _ _ _ (by omega), mapLoadLoop_records hdrop _ _ _ (by omega), mapLoadLoop_end]
  simp

/-! ## Looking up -/

/-- The digest in the first record of a name. -/
def firstDigest (files : List MereFile) (name : Bytes) : Option Bytes :=
  (files.find? fun file => file.name == name).map MereFile.digest

/-- The digest in the last record of a name. -/
def lastDigest (files : List MereFile) (name : Bytes) : Option Bytes :=
  firstDigest files.reverse name

theorem mapGetDigest_eq (files : List MereFile) (fname : Bytes) :
    mapGetDigest files fname = firstDigest files (sanitize fname) :=
  rfl

theorem firstDigest_append (files files' : List MereFile) (name : Bytes) :
    firstDigest (files ++ files') name = (firstDigest files name).or (firstDigest files' name) := by
  rw [firstDigest, List.find?_append]
  cases hfind : files.find? fun file => file.name == name <;> simp [firstDigest, hfind]

theorem lastDigest_append (files files' : List MereFile) (name : Bytes) :
    lastDigest (files ++ files') name = (lastDigest files' name).or (lastDigest files name) := by
  rw [lastDigest, List.reverse_append, firstDigest_append]
  rfl

theorem firstDigest_loaded (files : List MereFile) (name : Bytes) :
    firstDigest (files.map MereFile.loaded) name = firstDigest files name := by
  rw [firstDigest, List.find?_map, Option.map_map]
  rfl

/-- A name that has a digest is one of a file. -/
theorem firstDigest_eq_some {files : List MereFile} {name d : Bytes} (h : firstDigest files name = some d) :
    ∃ file ∈ files, file.name = name ∧ file.digest = d := by
  rcases Option.map_eq_some_iff.1 h with ⟨file, hfind, hd⟩
  exact ⟨file, List.mem_of_find?_eq_some hfind, by simpa using List.find?_some hfind, hd⟩

theorem sanitize_of_firstDigest {files : List MereFile} (h : ∀ f ∈ files, f.Fits) {name d : Bytes}
    (hd : firstDigest files name = some d) : sanitize name = name := by
  rcases firstDigest_eq_some hd with ⟨file, hmem, rfl, -⟩
  exact (h file hmem).relative

/-- The records of the older map that remain give the names of the new one their digests, the last record of
a name being the one that counts; and the other names have the same digest in their first and last records. -/
structure MapFits (files older : List MereFile) : Prop where
  leftover : ∀ name d, lastDigest (older.drop files.length) name = some d → firstDigest files name = some d
  same : ∀ name, lastDigest (older.drop files.length) name = none → lastDigest files name = firstDigest files name

/-- What is loaded after a save answers as what was saved. -/
def MapSurvives (slack slack' : Nat → Bytes × Bytes) (files older : List MereFile) : Prop :=
  (mapLoad (mapSave slack files (mapRecords slack' 0 older))).2 = none ∧
    ∀ fname, mapGetDigest (mapLoad (mapSave slack files (mapRecords slack' 0 older))).1 fname =
      mapGetDigest files fname

theorem mapGetDigest_saved {files older : List MereFile} (h : ∀ f ∈ files, f.Fits) (holder : ∀ f ∈ older, f.Fits)
    (slack slack' : Nat → Bytes × Bytes) (fname : Bytes) :
    mapGetDigest (mapLoad (mapSave slack files (mapRecords slack' 0 older))).1 fname =
      (lastDigest (older.drop files.length) (sanitize fname)).or (lastDigest files (sanitize fname)) := by
  rw [mapLoad_mapSave h holder, mapGetDigest_eq, ← List.map_reverse, firstDigest_loaded, ← lastDigest,
    lastDigest_append]

/-- A map survives a save and a load if and only if it fits over the older one. -/
theorem mapSurvives_iff {files older : List MereFile} (h : ∀ f ∈ files, f.Fits) (holder : ∀ f ∈ older, f.Fits)
    (slack slack' : Nat → Bytes × Bytes) : MapSurvives slack slack' files older ↔ MapFits files older := by
  have hdrop : ∀ f ∈ (older.drop files.length).reverse, f.Fits := fun f hf =>
    holder f (List.mem_of_mem_drop (List.mem_reverse.1 hf))
  have hreverse : ∀ f ∈ files.reverse, f.Fits := fun f hf => h f (List.mem_reverse.1 hf)
  constructor
  · rintro ⟨-, hget⟩
    have hname : ∀ name, sanitize name = name →
        (lastDigest (older.drop files.length) name).or (lastDigest files name) = firstDigest files name := by
      intro name hrelative
      have hthis := hget name
      rw [mapGetDigest_saved h holder, mapGetDigest_eq, hrelative] at hthis
      exact hthis
    constructor
    · intro name d hd
      rw [← hname name (sanitize_of_firstDigest hdrop hd), hd]
      rfl
    · intro name hnone
      -- a name with a leading slash has no record at all
      by_cases hrelative : sanitize name = name
      · rw [← hname name hrelative, hnone]
        rfl
      · have hno : ∀ l : List MereFile, (∀ f ∈ l, f.Fits) → firstDigest l name = none := by
          intro l hl
          by_contra hsome
          rcases Option.ne_none_iff_exists'.1 hsome with ⟨d, hd⟩
          exact hrelative (sanitize_of_firstDigest hl hd)
        rw [lastDigest, hno _ hreverse, hno _ h]
  · intro hfits
    refine ⟨by rw [mapLoad_mapSave h holder], fun fname => ?_⟩
    rw [mapGetDigest_saved h holder, mapGetDigest_eq]
    cases hleft : lastDigest (older.drop files.length) (sanitize fname) with
    | none => exact hfits.same _ hleft
    | some d => exact (hfits.leftover _ d hleft).symm

/-- One file changes its digest, and the other one remains. -/
theorem mapSurvives_iff_sample :
    let a : MereFile := ⟨ascii "a", ascii "1", [], 0⟩
    let b : MereFile := ⟨ascii "b", ascii "2", [], 0⟩
    MapSurvives (fun _ => ([], [])) (fun _ => ([7], [7])) [{ a with digest := ascii "3" }, b] [a, b] := by
  intro a b
  have hfits : ∀ f ∈ [{ a with digest := ascii "3" }, b], f.Fits := by decide
  have hfits' : ∀ f ∈ [a, b], f.Fits := by decide
  refine (mapSurvives_iff hfits hfits' _ _).2 ⟨fun _ _ h => (nomatch h), fun name _ => ?_⟩
  by_cases ha : name = ascii "a"
  · rw [ha]
    decide
  · by_cases hb : name = ascii "b"
    · rw [hb]
      decide
    · simp [lastDigest, firstDigest, a, b, Ne.symm ha, Ne.symm hb]

/-- A file that left the map is still in the file. -/
theorem not_mapSurvives :
    ¬ ∀ (slack slack' : Nat → Bytes × Bytes) (files older : List MereFile), (∀ f ∈ files, f.Fits) →
      (∀ f ∈ older, f.Fits) → MapSurvives slack slack' files older := by
  intro h
  let a : MereFile := ⟨ascii "a", ascii "1", [], 0⟩
  have hnone : ∀ f ∈ ([] : List MereFile), f.Fits := fun _ hf => (nomatch hf)
  have hfits : ∀ f ∈ [a], f.Fits := by decide
  have hget := (h (fun _ => ([], [])) (fun _ => ([], [])) [] [a] hnone hfits).2 (ascii "a")
  have hsaved : mapGetDigest (mapLoad (mapSave (fun _ => ([], [])) []
      (mapRecords (fun _ => ([], [])) 0 [a]))).1 (ascii "a") = some (ascii "1") := by
    rw [mapGetDigest_saved hnone hfits]
    decide
  rw [hsaved] at hget
  cases hget

end Scambio
