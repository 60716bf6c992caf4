import ConceptScript.Files.Store

/-!
# `ConceptScript.Proofs.Files.Places`: where paths lead and what stands there

Following a path can fail because of what is stored. Where it ends, if it
can be followed, is decided by its parts alone: `find_eq_ok` says that this
is its `place`. So paths of one place are paths of one file, at any time.

What an operation does to the files is said place by place. Making
directories brings no file (`holds_of_makeDirectory`), and so does removing
one (`holds_of_remove`). Writing brings the file that is written, at the
place of its path, and only if the write succeeds (`holds_of_write`).
-/

set_option autoImplicit false

namespace ConceptScript.Files

/-- Where the parts of a path lead from a location, if each of them names a
directory that is there. -/
def Location.follow : Location → List (List Char) → Location
  | here, [] => here
  | here, part :: rest =>
    if FilePath.isVacuous part then follow here rest
    else if part = ['.', '.'] then follow here.above rest
    else follow (here.under part) rest

/-- Where a path leads, if it can be followed. -/
def FilePath.place (p : FilePath) : Location := (Location.startOf p).follow p.parts

/-- A path leads where its second part leads from where its first part does. -/
theorem Location.follow_append (here : Location) (parts more : List (List Char)) :
    here.follow (parts ++ more) = (here.follow parts).follow more := by
  induction parts generalizing here with
  | nil => rfl
  | cons part rest ih =>
    rw [List.cons_append, follow, follow]
    split
    · exact ih here
    · split
      · exact ih here.above
      · exact ih (here.under part)

/-- The text of a file, if its bytes are one. -/
def File.text (f : File) : Except FileError String :=
  match String.fromUTF8? f.content with
  | some text => .ok text
  | none => .error .notText

namespace Store

/-- A file stands at a location. -/
def Holds (s : Store) (l : Location) (f : File) : Prop := s.entry? l = some (.file f)

variable {s s' : Store} {l : Location} {f : File}

/-- No file stands in an empty store. -/
theorem not_holds_empty : ¬ empty.Holds l f := by
  unfold Holds entry?
  split
  · exact fun h => by cases h
  · exact fun h => by cases h

/-! ### Following a path -/

/-- A walk that gets to an entry is at the place that the path names, and a
file found there stands at it. Induction on the parts of the path. -/
theorem walk_eq_ok {here : Location} {parts : List (List Char)} {e : Entry}
    (h : s.walk here parts = .ok (l, e)) :
    l = here.follow parts ∧ ∀ f, e = .file f → s.Holds l f := by
  induction parts generalizing here with
  | nil =>
    cases h
    exact ⟨rfl, fun _ hfile => (by cases hfile)⟩
  | cons part rest ih =>
    -- A part names nothing, leads up, or leads to what the directory holds.
    rw [walk] at h
    rw [Location.follow]
    split at h
    · next hvacuous =>
      rw [if_pos hvacuous]
      exact ih h
    · next hnamed =>
      rw [if_neg hnamed]
      split at h
      · next hup =>
        rw [if_pos hup]
        exact ih h
      · next hdown =>
        rw [if_neg hdown]
        split at h
        · cases h
        · split at h
          · cases h
          · exact ih h
          · next file hfile =>
            -- A file ends the path.
            split at h
            · next hend =>
              cases h
              rw [List.isEmpty_iff.mp hend]
              refine ⟨rfl, fun f heq => ?_⟩
              cases heq
              exact hfile
            · cases h

/-- A path leads to its place, and a file that it leads to stands there. -/
theorem find_eq_ok {p : FilePath} {e : Entry} (h : s.find p = .ok (l, e)) :
    l = p.place ∧ ∀ f, e = .file f → s.Holds l f := by
  unfold find at h
  split at h
  · cases h
  · split at h
    · cases h
    · exact walk_eq_ok h

/-- A path that leads to a file: the file stands at the place of the path,
and it is what is read and whose time is told. -/
theorem exists_file_of_isFile {p : FilePath} (h : s.isFile p = true) :
    ∃ f, s.Holds p.place f ∧ s.modified? p = some (.ofFile f.modified)
      ∧ s.readText p = f.text := by
  unfold isFile at h
  split at h
  · next l f hfind =>
    obtain ⟨rfl, hholds⟩ := find_eq_ok hfind
    refine ⟨f, hholds f rfl, ?_, ?_⟩
    · simp only [modified?, hfind]
    · rw [readText, hfind]
      rfl
  · cases h

/-! ### Files after an operation -/

/-- Taking the entries of one location away leaves what is found elsewhere. -/
theorem find?_without (entries : List (Location × Entry)) (there l : Location) :
    (entries.filter (·.1 != there)).find? (·.1 == l)
      = if l = there then none else entries.find? (·.1 == l) := by
  rw [List.find?_filter]
  split
  · next heq =>
    subst heq
    simp
  · next hne =>
    refine congrArg (entries.find? ·) (funext fun entry => ?_)
    by_cases hentry : entry.1 = l <;> simp [hentry, hne]

/-- Taking away what stands at a location leaves what stands elsewhere. -/
theorem holds_of_without {there : Location}
    (h : Holds ⟨s.entries.filter (·.1 != there)⟩ l f) : s.Holds l f := by
  unfold Holds entry? at h ⊢
  rw [find?_without] at h
  split at h
  · cases h
  · next hnamed =>
    rw [if_neg hnamed]
    split at h
    · cases h
    · exact h

/-- A file in a store with one more entry was there before, or is the new
entry. -/
theorem holds_of_put {there : Location} {e : Entry} (h : (s.put there e).Holds l f) :
    s.Holds l f ∨ (l = there ∧ e = .file f) := by
  by_cases hl : l = there
  · subst hl
    unfold Holds put entry? at h
    split at h
    · cases h
    · simp at h
      exact .inr ⟨rfl, h⟩
  · -- Elsewhere the new entry is passed over.
    have hrest : Holds ⟨s.entries.filter (·.1 != there)⟩ l f := by
      unfold Holds put entry? at h
      unfold Holds entry?
      rwa [List.find?_cons_of_neg (by simpa using Ne.symm hl)] at h
    exact .inl (holds_of_without hrest)

/-- Making a directory puts no file anywhere. -/
theorem holds_of_makeOne {start : Location} {path : List (List Char)}
    (hmade : s.makeOne start path = .ok s') (h : s'.Holds l f) : s.Holds l f := by
  induction path with
  | nil =>
    rw [makeOne] at hmade
    split at hmade <;> cases hmade
  | cons part above ih =>
    rw [makeOne] at hmade
    split at hmade
    · exact ih hmade
    · split at hmade
      · cases hmade
      · split at hmade
        · cases hmade
        · split at hmade
          · cases hmade
          · split at hmade
            · cases hmade
            · cases hmade
              -- What is put is a directory.
              rcases holds_of_put h with hbefore | ⟨_, hfile⟩
              · exact hbefore
              · cases hfile

/-- Making several directories puts no file anywhere, also when one of them
cannot be made. -/
theorem holds_of_makeAll {start : Location} {paths : List (List (List Char))}
    (h : (s.makeAll start paths).2.Holds l f) : s.Holds l f := by
  induction paths generalizing s with
  | nil => exact h
  | cons path above ih =>
    rw [makeAll] at h
    split at h
    · next s' hmade => exact holds_of_makeOne hmade h
    · -- Something above was missing.
      have habove : (s.makeAll start above).2.Holds l f := by
        split at h
        · next s' heq =>
          rw [heq]
          exact h
        · next s' heq =>
          rw [heq]
          split at h
          · next s'' hmade => exact holds_of_makeOne hmade h
          · exact h
      exact ih habove
    · exact h

/-- No file comes from making a directory with those above it. -/
theorem holds_of_makeDirectory {p : FilePath} (h : (s.makeDirectory p).2.Holds l f) :
    s.Holds l f := by
  unfold makeDirectory at h
  split at h
  · exact h
  · exact holds_of_makeAll h

/-- A directory that a path leads to is at the place that the path names. -/
theorem directoryAt_eq_ok {start : Location} {parts : List (List Char)}
    (h : s.directoryAt start parts = .ok l) : l = start.follow parts := by
  unfold directoryAt at h
  split at h
  · cases h
  · cases h
  · next hwalk =>
    cases h
    exact (walk_eq_ok hwalk).1

/-- After a file was put at a path, every file stands where it stood before,
or is this one at the place of its path. -/
theorem holds_of_putFile {p : FilePath} {file : File} (hput : s.putFile p file = some s')
    (h : s'.Holds l f) : s.Holds l f ∨ (l = p.place ∧ f = file) := by
  unfold putFile at hput
  split at hput
  · next name above _ hparts =>
    split at hput
    · cases hput
    · next there hthere =>
      split at hput
      · cases hput
      · next hname =>
        split at hput
        · cases hput
        · cases hput
          -- The last part is a name, so it leads from the directory to the file.
          rw [not_or, not_or] at hname
          have hplace : p.place = there.under name := by
            have hparts : p.parts = above.reverse ++ [name] := by
              rw [← List.reverse_reverse p.parts, hparts, List.reverse_cons]
            rw [FilePath.place, hparts, Location.follow_append, ← directoryAt_eq_ok hthere,
              Location.follow, if_neg hname.1, if_neg hname.2.1]
            rfl
          rcases holds_of_put h with hbefore | ⟨rfl, hfile⟩
          · exact .inl hbefore
          · cases hfile
            exact .inr ⟨hplace.symm, rfl⟩
  · cases hput

/-- The store that a file is put into: its directory was made as needed, if
that is possible. -/
def readied (s : Store) (p : FilePath) : Bool × Store :=
  match p.parent with
  | none => (true, s)
  | some directory => s.makeDirectory directory

/-- Writing a file makes its directory first and puts the file there if that
went well. If either fails, the store with the directories that could be made
is left. -/
theorem write_eq (s : Store) (p : FilePath) (file : File) :
    s.write p file = if (s.readied p).1 = true then
        match (s.readied p).2.putFile p file with
        | some s' => (true, s')
        | none => (false, (s.readied p).2)
      else (false, (s.readied p).2) := rfl

/-- Making the store ready for a file puts no file into it. -/
theorem holds_of_readied {p : FilePath} (h : (s.readied p).2.Holds l f) : s.Holds l f := by
  unfold readied at h
  split at h
  · exact h
  · exact holds_of_makeDirectory h

/-- After a file was written, every file was there before, or it is the
one written. -/
theorem holds_of_write {p : FilePath} {file : File} (h : (s.write p file).2.Holds l f) :
    s.Holds l f ∨ ((s.write p file).1 = true ∧ l = p.place ∧ f = file) := by
  rw [write_eq] at h ⊢
  split at h
  · next hready =>
    rw [if_pos hready]
    split at h
    · next s' hput =>
      rcases holds_of_putFile hput h with hbefore | ⟨hplace, hfile⟩
      · exact .inl (holds_of_readied hbefore)
      · exact .inr ⟨rfl, hplace, hfile⟩
    · exact .inl (holds_of_readied h)
  · exact .inl (holds_of_readied h)

/-- Removing a file brings none. -/
theorem holds_of_remove {p : FilePath} (h : (s.remove p).2.Holds l f) : s.Holds l f := by
  unfold remove at h
  split at h
  · exact holds_of_without h
  · exact h

end Store

end ConceptScript.Files
