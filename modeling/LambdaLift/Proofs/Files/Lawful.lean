import LambdaLift.Files.Tree

/-!
# Laws of a file system

* `FileView`: a look at the states of a file system: what is at each place, and the place that a
  path leads to.
* `FileSystem.Lawful`: what each operation may change. A write does all or nothing.
* `FileSystem.Lawful.makeDirectories`: making a directory with those above it adds directories
  where there was nothing, and that is all, also if it fails on the way.
* `FileTree.lawful`: the file system in memory keeps the laws.
-/

namespace LambdaLift

/-- A run that starts with `x` goes on from where `x` ends. -/
theorem bind_of_run {σ α β : Type} {x : StateM σ α} {f : α → StateM σ β} {s t : σ} {a : α}
    (h : x s = (a, t)) : (x >>= f) s = f a t := by
  simp only [bind, StateT.bind, h]

/-- A look at the states `σ` of a file system. -/
structure FileView (σ ι : Type) where
  /-- What is at a place. -/
  entry : σ → ι → Option FileEntry
  /-- The place that a path leads to. There need not be anything there. -/
  place : σ → Path → Option ι

namespace FileView

variable {σ ι : Type} (view : FileView σ ι)

/-- Between two states, what is at a place stays, or the place got a directory and was free. -/
def Spared (s t : σ) (i : ι) : Prop :=
  view.entry t i = view.entry s i ∨ view.entry s i = none ∧ view.entry t i = some .directory

/-- Between two states, paths lead where they led. More paths may lead somewhere. -/
def KeepsPaths (s t : σ) : Prop :=
  ∀ p i, view.place s p = some i → view.place t p = some i

/-- Nothing changes from one state to another but that free places get directories. -/
structure OnlyAddsDirectories (s t : σ) : Prop where
  spared (i : ι) : view.Spared s t i
  paths : view.KeepsPaths s t

/-- Nothing changes from one state to another but that the file at one place has these bytes. -/
structure OnlyPuts (s t : σ) (i : ι) (bytes : ByteArray) : Prop where
  written : view.entry t i = some (.file bytes)
  replaced : view.entry s i ≠ some .directory
  others (j : ι) : j ≠ i → view.entry t j = view.entry s j
  paths : view.KeepsPaths s t

variable {view} {s t u : σ} {i : ι} {bytes : ByteArray}

/-- A place that is spared has the same file before and after. -/
theorem Spared.file_iff (h : view.Spared s t i) :
    view.entry t i = some (.file bytes) ↔ view.entry s i = some (.file bytes) := by
  rcases h with h | ⟨hs, ht⟩
  · rw [h]
  · simp [hs, ht]

theorem Spared.of_some {e : FileEntry} (h : view.Spared s t i) (he : view.entry s i = some e) :
    view.entry t i = some e := by
  rcases h with h | ⟨hs, -⟩
  · rw [h, he]
  · cases hs.symm.trans he

theorem Spared.trans (hst : view.Spared s t i) (htu : view.Spared t u i) : view.Spared s u i := by
  rcases hst with hst | ⟨hs, ht⟩
  · rwa [Spared, ← hst]
  · rcases htu with htu | ⟨htu, -⟩
    · exact .inr ⟨hs, htu.trans ht⟩
    · cases ht.symm.trans htu

theorem KeepsPaths.trans (hst : view.KeepsPaths s t) (htu : view.KeepsPaths t u) :
    view.KeepsPaths s u :=
  fun p i h => htu p i (hst p i h)

theorem OnlyAddsDirectories.refl (s : σ) : view.OnlyAddsDirectories s s :=
  ⟨fun _ => .inl rfl, fun _ _ h => h⟩

theorem OnlyAddsDirectories.trans (hst : view.OnlyAddsDirectories s t)
    (htu : view.OnlyAddsDirectories t u) : view.OnlyAddsDirectories s u :=
  ⟨fun i => (hst.spared i).trans (htu.spared i), hst.paths.trans htu.paths⟩

/-! ## Runs that only add directories -/

/-- From every state, a run only adds directories. -/
def Harmless {α : Type} (view : FileView σ ι) (run : StateM σ α) : Prop :=
  ∀ s, view.OnlyAddsDirectories s (run s).2

theorem Harmless.pure {α : Type} (a : α) : view.Harmless (Pure.pure a : StateM σ α) :=
  fun s => .refl s

theorem Harmless.bind {α β : Type} {x : StateM σ α} {f : α → StateM σ β} (hx : view.Harmless x)
    (hf : ∀ a, view.Harmless (f a)) : view.Harmless (x >>= f) :=
  fun s => (hx s).trans (hf (x s).1 (x s).2)

/-- A run that leaves the state alone is harmless. -/
theorem Harmless.of_state_eq {α : Type} {run : StateM σ α} (h : ∀ s, (run s).2 = s) :
    view.Harmless run := by
  intro s
  rw [h s]
  exact .refl s

end FileView

namespace FileSystem

/-- What the operations of a file system may change, as far as `view` shows it. -/
structure Lawful {σ ι : Type} (fs : FileSystem (StateM σ)) (view : FileView σ ι) : Prop where
  isDirectory_state (p : Path) (s : σ) : (fs.isDirectory p s).2 = s
  /-- No directory is put in the place of something else. -/
  makeDirectory (p : Path) : view.Harmless (fs.makeDirectory p)
  read_state (p : Path) (s : σ) : (fs.read p s).2 = s
  /-- What is read is in the file that the path leads to. -/
  read_ok {p : Path} {s : σ} {bytes : ByteArray} : (fs.read p s).1 = .ok bytes →
    ∃ i, view.place s p = some i ∧ view.entry s i = some (.file bytes)
  /-- A write that fails has changed nothing. -/
  write_error {p : Path} {bytes : ByteArray} {s t : σ} {e : FileError} :
    fs.write p bytes s = (.error e, t) → t = s
  /-- A write that succeeds has put all of the bytes in the one file. -/
  write_ok {p : Path} {bytes : ByteArray} {s t : σ} : fs.write p bytes s = (.ok (), t) →
    ∃ i, view.place s p = some i ∧ view.OnlyPuts s t i bytes

/-- The text in bytes. -/
def decoded (bytes : ByteArray) : Except FileError String :=
  (String.fromUTF8? bytes).elim (.error .invalidText) .ok

theorem toUTF8_of_decoded {bytes : ByteArray} {text : String} (h : decoded bytes = .ok text) :
    text.toUTF8 = bytes := by
  unfold decoded String.fromUTF8? at h
  split at h
  · cases h
    rfl
  · cases h

theorem readText_eq {σ : Type} (fs : FileSystem (StateM σ)) (p : Path) (s : σ) :
    fs.readText p s = ((fs.read p s).1.bind decoded, (fs.read p s).2) := by
  rcases hread : fs.read p s with ⟨_ | bytes, t⟩ <;> rw [readText, bind_of_run hread] <;> rfl

namespace Lawful

variable {σ ι : Type} {fs : FileSystem (StateM σ)} {view : FileView σ ι}

theorem isDirectory (h : fs.Lawful view) (p : Path) : view.Harmless (fs.isDirectory p) :=
  .of_state_eq (h.isDirectory_state p)

theorem ensureDirectory (h : fs.Lawful view) (p : Path) : view.Harmless (fs.ensureDirectory p) := by
  refine (h.makeDirectory p).bind fun made => ?_
  cases made with
  | ok _ => exact .pure _
  | error e => exact (h.isDirectory p).bind fun _ => .pure _

/-- The directories above are made first, and each is harmless. -/
theorem makeDirectoriesWithin (h : fs.Lawful view) (levels : Nat) (p : Path) :
    view.Harmless (fs.makeDirectoriesWithin levels p) := by
  induction levels generalizing p with
  | zero => exact h.ensureDirectory p
  | succ levels ih =>
    have hother : ∀ e : FileError, view.Harmless (do
        return if ← fs.isDirectory p then Except.ok () else .error e) :=
      fun e => (h.isDirectory p).bind fun _ => .pure _
    rw [FileSystem.makeDirectoriesWithin]
    split
    · exact .pure _
    · refine (h.makeDirectory p).bind fun made => ?_
      cases made with
      | ok _ => exact .pure _
      | error e =>
        cases e with
        | notFound =>
          cases p.parent? with
          | none => exact .pure _
          | some above =>
            refine (ih above).bind fun made => ?_
            cases made with
            | ok _ => exact h.ensureDirectory p
            | error e => exact .pure _
        | exists_ | notDirectory | isDirectory | invalidText | other _ => exact hother _

theorem makeDirectories (h : fs.Lawful view) (p : Path) : view.Harmless (fs.makeDirectories p) :=
  h.makeDirectoriesWithin _ p

theorem readText_state (h : fs.Lawful view) (p : Path) (s : σ) : (fs.readText p s).2 = s := by
  rw [readText_eq]
  exact h.read_state p s

/-- A text that is read is in the file that the path leads to. -/
theorem readText_ok (h : fs.Lawful view) {p : Path} {s : σ} {text : String}
    (hread : (fs.readText p s).1 = .ok text) :
    ∃ i, view.place s p = some i ∧ view.entry s i = some (.file text.toUTF8) := by
  rw [readText_eq] at hread
  cases hbytes : (fs.read p s).1 with
  | error e => simp [hbytes, Except.bind] at hread
  | ok bytes =>
    rw [hbytes] at hread
    rw [toUTF8_of_decoded hread]
    exact h.read_ok hbytes

end Lawful

end FileSystem

/-! ## The file system in memory -/

namespace FileTree

/-- What is at a place of a tree, and where a path leads in it. -/
def view : FileView FileTree FilePlace where
  entry := get?
  place t p := if p.isEmpty then none else (t.walk [] p.parts).toOption

variable {t t' : FileTree} {place : FilePlace} {p : Path} {bytes : ByteArray}

theorem lookup_filter_ne {other : FilePlace} (hne : other ≠ place)
    (entries : List (FilePlace × FileEntry)) :
    (entries.filter (·.1 ≠ place)).lookup other = entries.lookup other := by
  induction entries with
  | nil => rfl
  | cons e entries ih =>
    by_cases he : e.1 = place
    · have hbeq : (other == e.1) = false := by simpa [he] using hne
      rw [List.filter_cons_of_neg (by simpa using he), ih, List.lookup_cons, hbeq]
    · rw [List.filter_cons_of_pos (by simpa using he), List.lookup_cons, List.lookup_cons, ih]

theorem place_eq_some {i : FilePlace} :
    view.place t p = some i ↔ p.isEmpty = false ∧ t.walk [] p.parts = .ok i := by
  change (if p.isEmpty then none else (t.walk [] p.parts).toOption) = some i ↔ _
  split
  · rename_i hp
    simp [hp]
  · rename_i hp
    cases t.walk [] p.parts <;> simp [hp, Except.toOption]

/-- The root is a directory, so any other entry is elsewhere. -/
theorem ne_nil (h : t.get? place ≠ some .directory) :
    place ≠ [] := by
  rintro rfl
  exact h rfl

theorem get?_put_self (hroot : place ≠ []) (entry : FileEntry) :
    (t.put place entry).get? place = some entry := by
  simp [get?, put, hroot]

theorem get?_put_of_ne {other : FilePlace} (hne : other ≠ place) (entry : FileEntry) :
    (t.put place entry).get? other = t.get? other := by
  have hbeq : (other == place) = false := by simpa using hne
  simp only [get?, put, List.lookup_cons, hbeq, lookup_filter_ne hne]

theorem directory_of_step {next : FilePlace} {part : String} (h : t.step place part = .ok next) :
    t.get? place = some .directory := by
  unfold step at h
  split at h
  · cases h
  · cases h
  · assumption

/-- A walk goes from directory to directory, so it goes on where these stay. -/
theorem walk_of_directories
    (h : ∀ place, t.get? place = some .directory → t'.get? place = some .directory)
    {parts : List String} {start : FilePlace} (hwalk : t.walk start parts = .ok place) :
    t'.walk start parts = .ok place := by
  induction parts generalizing start with
  | nil => exact hwalk
  | cons part parts ih =>
    rw [walk] at hwalk ⊢
    cases hnext : t.step start part with
    | error e =>
      rw [hnext] at hwalk
      cases hwalk
    | ok next =>
      have hdirectory : t.get? start = some .directory := directory_of_step hnext
      have hstep : t'.step start part = t.step start part := by
        unfold step
        rw [hdirectory, h start hdirectory]
      rw [hnext] at hwalk
      rw [hstep, hnext]
      exact ih hwalk

/-- Paths lead where they led after an entry is put where no directory was. -/
theorem keepsPaths_put (hplace : t.get? place ≠ some .directory) (entry : FileEntry) :
    view.KeepsPaths t (t.put place entry) := by
  have hkept : ∀ other, t.get? other = some .directory →
      (t.put place entry).get? other = some .directory := by
    intro other hother
    rwa [get?_put_of_ne]
    rintro rfl
    exact hplace hother
  intro p i hi
  obtain ⟨hp, hwalk⟩ := place_eq_some.1 hi
  exact place_eq_some.2 ⟨hp, walk_of_directories hkept hwalk⟩

theorem target_ok {there : Option FileEntry} (h : t.target p = .ok (place, there)) :
    view.place t p = some place ∧ t.get? place = there := by
  unfold target at h
  split at h
  · cases h
  · rename_i hp
    cases hwalk : t.walk [] p.parts with
    | error e =>
      rw [hwalk] at h
      cases h
    | ok i =>
      rw [hwalk] at h
      cases h
      exact ⟨place_eq_some.2 ⟨by simpa using hp, hwalk⟩, rfl⟩

theorem makeDirectory_ok (h : t.makeDirectory p = .ok t') :
    ∃ place, t.get? place = none ∧ t' = t.put place .directory := by
  rw [makeDirectory] at h
  cases htarget : t.target p with
  | error e =>
    rw [htarget] at h
    cases h
  | ok found =>
    obtain ⟨place, there⟩ := found
    rw [htarget] at h
    cases there with
    | some entry => cases h
    | none =>
      cases h
      exact ⟨place, (target_ok htarget).2, rfl⟩

theorem write_ok (h : t.write p bytes = .ok t') :
    ∃ place, view.place t p = some place ∧ t.get? place ≠ some .directory ∧
      t' = t.put place (.file bytes) := by
  rw [write] at h
  cases htarget : t.target p with
  | error e =>
    rw [htarget] at h
    cases h
  | ok found =>
    obtain ⟨place, there⟩ := found
    obtain ⟨hplace, hthere⟩ := target_ok htarget
    rw [htarget] at h
    have hfile : there ≠ some .directory := by
      rintro rfl
      cases h
    refine ⟨place, hplace, hthere ▸ hfile, ?_⟩
    cases hslash : p.endsInSlash <;> rcases there with _ | _ | _ <;>
      simp_all [bind, Except.bind]

theorem find_file (h : t.find p = .ok (.file bytes)) :
    ∃ place, view.place t p = some place ∧ t.get? place = some (.file bytes) := by
  rw [find] at h
  split at h
  · cases h
  · rename_i hp
    cases hwalk : t.walk [] p.parts with
    | error e =>
      rw [hwalk] at h
      cases h
    | ok place =>
      refine ⟨place, place_eq_some.2 ⟨by simpa using hp, hwalk⟩, ?_⟩
      simp only [hwalk, bind, Except.bind] at h
      split at h
      · cases h
      · split at h <;> cases h
        assumption
      · cases h

theorem read_ok (h : t.read p = .ok bytes) :
    ∃ place, view.place t p = some place ∧ t.get? place = some (.file bytes) := by
  rw [read] at h
  cases hfind : t.find p with
  | error e =>
    rw [hfind] at h
    cases h
  | ok entry =>
    rw [hfind] at h
    cases entry with
    | directory => cases h
    | file contents =>
      cases h
      exact find_file hfind

/-- A directory in a free place changes nothing else. -/
theorem onlyAddsDirectories_put (hfree : t.get? place = none) :
    view.OnlyAddsDirectories t (t.put place .directory) where
  spared i := by
    by_cases hi : i = place
    · subst hi
      have hroot : i ≠ [] := ne_nil (t := t) (by simp [hfree])
      exact .inr ⟨hfree, get?_put_self hroot _⟩
    · exact .inl (get?_put_of_ne hi _)
  paths := keepsPaths_put (by simp [hfree]) _

theorem onlyPuts_put (hplace : t.get? place ≠ some .directory) :
    view.OnlyPuts t (t.put place (.file bytes)) place bytes where
  written := get?_put_self (ne_nil hplace) _
  replaced := hplace
  others _ hne := get?_put_of_ne hne _
  paths := keepsPaths_put hplace _

theorem update_ok {f : FileTree → Except FileError FileTree} (h : update f t = (.ok (), t')) :
    f t = .ok t' := by
  unfold update at h
  split at h
  · cases h
    assumption
  · cases h

/-- An update that fails leaves the tree as it was. -/
theorem update_error {f : FileTree → Except FileError FileTree} {e : FileError}
    (h : update f t = (.error e, t')) : t' = t := by
  unfold update at h
  split at h
  · cases h
  · cases h
    rfl

/-- The operations on a tree keep the laws. -/
theorem lawful : system.Lawful view where
  isDirectory_state _ _ := rfl
  makeDirectory p t := by
    change view.OnlyAddsDirectories t (update (·.makeDirectory p) t).2
    rcases hupdate : update (·.makeDirectory p) t with ⟨_ | _, t'⟩
    · rw [update_error hupdate]
      exact .refl t
    · obtain ⟨place, hfree, rfl⟩ := makeDirectory_ok (update_ok hupdate)
      exact onlyAddsDirectories_put hfree
  read_state _ _ := rfl
  read_ok h := read_ok h
  write_error {p bytes _ _ _} h := update_error (f := (·.write p bytes)) h
  write_ok {p bytes _ _} h := by
    obtain ⟨place, hplace, hfile, rfl⟩ := write_ok (update_ok (f := (·.write p bytes)) h)
    exact ⟨place, hplace, onlyPuts_put hfile⟩

end FileTree

end LambdaLift
