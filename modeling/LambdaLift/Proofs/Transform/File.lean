import LambdaLift.Proofs.Files.Lawful
import LambdaLift.Proofs.Lifting.Acceptance
import LambdaLift.Transform.File

/-!
# A transformed file is written in full or not at all

The state of the file system before and after a program is transformed from file to file, for every
file system that keeps the laws and every two paths, which may lead to the same file.

* `Transform.Step.fault`: what each of the five steps finds wrong.
* `Transform.Run`: the ways in which a transform can go.
* `Transform.file_writes_all_or_nothing`: a transform that fails adds directories at most, and
  reports the fault of the first step that finds one. A transform that succeeds changes only the
  output.
-/

namespace LambdaLift

namespace Transform

open Lifting (failure? ok_of_toOption)

/-! ## The steps and their faults -/

/-- A step on the way from file to file. -/
inductive Step
  | output
  | read
  | parse
  | lift
  | write

/-- The steps in their order. -/
def Step.all : List Step := [.output, .read, .parse, .lift, .write]

/-- What is wrong with the text of a file. -/
def parseFault (file text : String) : Option TransformError :=
  if (Parsed.ofText file text).hasErrors then
    some (.parseFailure file
      ((Parsed.ofText file text).reports.map (Report.render (LineMap.ofText text))))
  else none

/-- What keeps the program in a text from being lifted. -/
def liftFault (file text : String) : Option TransformError :=
  (failure? (Lifting.text {} (Parsed.ofText file text).program {}).1).map (·.inText file text)

section

variable {σ : Type} (fs : FileSystem (StateM σ))

/-- What is wrong with a path to write to. -/
def outputFault (path : Path) (s : σ) : Option OutputFault :=
  if path.isEmpty then some .empty
  else if (fs.isDirectory path s).1 then some .isDirectory
  else path.parent?.bind fun parent => (failure? (fs.makeDirectories parent s).1).map .system

variable (input output : String)

/-- The text of the input, once the directories for the output are there. -/
def inputText (s : σ) : Except FileError String :=
  (fs.readText (Path.ofText input) (prepare fs output s).2).1

/-- What a step finds wrong. A step that has nothing to work on finds nothing wrong. -/
def Step.fault (s : σ) : Step → Option TransformError
  | .output => (outputFault fs (Path.ofText output) s).map (.invalidOutput output)
  | .read => (failure? (inputText fs input output s)).map (.inaccessible input)
  | .parse => (inputText fs input output s).toOption.bind (parseFault input)
  | .lift => (inputText fs input output s).toOption.bind (liftFault input)
  | .write => do
    let text ← (inputText fs input output s).toOption
    let lifted ← (transformText input text).toOption
    let written := (fs.writeText (Path.ofText output) lifted (prepare fs output s).2).1
    (failure? written).map (.inaccessible output)

/-- The fault of the first step that finds one. -/
def firstFault (s : σ) : Option TransformError :=
  Step.all.findSome? (Step.fault fs input output s)

end

/-- A text is refused for what is wrong with it, or else for what cannot be lifted. -/
theorem failure?_transformText (file text : String) :
    failure? (transformText file text) = (parseFault file text).or (liftFault file text) := by
  simp only [transformText, parseFault, liftFault]
  split
  · rfl
  · cases (Lifting.text {} (Parsed.ofText file text).program {}).1 <;> rfl

/-! ## How a transform can go -/

section

variable {σ ι : Type} {fs : FileSystem (StateM σ)} {view : FileView σ ι} {input output : String}

theorem harmless_prepare (h : fs.Lawful view) (output : String) :
    view.Harmless (prepare fs output) := by
  unfold prepare
  simp only
  split
  · exact .pure _
  · refine (h.isDirectory _).bind fun isDirectory => ?_
    split
    · exact .pure _
    · cases (Path.ofText output).parent? with
      | none => exact .pure _
      | some parent =>
        refine (h.makeDirectories parent).bind fun made => ?_
        cases made with
        | ok _ => exact .pure _
        | error e => exact .pure _

/-- The path of the output is refused if something is wrong with it. -/
theorem failure?_prepare (h : fs.Lawful view) (s : σ) :
    failure? (prepare fs output s).1 =
      (outputFault fs (Path.ofText output) s).map (.invalidOutput output) := by
  unfold prepare outputFault
  cases (Path.ofText output).isEmpty with
  | true => rfl
  | false =>
    have hstate := h.isDirectory_state (Path.ofText output) s
    rcases hdirectory : fs.isDirectory (Path.ofText output) s with ⟨isDirectory, t⟩
    obtain rfl : t = s := by rwa [hdirectory] at hstate
    simp only [Bool.false_eq_true, ↓reduceIte, bind_of_run hdirectory]
    cases isDirectory with
    | true => rfl
    | false =>
      cases (Path.ofText output).parent? with
      | none => rfl
      | some parent =>
        rcases hmade : fs.makeDirectories parent t with ⟨_ | _, u⟩ <;>
          simp only [Bool.false_eq_true, ↓reduceIte, bind_of_run hmade, Option.bind_some, hmade] <;>
          rfl

/-- The state is left alone until the text is there. -/
theorem transformed_eq (h : fs.Lawful view) (input : String) (s : σ) :
    transformed fs input s = (((fs.readText (Path.ofText input) s).1.mapError
      (.inaccessible input)).bind (transformText input), s) := by
  have hstate := h.readText_state (Path.ofText input) s
  rcases hread : fs.readText (Path.ofText input) s with ⟨_ | _, t⟩ <;>
    (obtain rfl : t = s := by rwa [hread] at hstate) <;>
    rw [transformed, bind_of_run hread] <;> rfl

/-- How a transform from the state `s` can go: its result, and the state after it. -/
inductive Run (fs : FileSystem (StateM σ)) (input output : String) (s : σ) :
    Except TransformError Unit → σ → Prop
  | refused {e : TransformError} {t : σ} (hprepare : prepare fs output s = (.error e, t)) :
    Run fs input output s (.error e) t
  | unread {e : FileError} {t : σ} (hprepare : prepare fs output s = (.ok (), t))
    (hread : (fs.readText (Path.ofText input) t).1 = .error e) :
    Run fs input output s (.error (.inaccessible input e)) t
  | untransformed {text : String} {e : TransformError} {t : σ}
    (hprepare : prepare fs output s = (.ok (), t))
    (hread : (fs.readText (Path.ofText input) t).1 = .ok text)
    (htransform : transformText input text = .error e) : Run fs input output s (.error e) t
  | unwritten {text lifted : String} {e : FileError} {t u : σ}
    (hprepare : prepare fs output s = (.ok (), t))
    (hread : (fs.readText (Path.ofText input) t).1 = .ok text)
    (htransform : transformText input text = .ok lifted)
    (hwrite : fs.writeText (Path.ofText output) lifted t = (.error e, u)) :
    Run fs input output s (.error (.inaccessible output e)) u
  | done {text lifted : String} {t u : σ} (hprepare : prepare fs output s = (.ok (), t))
    (hread : (fs.readText (Path.ofText input) t).1 = .ok text)
    (htransform : transformText input text = .ok lifted)
    (hwrite : fs.writeText (Path.ofText output) lifted t = (.ok (), u)) :
    Run fs input output s (.ok ()) u

theorem run_file (h : fs.Lawful view) (input output : String) (s : σ) :
    Run fs input output s (file fs input output s).1 (file fs input output s).2 := by
  unfold file
  rcases hprepare : prepare fs output s with ⟨e | _, t⟩
  · rw [bind_of_run hprepare]
    exact .refused hprepare
  · have htransformed := transformed_eq h input t
    cases hread : (fs.readText (Path.ofText input) t).1 with
    | error e =>
      rw [hread] at htransformed
      simp only [bind_of_run hprepare, bind_of_run htransformed]
      exact .unread hprepare hread
    | ok text =>
      rw [hread] at htransformed
      simp only [bind_of_run hprepare, bind_of_run htransformed, Except.mapError, Except.bind]
      cases htransform : transformText input text with
      | error e => exact .untransformed hprepare hread htransform
      | ok lifted =>
        rcases hwrite : fs.writeText (Path.ofText output) lifted t with ⟨e | _, u⟩
        · simp only [bind_of_run hwrite]
          exact .unwritten hprepare hread htransform hwrite
        · simp only [bind_of_run hwrite]
          exact .done hprepare hread htransform hwrite

/-- Parsing and lifting are the two steps of transforming a text. -/
theorem firstFault_eq (h : fs.Lawful view) (input output : String) (s : σ) :
    firstFault fs input output s =
      (failure? (prepare fs output s).1).or
        (((failure? (inputText fs input output s)).map (.inaccessible input)).or
          (((inputText fs input output s).toOption.bind fun text =>
            failure? (transformText input text)).or (Step.fault fs input output s .write))) := by
  have horder : firstFault fs input output s =
      (Step.fault fs input output s .output).or ((Step.fault fs input output s .read).or
        ((Step.fault fs input output s .parse).or ((Step.fault fs input output s .lift).or
          (Step.fault fs input output s .write)))) := by
    rw [firstFault, show Step.all =
      [.output] ++ ([.read] ++ ([.parse] ++ ([.lift] ++ [.write]))) from rfl]
    simp only [List.findSome?_append, List.findSome?_singleton]
  rw [horder, failure?_prepare h]
  simp only [failure?_transformText]
  cases hread : inputText fs input output s <;>
    simp [Step.fault, hread, Except.toOption, Option.or_assoc]

/-- The failure of a transform is that of the first step that finds a fault. -/
theorem Run.failure {result : Except TransformError Unit} {s t : σ} (h : fs.Lawful view)
    (hrun : Run fs input output s result t) :
    failure? result = firstFault fs input output s := by
  rw [firstFault_eq h]
  cases hrun with
  | refused hprepare => simp [hprepare, failure?]
  | unread hprepare hread => simp [hprepare, inputText, hread, failure?]
  | untransformed hprepare hread htransform =>
    simp [hprepare, inputText, hread, htransform, failure?, Except.toOption]
  | unwritten hprepare hread htransform hwrite | done hprepare hread htransform hwrite =>
    simp [Step.fault, hprepare, inputText, hread, htransform, hwrite, failure?, Except.toOption]

/-- Until the output is written, a transform only adds directories. -/
theorem Run.onlyAddsDirectories {e : TransformError} {s t : σ} (h : fs.Lawful view)
    (hrun : Run fs input output s (.error e) t) : view.OnlyAddsDirectories s t := by
  have hadds := harmless_prepare h output s
  cases hrun with
  | refused hprepare | unread hprepare _ | untransformed hprepare _ _ => rwa [hprepare] at hadds
  | unwritten hprepare _ _ hwrite =>
    rw [hprepare] at hadds
    rwa [h.write_error hwrite]

/-- A transform that succeeds wrote what the input had before is transformed to. -/
theorem Run.written {s u : σ} (h : fs.Lawful view) (hrun : Run fs input output s (.ok ()) u) :
    view.KeepsPaths s u ∧ ∃ i o text lifted,
      view.place u (Path.ofText input) = some i ∧ view.place u (Path.ofText output) = some o ∧
      view.entry s i = some (.file text.toUTF8) ∧ transformText input text = .ok lifted ∧
      view.entry s o ≠ some .directory ∧ view.entry u o = some (.file lifted.toUTF8) ∧
      ∀ j, j ≠ o → view.Spared s u j := by
  have hadds := harmless_prepare h output s
  cases hrun with
  | done hprepare hread htransform hwrite =>
    rename_i text lifted t
    rw [hprepare] at hadds
    obtain ⟨i, hi, hinput⟩ := h.readText_ok hread
    obtain ⟨o, ho, hputs⟩ := h.write_ok hwrite
    refine ⟨hadds.paths.trans hputs.paths, i, o, text, lifted, hputs.paths _ i hi,
      hputs.paths _ o ho, (hadds.spared i).file_iff.1 hinput, htransform, ?_, hputs.written, ?_⟩
    · exact fun hdirectory => hputs.replaced ((hadds.spared o).of_some hdirectory)
    · intro j hj
      rw [FileView.Spared, hputs.others j hj]
      exact hadds.spared j

/-- **A transform writes all or nothing.** Take any file system that keeps the laws, any state of it
and any two paths. The result is the fault of the first step that finds one. Paths lead where they
led. If the transform fails, the files are as they were, and directories may have been added. If it
succeeds, the output has what the text is transformed to that the input had before, and that is the
only file that changed. The two may be the same file. -/
theorem file_writes_all_or_nothing (h : fs.Lawful view) (input output : String) (s : σ) :
    (file fs input output s).1 = (firstFault fs input output s).elim (.ok ()) .error ∧
      view.KeepsPaths s (file fs input output s).2 ∧
      (∀ e, (file fs input output s).1 = .error e →
        ∀ i, view.Spared s (file fs input output s).2 i) ∧
      ((file fs input output s).1 = .ok () → ∃ i o text lifted,
        view.place (file fs input output s).2 (Path.ofText input) = some i ∧
        view.place (file fs input output s).2 (Path.ofText output) = some o ∧
        view.entry s i = some (.file text.toUTF8) ∧
        transformText input text = .ok lifted ∧
        view.entry s o ≠ some .directory ∧
        view.entry (file fs input output s).2 o = some (.file lifted.toUTF8) ∧
        ∀ j, j ≠ o → view.Spared s (file fs input output s).2 j) := by
  have hrun := run_file h input output s
  have hfault := hrun.failure h
  cases hresult : (file fs input output s).1 with
  | error e =>
    rw [hresult] at hrun hfault
    have hadds := hrun.onlyAddsDirectories h
    refine ⟨by rw [← hfault]; rfl, hadds.paths, fun _ _ => hadds.spared, ?_⟩
    intro hok
    cases hok
  | ok _ =>
    rw [hresult] at hrun hfault
    obtain ⟨hpaths, hwritten⟩ := hrun.written h
    refine ⟨by rw [← hfault]; rfl, hpaths, ?_, fun _ => hwritten⟩
    intro e herror
    cases herror

/-- A file with a function in a function. -/
def nestedFile : FileTree :=
  ⟨[(["a.js"], .file "function f()\x7bfunction g()\x7b\x7d\x7d".toUTF8)]⟩

theorem nestedFile_in_place :
    (file FileTree.system "a.js" "./a.js" nestedFile).1 = .ok () ∧
      ∃ text lifted, nestedFile.get? ["a.js"] = some (.file text.toUTF8) ∧
        transformText "a.js" text = .ok lifted ∧
        (file FileTree.system "a.js" "./a.js" nestedFile).2.get? ["a.js"] =
          some (.file lifted.toUTF8) := by
  have hok : (file FileTree.system "a.js" "./a.js" nestedFile).1 = .ok () :=
    ok_of_toOption (by decide +kernel)
  obtain ⟨-, hpaths, -, hwritten⟩ :=
    file_writes_all_or_nothing FileTree.lawful "a.js" "./a.js" nestedFile
  obtain ⟨i, o, text, lifted, hi, ho, hinput, htransform, -, houtput, -⟩ := hwritten hok
  have hi' := hpaths (Path.ofText "a.js") ["a.js"] (by decide)
  have ho' := hpaths (Path.ofText "./a.js") ["a.js"] (by decide)
  cases hi.symm.trans hi'
  cases ho.symm.trans ho'
  exact ⟨hok, text, lifted, hinput, htransform, houtput⟩

end

end Transform

end LambdaLift
