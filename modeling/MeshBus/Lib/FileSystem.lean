import MeshBus.Lib.Crash
import Mathlib.Data.List.Infix
import Mathlib.Logic.Function.Basic

/-!
# Lib.FileSystem

A file system as one process sees it, with what a crash can do to it.

A path is the list of its components. Every entry but the root lies in a directory, and no file is
called `..`; these are fields of `FileSystem`. A file is text or no text at all, and is on the disk
once it is synced; a crash gives every file that is not any contents, or takes it away. Directories
and renames last at once, and a rename replaces its target in one step.

`device` runs the operations under the rules of `Lib.Crash`. What an operation leaves alone is in
`stat_put_off_path`, `stat_put_dir` and `stat_crash`.
-/

namespace MeshBus

/-! ## Paths -/

abbrev Name := List Char
abbrev Path := List Name

/-- The parts before and after the last dot. -/
def Name.rsplitDot (name : Name) : Option (Name × Name) :=
  match name.reverse.dropWhile (· ≠ '.') with
  | [] => none
  | _ :: before => some (before.reverse, (name.reverse.takeWhile (· ≠ '.')).reverse)

/-- The stem and the extension. A dot at the start begins no extension. -/
def Name.split (name : Name) : Name × Option Name :=
  if name = ['.', '.'] then (name, none)
  else
    match name.rsplitDot with
    | none => (name, none)
    | some (before, after) => if before.isEmpty then (name, none) else (before, some after)

theorem Name.rsplitDot_append {name before after : Name}
    (h : name.rsplitDot = some (before, after)) : name = before ++ '.' :: after := by
  unfold rsplitDot at h
  split at h
  · cases h
  · rename_i c rest hdrop
    have hdot : c = '.' := by
      have hhead := List.head?_dropWhile_not (fun c => decide (c ≠ '.')) name.reverse
      rw [hdrop] at hhead
      simpa using hhead
    have hsplit := List.takeWhile_append_dropWhile (p := fun c => decide (c ≠ '.'))
      (l := name.reverse)
    rw [hdrop, hdot] at hsplit
    generalize name.reverse.takeWhile (fun c => decide (c ≠ '.')) = last at h hsplit
    cases h
    have hname := congrArg List.reverse hsplit
    simpa using hname.symm

/-- There is no extension, or the name is its stem and the extension. -/
theorem Name.split_cases (name : Name) : name.split = (name, none) ∨
    ∃ before after, name.split = (before, some after) ∧ name = before ++ '.' :: after := by
  unfold split
  split
  · exact .inl rfl
  · split
    · exact .inl rfl
    · rename_i before after hsplit
      split
      · exact .inl rfl
      · exact .inr ⟨before, after, rfl, rsplitDot_append hsplit⟩

namespace Path

/-- The last component, unless it is `..`. -/
def fileName (path : Path) : Option Name := path.getLast?.filter (· ≠ ['.', '.'])

/-- The path with another extension of its file name. -/
def withExtension (path : Path) (extension : Name) : Path :=
  match path.fileName with
  | none => path
  | some name => path.dropLast ++ [name.split.1 ++ '.' :: extension]

def extension (path : Path) : Option Name := path.fileName.bind fun name => name.split.2

theorem dropLast_append_fileName {path : Path} {name : Name} (h : path.fileName = some name) :
    path.dropLast ++ [name] = path := by
  obtain ⟨hlast, -⟩ := Option.filter_eq_some_iff.mp h
  exact List.dropLast_append_getLast? name hlast

/-- Only a path with the extension stays as it is, or one without a file name. -/
theorem withExtension_eq_iff {path : Path} (extension : Name) :
    path.withExtension extension = path ↔
      path.fileName = none ∨ path.extension = some extension := by
  cases hname : path.fileName with
  | none => simp [withExtension, hname]
  | some name =>
    have hpath := dropLast_append_fileName hname
    simp only [withExtension, Path.extension, hname, Option.bind_some, reduceCtorEq, false_or]
    rcases name.split_cases with hsplit | ⟨before, after, hsplit, hdot⟩
    · rw [hsplit, ← hpath]
      simp
    · rw [hsplit, ← hpath, hdot]
      simp [eq_comm]

end Path

/-! ## Files and directories -/

/-- What a reader of text finds in a file. -/
inductive Contents where
  | text (chars : List Char)
  | binary
deriving DecidableEq

inductive Entry where
  | dir
  | file (contents : Contents) (synced : Bool)
deriving DecidableEq

def Entry.isFile : Entry → Bool
  | .dir => false
  | .file _ _ => true

inductive IoError where
  | notFound
  | notADirectory
  | isADirectory
  | alreadyExists
  | invalidData
  | other
deriving DecidableEq

structure FileSystem where
  entry : Path → Option Entry
  root : entry [] = some .dir
  inside : ∀ path name e, entry (path ++ [name]) = some e → entry path = some .dir
  /-- What is called `..` is a directory. -/
  named : ∀ path e, path.fileName = none → entry path = some e → e = .dir

namespace FileSystem

/-- The root alone. -/
def empty : FileSystem where
  entry path := if path = [] then some .dir else none
  root := rfl
  inside path name e h := by simp at h
  named path e _ h := by
    split at h
    · exact (Option.some.inj h).symm
    · cases h

/-- A file stands where a directory would have to be. -/
def blocked (fs : FileSystem) (path : Path) : Bool :=
  path.inits.any fun p => (fs.entry p).any Entry.isFile

def stat (fs : FileSystem) (path : Path) : Except IoError Entry :=
  match fs.entry path with
  | some e => .ok e
  | none => .error (if fs.blocked path then .notADirectory else .notFound)

def readToString (fs : FileSystem) (path : Path) : Except IoError (List Char) :=
  match fs.stat path with
  | .error e => .error e
  | .ok .dir => .error .isADirectory
  | .ok (.file .binary _) => .error .invalidData
  | .ok (.file (.text chars) _) => .ok chars

/-- The entry replaces no directory, and a file has a file name. -/
def Free (fs : FileSystem) (path : Path) (e : Entry) : Prop :=
  fs.entry path ≠ some .dir ∧ (path.fileName = none → e = .dir)

instance (fs : FileSystem) (path : Path) (e : Entry) : Decidable (fs.Free path e) :=
  inferInstanceAs (Decidable (_ ∧ _))

/-- A new entry in a directory, or a new file in the place of a file. -/
def put (fs : FileSystem) (path : Path) (e : Entry) (parent : fs.entry path.dropLast = some .dir)
    (free : fs.Free path e) : FileSystem where
  entry := Function.update fs.entry path (some e)
  root := by
    rw [Function.update_of_ne, fs.root]
    rintro rfl
    exact free.1 fs.root
  inside p name e' h := by
    by_cases hpath : p ++ [name] = path
    · have hne : p ≠ path := by
        rintro rfl
        simp at hpath
      rw [Function.update_of_ne hne]
      rw [← hpath, List.dropLast_concat] at parent
      exact parent
    · rw [Function.update_of_ne hpath] at h
      have hdir := fs.inside p name e' h
      have hne : p ≠ path := by
        rintro rfl
        exact free.1 hdir
      rw [Function.update_of_ne hne]
      exact hdir
  named p e' hp h := by
    by_cases hpath : p = path
    · subst hpath
      rw [Function.update_self] at h
      exact (Option.some.inj h).symm.trans (free.2 hp)
    · rw [Function.update_of_ne hpath] at h
      exact fs.named p e' hp h

def remove (fs : FileSystem) (path : Path) (old : fs.entry path ≠ some .dir) : FileSystem where
  entry := Function.update fs.entry path none
  root := by
    rw [Function.update_of_ne, fs.root]
    rintro rfl
    exact old fs.root
  inside p name e h := by
    by_cases hpath : p ++ [name] = path
    · rw [hpath, Function.update_self] at h
      cases h
    · rw [Function.update_of_ne hpath] at h
      have hdir := fs.inside p name e h
      have hne : p ≠ path := by
        rintro rfl
        exact old hdir
      rw [Function.update_of_ne hne]
      exact hdir
  named p e hp h := by
    by_cases hpath : p = path
    · rw [hpath, Function.update_self] at h
      cases h
    · rw [Function.update_of_ne hpath] at h
      exact fs.named p e hp h

/-- Every file that is not synced is damaged. -/
def crash (damage : Path → Option Contents) (fs : FileSystem) : FileSystem where
  entry path :=
    match fs.entry path with
    | some (.file _ false) => (damage path).map fun contents => .file contents true
    | e => e
  root := by simp [fs.root]
  inside path name e h := by
    have hdir : fs.entry path = some .dir := by
      cases hentry : fs.entry (path ++ [name]) with
      | none => simp [hentry] at h
      | some old => exact fs.inside path name old hentry
    simp [hdir]
  named path e hp h := by
    cases hentry : fs.entry path with
    | none => simp [hentry] at h
    | some old =>
      rw [hentry, fs.named path old hp hentry] at h
      exact (Option.some.inj h).symm

/-! ## Operations -/

inductive Op where
  | mkdir (path : Path)
  | openTruncate (path : Path)
  | write (path : Path) (char : Char)
  | sync (path : Path)
  | rename (source target : Path)
deriving DecidableEq

/-- Puts an entry, which must not replace a directory. -/
def place (fs : FileSystem) (path : Path) (e : Entry) : Except IoError FileSystem :=
  if hfree : fs.Free path e then
    if hparent : fs.entry path.dropLast = some .dir then .ok (fs.put path e hparent hfree)
    else .error (if fs.blocked path then .notADirectory else .notFound)
  else .error .isADirectory

/-- Changes the file behind an open descriptor. -/
def modify (fs : FileSystem) (path : Path) (f : Contents → Option Entry) :
    Except IoError FileSystem :=
  match fs.entry path with
  | some (.file contents _) =>
    match f contents with
    | some e => fs.place path e
    | none => .error .other
  | _ => .error .other

def apply (fs : FileSystem) : Op → Except IoError FileSystem
  | .mkdir path =>
    match fs.entry path with
    | some .dir => .ok fs
    | some (.file _ _) => .error .alreadyExists
    | none => fs.place path .dir
  | .openTruncate path => fs.place path (.file (.text []) false)
  | .write path char => fs.modify path fun
    | .text chars => some (.file (.text (chars ++ [char])) false)
    | .binary => some (.file .binary false)
  | .sync path => fs.modify path fun contents => some (.file contents true)
  | .rename source target =>
    if hsource : fs.entry source = some .dir then .error .isADirectory
    else
      match fs.entry source with
      | none => .error .notFound
      | some e => (fs.remove source hsource).place target e

def device : Device FileSystem Op IoError (Path → Option Contents) where
  apply := apply
  crash := crash

/-! ## What stays -/

theorem place_ok {fs fs' : FileSystem} {path : Path} {e : Entry} (h : fs.place path e = .ok fs') :
    ∃ hparent hfree, fs' = fs.put path e hparent hfree := by
  unfold place at h
  split at h
  · rename_i hfree
    split at h
    · rename_i hparent
      cases h
      exact ⟨hparent, hfree, rfl⟩
    · cases h
  · cases h

theorem modify_ok {fs fs' : FileSystem} {path : Path} {f : Contents → Option Entry}
    {contents : Contents} {synced : Bool} {e : Entry}
    (hfile : fs.entry path = some (.file contents synced)) (hf : f contents = some e)
    (h : fs.modify path f = .ok fs') : ∃ hparent hfree, fs' = fs.put path e hparent hfree := by
  simp only [modify, hfile, hf] at h
  exact place_ok h

@[simp] theorem put_entry_self (fs : FileSystem) (path : Path) (e : Entry)
    (hparent : fs.entry path.dropLast = some .dir) (hfree : fs.Free path e) :
    (fs.put path e hparent hfree).entry path = some e := Function.update_self _ _ _

theorem put_entry_ne (fs : FileSystem) {path p : Path} (e : Entry)
    (hparent : fs.entry path.dropLast = some .dir) (hfree : fs.Free path e)
    (hne : p ≠ path) : (fs.put path e hparent hfree).entry p = fs.entry p :=
  Function.update_of_ne hne _ _

/-- What is found at a path depends on the entries on the way to it. -/
theorem stat_congr {fs fs' : FileSystem} {path : Path} (hself : fs'.entry path = fs.entry path)
    (h : ∀ p, p <+: path → (fs'.entry p).any Entry.isFile = (fs.entry p).any Entry.isFile) :
    fs'.stat path = fs.stat path := by
  have hblocked : fs'.blocked path = fs.blocked path := by
    unfold blocked
    rw [Bool.eq_iff_iff, List.any_eq_true, List.any_eq_true]
    refine exists_congr fun p => and_congr_right fun hp => ?_
    rw [h p ((List.mem_inits p path).mp hp)]
  rw [stat, stat, hself, hblocked]

theorem stat_put_off_path (fs : FileSystem) {path p : Path} (e : Entry)
    (hparent : fs.entry p.dropLast = some .dir) (hfree : fs.Free p e)
    (hp : ¬ p <+: path) : (fs.put p e hparent hfree).stat path = fs.stat path := by
  have hentry : ∀ q, q <+: path → (fs.put p e hparent hfree).entry q = fs.entry q := by
    intro q hq
    refine put_entry_ne fs e hparent hfree ?_
    rintro rfl
    exact hp hq
  exact stat_congr (hentry path (List.prefix_refl _)) fun q hq => by rw [hentry q hq]

/-- A new directory on the way to a path. -/
theorem stat_put_dir (fs : FileSystem) {path p : Path} (hparent : fs.entry p.dropLast = some .dir)
    (hfree : fs.Free p .dir) (hnone : fs.entry p = none) (hne : p ≠ path) :
    (fs.put p .dir hparent hfree).stat path = fs.stat path := by
  refine stat_congr (put_entry_ne fs _ hparent hfree hne.symm) fun q _ => ?_
  by_cases hq : q = p
  · subst hq
    simp [hnone, Entry.isFile]
  · rw [put_entry_ne fs _ hparent hfree hq]

theorem stat_eq_ok {fs : FileSystem} {path : Path} {e : Entry} :
    fs.stat path = .ok e ↔ fs.entry path = some e := by
  unfold stat
  cases fs.entry path with
  | none => simp
  | some e' => simp

theorem stat_notFound {fs : FileSystem} {path : Path} :
    fs.stat path = .error .notFound ↔ fs.entry path = none ∧ fs.blocked path = false := by
  unfold stat
  cases fs.entry path with
  | none => cases fs.blocked path <;> simp
  | some e => simp

/-- What is above a directory is a directory. -/
theorem entry_above {fs : FileSystem} {path p : Path} (h : fs.entry path = some .dir)
    (hp : p <+: path) : fs.entry p = some .dir := by
  induction path using List.reverseRecOn with
  | nil => rwa [List.prefix_nil.mp hp]
  | append_singleton path name ih =>
    rcases List.prefix_concat_iff.mp hp with rfl | hp
    · exact h
    · exact ih (fs.inside path name _ h) hp

/-- What is missing is missing after a crash, and a synced file is as it was. -/
theorem stat_crash {fs : FileSystem} (damage : Path → Option Contents) {path : Path} :
    (fs.stat path = .error .notFound → (fs.crash damage).stat path = .error .notFound) ∧
      ∀ contents, fs.stat path = .ok (.file contents true) →
        (fs.crash damage).stat path = .ok (.file contents true) := by
  refine ⟨fun h => ?_, fun contents h => ?_⟩
  · rw [stat_notFound] at h ⊢
    obtain ⟨hnone, hblocked⟩ := h
    refine ⟨by simp [crash, hnone], ?_⟩
    rw [blocked, List.any_eq_false] at hblocked ⊢
    intro p hp
    have hfile := hblocked p hp
    -- a file on the way would have been one before the crash
    cases hentry : fs.entry p with
    | none => simp [crash, hentry]
    | some e =>
      cases e with
      | dir => simp [crash, hentry, Entry.isFile]
      | file contents synced => simp [hentry, Entry.isFile] at hfile
  · rw [stat_eq_ok] at h ⊢
    simp [crash, h]

end FileSystem
end MeshBus
