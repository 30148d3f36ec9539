import MeshBus.Lib.FileSystem
import MeshBus.Runtime.Restart

/-!
# Runtime.SeqFile

`FileSeqStore` of `mb-runtime`: the last sequence number of a node as a line of text. `persist`
writes a temporary file beside the store and renames it over the store.

Every operation can fail or be the last one before a crash. Whatever happens, the store holds the
old number or the new one, a `persist` that returns `Ok` leaves the new one and one that would go
back leaves the old one (`persist_crash_atomic`): the store is one of those `Runtime.Restart` starts
nodes from (`persist_refines`). This asks that the temporary file is another file than the store. It
is the store itself if the path has the extension `tmp` already, and then a `persist` that is cut
short destroys the number, whatever it is (`persist_loses_number`).
-/

namespace MeshBus
namespace Runtime

/-! ## Numbers as text -/

/-- `char::is_whitespace`. -/
def isWhitespace (c : Char) : Bool :=
  (9 ≤ c.toNat && c.toNat ≤ 13) || c.toNat = 0x20 || c.toNat = 0x85 || c.toNat = 0xa0 ||
    c.toNat = 0x1680 || (0x2000 ≤ c.toNat && c.toNat ≤ 0x200a) || c.toNat = 0x2028 ||
    c.toNat = 0x2029 || c.toNat = 0x202f || c.toNat = 0x205f || c.toNat = 0x3000

/-- `str::trim`. -/
def trim (text : List Char) : List Char :=
  ((text.dropWhile isWhitespace).reverse.dropWhile isWhitespace).reverse

inductive ParseIntError where
  | empty
  | invalidDigit
  | posOverflow
deriving DecidableEq

/-- The digits of `u64::from_str` after those that make `n`. -/
def parseDigits : Nat → List Char → Except ParseIntError UInt64
  | n, [] => .ok (.ofNat n)
  | n, c :: rest =>
    if !c.isDigit then .error .invalidDigit
    else
      let next := 10 * n + (c.toNat - '0'.toNat)
      if u64Max < next then .error .posOverflow else parseDigits next rest

/-- `u64::from_str`. -/
def parseU64 (text : List Char) : Except ParseIntError UInt64 :=
  match text with
  | [] => .error .empty
  | ['+'] => .error .invalidDigit
  | '+' :: digits => parseDigits 0 digits
  | digits => parseDigits 0 digits

/-- `"{seq}\n"`. -/
def line (seq : UInt64) : List Char := Nat.toDigits 10 seq.toNat ++ ['\n']

theorem le_ofDigitChars : ∀ (cs : List Char) (n : Nat), n ≤ Nat.ofDigitChars 10 cs n := by
  intro cs
  induction cs with
  | nil => exact fun n => Nat.le_refl n
  | cons c cs ih =>
    intro n
    rw [Nat.ofDigitChars_cons]
    exact Nat.le_trans (by omega) (ih _)

/-- By induction on the digits: the number so far never exceeds the whole number. -/
theorem parseDigits_eq : ∀ {cs : List Char} {n : Nat}, (∀ c ∈ cs, c.isDigit = true) →
    Nat.ofDigitChars 10 cs n ≤ u64Max →
    parseDigits n cs = .ok (.ofNat (Nat.ofDigitChars 10 cs n)) := by
  intro cs
  induction cs with
  | nil => exact fun _ _ => rfl
  | cons c cs ih =>
    intro n hdigits hmax
    rw [Nat.ofDigitChars_cons] at hmax ⊢
    have hnext := Nat.le_trans (le_ofDigitChars cs _) hmax
    have hc : c.isDigit = true := hdigits c List.mem_cons_self
    simp only [parseDigits, hc, Bool.not_true, Bool.false_eq_true, if_false,
      if_neg (Nat.not_lt.mpr hnext)]
    exact ih (fun x hx => hdigits x (List.mem_cons_of_mem _ hx)) hmax

theorem not_isWhitespace_of_isDigit {c : Char} (h : c.isDigit = true) : isWhitespace c = false := by
  have hrange : 48 ≤ c.toNat ∧ c.toNat ≤ 57 := by
    simpa [Char.isDigit, UInt32.le_iff_toNat_le] using h
  simp only [isWhitespace, Bool.or_eq_false_iff, Bool.and_eq_false_iff, decide_eq_false_iff_not]
  omega

theorem trim_line {digits : List Char} (h : ∀ c ∈ digits, c.isDigit = true) (hne : digits ≠ []) :
    trim (digits ++ ['\n']) = digits := by
  have hkeeps : ∀ l : List Char, l ≠ [] → (∀ c ∈ l.head?, c.isDigit = true) →
      l.dropWhile isWhitespace = l := by
    intro l hl hhead
    cases l with
    | nil => exact absurd rfl hl
    | cons c l => simp [List.dropWhile, not_isWhitespace_of_isDigit (hhead c rfl)]
  have hfirst : (digits ++ ['\n']).dropWhile isWhitespace = digits ++ ['\n'] := by
    refine hkeeps _ (by simp) fun c hc => h c ?_
    rw [List.head?_append_of_ne_nil _ hne] at hc
    exact List.mem_of_head? hc
  have hlast : digits.reverse.dropWhile isWhitespace = digits.reverse := by
    refine hkeeps _ (by simpa using hne) fun c hc => h c ?_
    exact List.mem_reverse.mp (List.mem_of_head? hc)
  have hnewline : isWhitespace '\n' = true := by decide
  rw [trim, hfirst, List.reverse_append, List.reverse_singleton, List.singleton_append,
    List.dropWhile_cons_of_pos hnewline, hlast, List.reverse_reverse]

theorem parseU64_digits {digits : List Char} (h : ∀ c ∈ digits, c.isDigit = true)
    (hne : digits ≠ []) : parseU64 digits = parseDigits 0 digits := by
  unfold parseU64
  split
  · exact absurd rfl hne
  · exact absurd (h '+' List.mem_cons_self) (by decide)
  · exact absurd (h '+' List.mem_cons_self) (by decide)
  · rfl

/-- What is written is read again. -/
theorem parse_line (seq : UInt64) : parseU64 (trim (line seq)) = .ok seq := by
  have hdigits : ∀ c ∈ Nat.toDigits 10 seq.toNat, c.isDigit = true :=
    fun c hc => Nat.isDigit_of_mem_toDigits (by decide) (by decide) hc
  have hvalue : Nat.ofDigitChars 10 (Nat.toDigits 10 seq.toNat) 0 = seq.toNat :=
    Nat.ofDigitChars_toDigits (by decide) (by decide)
  have hmax : seq.toNat ≤ u64Max := by
    have := seq.toNat_lt
    unfold u64Max
    omega
  rw [line, trim_line hdigits Nat.toDigits_ne_nil, parseU64_digits hdigits Nat.toDigits_ne_nil,
    parseDigits_eq hdigits (hvalue.trans_le hmax), hvalue, UInt64.ofNat_toNat]

/-! ## The store -/

inductive SeqStoreError where
  | failedToRead (error : IoError)
  | invalidSequence (error : ParseIntError)
  | backward (previous seq : UInt64)
  /-- An operation that writes has failed: creating a directory, or opening, writing, syncing or
  renaming the temporary file. -/
  | failed (operation : FileSystem.Op)
deriving DecidableEq

/-- How a call of `persist` ends. -/
inductive Persisted where
  | returned (result : Except SeqStoreError Unit)
  | crashed

def Persisted.isOk : Persisted → Bool
  | .returned (.ok ()) => true
  | _ => false

structure FileSeqStore where
  path : Path

namespace FileSeqStore

/-- What happens outside at each operation. -/
abbrev Weather := Nat → Option (Mishap (Path → Option Contents))

def load (self : FileSeqStore) (fs : FileSystem) : Except SeqStoreError UInt64 :=
  match fs.readToString self.path with
  | .error .notFound => .ok 0
  | .error e => .error (.failedToRead e)
  | .ok contents =>
    match parseU64 (trim contents) with
    | .ok seq => .ok seq
    | .error e => .error (.invalidSequence e)

def tmp : Name := ['t', 'm', 'p']

def temporary (self : FileSeqStore) : Path := self.path.withExtension tmp

/-- What `persist` does once the number is allowed: `create_dir_all` on the parent, which makes the
missing directories from the top, then the temporary file, written character by character. -/
def operations (self : FileSeqStore) (seq : UInt64) : List FileSystem.Op :=
  (self.path.dropLast.inits.tail.map .mkdir) ++
    (.openTruncate self.temporary :: (line seq).map (.write self.temporary) ++
      [.sync self.temporary, .rename self.temporary self.path])

/-- Operation 0 is the `load`. -/
def persist (self : FileSeqStore) (weather : Weather) (seq : UInt64) (fs : FileSystem) :
    FileSystem × Persisted :=
  match weather 0 with
  | some (.fail _) => (fs, .returned (.error (.failedToRead .other)))
  | some (.crash _ damage) => (fs.crash damage, .crashed)
  | none =>
    match self.load fs with
    | .error e => (fs, .returned (.error e))
    | .ok previous =>
      if seq < previous then (fs, .returned (.error (.backward previous seq)))
      else
        match FileSystem.device.exec weather 1 fs (self.operations seq) with
        | (fs, .completed) => (fs, .returned (.ok ()))
        | (fs, .failed operation) => (fs, .returned (.error (.failed operation)))
        | (fs, .crashed) => (fs, .crashed)

/-! ## The number is on the disk -/

/-- The store has no file and counts as 0, or its file is on the disk with the number. -/
def Stored (self : FileSeqStore) (v : UInt64) (fs : FileSystem) : Prop :=
  fs.stat self.path = .error .notFound ∧ v = 0 ∨
    ∃ chars, fs.stat self.path = .ok (.file (.text chars) true) ∧ parseU64 (trim chars) = .ok v

variable {self : FileSeqStore} {v seq : UInt64}

theorem Stored.load {fs : FileSystem} (h : self.Stored v fs) : self.load fs = .ok v := by
  obtain ⟨hnone, rfl⟩ | ⟨chars, hfile, hparse⟩ := h
  · simp only [FileSeqStore.load, FileSystem.readToString, hnone]
  · simp only [FileSeqStore.load, FileSystem.readToString, hfile, hparse]

theorem Stored.of_stat {fs fs' : FileSystem} (h : self.Stored v fs)
    (hstat : fs'.stat self.path = fs.stat self.path) : self.Stored v fs' := by
  unfold Stored at h ⊢
  rwa [hstat]

theorem Stored.crash {fs : FileSystem} (h : self.Stored v fs) (damage : Path → Option Contents) :
    self.Stored v (fs.crash damage) := by
  obtain ⟨hnone, rfl⟩ | ⟨chars, hfile, hparse⟩ := h
  · exact .inl ⟨(FileSystem.stat_crash damage).1 hnone, rfl⟩
  · exact .inr ⟨chars, (FileSystem.stat_crash damage).2 _ hfile, hparse⟩

/-! ## The operations -/

theorem Stored.path_ne_nil {fs : FileSystem} (h : self.Stored v fs) : self.path ≠ [] := by
  intro hnil
  have hroot : fs.stat self.path = .ok .dir := by
    rw [hnil]
    exact FileSystem.stat_eq_ok.mpr fs.root
  obtain ⟨hnone, -⟩ | ⟨chars, hfile, -⟩ := h
  · cases hnone.symm.trans hroot
  · cases hfile.symm.trans hroot

/-- The temporary file is not on the way to the store. -/
theorem temporary_off_path (hext : self.path.extension ≠ some tmp)
    (hname : self.temporary.fileName ≠ none) : ¬ self.temporary <+: self.path := by
  intro hinit
  cases hpath : self.path.fileName with
  | none => exact hname (by simp only [temporary, Path.withExtension, hpath])
  | some name =>
    have hlength : self.temporary.length = self.path.length := by
      rw [← Path.dropLast_append_fileName hpath]
      simp only [temporary, Path.withExtension, hpath, List.length_append, List.length_singleton]
    rcases (Path.withExtension_eq_iff tmp).mp (hinit.eq_of_length hlength) with hnone | htmp
    · cases hpath.symm.trans hnone
    · exact hext htmp

/-- The old number or the new one. -/
def Either (self : FileSeqStore) (v seq : UInt64) (fs : FileSystem) : Prop :=
  self.Stored v fs ∨ self.Stored seq fs

theorem Either.crash (damage : Path → Option Contents) (fs : FileSystem)
    (h : self.Either v seq fs) : self.Either v seq (FileSystem.device.crash damage fs) :=
  h.imp (fun h => h.crash damage) fun h => h.crash damage

/-- The store is as before, and the temporary file has these characters. -/
def Written (self : FileSeqStore) (v : UInt64) (synced : Bool) (chars : List Char)
    (fs : FileSystem) : Prop :=
  self.Stored v fs ∧ fs.entry self.temporary = some (.file (.text chars) synced)

theorem mkdir_triple {p : Path} (hp : p ≠ self.path) :
    FileSystem.device.Triple (self.Either v seq) (self.Stored v) [.mkdir p] (self.Stored v) := by
  refine .single Either.crash (fun _ h => .inl h) (fun _ h => .inl h) fun fs fs' h happly => ?_
  simp only [FileSystem.device, FileSystem.apply] at happly
  split at happly
  · cases happly
    exact h
  · cases happly
  · rename_i hnone
    obtain ⟨hparent, hfree, rfl⟩ := FileSystem.place_ok happly
    exact h.of_stat (fs.stat_put_dir hparent hfree hnone hp)

/-- A new entry at the temporary path. -/
theorem Stored.put_temporary {fs : FileSystem} (h : self.Stored v fs)
    (hext : self.path.extension ≠ some tmp) {chars : List Char} {synced : Bool}
    (hparent : fs.entry self.temporary.dropLast = some .dir)
    (hfree : fs.Free self.temporary (.file (.text chars) synced)) :
    self.Written v synced chars
      (fs.put self.temporary (.file (.text chars) synced) hparent hfree) := by
  have hname : self.temporary.fileName ≠ none := fun hnone => by cases hfree.2 hnone
  exact ⟨h.of_stat (fs.stat_put_off_path _ hparent hfree (temporary_off_path hext hname)),
    fs.put_entry_self _ _ hparent hfree⟩

theorem open_triple (hext : self.path.extension ≠ some tmp) :
    FileSystem.device.Triple (self.Either v seq) (self.Stored v) [.openTruncate self.temporary]
      (self.Written v false []) := by
  refine .single Either.crash (fun _ h => .inl h) (fun _ h => .inl h.1) fun fs fs' h happly => ?_
  obtain ⟨hparent, hfree, rfl⟩ := FileSystem.place_ok happly
  exact h.put_temporary hext hparent hfree

theorem write_triple (hext : self.path.extension ≠ some tmp) (done : List Char) (c : Char) :
    FileSystem.device.Triple (self.Either v seq) (self.Written v false done)
      [.write self.temporary c] (self.Written v false (done ++ [c])) := by
  refine .single Either.crash (fun _ h => .inl h.1) (fun _ h => .inl h.1) fun fs fs' h happly => ?_
  obtain ⟨hparent, hfree, rfl⟩ := FileSystem.modify_ok h.2 rfl happly
  exact h.1.put_temporary hext hparent hfree

theorem sync_triple (hext : self.path.extension ≠ some tmp) (chars : List Char) :
    FileSystem.device.Triple (self.Either v seq) (self.Written v false chars)
      [.sync self.temporary] (self.Written v true chars) := by
  refine .single Either.crash (fun _ h => .inl h.1) (fun _ h => .inl h.1) fun fs fs' h happly => ?_
  obtain ⟨hparent, hfree, rfl⟩ :=
    FileSystem.modify_ok (f := fun contents => some (.file contents true)) h.2 rfl happly
  exact h.1.put_temporary hext hparent hfree

/-- The rename is the step from the old number to the new one. -/
theorem rename_triple :
    FileSystem.device.Triple (self.Either v seq) (self.Written v true (line seq))
      [.rename self.temporary self.path] (self.Stored seq) := by
  refine .single Either.crash (fun _ h => .inl h.1) (fun _ h => .inr h) fun fs fs' h happly => ?_
  simp only [FileSystem.device, FileSystem.apply, h.2] at happly
  obtain ⟨hparent, hfree, rfl⟩ := FileSystem.place_ok happly
  exact .inr ⟨line seq, FileSystem.stat_eq_ok.mpr (FileSystem.put_entry_self _ _ _ hparent hfree),
    parse_line seq⟩

theorem operations_triple (seq : UInt64) (hext : self.path.extension ≠ some tmp) :
    FileSystem.device.Triple (self.Either v seq) (self.Stored v) (self.operations seq)
      (self.Stored seq) := by
  have hdirs : FileSystem.device.Triple (self.Either v seq) (self.Stored v)
      (self.path.dropLast.inits.tail.map .mkdir) (self.Stored v) := by
    refine .loop fun operation hmem => ?_
    obtain ⟨p, hp, rfl⟩ := List.mem_map.mp hmem
    -- a directory above the store is shorter than its path
    intro weather i fs h
    have hinit := (List.mem_inits p _).mp (List.mem_of_mem_tail hp)
    have hlt : p.length < self.path.length := by
      have hle := hinit.length_le
      have hpos := List.length_pos_iff.mpr h.path_ne_nil
      rw [List.length_dropLast] at hle
      omega
    have hne : p ≠ self.path := by
      rintro rfl
      exact Nat.lt_irrefl _ hlt
    exact mkdir_triple hne weather i fs h
  have hwrites : FileSystem.device.Triple (self.Either v seq) (self.Written v false [])
      ((line seq).map (.write self.temporary)) (self.Written v false (line seq)) :=
    .map (write_triple hext) [] (line seq)
  exact .append hdirs (.append (.cons (open_triple hext) hwrites)
    (.cons (sync_triple hext (line seq)) rename_triple))

/-! ## A call of `persist` -/

/-- From a stored number: a number below it is refused, a call that returns `Ok` stores the new
number, and any other call leaves the old number or the new one. -/
inductive Leaves (self : FileSeqStore) (v seq : UInt64) : FileSystem × Persisted → Prop
  | stored {fs} (h : self.Stored seq fs) (forward : v ≤ seq) :
      Leaves self v seq (fs, .returned (.ok ()))
  | kept {fs outcome} (h : self.Stored v fs) (failed : outcome.isOk = false) :
      Leaves self v seq (fs, outcome)
  | torn {fs outcome} (h : self.Stored seq fs) (forward : v ≤ seq)
      (failed : outcome.isOk = false) : Leaves self v seq (fs, outcome)

theorem Stored.persist {fs : FileSystem} (h : self.Stored v fs)
    (hext : self.path.extension ≠ some tmp) (weather : Weather) (seq : UInt64) :
    Leaves self v seq (self.persist weather seq fs) := by
  unfold FileSeqStore.persist
  split
  · exact .kept h rfl
  · exact .kept (h.crash _) rfl
  · simp only [h.load]
    split
    · exact .kept h rfl
    · rename_i hforward
      have hle : v ≤ seq := UInt64.not_lt.mp hforward
      have hlands := operations_triple seq hext weather 1 fs h
      generalize FileSystem.device.exec weather 1 fs (self.operations seq) = r at hlands
      cases hlands with
      | completed hstored => exact .stored hstored hle
      | failed heither operation =>
        rcases heither with hv | hseq
        · exact .kept hv rfl
        · exact .torn hseq hle rfl
      | crashed heither =>
        rcases heither with hv | hseq
        · exact .kept hv rfl
        · exact .torn hseq hle rfl

/-- A call of `persist` is one of the model that nodes restart with. -/
theorem persist_refines {fs : FileSystem} (h : self.Stored v fs)
    (hext : self.path.extension ≠ some tmp) (weather : Weather) (seq : UInt64) :
    ∃ fate, (self.persist weather seq fs).2.isOk = (Runtime.persist v seq fate).1 ∧
      self.Stored (Runtime.persist v seq fate).2 (self.persist weather seq fs).1 := by
  have hleaves := h.persist hext weather seq
  generalize self.persist weather seq fs = r at hleaves
  cases hleaves with
  | stored hstored forward =>
    refine ⟨.done, ?_⟩
    rw [Runtime.persist, if_neg (UInt64.not_lt.mpr forward)]
    exact ⟨rfl, hstored⟩
  | kept hstored failed => exact ⟨.failed, failed, hstored⟩
  | torn hstored forward failed =>
    refine ⟨.torn, ?_⟩
    rw [Runtime.persist, if_neg (UInt64.not_lt.mpr forward)]
    exact ⟨failed, hstored⟩

/-! ## Histories -/

/-- What happens to a store. -/
inductive StoreStep where
  | persist (weather : Weather) (seq : UInt64)
  | crash (damage : Path → Option Contents)

def step (self : FileSeqStore) (fs : FileSystem) : StoreStep → FileSystem
  | .persist weather seq => (self.persist weather seq fs).1
  | .crash damage => fs.crash damage

def run (self : FileSeqStore) (fs : FileSystem) (steps : List StoreStep) : FileSystem :=
  steps.foldl self.step fs

theorem Stored.step {fs : FileSystem} (h : self.Stored v fs)
    (hext : self.path.extension ≠ some tmp) (s : StoreStep) :
    ∃ v', v ≤ v' ∧ self.Stored v' (self.step fs s) := by
  cases s with
  | crash damage => exact ⟨v, UInt64.le_refl v, h.crash damage⟩
  | persist weather seq =>
    have hleaves := h.persist hext weather seq
    simp only [FileSeqStore.step]
    generalize self.persist weather seq fs = r at hleaves ⊢
    cases hleaves with
    | stored hstored forward => exact ⟨seq, forward, hstored⟩
    | kept hstored _ => exact ⟨v, UInt64.le_refl v, hstored⟩
    | torn hstored forward _ => exact ⟨seq, forward, hstored⟩

/-- The number never goes back. -/
theorem Stored.run {fs : FileSystem} (h : self.Stored v fs)
    (hext : self.path.extension ≠ some tmp) (steps : List StoreStep) :
    ∃ v', v ≤ v' ∧ self.Stored v' (self.run fs steps) := by
  induction steps generalizing v fs with
  | nil => exact ⟨v, UInt64.le_refl v, h⟩
  | cons s steps ih =>
    obtain ⟨v₁, hle₁, h₁⟩ := h.step hext s
    obtain ⟨v₂, hle₂, h₂⟩ := ih h₁
    exact ⟨v₂, UInt64.le_trans hle₁ hle₂, h₂⟩

/-- Nothing happens outside. -/
def calm : Weather := fun _ => none

/-- Operation number `i` meets the mishap. -/
def mishapAt (i : Nat) (mishap : Mishap (Path → Option Contents)) : Weather :=
  fun j => if j = i then some mishap else none

theorem mishapAt_of_ne {i j : Nat} {mishap : Mishap (Path → Option Contents)} (h : j ≠ i) :
    mishapAt i mishap j = none := if_neg h

/-- The first write fails, which comes after the `load`, the directories and the `open`. -/
def firstWriteFails (self : FileSeqStore) : Weather :=
  mishapAt (1 + self.path.dropLast.inits.tail.length + 1) (.fail false)

theorem exec_over_store {fs : FileSystem} {contents : Contents} {synced : Bool} (seq : UInt64)
    (hext : self.path.extension = some tmp)
    (hfile : fs.entry self.path = some (.file contents synced)) :
    ∃ fs' operation, FileSystem.device.exec self.firstWriteFails 1 fs (self.operations seq) =
        (fs', .failed operation) ∧
      fs'.entry self.path = some (.file (.text []) false) := by
  have htemporary : self.temporary = self.path :=
    (Path.withExtension_eq_iff tmp).mpr (.inr hext)
  obtain ⟨name, hname⟩ : ∃ name, self.path.fileName = some name :=
    Option.ne_none_iff_exists'.mp fun hnone => by cases fs.named _ _ hnone hfile
  have hparent : fs.entry self.path.dropLast = some .dir :=
    fs.inside _ name (.file contents synced) (by rwa [Path.dropLast_append_fileName hname])
  have hfree : fs.Free self.path (.file (.text []) false) := by
    simp [FileSystem.Free, hfile, hname]
  have hdirs : ∀ operation ∈ self.path.dropLast.inits.tail.map .mkdir,
      FileSystem.device.apply fs operation = .ok fs := by
    intro operation hmem
    obtain ⟨p, hp, rfl⟩ := List.mem_map.mp hmem
    have hdir := fs.entry_above hparent ((List.mem_inits p _).mp (List.mem_of_mem_tail hp))
    simp only [FileSystem.device, FileSystem.apply, hdir]
  have hopen : FileSystem.device.apply fs (.openTruncate self.path) =
      .ok (fs.put self.path (.file (.text []) false) hparent hfree) := by
    simp only [FileSystem.device, FileSystem.apply, FileSystem.place, dif_pos hfree,
      dif_pos hparent]
  obtain ⟨c, rest, hline⟩ := List.exists_cons_of_ne_nil (show line seq ≠ [] by simp [line])
  refine ⟨fs.put self.path (.file (.text []) false) hparent hfree, .write self.path c, ?_,
    fs.put_entry_self _ _ hparent hfree⟩
  rw [operations, FileSystem.device.exec_idle _ ?_ hdirs, List.length_map]
  · simp [Device.exec, Device.effect, firstWriteFails, mishapAt, htemporary, hopen, hline]
  · intro j hj
    rw [List.length_map] at hj
    exact mishapAt_of_ne (by omega)

/-- The other direction: at a path with the extension `tmp` no number is safe. A `persist` whose
first write fails leaves an empty file. -/
theorem persist_loses_number {fs : FileSystem} {contents : Contents} {synced : Bool}
    (hext : self.path.extension = some tmp)
    (hfile : fs.entry self.path = some (.file contents synced)) (hload : self.load fs = .ok v)
    (hle : v ≤ seq) : (self.persist self.firstWriteFails seq fs).2.isOk = false ∧
      self.load (self.persist self.firstWriteFails seq fs).1 =
        .error (.invalidSequence .empty) := by
  obtain ⟨fs', operation, hexec, hempty⟩ := exec_over_store seq hext hfile
  have hfirst : self.firstWriteFails 0 = none := mishapAt_of_ne (by omega)
  have hpersist : self.persist self.firstWriteFails seq fs =
      (fs', .returned (.error (.failed operation))) := by
    simp only [FileSeqStore.persist, hfirst, hload, if_neg (UInt64.not_lt.mpr hle), hexec]
  rw [hpersist]
  refine ⟨rfl, ?_⟩
  simp [FileSeqStore.load, FileSystem.readToString, FileSystem.stat_eq_ok.mpr hempty, trim,
    parseU64]

end FileSeqStore
end Runtime
end MeshBus
