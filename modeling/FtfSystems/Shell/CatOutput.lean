import FtfSystems.Shell.Redirection

/-!
# What `cat` writes

`cat` writes the files it is given to the standard output of the shell, up to the first that it
cannot open, and keeps a descriptor of each of them. A file that has no end, or that can be opened
but not read, holds it for ever.
-/
namespace FtfSystems.Shell
open Foundation DescriptorTable

/-- What there is to read, when that has an end. -/
def Source.bytes : Source → List UInt8
  | .data bytes => bytes
  | .endless _ | .unreadable => []

/-- The end of the file is reached some time. -/
def Files.Ends (files : Files) (path : Line) : Prop :=
  ∃ bytes, files.reading path = some (.data bytes)

/-- The files that `cat` opens: those before the first that cannot be opened, as far as there are
free descriptors. -/
def catFiles (limit : ℕ) (files : Files) (table : DescriptorTable OpenFile) (paths : List Line) :
    List Line :=
  (paths.takeWhile fun path => (files.reading path).isSome).take (free limit table)

def Files.bytes (files : Files) (path : Line) : List UInt8 :=
  ((files.reading path).map Source.bytes).getD []

variable {limit fuel : ℕ} {files : Files} {io io' : Io} {file : OpenFile} {path : Line}
  {paths : List Line} {bytes : List UInt8} {t : DescriptorTable OpenFile}

theorem Io.write_out (h : io.table 1 = some file) (hout : ∀ path, file ≠ .source path)
    (c : UInt8) : io.write 1 c = { io with written := io.written ++ [(file, c)] } := by
  unfold Io.write
  split
  · rename_i hclosed
    rw [hclosed] at h
    cases h
  · rename_i path hsource
    rw [hsource, Option.some.injEq] at h
    exact absurd h.symm (hout path)
  · rename_i file' _ hopen
    rw [hopen, Option.some.injEq] at h
    rw [h]

theorem catLoop_data (h : io.table 1 = some file) (hout : ∀ path, file ≠ .source path)
    (c : UInt8) : catLoop fuel (.data bytes) c io = if bytes.length < fuel then
      some { io with written := io.written ++ bytes.map fun b => (file, b) } else none := by
  induction fuel generalizing bytes c io with
  | zero => rfl
  | succ fuel ih =>
    cases bytes with
    | nil => simp [catLoop, Source.read]
    | cons b bytes =>
      simp only [catLoop, Source.read, io.write_out h hout]
      refine (ih ?_ b).trans ?_
      · exact h
      · simp

theorem catLoop_endless (f : ℕ → UInt8) (c : UInt8) :
    catLoop fuel (.endless f) c io = none := by
  induction fuel generalizing f c io with
  | zero => rfl
  | succ fuel ih => exact ih _ _

theorem catLoop_unreadable (c : UInt8) : catLoop fuel .unreadable c io = none := by
  induction fuel generalizing io with
  | zero => rfl
  | succ fuel ih => exact ih

/-- The loop ends on a file that has an end, whatever it writes to. -/
theorem catLoop_isSome_iff {s : Source} {c : UInt8} : (∃ io', catLoop fuel s c io = some io') ↔
    ∃ bytes, s = .data bytes ∧ bytes.length < fuel := by
  cases s with
  | unreadable => simp [catLoop_unreadable]
  | endless f => simp [catLoop_endless]
  | data bytes =>
    simp only [Source.data.injEq, exists_eq_left']
    induction fuel generalizing bytes c io with
    | zero => simp [catLoop]
    | succ fuel ih =>
      cases bytes with
      | nil => simp [catLoop, Source.read]
      | cons b bytes =>
        simp only [catLoop, Source.read, List.length_cons, Nat.add_lt_add_iff_right]
        exact ih bytes

theorem catFiles_of_closed (h : files.reading path = none) :
    catFiles limit files t (path :: paths) = [] := by
  simp [catFiles, h]

theorem catFiles_of_full (h : lowest limit t = none) : catFiles limit files t paths = [] := by
  rw [catFiles, free_eq_zero.mpr h, List.take_zero]

theorem catFiles_of_open (paths : List Line) {s : Source} {d : ℕ} (h : files.reading path = some s)
    (hlow : lowest limit t = some d) : catFiles limit files t (path :: paths) =
      path :: catFiles limit files (Function.update t d (some (.source path))) paths := by
  obtain ⟨hd, hlt, -⟩ := lowest_eq_some.mp hlow
  rw [catFiles, ← free_update hlt hd (.source path), List.takeWhile_cons_of_pos (by simp [h]),
    List.take_succ_cons, catFiles]

/-- The result of `cat`, if there is one. -/
structure CatDone (limit : ℕ) (files : Files) (file : OpenFile) (paths : List Line) (io io' : Io) :
    Prop where
  opened : io'.opened = io.opened ++ catFiles limit files io.table paths
  written : io'.written = io.written ++
    ((catFiles limit files io.table paths).flatMap files.bytes).map fun b => (file, b)
  taken : free limit io'.table + (catFiles limit files io.table paths).length =
    free limit io.table

theorem CatDone.stop (h : catFiles limit files io.table paths = []) :
    CatDone limit files file paths io io := by
  constructor <;> simp [h]

theorem catExecute_done (h : io.table 1 = some file) (hout : ∀ path, file ≠ .source path)
    (hrun : catExecute limit fuel files paths io = some io') :
    CatDone limit files file paths io io' := by
  induction paths generalizing io with
  | nil =>
    cases Option.some.inj hrun
    exact .stop (by simp [catFiles])
  | cons path paths ih =>
    rw [catExecute] at hrun
    cases hread : files.reading path with
    | none =>
      rw [hread] at hrun
      cases Option.some.inj hrun
      exact .stop (catFiles_of_closed hread)
    | some s =>
      cases hlow : lowest limit io.table with
      | none =>
        simp only [hread, assign, hlow, Option.some.injEq] at hrun
        exact hrun ▸ .stop (catFiles_of_full hlow)
      | some d =>
        simp only [hread, assign_of_lowest hlow] at hrun
        obtain ⟨io₁, hloop, hrest⟩ := Option.bind_eq_some_iff.mp hrun
        have h1 : Function.update io.table d (some (.source path)) 1 = some file :=
          extends_update hlow _ 1 file h
        cases s with
        | unreadable =>
          rw [catLoop_unreadable] at hloop
          cases hloop
        | endless f =>
          rw [catLoop_endless] at hloop
          cases hloop
        | data bytes =>
          rw [catLoop_data h1 hout, Option.ite_none_right_eq_some, Option.some.injEq] at hloop
          obtain ⟨-, rfl⟩ := hloop
          obtain ⟨hopened, hwritten, htaken⟩ := ih h1 hrest
          obtain ⟨hd, hlt, -⟩ := lowest_eq_some.mp hlow
          have hfree := free_update hlt hd (.source path)
          have hfiles := catFiles_of_open paths hread hlow
          have hbytes : files.bytes path = bytes := by simp [Files.bytes, hread, Source.bytes]
          refine ⟨?_, ?_, ?_⟩
          · simp [hopened, hfiles]
          · simp [hwritten, hfiles, hbytes]
          · rw [hfiles, List.length_cons]
            simp only at htaken
            omega

/-- Every file that `cat` opens is read to its end, or there is no result. -/
theorem catExecute_isSome_iff : (∃ io', catExecute limit fuel files paths io = some io') ↔
      ∀ path ∈ catFiles limit files io.table paths,
        files.Ends path ∧ (files.bytes path).length < fuel := by
  induction paths generalizing io with
  | nil => simp [catExecute, catFiles]
  | cons path paths ih =>
    cases hread : files.reading path with
    | none => simp [catExecute, hread, catFiles_of_closed hread]
    | some s =>
      cases hlow : lowest limit io.table with
      | none => simp [catExecute, hread, assign, hlow, catFiles_of_full hlow]
      | some d =>
        rw [catFiles_of_open paths hread hlow, List.forall_mem_cons, Files.Ends, hread]
        simp only [catExecute, hread, assign_of_lowest hlow]
        obtain ⟨io₀, hio₀⟩ : ∃ io₀ : Io, io₀ = { io with
            table := Function.update io.table d (some (.source path))
            opened := io.opened ++ [path] } := ⟨_, rfl⟩
        have htable : io₀.table = Function.update io.table d (some (.source path)) := by rw [hio₀]
        rw [← hio₀, ← htable]
        constructor
        · rintro ⟨io', hrun⟩
          obtain ⟨io₁, hloop, hrest⟩ := Option.bind_eq_some_iff.mp hrun
          obtain ⟨bytes, rfl, hlt⟩ := catLoop_isSome_iff.mp ⟨io₁, hloop⟩
          rw [← (catLoop_kept hloop).1]
          refine ⟨⟨⟨bytes, rfl⟩, ?_⟩, ih.mp ⟨io', hrest⟩⟩
          simpa [Files.bytes, hread, Source.bytes] using hlt
        · rintro ⟨⟨⟨bytes, hbytes⟩, hlt⟩, hrest⟩
          rw [Option.some.injEq] at hbytes
          have hfile : files.bytes path = bytes := by simp [Files.bytes, hread, hbytes, Source.bytes]
          obtain ⟨io₁, hloop⟩ : ∃ io₁, catLoop fuel s 0 io₀ = some io₁ :=
            catLoop_isSome_iff.mpr ⟨bytes, hbytes, hfile ▸ hlt⟩
          rw [← (catLoop_kept hloop).1] at hrest
          obtain ⟨io', hrun⟩ := ih.mpr hrest
          exact ⟨io', Option.bind_eq_some_iff.mpr ⟨io₁, hloop, hrun⟩⟩

/-- Enough fuel for all files together. -/
theorem catExecute_returns_iff : (∃ fuel io', catExecute limit fuel files paths io = some io') ↔
    ∀ path ∈ catFiles limit files io.table paths, files.Ends path := by
  constructor
  · rintro ⟨fuel, hrun⟩ path hpath
    exact (catExecute_isSome_iff.mp hrun path hpath).1
  · intro hread
    let lengths := (catFiles limit files io.table paths).map fun path => (files.bytes path).length
    refine ⟨lengths.sum + 1, catExecute_isSome_iff.mpr fun path hpath =>
      ⟨hread path hpath, Nat.lt_succ_of_le ?_⟩⟩
    exact List.single_le_sum (fun _ _ => Nat.zero_le _) _ (List.mem_map_of_mem hpath)

/-- `cat` returns exactly when every file that it opens has an end. It has then written all bytes
of the files that it has opened to the file behind the standard output, in their order, and has
taken a descriptor for each of them. -/
theorem cat_writes_files (limit : ℕ) (files : Files) (paths : List Line) (io : Io) (file : OpenFile)
    (h : io.table 1 = some file) (hout : ∀ path, file ≠ .source path) :
    ((∃ fuel io', catExecute limit fuel files paths io = some io') ↔
      ∀ path ∈ catFiles limit files io.table paths, files.Ends path) ∧
    ∀ fuel io', catExecute limit fuel files paths io = some io' →
      CatDone limit files file paths io io' := by
  exact ⟨catExecute_returns_iff, fun fuel io' => catExecute_done h hout⟩

theorem cat_writes_files_two :
    CatDone 8 ⟨fun _ => some (.data [65, 66]), fun _ => true⟩ (.inherited 1)
      ["a".toList, "b".toList] ⟨standardStreams, [], []⟩
      ((catExecute 8 3 ⟨fun _ => some (.data [65, 66]), fun _ => true⟩ ["a".toList, "b".toList]
        ⟨standardStreams, [], []⟩).getD ⟨standardStreams, [], []⟩) :=
  (cat_writes_files 8 ⟨fun _ => some (.data [65, 66]), fun _ => true⟩ ["a".toList, "b".toList]
    ⟨standardStreams, [], []⟩ (.inherited 1) rfl (by simp)).2 3 _ rfl

/-! ### Under a redirection -/

theorem redirectStart_open {out : Line × Bool} (h0 : t 0 ≠ none) (h1 : t 1 ≠ none)
    (hroom : 0 < free limit t) (hw : files.writing out = true) :
    (redirectStart limit files out t).2 1 = some (.output out.1 out.2) ∧
      free limit (redirectStart limit files out t).2 + 1 = free limit t := by
  obtain ⟨a, ha⟩ := Option.ne_none_iff_exists'.mp h1
  obtain ⟨d, hlow⟩ := exists_lowest hroom
  obtain ⟨hfree, hlt, -⟩ := lowest_eq_some.mp hlow
  have hd0 : 0 ≠ d := fun he => h0 (he ▸ hfree)
  have hd1 : 1 ≠ d := fun he => h1 (he ▸ hfree)
  have hlimit : 1 < limit := by omega
  set t₁ := Function.update t d (some a) with ht₁
  have h01 : ∀ e < 1, t₁ e ≠ none := by
    intro e he
    obtain rfl : e = 0 := by omega
    rwa [ht₁, Function.update_of_ne hd0]
  have h11 : t₁ 1 ≠ none := by rwa [ht₁, Function.update_of_ne hd1]
  simp only [redirectStart, dup, ha, assign_of_lowest hlow, ← ht₁, hw, if_true,
    assign_of_lowest (lowest_close hlimit h01)]
  refine ⟨Function.update_self .., ?_⟩
  rw [free_update hlimit (close_self t₁ 1), free_close hlimit h11, free_update hlt hfree]

/-- A file that cannot be opened leaves 1 to the first file that `cat` opens. -/
theorem redirectStart_closed {out : Line × Bool} (h0 : t 0 ≠ none) (h1 : t 1 ≠ none)
    (hroom : 0 < free limit t) (hw : files.writing out = false) :
    (redirectStart limit files out t).2 1 = none ∧
      free limit (redirectStart limit files out t).2 = free limit t := by
  obtain ⟨a, ha⟩ := Option.ne_none_iff_exists'.mp h1
  obtain ⟨d, hlow⟩ := exists_lowest hroom
  obtain ⟨hfree, hlt, -⟩ := lowest_eq_some.mp hlow
  have hd0 : 0 ≠ d := fun he => h0 (he ▸ hfree)
  have hd1 : 1 ≠ d := fun he => h1 (he ▸ hfree)
  have h11 : Function.update t d (some a) 1 ≠ none := by rwa [Function.update_of_ne hd1]
  simp only [redirectStart, dup, ha, assign_of_lowest hlow, hw, Bool.false_eq_true, if_false]
  refine ⟨close_self _ 1, ?_⟩
  rw [free_close (by omega) h11, free_update hlt hfree]

theorem Io.write_lost (h : ∀ file, io.table 1 = some file → ∃ path, file = .source path)
    (c : UInt8) : io.write 1 c = io := by
  unfold Io.write
  split
  · rfl
  · rfl
  · rename_i file hsource hopen
    obtain ⟨path, rfl⟩ := h file hopen
    exact absurd rfl (hsource path)

theorem catLoop_lost {s : Source} {c : UInt8}
    (h : ∀ file, io.table 1 = some file → ∃ path, file = .source path)
    (hrun : catLoop fuel s c io = some io') : io' = io := by
  induction fuel generalizing s c with
  | zero => cases hrun
  | succ fuel ih =>
    rw [catLoop] at hrun
    split at hrun
    · exact (Option.some.inj hrun).symm
    · rw [io.write_lost h] at hrun
      exact ih hrun
    · rw [io.write_lost h] at hrun
      exact ih hrun

/-- Without a standard output everything is read and nothing is written. -/
theorem catExecute_lost (h : ∀ file, io.table 1 = some file → ∃ path, file = .source path)
    (hrun : catExecute limit fuel files paths io = some io') : io'.written = io.written := by
  induction paths generalizing io with
  | nil => rw [Option.some.inj hrun]
  | cons path paths ih =>
    rw [catExecute] at hrun
    split at hrun
    · rw [Option.some.inj hrun]
    · split at hrun
      · rw [Option.some.inj hrun]
      · rename_i table hassign
        obtain ⟨io₁, hloop, hrest⟩ := Option.bind_eq_some_iff.mp hrun
        have hnext (file : OpenFile) (hf : table 1 = some file) : ∃ path, file = .source path := by
          have hnew : (io.table.assign limit (.source path)).2 1 = some file := by rwa [hassign]
          exact (assign_new hnew).elim (h file) fun he => ⟨path, he⟩
        rw [catLoop_lost hnext hloop] at hrest
        refine (ih ?_ hrest).trans rfl
        exact hnext

/-- The files that `cat` opens under a redirection to `out`: the duplicate of the standard output
takes a descriptor, and closing 1 frees one when `out` cannot be opened. -/
def redirectedFiles (limit : ℕ) (files : Files) (out : Line × Bool)
    (table : DescriptorTable OpenFile) (paths : List Line) : List Line :=
  (paths.takeWhile fun path => (files.reading path).isSome).take
    (if files.writing out then free limit table - 1 else free limit table)

theorem redirectedFiles_eq {out : Line × Bool} (h0 : t 0 ≠ none) (h1 : t 1 ≠ none)
    (hroom : 0 < free limit t) : redirectedFiles limit files out t paths =
      catFiles limit files (redirectStart limit files out t).2 paths := by
  rw [redirectedFiles, catFiles]
  congr 1
  split_ifs with hw
  · have hfree := (redirectStart_open h0 h1 hroom hw).2
    omega
  · exact (redirectStart_closed h0 h1 hroom (by simpa using hw)).2.symm

/-- `cat` under a redirection returns exactly when the files that it opens have an end: as many of
those before the first that cannot be opened as there are descriptors for. It has then copied them
to the file that the redirection names, or has written nothing when that cannot be opened. -/
theorem redirected_cat_copies {chdir : Line → Line → Option Line} {maxArgs n : ℕ}
    {sh sh' : SmallShell} {curr cmd inner : Command} {ans : Answers} (hk : cmd.kind = .redirection)
    (hinner : createCommand chdir maxArgs sh (SmallShell.redirectedText cmd.enteredCmd) =
      some (inner, sh')) (hcat : inner.kind = .cat) (h0 : io.table 0 ≠ none)
    (h1 : io.table 1 ≠ none) (hroom : 0 < free limit io.table) :
    ((∃ fuel io', executeIo chdir maxArgs limit fuel files curr ans (n + 2) sh cmd io = some io') ↔
      ∀ path ∈ redirectedFiles limit files (outFile cmd.enteredCmd) io.table (inner.args.drop 1),
        files.Ends path) ∧
    ∀ fuel io', executeIo chdir maxArgs limit fuel files curr ans (n + 2) sh cmd io = some io' →
      io'.table 1 = io.table 1 ∧
      io'.written = io.written ++ if files.writing (outFile cmd.enteredCmd) then
        ((redirectedFiles limit files (outFile cmd.enteredCmd) io.table
          (inner.args.drop 1)).flatMap files.bytes).map fun b =>
            (.output (outFile cmd.enteredCmd).1 (outFile cmd.enteredCmd).2, b) else [] := by
  rw [redirectedFiles_eq h0 h1 hroom]
  constructor
  · rw [← @catExecute_returns_iff limit files { io with
      table := (redirectStart limit files (outFile cmd.enteredCmd) io.table).2 }]
    refine exists_congr fun fuel => ⟨?_, ?_⟩
    · rintro ⟨io', h⟩
      obtain ⟨inner', sh₁, io₁, hinner', hrun, -⟩ := executeIo_redirection hk h
      obtain ⟨rfl, rfl⟩ : inner = inner' ∧ sh' = sh₁ := by simpa [hinner] using hinner'
      rw [executeIo, hcat] at hrun
      exact ⟨io₁, hrun⟩
    · rintro ⟨io₁, hrun⟩
      rw [executeIo, hk]
      simp only [hinner, Option.bind_eq_bind, Option.bind_some]
      rw [executeIo, hcat]
      exact ⟨_, Option.bind_eq_some_iff.mpr ⟨io₁, hrun, rfl⟩⟩
  · intro fuel io' h
    refine ⟨(executeIo_one hk h0 h).1 hroom, ?_⟩
    obtain ⟨inner', sh₁, io₁, hinner', hrun, rfl⟩ := executeIo_redirection hk h
    obtain ⟨rfl, rfl⟩ : inner = inner' ∧ sh' = sh₁ := by simpa [hinner] using hinner'
    rw [executeIo, hcat] at hrun
    split_ifs with hw
    · exact (catExecute_done (redirectStart_open h0 h1 hroom hw).1 (by simp) hrun).written
    · have hclosed := (redirectStart_closed h0 h1 hroom (by simpa using hw)).1
      rw [List.append_nil]
      refine (catExecute_lost ?_ hrun).trans rfl
      intro file hf
      simp only [hclosed] at hf
      cases hf

theorem redirected_cat_copies_one : ∃ fuel io',
    executeIo (fun _ _ => none) commandMaxArgs 8 fuel ⟨fun _ => some (.data [65, 66]), fun _ => true⟩
      { kind := .redirection, enteredCmd := "cat a>f".toList } noAnswers 2 (.new [])
      { kind := .redirection, enteredCmd := "cat a>f".toList } ⟨standardStreams, [], []⟩ =
        some io' ∧
    io'.written = [(.output "f".toList false, 65), (.output "f".toList false, 66)] := by
  have hinner : createCommand (fun _ _ => none) commandMaxArgs (.new [])
      (SmallShell.redirectedText "cat a>f".toList) =
        some (createCat "cat a".toList ["cat".toList, "a".toList], .new []) := rfl
  have hcopied := @redirected_cat_copies 8 ⟨fun _ => some (.data [65, 66]), fun _ => true⟩
    ⟨standardStreams, [], []⟩ _ _ 0 _ _ { kind := .redirection, enteredCmd := "cat a>f".toList }
    { kind := .redirection, enteredCmd := "cat a>f".toList } _ noAnswers rfl hinner rfl
    (Option.some_ne_none _) (Option.some_ne_none _) (by decide)
  obtain ⟨fuel, io', h⟩ := hcopied.1.mpr fun path _ => ⟨[65, 66], rfl⟩
  refine ⟨fuel, io', h, (hcopied.2 fuel io' h).2.trans ?_⟩
  decide

end FtfSystems.Shell
