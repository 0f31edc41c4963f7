import FtfSystems.Foundation.Descriptors
import FtfSystems.Shell.ArgBounds
import FtfSystems.Shell.BackgroundSign

/-!
# The descriptors of the shell

`RedirectionCommand::execute` moves the standard output of the shell itself to a file, runs a
command there and moves it back; `CatCommand::execute` opens files in the shell and leaves them
open. All other commands open and close nothing in the shell: what they do happens in processes
with tables of their own.
-/
namespace FtfSystems.Shell
open Foundation

/-- What an open file yields to a reader: its bytes and then the end, bytes without an end, or an
error every time. -/
inductive Source where
  | data (bytes : List UInt8)
  | endless (bytes : ℕ → UInt8)
  | unreadable

/-- The result of `read(fd, &c, 1)`. -/
inductive ReadByte where
  | byte (c : UInt8)
  | eof
  | error

def Source.read : Source → ReadByte × Source
  | .data [] => (.eof, .data [])
  | .data (c :: bytes) => (.byte c, .data bytes)
  | .endless bytes => (.byte (bytes 0), .endless fun k => bytes (k + 1))
  | .unreadable => (.error, .unreadable)

/-- What a descriptor refers to. -/
inductive OpenFile where
  | inherited (n : ℕ)
  | output (path : Line) (append : Bool)
  | source (path : Line)
  deriving DecidableEq

/-- The answers of `open`: what the file yields, and whether it can be written to. -/
structure Files where
  reading : Line → Option Source
  writing : Line × Bool → Bool

/-- The descriptors of the shell, the files that `cat` has opened and the bytes that it has
written. -/
structure Io where
  table : DescriptorTable OpenFile
  opened : List Line
  written : List (OpenFile × UInt8)

/-- `write(d, &c, 1)`, whose result nobody looks at. -/
def Io.write (io : Io) (d : ℕ) (c : UInt8) : Io :=
  match io.table d with
  | none | some (.source _) => io
  | some file => { io with written := io.written ++ [(file, c)] }

/-- The loop of `CatCommand::execute` over a file; `c` holds the byte read last. A failed `read`
returns -1, which does not end the loop. -/
def catLoop : ℕ → Source → UInt8 → Io → Option Io
  | 0, _, _, _ => none
  | fuel + 1, s, c, io =>
    match s.read with
    | (.eof, _) => some io
    | (.byte c, s) => catLoop fuel s c (io.write 1 c)
    | (.error, s) => catLoop fuel s c (io.write 1 c)

section
variable (chdir : Line → Line → Option Line) (maxArgs limit fuel : ℕ) (files : Files)

/-- `CatCommand::execute`. -/
def catExecute : List Line → Io → Option Io
  | [], io => some io
  | path :: paths, io =>
    match files.reading path with
    | none => some io
    | some s =>
      match io.table.assign limit (.source path) with
      | (none, _) => some io
      | (some _, table) =>
        (catLoop fuel s 0 { io with table := table, opened := io.opened ++ [path] }).bind
          (catExecute paths)

/-- What `RedirectionCommand::execute` does to the table before it runs the command: the
duplicate of the standard output and the new table. -/
def redirectStart (out : Line × Bool) (table : DescriptorTable OpenFile) :
    Option ℕ × DescriptorTable OpenFile :=
  let (fd, table) := table.dup limit 1
  let table := table.close 1
  if files.writing out then (fd, (table.assign limit (.output out.1 out.2)).2) else (fd, table)

/-- What it does afterwards. -/
def redirectEnd (fd : Option ℕ) (table : DescriptorTable OpenFile) : DescriptorTable OpenFile :=
  let table := table.close 1
  match fd with
  | none => table
  | some fd => (table.dup limit fd).2.close fd

/-- `execute`, as far as it concerns the descriptors of the shell; `curr` is `curr_cmd`, and `n`
bounds how deep redirections nest. What ends the command inside, a number that `stoi` refuses or a
job list that has not been set, leaves the redirection before it closes anything. -/
def executeIo (curr : Command) (ans : Answers) : ℕ → SmallShell → Command → Io → Option Io
  | 0, _, _, _ => none
  | n + 1, sh, cmd, io =>
    match cmd.kind with
    | .redirection => do
      let (fd, table) := redirectStart limit files (outFile cmd.enteredCmd) io.table
      let (inner, sh) ← createCommand chdir maxArgs sh (SmallShell.redirectedText cmd.enteredCmd)
      let io ← executeIo curr ans n sh inner { io with table := table }
      return { io with table := redirectEnd limit fd io.table }
    | .cat => catExecute limit fuel files (cmd.args.drop 1) io
    | _ => (sh.executeDirect chdir curr cmd ans).map fun _ => io

/-- The descriptors once a line has been executed, by `executeCommand`. -/
def lineIo (sh : SmallShell) (cmdLine : Line) (ans : Answers) (io : Io) : Option Io :=
  if cmdLine = [] then some io
  else do
    let (curr, sh) ← createCommand chdir maxArgs sh cmdLine
    let sh := if !curr.builtInCmd ∧ curr.backgroundCmd then
      { sh with jobs := sh.jobs.addJob cmdLine false false ans.now } else sh
    let curr := { curr with list := true }
    executeIo chdir maxArgs limit fuel files curr ans (curr.enteredCmd.length + 1) sh curr io

end

open DescriptorTable

variable {chdir : Line → Line → Option Line} {maxArgs limit fuel n : ℕ} {files : Files}
  {sh : SmallShell} {cmdLine : Line} {curr cmd : Command} {ans : Answers} {io io' : Io}
  {fd : Option ℕ}
  {t t' t'' : DescriptorTable OpenFile}

/-! ### Reading files -/

theorem Io.write_kept (io : Io) (d : ℕ) (c : UInt8) :
    (io.write d c).table = io.table ∧ (io.write d c).opened = io.opened := by
  unfold Io.write
  split <;> exact ⟨rfl, rfl⟩

theorem catLoop_kept {s : Source} {c : UInt8} (h : catLoop fuel s c io = some io') :
    io'.table = io.table ∧ io'.opened = io.opened := by
  induction fuel generalizing s c io with
  | zero => cases h
  | succ fuel ih =>
    rw [catLoop] at h
    split at h
    · cases Option.some.inj h
      exact ⟨rfl, rfl⟩
    · obtain ⟨htable, hopened⟩ := ih h
      exact ⟨htable.trans (io.write_kept 1 _).1, hopened.trans (io.write_kept 1 _).2⟩
    · obtain ⟨htable, hopened⟩ := ih h
      exact ⟨htable.trans (io.write_kept 1 _).1, hopened.trans (io.write_kept 1 _).2⟩

/-- `cat` either stops at a file or reads it and goes on to the next. -/
theorem catExecute_cases {path : Line} {paths : List Line}
    (h : catExecute limit fuel files (path :: paths) io = some io') :
    io' = io ∨ ∃ io₁, io₁.table = (io.table.assign limit (.source path)).2 ∧
      io₁.opened = io.opened ++ [path] ∧ catExecute limit fuel files paths io₁ = some io' := by
  rw [catExecute] at h
  split at h
  · exact .inl (Option.some.inj h).symm
  · split at h
    · exact .inl (Option.some.inj h).symm
    · rename_i table hassign
      obtain ⟨io₁, hloop, h⟩ := Option.bind_eq_some_iff.mp h
      obtain ⟨htable, hopened⟩ := catLoop_kept hloop
      exact .inr ⟨io₁, by rw [htable, hassign], hopened, h⟩

/-- What a command leaves of the descriptors besides 1: those that were open still are, new ones
refer to files that `cat` has opened, and each of these takes one descriptor at most. -/
structure Kept (limit : ℕ) (io io' : Io) : Prop where
  still : ExtendsBesides 1 io.table io'.table
  sources : ∀ d ≠ 1, ∀ file, io'.table d = some file →
    io.table d = some file ∨ ∃ path ∈ io'.opened, file = .source path
  opened : io.opened <+: io'.opened
  room : free limit (close io.table 1) + io.opened.length ≤
    free limit (close io'.table 1) + io'.opened.length

theorem Kept.refl (limit : ℕ) (io : Io) : Kept limit io io :=
  ⟨(Extends.refl _).besides 1, fun _ _ _ h => .inl h, List.prefix_rfl, le_rfl⟩

theorem catExecute_kept {paths : List Line} (h : catExecute limit fuel files paths io = some io') :
    Extends io.table io'.table ∧ Kept limit io io' := by
  induction paths generalizing io with
  | nil =>
    cases Option.some.inj h
    exact ⟨.refl _, .refl limit _⟩
  | cons path paths ih =>
    obtain rfl | ⟨io₁, htable, hopened, hrest⟩ := catExecute_cases h
    · exact ⟨.refl _, .refl limit _⟩
    · obtain ⟨hext', hstill, hsources, hprefix, hroom⟩ := ih hrest
      have hext := assign_extends limit io.table (.source path)
      have hassign := free_close_assign limit io.table (.source path) 1
      rw [← htable] at hext hassign
      rw [hopened, List.length_append, List.length_singleton] at hroom
      refine ⟨hext.trans hext', (hext.trans hext').besides 1, fun d hd file hfile => ?_,
        (hopened ▸ List.prefix_append ..).trans hprefix, by omega⟩
      obtain hfile | hsource := hsources d hd file hfile
      · rw [htable] at hfile
        refine (assign_new hfile).imp_right fun he => ⟨path, hprefix.subset ?_, he⟩
        rw [hopened]
        exact List.mem_append_right _ (List.mem_singleton_self path)
      · exact .inr hsource

/-! ### Redirections -/

/-- Once 1 is closed, it is the descriptor that `open` and `dup` assign. -/
theorem assign_besides (h0 : t 0 ≠ none) (h1 : t 1 = none) (a : OpenFile) {e : ℕ} (he : e ≠ 1) :
    (assign limit t a).2 e = t e := by
  cases h : lowest limit t with
  | none => rw [assign, h]
  | some d =>
    have hle := lowest_le h h1
    have hne : d ≠ 0 := by
      rintro rfl
      exact h0 (lowest_eq_some.mp h).1
    obtain rfl : d = 1 := by omega
    rw [assign_of_lowest h]
    exact Function.update_of_ne he _ _

/-- The table that a redirection runs its command with: nothing has changed besides 1 and the
duplicate of it, which exists when 1 is open and some descriptor is free. -/
structure Redirected (limit : ℕ) (t : DescriptorTable OpenFile) (fd : Option ℕ)
    (t' : DescriptorTable OpenFile) : Prop where
  others : ∀ e, e ≠ 1 → fd ≠ some e → t' e = t e
  saved : ∀ d, fd = some d → d ≠ 1 ∧ d < limit ∧ t d = none ∧ t 1 ≠ none ∧ t' d = t 1
  lost : fd = none → t 1 = none ∨ free limit t = 0

theorem redirectStart_redirected (limit : ℕ) (files : Files) (out : Line × Bool) (h0 : t 0 ≠ none) :
    Redirected limit t (redirectStart limit files out t).1 (redirectStart limit files out t).2 := by
  have hopen {t₁ : DescriptorTable OpenFile} (h0 : t₁ 0 ≠ none) (fd : Option ℕ) :
      (if files.writing out then (fd, ((close t₁ 1).assign limit (.output out.1 out.2)).2)
        else (fd, close t₁ 1)).1 = fd ∧
      ∀ e, e ≠ 1 → (if files.writing out then
        (fd, ((close t₁ 1).assign limit (.output out.1 out.2)).2) else (fd, close t₁ 1)).2 e =
          t₁ e := by
    have h0' : close t₁ 1 0 ≠ none := by rwa [close_of_ne t₁ (by decide)]
    split_ifs
    · exact ⟨rfl, fun e he => (assign_besides h0' (close_self t₁ 1) _ he).trans (close_of_ne t₁ he)⟩
    · exact ⟨rfl, fun e he => close_of_ne t₁ he⟩
  cases h1 : t 1 with
  | none =>
    obtain ⟨hfd, hothers⟩ := hopen h0 none
    simp only [redirectStart, dup, h1]
    exact ⟨fun e he _ => hothers e he,
      fun d hd => absurd (hd.symm.trans hfd) (Option.some_ne_none d), fun _ => .inl h1⟩
  | some a =>
    cases hlow : lowest limit t with
    | none =>
      obtain ⟨hfd, hothers⟩ := hopen h0 none
      simp only [redirectStart, dup, h1, assign, hlow]
      exact ⟨fun e he _ => hothers e he,
        fun d hd => absurd (hd.symm.trans hfd) (Option.some_ne_none d),
        fun _ => .inr (free_eq_zero.mpr hlow)⟩
    | some d =>
      obtain ⟨hfree, hlt, -⟩ := lowest_eq_some.mp hlow
      have hd0 : 0 ≠ d := by
        rintro rfl
        exact h0 hfree
      have hd1 : d ≠ 1 := by
        rintro rfl
        rw [h1] at hfree
        cases hfree
      have h01 : Function.update t d (some a) 0 ≠ none := by rwa [Function.update_of_ne hd0]
      obtain ⟨hfd, hothers⟩ := hopen h01 (some d)
      simp only [redirectStart, dup, h1, assign_of_lowest hlow]
      refine ⟨fun e he hne => ?_, fun d' hd' => ?_,
        fun hnone => absurd (hfd.symm.trans hnone) (Option.some_ne_none d)⟩
      · have hed : e ≠ d := by
          rintro rfl
          exact hne hfd
        rw [hothers e he, Function.update_of_ne hed]
      · rw [hfd, Option.some.injEq] at hd'
        subst hd'
        rw [hothers d hd1, Function.update_self, h1]
        exact ⟨hd1, hlt, hfree, Option.some_ne_none a, rfl⟩

namespace Redirected

theorem keeps_zero (h : Redirected limit t fd t') (h0 : t 0 ≠ none) : t' 0 ≠ none := by
  rw [h.others 0 (by decide)]
  · exact h0
  · exact fun hfd => h0 (h.saved 0 hfd).2.2.1

/-- The descriptors afterwards: 1 is given back if it was saved, the duplicate is closed, and the
others are as the command has left them. -/
theorem restores (h : Redirected limit t fd t') (h0 : t 0 ≠ none) (hext : ExtendsBesides 1 t' t'')
    (x : ℕ) : redirectEnd limit fd t'' x =
      if x = 1 then (if fd = none then none else t 1) else if fd = some x then none else t'' x := by
  cases hfd : fd with
  | none =>
    rw [redirectEnd, if_pos rfl, if_neg (Option.some_ne_none x).symm]
    split_ifs with hx
    · rw [hx, close_self]
    · rw [close_of_ne t'' hx]
  | some d =>
    obtain ⟨hd1, hlt, hfree, h1, hd⟩ := h.saved d hfd
    obtain ⟨b, hb⟩ := Option.ne_none_iff_exists'.mp h1
    have hd0 : d ≠ 0 := by
      rintro rfl
      exact h0 hfree
    have h0' : ∀ e < 1, t'' e ≠ none := by
      intro e he
      obtain rfl : e = 0 := by omega
      obtain ⟨c, hc⟩ := Option.ne_none_iff_exists'.mp (h.keeps_zero h0)
      rw [hext 0 (by decide) c hc]
      exact Option.some_ne_none c
    have hsaved : close t'' 1 d = some b := by
      rw [close_of_ne t'' hd1]
      exact hext d hd1 b (hd.trans hb)
    have hlow : lowest limit (close t'' 1) = some 1 := lowest_close (by omega) h0'
    rw [if_neg (Option.some_ne_none d), hb]
    simp only [redirectEnd, dup, hsaved, assign_of_lowest hlow]
    by_cases hx : x = d
    · rw [hx, close_self, if_neg hd1, if_pos rfl]
    · have hne : ¬some d = some x := fun he => hx (Option.some.inj he).symm
      rw [close_of_ne _ hx, if_neg hne]
      split_ifs with h1
      · rw [h1, Function.update_self]
      · rw [Function.update_of_ne h1, close_of_ne t'' h1]

/-- What is open besides 1 stays open. -/
theorem extendsBesides (h : Redirected limit t fd t') (h0 : t 0 ≠ none)
    (hext : ExtendsBesides 1 t' t'') : ExtendsBesides 1 t (redirectEnd limit fd t'') := by
  intro x hx a ha
  have hne : fd ≠ some x := by
    intro hfd
    rw [(h.saved x hfd).2.2.1] at ha
    cases ha
  rw [h.restores h0 hext, if_neg hx, if_neg hne]
  exact hext x hx a ((h.others x hx hne).trans ha)

theorem one_of_room (h : Redirected limit t fd t') (h0 : t 0 ≠ none)
    (hext : ExtendsBesides 1 t' t'') (hroom : 0 < free limit t) :
    redirectEnd limit fd t'' 1 = t 1 := by
  rw [h.restores h0 hext, if_pos rfl]
  split_ifs with hfd
  · exact ((h.lost hfd).resolve_right hroom.ne').symm
  · rfl

/-- The descriptors besides 1: the duplicate is all that the redirection takes and gives back. -/
theorem room (h : Redirected limit t fd t') (h0 : t 0 ≠ none) (hext : ExtendsBesides 1 t' t'') :
    free limit (close t 1) + free limit (close t'' 1) =
      free limit (close t' 1) + free limit (close (redirectEnd limit fd t'') 1) := by
  have hrestored (x : ℕ) (hx : x ≠ 1) :
      redirectEnd limit fd t'' x = if fd = some x then none else t'' x := by
    rw [h.restores h0 hext, if_neg hx]
  cases hfd : fd with
  | none =>
    subst hfd
    have hstart : close t' 1 = close t 1 := by
      funext x
      by_cases hx : x = 1
      · rw [hx, close_self, close_self]
      · rw [close_of_ne _ hx, close_of_ne _ hx, h.others x hx (by simp)]
    have hend : close (redirectEnd limit none t'') 1 = close t'' 1 := by
      funext x
      by_cases hx : x = 1
      · rw [hx, close_self, close_self]
      · rw [close_of_ne _ hx, close_of_ne _ hx, hrestored x hx, if_neg (by simp)]
    rw [hstart, hend]
  | some d =>
    subst hfd
    obtain ⟨hd1, hlt, hfree, h1, hd⟩ := h.saved d rfl
    obtain ⟨b, hb⟩ := Option.ne_none_iff_exists'.mp h1
    have hd' : t' d = some b := hd.trans hb
    have hstart : close (close t' 1) d = close t 1 := by
      funext x
      by_cases hxd : x = d
      · rw [hxd, close_self, close_of_ne _ hd1, hfree]
      · rw [close_of_ne _ hxd]
        by_cases hx : x = 1
        · rw [hx, close_self, close_self]
        · rw [close_of_ne _ hx, close_of_ne _ hx, h.others x hx fun he => hxd (Option.some.inj he).symm]
    have hend : close (redirectEnd limit (some d) t'') 1 = close (close t'' 1) d := by
      funext x
      by_cases hx : x = 1
      · rw [hx, close_self, close_of_ne _ hd1.symm, close_self]
      · rw [close_of_ne _ hx, hrestored x hx]
        by_cases hxd : x = d
        · rw [hxd, close_self, if_pos rfl]
        · rw [close_of_ne _ hxd, close_of_ne _ hx, if_neg fun he => hxd (Option.some.inj he).symm]
    have hopen' : close t' 1 d ≠ none := by
      rw [close_of_ne _ hd1, hd']
      exact Option.some_ne_none b
    have hopen'' : close t'' 1 d ≠ none := by
      rw [close_of_ne _ hd1, hext d hd1 b hd']
      exact Option.some_ne_none b
    rw [hend, ← hstart, free_close hlt hopen', free_close hlt hopen'']
    omega

end Redirected

/-! ### Commands -/

theorem executeIo_redirection (hk : cmd.kind = .redirection)
    (h : executeIo chdir maxArgs limit fuel files curr ans (n + 1) sh cmd io = some io') :
    ∃ inner sh' io₁, createCommand chdir maxArgs sh (SmallShell.redirectedText cmd.enteredCmd) =
        some (inner, sh') ∧
      executeIo chdir maxArgs limit fuel files curr ans n sh' inner
        { io with table := (redirectStart limit files (outFile cmd.enteredCmd) io.table).2 } =
          some io₁ ∧
      io' = { io₁ with
        table := redirectEnd limit (redirectStart limit files (outFile cmd.enteredCmd) io.table).1
          io₁.table } := by
  rw [executeIo, hk] at h
  obtain ⟨⟨inner, sh'⟩, hinner, h⟩ := Option.bind_eq_some_iff.mp h
  obtain ⟨io₁, hrun, h⟩ := Option.bind_eq_some_iff.mp h
  exact ⟨inner, sh', io₁, hinner, hrun, (Option.some.inj h).symm⟩

/-- A command that is no redirection. -/
theorem executeIo_direct (hk : cmd.kind ≠ .redirection)
    (h : executeIo chdir maxArgs limit fuel files curr ans (n + 1) sh cmd io = some io') :
    Extends io.table io'.table ∧ Kept limit io io' := by
  cases hkind : cmd.kind with
  | redirection => exact absurd hkind hk
  | cat =>
    rw [executeIo, hkind] at h
    exact catExecute_kept h
  | _ =>
    rw [executeIo, hkind] at h
    obtain ⟨-, -, rfl⟩ := Option.map_eq_some_iff.mp h
    exact ⟨.refl _, .refl limit _⟩

theorem executeIo_kept (h0 : io.table 0 ≠ none)
    (h : executeIo chdir maxArgs limit fuel files curr ans n sh cmd io = some io') :
    Kept limit io io' := by
  induction n generalizing sh cmd io io' with
  | zero => cases h
  | succ n ih =>
    by_cases hk : cmd.kind = .redirection
    · obtain ⟨inner, sh', io₁, -, hrun, rfl⟩ := executeIo_redirection hk h
      have hr : Redirected limit io.table _ _ :=
        redirectStart_redirected limit files (outFile cmd.enteredCmd) h0
      obtain ⟨hstill, hsources, hopened, hroom⟩ := ih (hr.keeps_zero h0) hrun
      refine ⟨hr.extendsBesides h0 hstill, fun d hd file hfile => ?_, hopened, ?_⟩
      · simp only [hr.restores h0 hstill, if_neg hd] at hfile
        split_ifs at hfile with hfd
        rw [← hr.others d hd hfd]
        exact hsources d hd file hfile
      · have hbalance := hr.room h0 hstill
        simp only at hroom ⊢
        omega
    · exact (executeIo_direct hk h).2

section NotCat
variable {inner : Command} {sh' : SmallShell}
  (hr : SmallShell.redirected chdir maxArgs n sh cmd = some (inner, sh'))
  (hcat : inner.kind ≠ .cat)
include hr hcat

/-- A redirection of a command other than `cat` returns exactly when the command does. -/
theorem executeIo_isSome_iff :
    (∃ io', executeIo chdir maxArgs limit fuel files curr ans n sh cmd io =
    some io') ↔ (sh'.executeDirect chdir curr inner ans).isSome := by
  induction n generalizing sh cmd io with
  | zero => cases hr
  | succ n ih =>
    rw [SmallShell.redirected] at hr
    split_ifs at hr with hk
    · obtain ⟨⟨next, sh₁⟩, hnext, hr⟩ := Option.bind_eq_some_iff.mp hr
      rw [← @ih sh₁ next { io with
        table := (redirectStart limit files (outFile cmd.enteredCmd) io.table).2 } hr, executeIo, hk]
      simp only [hnext, Option.bind_eq_bind, Option.bind_some]
      constructor
      · rintro ⟨io', h⟩
        obtain ⟨io₁, hrun, -⟩ := Option.bind_eq_some_iff.mp h
        exact ⟨io₁, hrun⟩
      · rintro ⟨io₁, hrun⟩
        exact ⟨_, Option.bind_eq_some_iff.mpr ⟨io₁, hrun, rfl⟩⟩
    · cases Option.some.inj hr
      rw [executeIo]
      cases hkind : inner.kind with
      | redirection => exact absurd hkind hk
      | cat => exact absurd hkind hcat
      | _ => simp [Option.isSome_iff_exists]

/-- A command that does not end in `cat` keeps all descriptors but 1. -/
theorem executeIo_not_cat (h0 : io.table 0 ≠ none)
    (h : executeIo chdir maxArgs limit fuel files curr ans n sh cmd io = some io') :
    ∀ e ≠ 1, io'.table e = io.table e := by
  induction n generalizing sh cmd io io' with
  | zero => cases hr
  | succ n ih =>
    rw [SmallShell.redirected] at hr
    split_ifs at hr with hk
    · obtain ⟨⟨next, sh₁⟩, hnext, hr⟩ := Option.bind_eq_some_iff.mp hr
      obtain ⟨next', sh₁', io₁, hnext', hrun, rfl⟩ := executeIo_redirection hk h
      obtain ⟨rfl, rfl⟩ : next = next' ∧ sh₁ = sh₁' := by simpa [hnext] using hnext'
      have hstart := redirectStart_redirected limit files (outFile cmd.enteredCmd) h0
      have hsame := ih hr (hstart.keeps_zero h0) hrun
      intro e he
      simp only [hstart.restores h0 (fun e he a ha => (hsame e he).trans ha), if_neg he]
      split_ifs with hfd
      · exact (hstart.saved e hfd).2.2.1.symm
      · exact (hsame e he).trans (hstart.others e he hfd)
    · cases Option.some.inj hr
      rw [executeIo] at h
      intro e _
      cases hkind : inner.kind with
      | redirection => exact absurd hkind hk
      | cat => exact absurd hkind hcat
      | _ =>
        rw [hkind] at h
        obtain ⟨-, -, rfl⟩ := Option.map_eq_some_iff.mp h
        rfl

end NotCat

/-- A redirection gives the standard output back exactly when a descriptor is free for the
duplicate, and closes it otherwise. -/
theorem executeIo_one (hk : cmd.kind = .redirection) (h0 : io.table 0 ≠ none)
    (h : executeIo chdir maxArgs limit fuel files curr ans n sh cmd io = some io') :
    (0 < free limit io.table → io'.table 1 = io.table 1) ∧
      (free limit io.table = 0 → io'.table 1 = none) := by
  cases n with
  | zero => cases h
  | succ n =>
    obtain ⟨inner, sh', io₁, -, hrun, rfl⟩ := executeIo_redirection hk h
    have hr := redirectStart_redirected limit files (outFile cmd.enteredCmd) h0
    have hstill := (executeIo_kept (hr.keeps_zero h0) hrun).still
    refine ⟨hr.one_of_room h0 hstill, fun hzero => ?_⟩
    have hfd : (redirectStart limit files (outFile cmd.enteredCmd) io.table).1 = none := by
      by_contra hne
      obtain ⟨d, hd⟩ := Option.ne_none_iff_exists'.mp hne
      obtain ⟨-, hlt, hfree, -⟩ := hr.saved d hd
      exact lowest_eq_none.mp (free_eq_zero.mp hzero) d hlt hfree
    simp only [hfd]
    exact close_self _ 1

/-- The descriptors that the shell is started with. -/
def standardStreams :
    DescriptorTable OpenFile := fun d => if d < 3 then some (.inherited d) else none

/-- What is open besides 1 stays open under a redirection, and 1 is given back exactly when a
descriptor is free. With a command inside other than `cat` the redirection returns exactly when the
command does, and then nothing else is open afterwards. -/
theorem redirection_restores_descriptors (hk : cmd.kind = .redirection) (h0 : io.table 0 ≠ none) :
    (∀ io', executeIo chdir maxArgs limit fuel files curr ans n sh cmd io = some io' →
      ExtendsBesides 1 io.table io'.table ∧
      (0 < free limit io.table → io'.table 1 = io.table 1) ∧
      (free limit io.table = 0 → io'.table 1 = none)) ∧
    ∀ inner sh', SmallShell.redirected chdir maxArgs n sh cmd = some (inner, sh') →
      inner.kind ≠ .cat →
      ((∃ io', executeIo chdir maxArgs limit fuel files curr ans n sh cmd io = some io') ↔
        (sh'.executeDirect chdir curr inner ans).isSome) ∧
      (0 < free limit io.table →
        ∀ io', executeIo chdir maxArgs limit fuel files curr ans n sh cmd io = some io' →
          io'.table = io.table) := by
  refine ⟨fun io' h => ⟨(executeIo_kept h0 h).still, executeIo_one hk h0 h⟩,
    fun inner sh' hinner hcat => ⟨executeIo_isSome_iff hinner hcat, fun hroom io' h => ?_⟩⟩
  funext e
  by_cases he : e = 1
  · rw [he, (executeIo_one hk h0 h).1 hroom]
  · exact executeIo_not_cat hinner hcat h0 h e he

/-- The answers in a shell without jobs. -/
def noAnswers : Answers := ⟨7, 0, fun _ => 0, fun _ => 0⟩

theorem redirection_restores_descriptors_pwd :
    ∃ io', executeIo (fun _ _ => none) commandMaxArgs 8 0 ⟨fun _ => none, fun _ => true⟩
      { kind := .redirection, enteredCmd := "pwd > f".toList } noAnswers 2 (.new [])
      { kind := .redirection, enteredCmd := "pwd > f".toList } ⟨standardStreams, [], []⟩ =
        some io' ∧ io'.table = standardStreams := by
  have hpwd : ((∃ io', executeIo (fun _ _ => none) commandMaxArgs 8 0
      ⟨fun _ => none, fun _ => true⟩ { kind := .redirection, enteredCmd := "pwd > f".toList }
      noAnswers 2 (.new []) { kind := .redirection, enteredCmd := "pwd > f".toList }
      ⟨standardStreams, [], []⟩ = some io') ↔ _) ∧ _ :=
    (redirection_restores_descriptors rfl (Option.some_ne_none _)).2 _ _ rfl (by decide)
  obtain ⟨io', h⟩ := hpwd.1.mpr rfl
  exact ⟨io', h, hpwd.2 (by decide) io' h⟩

/-- `fg &` throws: the shell does not come back to its standard output. -/
example : executeIo (fun _ _ => none) commandMaxArgs 8 0 ⟨fun _ => none, fun _ => true⟩
    { kind := .redirection, enteredCmd := "fg & > f".toList } noAnswers 2 (.new [])
    { kind := .redirection, enteredCmd := "fg & > f".toList } ⟨standardStreams, [], []⟩ = none :=
  rfl

/-- The command that is created for `sleep 5 &` has no job list. -/
example : executeIo (fun _ _ => none) commandMaxArgs 8 0 ⟨fun _ => none, fun _ => true⟩
    { kind := .redirection, enteredCmd := "sleep 5 & > f".toList } noAnswers 2 (.new [])
    { kind := .redirection, enteredCmd := "sleep 5 & > f".toList } ⟨standardStreams, [], []⟩ =
      none :=
  rfl

/-! ### Whole runs -/

/-- The shell with its descriptors, as they are between lines. While a line waits for its process,
they are those that it leaves when it returns. -/
def smashIo (chdir : Line → Line → Option Line) (limit fuel : ℕ) :
    TransitionSystem (State × Io) (Event × Files) where
  init s := (smash chdir).init s.1 ∧ s.2 = ⟨standardStreams, [], []⟩
  next s l := do
    let state ← State.next chdir s.1 l.1
    match l.1 with
    | .line cmdLine ans =>
      let io ← lineIo chdir commandMaxArgs limit fuel l.2 s.1.shell cmdLine ans s.2
      return (state, io)
    | _ => return (state, s.2)

theorem lineIo_kept (h0 : io.table 0 ≠ none)
    (h : lineIo chdir maxArgs limit fuel files sh cmdLine ans io = some io') : Kept limit io io' ∧
      (io.table 1 ≠ none → 0 < free limit io.table → io'.table 1 = io.table 1) := by
  rw [lineIo] at h
  split_ifs at h with hempty
  · cases Option.some.inj h
    exact ⟨.refl limit _, fun _ _ => rfl⟩
  · obtain ⟨⟨curr, sh'⟩, -, h⟩ := Option.bind_eq_some_iff.mp h
    refine ⟨executeIo_kept h0 h, ?_⟩
    by_cases hk : ({ curr with list := true } : Command).kind = .redirection
    · exact fun _ => (executeIo_one hk h0 h).1
    · intro h1 _
      obtain ⟨a, ha⟩ := Option.ne_none_iff_exists'.mp h1
      rw [ha]
      exact (executeIo_direct hk h).1 1 a ha

/-- The standard streams are those that the shell was started with, everything else that is open
is a file that `cat` has opened, and no descriptor is lost otherwise. -/
structure Standard (limit : ℕ) (io : Io) : Prop where
  streams : ∀ d < 3, io.table d = some (.inherited d)
  sources : ∀ d file, io.table d = some file → d < 3 ∨ ∃ path ∈ io.opened, file = .source path
  room : limit ≤ free limit io.table + io.opened.length + 3

theorem standard_init (limit : ℕ) : Standard limit ⟨standardStreams, [], []⟩ where
  streams d hd := if_pos hd
  sources d file hd := .inl (by by_contra hge; simp [standardStreams, hge] at hd)
  room := by
    have hsub : Finset.range limit ⊆
        ((Finset.range limit).filter fun d => (standardStreams d).isNone) ∪ Finset.range 3 := by
      intro d hd
      by_cases hlt : d < 3
      · exact Finset.mem_union_right _ (Finset.mem_range.mpr hlt)
      · exact Finset.mem_union_left _ (Finset.mem_filter.mpr ⟨hd, by simp [standardStreams, hlt]⟩)
    have hle := (Finset.card_le_card hsub).trans (Finset.card_union_le _ _)
    rw [Finset.card_range, Finset.card_range] at hle
    exact hle

theorem Standard.kept (hs : Standard limit io) (hlimit : 1 < limit) (hk : Kept limit io io')
    (h1 : io'.table 1 = io.table 1) : Standard limit io' := by
  have hopen (d : ℕ) (hd : d < 3) : io.table d ≠ none := by
    rw [hs.streams d hd]
    exact Option.some_ne_none _
  refine ⟨fun d hd => ?_, fun d file hfile => ?_, ?_⟩
  · by_cases hd1 : d = 1
    · rw [hd1, h1, hs.streams 1 (by decide)]
    · exact hk.still d hd1 _ (hs.streams d hd)
  · by_cases hd1 : d = 1
    · exact .inl (by omega)
    · obtain hold | hnew := hk.sources d hd1 file hfile
      · refine (hs.sources d file hold).imp_right ?_
        rintro ⟨path, hpath, hf⟩
        exact ⟨path, hk.opened.subset hpath, hf⟩
      · exact .inr hnew
  · have hroom := hk.room
    have hle := hs.room
    have hopen' : io'.table 1 ≠ none := h1 ▸ hopen 1 (by decide)
    rw [free_close hlimit (hopen 1 (by decide)), free_close hlimit hopen'] at hroom
    omega

/-- As long as `cat` has opened fewer files than there are descriptors besides the standard ones,
these are what the shell was started with, and everything else that is open is a file that `cat`
has opened. -/
theorem shell_keeps_standard_streams (chdir : Line → Line → Option Line) (limit fuel : ℕ)
    (s : State × Io) (h : (smashIo chdir limit fuel).Reachable (fun _ _ => True) s)
    (hfew : s.2.opened.length + 3 < limit) : Standard limit s.2 := by
  refine (h.invariant (I := fun s => s.2.table 0 ≠ none ∧
    (s.2.opened.length + 3 < limit → Standard limit s.2)) (fun s hs => ?_)
      (fun s l t ih _ hs => ?_)).2 hfew
  · rw [hs.2]
    exact ⟨Option.some_ne_none _, fun _ => standard_init limit⟩
  obtain ⟨state, -, hs⟩ := Option.bind_eq_some_iff.mp hs
  obtain ⟨h0, ih⟩ := ih
  cases hl : l.1 with
  | line cmdLine ans =>
    rw [hl] at hs
    obtain ⟨io, hio, hs⟩ := Option.bind_eq_some_iff.mp hs
    cases Option.some.inj hs
    obtain ⟨hk, h1⟩ := lineIo_kept h0 hio
    have hzero : io.table 0 ≠ none := by
      obtain ⟨a, ha⟩ := Option.ne_none_iff_exists'.mp h0
      rw [hk.still 0 (by decide) a ha]
      exact Option.some_ne_none a
    refine ⟨hzero, fun hfew => ?_⟩
    have hlen := hk.opened.length_le
    have hstd := ih (by simp only at hfew; omega)
    have hone : s.2.table 1 ≠ none := by
      rw [hstd.streams 1 (by decide)]
      exact Option.some_ne_none _
    have hle := hstd.room
    exact hstd.kept (by omega) hk (h1 hone (by simp only at hfew; omega))
  | _ =>
    rw [hl] at hs
    cases Option.some.inj hs
    exact ⟨h0, ih⟩

theorem shell_keeps_standard_streams_cat : ∃ s,
    (smashIo (fun _ _ => none) 8 2).Reachable (fun _ _ => True) s ∧
      s.2.opened = ["a".toList] ∧ Standard 8 s.2 := by
  obtain ⟨s, hs, hopened⟩ : ∃ s, (smashIo (fun _ _ => none) 8 2).Reachable (fun _ _ => True) s ∧
      decide (s.2.opened = ["a".toList]) = true :=
    TransitionSystem.exists_of_step (s := ⟨⟨.new [], .prompt⟩, ⟨standardStreams, [], []⟩⟩)
      (.line "cat a".toList ⟨7, 0, fun _ => 0, fun _ => 0⟩,
        ⟨fun _ => some (.data [65]), fun _ => true⟩) _ ⟨⟨[], rfl⟩, rfl⟩ trivial (by decide +kernel)
  have hone : s.2.opened = ["a".toList] := of_decide_eq_true hopened
  exact ⟨s, hs, hone, shell_keeps_standard_streams _ 8 2 s hs (by rw [hone]; decide)⟩

end FtfSystems.Shell
