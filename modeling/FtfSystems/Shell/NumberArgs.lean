import FtfSystems.Shell.JobLookup

/-!
# The numbers of `kill`, `fg` and `bg`

`CreateCommand` tests a text with `isNumber` and looks its number up with `strtol`; `execute`
converts a text with `std::stoi`. The texts are cleaned in different ways, the empty one passes the
test, and `stoi` throws where `strtol` gives 0 or a number that is then cut to 32 bits.
-/
namespace FtfSystems.Shell

/-- The texts that `execute` passes to `std::stoi`, the one of the job id first. -/
def Command.stoiArgs (cmd : Command) : List Line :=
  if cmd.invalidArg then []
  else match cmd.kind with
    | .kill =>
      (cmd.args[2]?).toList ++
        if cmd.jobIdIn then ((cmd.args[1]?).map (eraseChar '-')).toList else []
    | .fg | .bg => if cmd.optionalArg then ((cmd.args[1]?).map (eraseChar '&')).toList else []
    | _ => []

/-- The text whose number `CreateCommand` looks up in the job table. -/
def lookedUpArg (kind : CommandKind) (words : List Line) : Option Line :=
  match kind, words with
  | .kill, _ :: _ :: arg2 :: _ => some arg2
  | .fg, [_, arg1] => some (eraseChar '&' arg1)
  | .bg, [_, arg1] => if eraseChar '&' arg1 = [] then none else some (eraseChar '&' arg1)
  | _, _ => none

/-- Every conversion of `execute` succeeds, and that of the job id gives the number that was
looked up. -/
def Command.Converts (cmd : Command) (words : List Line) : Prop :=
  (∀ text ∈ cmd.stoiArgs, (stoi text).isSome = true) ∧
    cmd.stoiArgs.head?.bind stoi = (lookedUpArg cmd.kind words).map fun text => toInt (strtol text)

/-- The number that the digits at the start of a text write. -/
def digitsValue (text : Line) : ℕ := Nat.ofDigitChars 10 (text.takeWhile Char.isDigit) 0

/-- A text begins with a digit, and its number is an `int`. -/
def Fits (text : Line) : Prop := text.takeWhile Char.isDigit ≠ [] ∧ digitsValue text < 2 ^ 31

/-- The words of a line begin with numbers that are `int`s: the job id as it is converted, and the
signal of `kill` if there is such a job. -/
def NumbersFit (js : JobsList) (kind : CommandKind) (words : List Line) : Prop :=
  match kind, words with
  | .kill, _ :: arg1 :: arg2 :: _ =>
    Fits arg2 ∧ (js.isJobIdIn (digitsValue arg2) = true → Fits (eraseChar '-' arg1))
  | .fg, [_, arg1] => Fits (eraseChar '&' arg1)
  | .bg, [_, arg1] => eraseChar '&' arg1 = [] ∨ Fits (eraseChar '&' arg1)
  | _, _ => True

/-! ### The conversions -/

section
variable {text : Line}

/-- The digits are the same in the integers. -/
theorem foldl_digits_cast {digits : Line} (h : ∀ c ∈ digits, c.isDigit = true) (n : ℕ) :
    digits.foldl (fun (n : ℤ) c => 10 * n + (c.toNat - '0'.toNat : ℤ)) n =
      (Nat.ofDigitChars 10 digits n : ℤ) := by
  induction digits generalizing n with
  | nil => simp
  | cons c digits ih =>
    have hc : '0'.toNat ≤ c.toNat := (Char.isDigit_iff_toNat.mp (h c (by simp))).1
    rw [List.foldl_cons, Nat.ofDigitChars_cons, ← ih fun c hc => h c (by simp [hc])]
    rw [Nat.cast_add, Nat.cast_sub hc]
    push_cast
    rfl

theorem isSpace_of_isDigit {c : Char} (h : c.isDigit = true) : isSpace c = false := by
  have hlo : 48 ≤ c.toNat := (Char.isDigit_iff_toNat.mp h).1
  simp only [isSpace, decide_eq_false_iff_not, not_or]
  constructor
  · rintro rfl
    cases h
  · omega

/-- A text of digits and `&` has no sign and no space before its digits. -/
theorem leadingNumber_eq (h : ∀ c ∈ text, c.isDigit = true ∨ c = '&') :
    leadingNumber text =
      if text.takeWhile Char.isDigit = [] then none else some (digitsValue text : ℤ) := by
  have hfirst : ∀ c ∈ text.head?, isSpace c = false ∧ c ≠ '-' ∧ c ≠ '+' := by
    intro c hc
    rcases h c (List.mem_of_mem_head? hc) with hd | rfl
    · refine ⟨isSpace_of_isDigit hd, ?_, ?_⟩ <;> rintro rfl <;> cases hd
    · decide
  have hspace : text.dropWhile isSpace = text := by
    cases text with
    | nil => rfl
    | cons c text => exact List.dropWhile_cons_of_neg (by simp [(hfirst c rfl).1])
  have hminus : text.head? ≠ some '-' := fun hc => (hfirst _ hc).2.1 rfl
  have hplus : text.head? ≠ some '+' := fun hc => (hfirst _ hc).2.2 rfl
  have hdigits : ∀ c ∈ text.takeWhile Char.isDigit, c.isDigit = true :=
    fun c hc => List.mem_takeWhile_imp hc
  have hcast := foldl_digits_cast hdigits 0
  simp only [leadingNumber, hspace, hminus, hplus, or_self, if_false]
  exact congrArg (fun n => if text.takeWhile Char.isDigit = [] then none else some n) hcast

theorem toInt_of_lt {n : ℕ} (h : n < 2 ^ 31) : toInt n = n := by
  simp only [toInt]
  omega

variable (h : ∀ c ∈ text, c.isDigit = true ∨ c = '&')
include h

theorem stoi_isSome_iff : (stoi text).isSome = true ↔ Fits text := by
  rw [stoi, leadingNumber_eq h, Fits]
  split_ifs with hd
  · simp [hd]
  · rw [Option.filter_some]
    simp [hd]

theorem Fits.stoi_eq (hf : Fits text) :
    stoi text = some (toInt (strtol text)) ∧ toInt (strtol text) = digitsValue text := by
  have hn : leadingNumber text = some (digitsValue text : ℤ) := by
    rw [leadingNumber_eq h, if_neg hf.1]
  have hint := toInt_of_lt hf.2
  rw [toInt_strtol hn hint, Shell.stoi_eq hn hint]
  exact ⟨rfl, rfl⟩

end

theorem digits_of_isNumber {text : Line} (h : isNumber text = true) :
    ∀ c ∈ text, c.isDigit = true ∨ c = '&' :=
  fun c hc => .inl (List.all_eq_true.mp h c hc)

theorem digits_of_isNumber_eraseChar {text : Line} (h : isNumber (eraseChar '&' text) = true) :
    ∀ c ∈ text, c.isDigit = true ∨ c = '&' := by
  intro c hc
  by_cases hamp : c = '&'
  · exact .inr hamp
  · exact .inl (List.all_eq_true.mp h c (List.mem_filter.mpr ⟨hc, by simpa using hamp⟩))

/-! ### The commands -/

/-- A job id as `execute` converts it, when it is the text that was looked up. -/
theorem converts_id {text : Line} (h : ∀ c ∈ text, c.isDigit = true ∨ c = '&') :
    (stoi text).isSome = true ∧ stoi text = some (toInt (strtol text)) ↔ Fits text := by
  rw [stoi_isSome_iff h]
  exact and_iff_left_of_imp fun hf => (hf.stoi_eq h).1

variable {chdir : Line → Line → Option Line} {maxArgs : ℕ} {sh sh' : SmallShell} {t : Line}
  {cmd : Command} {js : JobsList} {words : List Line}

theorem createKill_converts_iff (hvalid : (createKill js t words).invalidArg = false) :
    (createKill js t words).Converts words ↔ NumbersFit js .kill words := by
  obtain ⟨arg0, arg1, arg2, rest, rfl⟩ :
      ∃ arg0 arg1 arg2 rest, words = arg0 :: arg1 :: arg2 :: rest := by
    rcases words with - | ⟨arg0, - | ⟨arg1, - | ⟨arg2, rest⟩⟩⟩
    · cases hvalid
    · cases hvalid
    · cases hvalid
    · exact ⟨arg0, arg1, arg2, rest, rfl⟩
  by_cases hbad : arg1.head? ≠ some '-' ∨ !isNumber (eraseChar '&' arg2) ∨
      !isNumber (eraseChar '-' arg1)
  · rw [createKill, if_pos hbad] at hvalid
    cases hvalid
  have heq : createKill js t (arg0 :: arg1 :: arg2 :: rest) =
      { Command.builtIn .kill t with
        list := true
        args := arg0 :: arg1 :: arg2 :: rest
        jobIdIn := js.isJobIdIn (toInt (strtol arg2))
        optionalArg := true
        invalidArg := rest.any (· ≠ ['&']) } := by rw [createKill, if_neg hbad]
  simp only [not_or, Bool.not_eq_true', Bool.not_eq_false] at hbad
  have hid := digits_of_isNumber_eraseChar hbad.2.1
  have hsig := digits_of_isNumber hbad.2.2
  rw [heq] at hvalid ⊢
  dsimp only at hvalid
  simp only [Command.Converts, Command.stoiArgs, hvalid, Command.builtIn, lookedUpArg, NumbersFit]
  constructor
  · rintro ⟨hall, -⟩
    have hf := (stoi_isSome_iff hid).mp (hall arg2 (by simp))
    refine ⟨hf, fun hin => (stoi_isSome_iff hsig).mp (hall _ ?_)⟩
    rw [← (hf.stoi_eq hid).2] at hin
    simp [hin]
  · rintro ⟨hf, hsigFits⟩
    obtain ⟨hstoi, hvalue⟩ := hf.stoi_eq hid
    rw [← hvalue] at hsigFits
    refine ⟨fun text htext => ?_, by simp [hstoi]⟩
    cases hin : js.isJobIdIn (toInt (strtol arg2)) with
    | false =>
      obtain rfl : text = arg2 := by simpa [hin] using htext
      exact (stoi_isSome_iff hid).mpr hf
    | true =>
      obtain rfl | rfl : text = arg2 ∨ text = eraseChar '-' arg1 := by simpa [hin] using htext
      · exact (stoi_isSome_iff hid).mpr hf
      · exact (stoi_isSome_iff hsig).mpr (hsigFits hin)

/-- `fg` and `bg` with an argument convert the text that was looked up. -/
theorem converts_iff_of_arg {arg0 arg1 : Line} (hkind : cmd.kind = .fg ∨ cmd.kind = .bg)
    (hvalid : cmd.invalidArg = false) (hargs : cmd.args = [arg0, arg1])
    (hopt : cmd.optionalArg = true) (hlook : lookedUpArg cmd.kind words = some (eraseChar '&' arg1))
    (hnum : isNumber (eraseChar '&' arg1) = true) :
    cmd.Converts words ↔ Fits (eraseChar '&' arg1) := by
  have hstoi : cmd.stoiArgs = [eraseChar '&' arg1] := by
    rcases hkind with hk | hk <;> simp [Command.stoiArgs, hk, hvalid, hargs, hopt]
  rw [Command.Converts, hstoi, hlook]
  simpa using converts_id (digits_of_isNumber hnum)

/-- Without an argument they convert nothing. -/
theorem converts_of_no_arg (hkind : cmd.kind = .fg ∨ cmd.kind = .bg)
    (hopt : cmd.optionalArg = false)
    (hlook : lookedUpArg cmd.kind words = none) : cmd.Converts words := by
  have hstoi : cmd.stoiArgs = [] := by
    rcases hkind with hk | hk <;> simp [Command.stoiArgs, hk, hopt]
  rw [Command.Converts, hstoi, hlook]
  simp

theorem createForeground_converts_iff (hvalid : (createForeground js t words).invalidArg = false) :
    (createForeground js t words).Converts words ↔ NumbersFit js .fg words := by
  rcases words with - | ⟨arg0, - | ⟨arg1, - | ⟨arg2, rest⟩⟩⟩
  · exact iff_of_true (converts_of_no_arg (.inl rfl) rfl rfl) trivial
  · exact iff_of_true (converts_of_no_arg (.inl rfl) rfl rfl) trivial
  · cases hnum : isNumber (eraseChar '&' arg1) with
    | false => simp [createForeground, hnum] at hvalid
    | true =>
      have heq : createForeground js t [arg0, arg1] =
          { Command.builtIn .fg t with
            list := true
            args := [arg0, arg1]
            optionalArg := true
            jobIdIn := js.isJobIdIn (toInt (strtol (eraseChar '&' arg1))) } := by
        simp [createForeground, hnum]
      rw [heq]
      exact converts_iff_of_arg (.inl rfl) rfl rfl rfl rfl hnum
  · cases hvalid

theorem createBackground_converts_iff (hvalid : (createBackground js t words).invalidArg = false) :
    (createBackground js t words).Converts words ↔ NumbersFit js .bg words := by
  rcases words with - | ⟨arg0, - | ⟨arg1, - | ⟨arg2, rest⟩⟩⟩
  · exact iff_of_true (converts_of_no_arg (.inr rfl) rfl rfl) trivial
  · exact iff_of_true (converts_of_no_arg (.inr rfl) rfl rfl) trivial
  · by_cases hempty : eraseChar '&' arg1 = []
    · have heq : createBackground js t [arg0, arg1] =
          { Command.builtIn .bg t with list := true, args := [arg0, arg1] } := by
        simp [createBackground, hempty]
      rw [heq]
      refine iff_of_true (converts_of_no_arg (.inr rfl) rfl ?_) (.inl hempty)
      simp [lookedUpArg, Command.builtIn, hempty]
    cases hnum : isNumber (eraseChar '&' arg1) with
    | false => simp [createBackground, hempty, hnum] at hvalid
    | true =>
      have heq : createBackground js t [arg0, arg1] =
          { Command.builtIn .bg t with
            list := true
            args := [arg0, arg1]
            optionalArg := true
            jobIdIn := js.isJobIdIn (toInt (strtol (eraseChar '&' arg1))) } := by
        simp [createBackground, hempty, hnum]
      rw [heq, NumbersFit, or_iff_right hempty]
      refine converts_iff_of_arg (.inr rfl) rfl rfl rfl ?_ hnum
      simp [lookedUpArg, Command.builtIn, hempty]
  · cases hvalid

/-- `fg` and `bg` convert their argument, when they have a valid one. -/
theorem exists_arg_of_mem_stoiArgs {text : Line} (hkind : cmd.kind = .fg ∨ cmd.kind = .bg)
    (hmem : text ∈ cmd.stoiArgs) :
    cmd.invalidArg = false ∧ cmd.optionalArg = true ∧
      ∃ arg1, cmd.args[1]? = some arg1 ∧ eraseChar '&' arg1 = text := by
  rw [Command.stoiArgs] at hmem
  cases hvalid : cmd.invalidArg with
  | true => simp [hvalid] at hmem
  | false =>
    cases hopt : cmd.optionalArg with
    | false => rcases hkind with hk | hk <;> simp [hvalid, hk, hopt] at hmem
    | true => rcases hkind with hk | hk <;> simpa [hvalid, hk, hopt] using hmem

theorem killExecute_throws {text : Line} (hk : cmd.kind = .kill) (hmem : text ∈ cmd.stoiArgs)
    (hs : stoi text = none) : killExecute js cmd = none := by
  rw [Command.stoiArgs] at hmem
  cases hvalid : cmd.invalidArg with
  | true => simp [hvalid] at hmem
  | false =>
    simp only [hvalid, hk, Bool.false_eq_true, if_false, List.mem_append, Option.mem_toList] at hmem
    rw [killExecute, if_neg (by simp [hvalid])]
    rcases hmem with hid | hsig
    · simp [hid, hs]
    · cases hin : cmd.jobIdIn with
      | false => simp [hin] at hsig
      | true =>
        simp only [hin, if_true, Option.mem_toList, Option.map_eq_some_iff] at hsig
        obtain ⟨arg1, harg, rfl⟩ := hsig
        simp [harg, hs]

/-- A conversion that fails ends the shell: nothing catches the exception. -/
theorem executeDirect_throws {curr : Command} {ans : Answers} {text : Line}
    (hmem : text ∈ cmd.stoiArgs) (hs : stoi text = none) :
    sh.executeDirect chdir curr cmd ans = none := by
  cases hk : cmd.kind with
  | pipe | redirection | pwd | cd | chprompt | showpid | jobs | quit | cat | external =>
    simp [Command.stoiArgs, hk] at hmem
  | kill => simp [SmallShell.executeDirect, hk, killExecute_throws hk hmem hs]
  | fg =>
    obtain ⟨hvalid, hopt, arg1, harg, rfl⟩ := exists_arg_of_mem_stoiArgs (.inl hk) hmem
    have hnone : foregroundJob sh.jobs cmd = none := by
      simp [foregroundJob, hopt, hvalid, harg, hs]
    simp [SmallShell.executeDirect, hk, SmallShell.foregroundExecute, hnone]
  | bg =>
    obtain ⟨hvalid, hopt, arg1, harg, rfl⟩ := exists_arg_of_mem_stoiArgs (.inr hk) hmem
    have hnone : backgroundExecute sh.jobs cmd = none := by
      simp [backgroundExecute, hopt, hvalid, harg, hs]
    simp [SmallShell.executeDirect, hk, hnone]

/-- For every line and every job table: when `CreateCommand` makes `kill`, `fg` or `bg` of the line
and finds its arguments valid, the conversions of `execute` succeed and agree with the lookup
exactly when the numbers of the line fit. -/
theorem numbers_convert_iff (chdir : Line → Line → Option Line) {sh sh' : SmallShell} {t : Line}
    {cmd : Command} (hc : createCommand chdir commandMaxArgs sh t = some (cmd, sh'))
    (hkind : cmd.kind ∈ [CommandKind.kill, .fg, .bg]) (hvalid : cmd.invalidArg = false) :
    cmd.Converts (parseCommandLine t) ↔ NumbersFit sh.jobs cmd.kind (parseCommandLine t) := by
  obtain ⟨-, hkill, hfg, hbg⟩ := createCommand_of_kind hc
  simp only [List.mem_cons, List.not_mem_nil, or_false] at hkind
  rcases hkind with hk | hk | hk
  · cases hkill hk
    rw [hk]
    exact createKill_converts_iff hvalid
  · cases hfg hk
    rw [hk]
    exact createForeground_converts_iff hvalid
  · cases hbg hk
    rw [hk]
    exact createBackground_converts_iff hvalid

theorem numbers_convert_iff_kill : ∃ cmd,
    createCommand (fun _ _ => none) commandMaxArgs (.new ['/']) "kill -9 7".toList =
      some (cmd, .new ['/']) ∧
    cmd.invalidArg = false ∧ cmd.Converts (parseCommandLine "kill -9 7".toList) := by
  have hc : createCommand (fun _ _ => none) commandMaxArgs (.new ['/']) "kill -9 7".toList =
      some (createKill .new "kill -9 7".toList ["kill".toList, "-9".toList, "7".toList],
        .new ['/']) := rfl
  have hwords : parseCommandLine "kill -9 7".toList = ["kill".toList, "-9".toList, "7".toList] := rfl
  have hid : Fits "7".toList := ⟨by decide, by decide⟩
  have hsig : Fits (eraseChar '-' "-9".toList) := ⟨by decide, by decide⟩
  exact ⟨_, hc, rfl, (numbers_convert_iff _ hc (.head _) rfl).mpr (hwords ▸ ⟨hid, fun _ => hsig⟩)⟩

/-- `fg &` passes for a line with a valid argument, the empty text. -/
theorem fg_amp_throws : ∃ cmd,
    createCommand (fun _ _ => none) commandMaxArgs (.new ['/']) "fg &".toList =
      some (cmd, .new ['/']) ∧ cmd.kind = .fg ∧ cmd.invalidArg = false ∧
    ¬ cmd.Converts (parseCommandLine "fg &".toList) ∧
    ∀ curr ans, (SmallShell.new ['/']).executeDirect (fun _ _ => none) curr cmd ans = none := by
  have hc : createCommand (fun _ _ => none) commandMaxArgs (.new ['/']) "fg &".toList =
      some (createForeground .new "fg &".toList ["fg".toList, "&".toList], .new ['/']) := rfl
  have hmem : [] ∈ (createForeground .new "fg &".toList ["fg".toList, "&".toList]).stoiArgs := .head _
  refine ⟨_, hc, rfl, rfl, fun hconv => ?_, fun curr ans => executeDirect_throws hmem rfl⟩
  exact absurd (hconv.1 [] hmem) (by decide)

end FtfSystems.Shell
