import FtfSystems.WebServer.ParseUri

/-!
# The sizes of the buffers

The line, its words, the file name and the error page all have buffers of one size, while each is
longer than what it is made from. A request has room exactly if its method or its path is short
enough.
-/
namespace FtfSystems.WebServer
open Foundation

/-! ### Words -/

section
variable {line w method uri version : Text}

theorem length_le_of_mem_words (h : w ∈ words line) : w.length ≤ line.length :=
  (Foundation.length_le_of_mem_words h).trans (List.takeWhile_prefix _).length_le

/-- No white space and no 0. -/
def IsWord (w : Text) : Prop := w ≠ [] ∧ w.all (fun c => !isspace c && c ≠ '\x00') = true

/-- The words of a request line. -/
theorem words_request (hm : IsWord method) (hu : IsWord uri) (hv : IsWord version) :
    words (method ++ ' ' :: (uri ++ ' ' :: (version ++ crlf))) = [method, uri, version] := by
  have hletter {w : Text} (hw : IsWord w) {c : Char} (hc : c ∈ w) :
      isspace c = false ∧ c ≠ '\x00' := by
    simpa using List.all_eq_true.mp hw.2 c hc
  have hnull : cString (method ++ ' ' :: (uri ++ ' ' :: (version ++ crlf))) =
      method ++ ' ' :: (uri ++ ' ' :: (version ++ crlf)) := by
    rw [cString, List.takeWhile_eq_self_iff]
    intro c hc
    rw [decide_eq_true_eq]
    simp only [List.mem_append, List.mem_cons] at hc
    rcases hc with hc | rfl | hc | rfl | hc | hc
    · exact (hletter hm hc).2
    · decide
    · exact (hletter hu hc).2
    · decide
    · exact (hletter hv hc).2
    · rintro rfl
      revert hc
      decide
  have hcrlf : crlf = '\r' :: ['\n'] := rfl
  have hend : Foundation.words isspace ['\n'] = [] := by decide
  rw [words, hnull,
    words_append_cons_of_forall_not (fun c hc => (hletter hm hc).1) hm.1 (by decide),
    words_append_cons_of_forall_not (fun c hc => (hletter hu hc).1) hu.1 (by decide), hcrlf,
    words_append_cons_of_forall_not (fun c hc => (hletter hv hc).1) hv.1 (by decide), hend]

end

/-! ### Strings that are built -/

section
variable {cause errnum shortmsg longmsg uri : Text} {parsed : ParsedURI}
  {answer : Option FileStat}

/-- The error page has room for its cause. -/
theorem requestError_fits (herr : errnum.length = 3) (hshort : shortmsg.length ≤ 100) :
    (∀ built ∈ (requestError cause errnum shortmsg longmsg).1, built.Fits) ↔
      92 + shortmsg.length + longmsg.length + cause.length ≤ maxBuf - 1 := by
  have h₁ : "<html><title>OS-HW3 Error</title>".toList.length = 33 := by decide
  have h₂ : "<body bgcolor=fffff>\r\n".toList.length = 22 := by decide
  have h₃ : "<hr>OS-HW3 Web Server\r\n".toList.length = 23 := by decide
  have h₄ : "HTTP/1.0 ".toList.length = 9 := by decide
  have h₅ : "Content-Type: text/html\r\n".toList.length = 25 := by decide
  have h₆ : "Content-Length: ".toList.length = 16 := by decide
  have h₇ : "<p>".toList.length = 3 := by decide
  have h₈ : ": ".toList.length = 2 := by decide
  have h₉ : " ".toList.length = 1 := by decide
  have hcrlf : crlf.length = 2 := rfl
  simp only [requestError, List.forall_mem_append, List.forall_mem_map, List.forall_mem_cons,
    List.not_mem_nil, false_implies, implies_true, and_true, Built.Fits, List.length_append, h₁, h₂,
    h₃, h₄, h₅, h₆, h₇, h₈, h₉, hcrlf, herr, maxBuf, maxLine]
  constructor
  · rintro ⟨⟨-, -, -, -, hbody⟩, -⟩
    omega
  · intro hroom
    have hdigits (n : ℕ) (hn : n < 10 ^ 4) : (decimal n).length ≤ 4 :=
      (Nat.length_toDigits_le_iff (by decide) (by decide)).mpr hn
    refine ⟨⟨by omega, by omega, by omega, by omega, by omega⟩, by omega, by omega, ?_⟩
    calc 16 + _ + 2 + 2 + 1 ≤ 16 + 4 + 2 + 2 + 1 := by
          gcongr
          exact hdigits _ (by omega)
      _ ≤ 8192 := by decide

/-- The length of the name of the file. -/
def nameLength (uri : Text) : ℕ :=
  if dots <:+: uri then 18
  else if ¬ cgi <:+: uri then 9 + uri.length + (if uri.getLast? = some '/' then 9 else 0)
  else 9 + (uri.takeWhile (· ≠ '?')).length

/-- The longest name there is room for: in the file name itself, or in the error page for a file
that does not exist or may not be read or run. -/
def nameRoom (answer : Option FileStat) (uri : Text) : ℕ :=
  match answer with
  | none => 8052
  | some sbuf =>
    if dots <:+: uri ∨ ¬ cgi <:+: uri then
      if sbuf.regular && sbuf.readable then 8191 else 8052
    else
      if sbuf.regular && sbuf.executable then 8191 else 8046

/-- What the proofs below need to know of a parsed `uri`. -/
theorem parse_lengths (cgiargs : Text) (hne : uri ≠ []) (hlen : uri.length < maxLine) :
    ∃ parsed, requestParseURI uri cgiargs = some parsed ∧
      parsed.filename.length = nameLength uri ∧
      (parsed.isStatic = true ↔ dots <:+: uri ∨ ¬ cgi <:+: uri) ∧
      ((∀ built ∈ builtByParse uri parsed, built.Fits) ↔ nameLength uri ≤ 8191) := by
  have hpublic : publicDir.length = 9 := by decide
  have hhome : homePage.length = 9 := by decide
  simp only [maxLine] at hlen
  by_cases hdots : dots <:+: uri
  · refine ⟨_, parse_dots hdots, ?_, by simp [hdots], ?_⟩
    · simp [nameLength, hdots, hpublic, hhome]
    · simp [builtByParse, nameLength, hdots, Built.Fits, hpublic, hhome, maxLine]
  by_cases hcgi : cgi <:+: uri
  · refine ⟨_, parse_dynamic hdots hcgi, ?_, by simp [hdots, hcgi], ?_⟩
    · simp [nameLength, hdots, hcgi, hpublic]
    · have hargs := (List.dropWhile_suffix (l := uri) (· ≠ '?')).length_le
      simp only [builtByParse, nameLength, hdots, hcgi, Built.Fits, hpublic, maxLine, if_false,
        not_true_eq_false, List.forall_mem_cons, List.not_mem_nil, false_implies, implies_true,
        and_true, List.length_append, List.length_tail]
      omega
  · refine ⟨_, parse_static hdots hcgi hne, ?_, by simp [hdots, hcgi], ?_⟩
    · simp only [nameLength, hdots, hcgi, if_false, not_false_eq_true, if_true, List.length_append,
        hpublic]
      split_ifs <;> simp [hhome]
    · simp only [builtByParse, nameLength, hdots, hcgi, Built.Fits, hpublic, maxLine, if_false,
        not_false_eq_true, if_true, List.forall_mem_cons, List.not_mem_nil, false_implies,
        implies_true, and_true, List.length_append, List.length_nil]
      split_ifs
      · rw [hhome]
        omega
      · rw [List.length_nil]
        omega

theorem respond_fits (st : StatThread)
    (hstatic : parsed.isStatic = true ↔ dots <:+: uri ∨ ¬ cgi <:+: uri)
    (hname : parsed.filename.length ≤ 8191) :
    (∀ built ∈ (respond answer parsed st).built, built.Fits) ↔
      parsed.filename.length ≤ nameRoom answer uri := by
  have hforbidden : "Forbidden".toList.length = 9 := by decide
  have hnotFound : "Not found".toList.length = 9 := by decide
  have hfind : "OS-HW3 Server could not find this file".toList.length = 38 := by decide
  have hread : "OS-HW3 Server could not read this file".toList.length = 38 := by decide
  have hrun : "OS-HW3 Server could not run this CGI program".toList.length = 44 := by decide
  cases answer with
  | none =>
    simp only [respond, nameRoom]
    rw [requestError_fits (by decide) (by decide), hnotFound, hfind, maxBuf]
    omega
  | some sbuf =>
    simp only [respond, nameRoom, ← hstatic, ← Bool.not_and]
    cases parsed.isStatic with
    | true =>
      cases sbuf.regular && sbuf.readable with
      | true => simpa using hname
      | false =>
        simp only [if_true, Bool.not_false, Bool.false_eq_true, if_false]
        rw [requestError_fits (by decide) (by decide), hforbidden, hread, maxBuf]
        omega
    | false =>
      cases sbuf.regular && sbuf.executable with
      | true => simpa using hname
      | false =>
        simp only [if_true, Bool.not_false, Bool.false_eq_true, if_false]
        rw [requestError_fits (by decide) (by decide), hforbidden, hrun, maxBuf]
        omega

theorem nameRoom_le (answer : Option FileStat) (uri : Text) : nameRoom answer uri ≤ 8191 := by
  unfold nameRoom
  split
  · decide
  · split_ifs <;> decide

end

/-! ### Requests -/

section
variable {line method uri version : Text} {rest : List Text}

theorem requestHandle_get (hline : line.length ≤ maxLine - 1)
    (hwords : words line = method :: uri :: version :: rest) (hget : isGet method = true)
    (cgiargs : Text) (answer : Option FileStat) (st : StatThread) :
    ∃ handled, requestHandle cgiargs answer st line = some handled ∧
      ((∀ built ∈ handled.built, built.Fits) ↔ nameLength uri ≤ nameRoom answer uri) := by
  have huri : uri ∈ words line := by simp [hwords]
  have hlen : uri.length < maxLine :=
    ((length_le_of_mem_words huri).trans hline).trans_lt (by decide)
  obtain ⟨parsed, hparse, hname, hstatic, hbuilt⟩ :=
    parse_lengths cgiargs (ne_nil_of_mem_words huri) hlen
  simp only [requestHandle, hwords, hget, if_true, hparse, Option.bind_eq_bind, Option.bind_some,
    Option.pure_def, Option.some.injEq, exists_eq_left', List.forall_mem_append, hbuilt]
  constructor
  · rintro ⟨hle, hrespond⟩
    exact hname ▸ (respond_fits _ hstatic (hname ▸ hle)).mp hrespond
  · intro hroom
    have hle := hroom.trans (nameRoom_le answer uri)
    exact ⟨hle, (respond_fits _ hstatic (hname ▸ hle)).mpr (hname ▸ hroom)⟩

theorem requestHandle_other (hwords : words line = method :: uri :: version :: rest)
    (hget : isGet method = false) (cgiargs : Text) (answer : Option FileStat) (st : StatThread) :
    ∃ handled, requestHandle cgiargs answer st line = some handled ∧
      ((∀ built ∈ handled.built, built.Fits) ↔ method.length ≤ 8040) := by
  have hshort : "Not Implemented".toList.length = 15 := by decide
  have hlong : "OS-HW3 Server does not implement this method".toList.length = 44 := by decide
  simp only [requestHandle, hwords, hget, Bool.false_eq_true, if_false, Option.some.injEq,
    exists_eq_left']
  rw [requestError_fits (by decide) (by decide), hshort, hlong, maxBuf]
  omega

/-- A path of one letter, repeated. -/
theorem nameLength_replicate (n : ℕ) : nameLength (List.replicate n 'a') = 9 + n := by
  have hnot {pat : Text} {c : Char} (hc : c ∈ pat) (hne : c ≠ 'a') :
      ¬ pat <:+: List.replicate n 'a' := fun h => hne (List.eq_of_mem_replicate (h.subset hc))
  have hdots : ¬ dots <:+: List.replicate n 'a' := hnot (c := '.') (by decide) (by decide)
  have hcgi : ¬ cgi <:+: List.replicate n 'a' := hnot (c := 'c') (by decide) (by decide)
  have hlast : (List.replicate n 'a').getLast? ≠ some '/' := fun h =>
    absurd (List.eq_of_mem_replicate (List.mem_of_getLast? h)) (by decide)
  rw [nameLength, if_neg hdots, if_pos hcgi, if_neg hlast, List.length_replicate,
    Nat.add_zero]

end

/-- A request with three words builds only strings that fit exactly when its method, if it is not
`GET`, or the name of its file is short enough. -/
theorem request_fits_iff {line method uri version : Text} {rest : List Text}
    (hline : line.length ≤ maxLine - 1) (hwords : words line = method :: uri :: version :: rest)
    (cgiargs : Text) (answer : Option FileStat) (st : StatThread) :
    ∃ handled, requestHandle cgiargs answer st line = some handled ∧
      ((∀ built ∈ handled.built, built.Fits) ↔
        if isGet method then nameLength uri ≤ nameRoom answer uri else method.length ≤ 8040) := by
  by_cases hget : isGet method = true
  · rw [if_pos hget]
    exact requestHandle_get hline hwords hget cgiargs answer st
  · rw [if_neg hget]
    exact requestHandle_other hwords (by simpa using hget) cgiargs answer st

theorem request_fits_iff_home :
    words "GET / HTTP/1.0\r\n".toList = ["GET".toList, "/".toList, "HTTP/1.0".toList] ∧
    ∃ handled, requestHandle [] none ⟨0, 0, 0, 0⟩ "GET / HTTP/1.0\r\n".toList = some handled ∧
      ∀ built ∈ handled.built, built.Fits := by
  have hwords : words "GET / HTTP/1.0\r\n".toList =
      ["GET".toList, "/".toList, "HTTP/1.0".toList] := by decide
  obtain ⟨handled, hhandle, hiff⟩ :=
    request_fits_iff (by decide) hwords [] none ⟨0, 0, 0, 0⟩
  exact ⟨hwords, handled, hhandle, hiff.mpr (by decide)⟩

/-- A request line with a path of 8100 letters. -/
def longRequest : Text :=
  "GET".toList ++ ' ' :: (List.replicate 8100 'a' ++ ' ' :: ("HTTP/1.0".toList ++ crlf))

/-- The path leads to no file, and the error page does not fit. -/
theorem long_request_overflows :
    longRequest.length ≤ maxLine - 1 ∧
    words longRequest = ["GET".toList, List.replicate 8100 'a', "HTTP/1.0".toList] ∧
    ∃ handled, requestHandle [] none ⟨0, 0, 0, 0⟩ longRequest = some handled ∧
      ¬ ∀ built ∈ handled.built, built.Fits := by
  have hlen : longRequest.length ≤ maxLine - 1 := by
    have hget : "GET".toList.length = 3 := by decide
    have hversion : "HTTP/1.0".toList.length = 8 := by decide
    simp only [longRequest, List.length_append, List.length_cons, List.length_replicate, hget,
      hversion]
    decide
  have hpath : IsWord (List.replicate 8100 'a') := by
    refine ⟨List.ne_nil_of_length_pos (by rw [List.length_replicate]; decide), ?_⟩
    rw [List.all_replicate]
    decide
  have hmethod : IsWord "GET".toList := ⟨by decide, by decide⟩
  have hversion : IsWord "HTTP/1.0".toList := ⟨by decide, by decide⟩
  have hwords := words_request hmethod hpath hversion
  obtain ⟨handled, hhandle, hiff⟩ :=
    requestHandle_get hlen hwords (by decide) [] none ⟨0, 0, 0, 0⟩
  refine ⟨hlen, hwords, handled, hhandle, ?_⟩
  rw [hiff, nameLength_replicate]
  decide

end FtfSystems.WebServer
