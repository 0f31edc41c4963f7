import FtfSystems.WebServer.BufferSizes
import FtfSystems.WebServer.Responses
import FtfSystems.WebServer.RobustIo

/-!
# Frames

A text of lines that are not empty, an empty line, and more text, splits at the empty line and
nowhere before. Requests are cut up like this by the server, whichever way their bytes arrive;
error pages and dynamic responses can be cut up like this by a client.
-/
namespace FtfSystems.WebServer
open Foundation

/-! ### Lines -/

section
variable {line rest body : Text} {lines : List Text}

/-- A line that is not empty, without the letters that end it. -/
structure IsLine (line : Text) : Prop where
  ne_nil : line ≠ []
  cr : '\r' ∉ line
  lf : '\n' ∉ line

/-- Lines with their ends. -/
def joined (lines : List Text) : Text := lines.flatMap (· ++ crlf)

/-- Lines without the end of the last one. -/
def header (lines : List Text) : Text := crlf.intercalate lines

theorem blank_infix_line (hcr : '\r' ∉ line) :
    crlf ++ crlf <:+: line ++ crlf ++ rest ↔ crlf <+: rest ∨ crlf ++ crlf <:+: rest := by
  induction line with
  | nil =>
    have hlf : crlf ++ crlf <:+: '\n' :: rest ↔ crlf ++ crlf <:+: rest := by
      rw [List.infix_cons_iff]
      simp [crlf]
    rw [List.nil_append]
    show crlf ++ crlf <:+: '\r' :: ('\n' :: rest) ↔ _
    rw [List.infix_cons_iff, hlf]
    simp [crlf]
  | cons c line ih =>
    rw [List.mem_cons, not_or] at hcr
    rw [List.cons_append, List.cons_append, List.infix_cons_iff, ih hcr.2]
    have hc : ¬ crlf ++ crlf <+: c :: (line ++ crlf ++ rest) := fun h => by
      have hhead := h.getElem (show 0 < (crlf ++ crlf).length by decide)
      exact hcr.1 (by simpa [crlf] using hhead)
    exact or_iff_right hc

theorem not_blank_joined (hlines : ∀ line ∈ lines, IsLine line) :
    ¬ crlf ++ crlf <:+: joined lines ++ ['\r'] := by
  induction lines with
  | nil =>
    intro h
    have hlen := h.length_le
    simp [joined, crlf] at hlen
  | cons line lines ih =>
    have hnext : ¬ crlf <+: joined lines ++ ['\r'] := by
      cases lines with
      | nil => simp [joined, crlf]
      | cons next lines =>
        have hline := hlines next (by simp)
        obtain ⟨c, tail, rfl⟩ := List.exists_cons_of_ne_nil hline.ne_nil
        intro h
        have hhead := h.getElem (show 0 < crlf.length by decide)
        exact hline.cr (List.mem_cons.mpr (.inl (by simpa [crlf, joined] using hhead)))
    have hsplit : joined (line :: lines) ++ ['\r'] =
        line ++ crlf ++ (joined lines ++ ['\r']) := by
      simp [joined]
    rw [hsplit, blank_infix_line (hlines line (by simp)).cr, not_or]
    exact ⟨hnext, ih fun l hl => hlines l (by simp [hl])⟩

theorem header_append_crlf (hne : lines ≠ []) : header lines ++ crlf = joined lines := by
  obtain ⟨line, lines, rfl⟩ := List.exists_cons_of_ne_nil hne
  induction lines generalizing line with
  | nil => simp [header, joined, List.intercalate]
  | cons next lines ih =>
    have hih := ih next (by simp)
    simp only [header, joined, List.intercalate_cons_cons, List.flatMap_cons] at hih ⊢
    rw [List.append_assoc, hih]

theorem infix_joined (hline : line ∈ lines) (first : Text) :
    crlf ++ line ++ crlf <:+: joined (first :: lines) := by
  obtain ⟨a, b, rfl⟩ := List.append_of_mem hline
  refine ⟨header (first :: a), joined b, ?_⟩
  have hhead : header (first :: a) ++ crlf = joined (first :: a) := header_append_crlf (by simp)
  calc header (first :: a) ++ (crlf ++ line ++ crlf) ++ joined b
      = (header (first :: a) ++ crlf) ++ (line ++ crlf ++ joined b) := by simp
    _ = joined (first :: (a ++ line :: b)) := by
      rw [hhead]
      simp [joined]

/-- Lines and an empty line split there for the first time. -/
theorem first_blank (hne : lines ≠ []) (hlines : ∀ line ∈ lines, IsLine line) (body : Text) :
    FirstAt (crlf ++ crlf) (header lines) body (joined lines ++ crlf ++ body) := by
  refine ⟨?_, ?_⟩
  · rw [← header_append_crlf hne]
    simp only [List.append_assoc]
  · have hlast : header lines ++ (crlf ++ crlf).dropLast = joined lines ++ ['\r'] := by
      rw [← header_append_crlf hne]
      simp [crlf]
    rw [hlast]
    exact not_blank_joined hlines

end

/-! ### Requests -/

/-- A request as a client sends it. -/
def requestText (method uri version : Text) (headers : List Text) : Text :=
  (method ++ ' ' :: (uri ++ ' ' :: (version ++ crlf))) ++ (joined headers ++ crlf)

section
variable {k : ℕ} {line rest post method uri version : Text} {headers : List Text} {rp : Rio}

theorem piece_line (hlf : '\n' ∉ line) (hk : line.length + 1 ≤ k) (rest : Text) :
    piece k (line ++ '\n' :: rest) = line ++ ['\n'] := by
  induction line generalizing k with
  | nil =>
    obtain ⟨k, rfl⟩ := Nat.exists_eq_add_of_le' hk
    rfl
  | cons c line ih =>
    rw [List.mem_cons, not_or] at hlf
    rw [List.length_cons] at hk
    obtain ⟨k, rfl⟩ := Nat.exists_eq_add_of_le' (by omega : 1 ≤ k)
    rw [List.cons_append, piece, if_neg (Ne.symm hlf.1), ih hlf.2 (by omega), List.cons_append]

/-- A line with its end is one piece of the stream. -/
theorem piece_crlf_line (hlf : '\n' ∉ line) (hlen : line.length + 2 ≤ maxLine - 1) (rest : Text) :
    piece (maxLine - 1) (line ++ crlf ++ rest) = line ++ crlf := by
  have hlf' : '\n' ∉ line ++ ['\r'] := by simpa using hlf
  have hlen' : (line ++ ['\r']).length + 1 ≤ maxLine - 1 := by
    rw [List.length_append, List.length_singleton]; omega
  simpa [crlf] using piece_line hlf' hlen' rest

/-- The loop of `requestReadhdrs` reads the lines of a header and the empty line. -/
theorem requestReadhdrs_joined (hlines : ∀ line ∈ headers, IsLine line)
    (hfit : ∀ line ∈ headers, line.length + 2 ≤ maxLine - 1)
    (h : rp.Delivers (joined headers ++ crlf ++ post)) (buf : Text) :
    ∃ rp', requestReadhdrs (headers.length + 1) buf rp = .returned rp' ∧ rp'.Delivers post := by
  induction headers generalizing rp buf with
  | nil =>
    have hstream : joined [] ++ crlf ++ post = crlf ++ post := rfl
    rw [hstream] at h
    obtain ⟨rp', rest, hdel, hrest, -, hnext⟩ := next_piece h (by simp [crlf]) buf
    rw [piece_crlf (by decide) post] at hrest hnext
    rw [if_pos rfl] at hnext
    obtain rfl := List.append_cancel_left hrest
    exact ⟨rp', hnext, hdel⟩
  | cons line headers ih =>
    have hline := hlines line (by simp)
    have hstream : joined (line :: headers) ++ crlf ++ post =
        line ++ crlf ++ (joined headers ++ crlf ++ post) := by
      simp [joined]
    rw [hstream] at h
    obtain ⟨rp', rest, hdel, hrest, -, hnext⟩ := next_piece h (by simp [crlf]) buf
    rw [piece_crlf_line hline.lf (hfit line (by simp))] at hrest hnext
    have hne : line ++ crlf ≠ crlf := by simpa using hline.ne_nil
    rw [if_neg hne] at hnext
    obtain rfl := List.append_cancel_left hrest
    obtain ⟨rp'', hret, hdel'⟩ := ih (fun l hl => hlines l (by simp [hl]))
      (fun l hl => hfit l (by simp [hl])) hdel (line ++ crlf)
    exact ⟨rp'', (requestReadhdrs_succ hnext).trans hret, hdel'⟩

theorem IsWord.not_mem {w : Text} (hw : IsWord w) {c : Char} (hc : isspace c = true) : c ∉ w := by
  intro hmem
  have hletter := List.all_eq_true.mp hw.2 c hmem
  simp [hc] at hletter

/-- Whichever way the bytes of a request arrive, the server reads the three words that the client
wrote, and its header up to the empty line and no further. -/
theorem request_round_trip (hm : IsWord method) (hu : IsWord uri) (hv : IsWord version)
    (hfits : (method ++ ' ' :: (uri ++ ' ' :: version)).length + 2 ≤ maxLine - 1)
    (hlines : ∀ line ∈ headers, IsLine line)
    (hfit : ∀ line ∈ headers, line.length + 2 ≤ maxLine - 1)
    (h : rp.Delivers (requestText method uri version headers ++ post)) (usrbuf buf : Text) :
    ∃ rc line rp' calls rp'', rp.readlineb usrbuf maxLine = some (rc, line, rp') ∧
      words line = [method, uri, version] ∧
      requestReadhdrs calls buf rp' = .returned rp'' ∧ rp''.Delivers post := by
  have hstream : requestText method uri version headers ++ post =
      method ++ ' ' :: (uri ++ ' ' :: version) ++ crlf ++ (joined headers ++ crlf ++ post) := by
    simp [requestText]
  have hlf : '\n' ∉ method ++ ' ' :: (uri ++ ' ' :: version) := by
    have hspace : isspace '\n' = true := by decide
    simp [hm.not_mem hspace, hu.not_mem hspace, hv.not_mem hspace]
  rw [hstream] at h
  obtain ⟨rc, rp', rest, hread, hdel, hrest⟩ :=
    Rio.readlineb_spec h usrbuf (by decide : 1 < maxLine)
  rw [piece_crlf_line hlf hfits] at hread hrest
  obtain rfl := List.append_cancel_left hrest
  obtain ⟨rp'', hret, hdel'⟩ := requestReadhdrs_joined hlines hfit hdel buf
  rw [if_neg (by simp [crlf])] at hread
  refine ⟨rc, _, rp', _, rp'', hread, ?_, hret, hdel'⟩
  have hwords := words_request hm hu hv
  simpa using hwords

end

/-- A request with two header lines, which arrives in pieces. -/
theorem request_round_trip_pieces : ∃ rp : Rio,
    rp.Delivers (requestText "GET".toList "a".toList "1".toList ["H: b".toList, "I".toList] ++
      "post".toList) ∧
    ∃ rc line rp' calls rp'', rp.readlineb [] maxLine = some (rc, line, rp') ∧
      words line = ["GET".toList, "a".toList, "1".toList] ∧
      requestReadhdrs calls [] rp' = .returned rp'' ∧ rp''.Delivers "post".toList := by
  let rp : Rio := Rio.init [.data 'G' "ET a".toList, .interrupted, .data ' ' "1\r".toList,
    .data '\n' "H: b\r\nI\r\n\r\npo".toList, .data 's' "t".toList]
  have hdel : rp.Delivers (requestText "GET".toList "a".toList "1".toList
      ["H: b".toList, "I".toList] ++ "post".toList) := ⟨by simp [rp, Rio.init], by decide⟩
  have hword : IsWord "GET".toList ∧ IsWord "a".toList ∧ IsWord "1".toList := by
    refine ⟨⟨?_, ?_⟩, ⟨?_, ?_⟩, ?_, ?_⟩ <;> decide
  refine ⟨rp, hdel, request_round_trip hword.1 hword.2.1 hword.2.2 (by decide) ?_ ?_ hdel [] []⟩
  · intro line hline
    fin_cases hline <;> exact ⟨by decide, by decide, by decide⟩
  · intro line hline
    fin_cases hline <;> decide

/-! ### Error pages and dynamic responses -/

/-- The response has one header, which ends at the first empty line and gives the length of the
rest, and this status. The rest has room in its array. -/
def ErrorFramed (status out : Text) : Prop :=
  ∃ head body, FirstAt (crlf ++ crlf) head body out ∧
    "HTTP/1.0 ".toList ++ status ++ crlf <+: head ∧
    crlf ++ contentLength ++ decimal body.length ++ crlf <:+: head ++ crlf ∧
    body.length < maxBuf

theorem isLine_decimal_line {name : Text} (hname : IsLine name) (n : ℕ) :
    IsLine (name ++ decimal n) := by
  refine ⟨by simp [hname.ne_nil], ?_, ?_⟩
  · simp [hname.cr, not_mem_decimal]
  · simp [hname.lf, not_mem_decimal]

theorem requestError_framed {cause errnum shortmsg longmsg : Text}
    (hstatus : IsLine (errnum ++ ' ' :: shortmsg))
    (hfits : ∀ built ∈ (requestError cause errnum shortmsg longmsg).1, built.Fits) :
    ErrorFramed (errnum ++ ' ' :: shortmsg) (requestError cause errnum shortmsg longmsg).2 := by
  obtain ⟨body, hroom, hout⟩ : ∃ body : Text, body.length < maxBuf ∧
      (requestError cause errnum shortmsg longmsg).2 =
      joined ["HTTP/1.0 ".toList ++ (errnum ++ ' ' :: shortmsg), "Content-Type: text/html".toList,
        contentLength ++ decimal body.length] ++ crlf ++ body := by
    refine ⟨((requestError cause errnum shortmsg longmsg).1.getD 4 ⟨0, []⟩).text, ?_, ?_⟩
    · -- The body is the fifth of the strings.
      apply hfits ⟨maxBuf, _⟩
      simp [requestError]
    have htype : "Content-Type: text/html\r\n".toList = "Content-Type: text/html".toList ++ crlf := by
      decide
    have hlength : contentLength = "Content-Length: ".toList := rfl
    simp only [requestError, joined, htype, hlength]
    simp [List.append_assoc]
  have hlines : ∀ line ∈ ["HTTP/1.0 ".toList ++ (errnum ++ ' ' :: shortmsg),
      "Content-Type: text/html".toList, contentLength ++ decimal body.length], IsLine line := by
    intro line hline
    simp only [List.mem_cons, List.not_mem_nil, or_false] at hline
    obtain rfl | rfl | rfl := hline
    · exact ⟨by simp, by simp [hstatus.cr], by simp [hstatus.lf]⟩
    · exact ⟨by decide, by decide, by decide⟩
    · exact isLine_decimal_line ⟨by decide, by decide, by decide⟩ _
  rw [hout]
  refine ⟨_, body, first_blank (by simp) hlines body, ?_, ?_, hroom⟩
  · refine ⟨"Content-Type: text/html".toList ++ (crlf ++ (contentLength ++ decimal body.length)), ?_⟩
    simp [header, List.intercalate_cons_cons]
  · rw [header_append_crlf (by simp)]
    refine ⟨"HTTP/1.0 ".toList ++ (errnum ++ ' ' :: shortmsg) ++ crlf ++
      "Content-Type: text/html".toList, [], ?_⟩
    simp [joined]

theorem framed_of_eq {cause longmsg written : Text} (errnum shortmsg : String)
    (hw : (requestError cause errnum.toList shortmsg.toList longmsg).2 = written)
    (hstatus : IsLine (errnum.toList ++ ' ' :: shortmsg.toList))
    (hfits : ∀ built ∈ (requestError cause errnum.toList shortmsg.toList longmsg).1, built.Fits) :
    ErrorFramed (errnum.toList ++ ' ' :: shortmsg.toList) written :=
  hw ▸ requestError_framed hstatus hfits

/-- The error pages at the end of `requestHandle`. -/
theorem respond_framed {answer : Option FileStat} {parsed : ParsedURI} {st : StatThread}
    {written : Text} (h : (respond answer parsed st).response = .error written)
    (hfits : ∀ built ∈ (respond answer parsed st).built, built.Fits) :
    ∃ status ∈ ["404 Not found".toList, "403 Forbidden".toList], ErrorFramed status written := by
  have hnotFound : IsLine "404 Not found".toList := ⟨by decide, by decide, by decide⟩
  have hforbidden : IsLine "403 Forbidden".toList := ⟨by decide, by decide, by decide⟩
  cases answer with
  | none =>
    exact ⟨_, List.mem_cons_self,
      framed_of_eq "404" "Not found" (Response.error.inj h) hnotFound hfits⟩
  | some sbuf =>
    refine ⟨_, List.mem_cons_of_mem _ List.mem_cons_self, ?_⟩
    simp only [respond] at h hfits
    split_ifs at h hfits
    · exact framed_of_eq "403" "Forbidden" (Response.error.inj h) hforbidden hfits
    · exact framed_of_eq "403" "Forbidden" (Response.error.inj h) hforbidden hfits

/-- Whatever line of three words a client sends and whatever `stat` answers, an error page that
fits its arrays tells its own length, and its status is one of three. -/
theorem error_responses_framed {cgiargs line written : Text} {answer : Option FileStat}
    {st : StatThread} {handled : Handled}
    (h : requestHandle cgiargs answer st line = some handled)
    (hr : handled.response = .error written) (hfits : ∀ built ∈ handled.built, built.Fits) :
    ∃ status ∈ ["501 Not Implemented".toList, "404 Not found".toList, "403 Forbidden".toList],
      ErrorFramed status written := by
  have hnotImplemented : IsLine "501 Not Implemented".toList := ⟨by decide, by decide, by decide⟩
  simp only [requestHandle] at h
  split at h
  · split at h
    · obtain ⟨parsed, -, hrespond⟩ := Option.bind_eq_some_iff.mp h
      obtain rfl := Option.some.inj hrespond
      obtain ⟨status, hmem, hframed⟩ := respond_framed hr
        fun built hbuilt => hfits built (List.mem_append_right _ hbuilt)
      exact ⟨status, List.mem_cons_of_mem _ hmem, hframed⟩
    · obtain rfl := Option.some.inj h
      exact ⟨_, List.mem_cons_self,
        framed_of_eq "501" "Not Implemented" (Response.error.inj hr) hnotImplemented hfits⟩
  · cases h

/-- A method that is not implemented. -/
theorem error_responses_framed_post : ∃ handled written,
    requestHandle [] none ⟨0, 0, 0, 0⟩ "POST a 1\r\n".toList = some handled ∧
      handled.response = .error written ∧ (∀ built ∈ handled.built, built.Fits) ∧
      ∃ status ∈ ["501 Not Implemented".toList, "404 Not found".toList, "403 Forbidden".toList],
        ErrorFramed status written := by
  have hwords : words "POST a 1\r\n".toList = ["POST".toList, "a".toList, "1".toList] := by decide
  let page := requestError "POST".toList "501".toList "Not Implemented".toList
    "OS-HW3 Server does not implement this method".toList
  have hfits : ∀ built ∈ page.1, built.Fits :=
    (requestError_fits (by decide) (by decide)).mpr (by decide)
  have hhandled : requestHandle [] none ⟨0, 0, 0, 0⟩ "POST a 1\r\n".toList =
      some ⟨page.1, .error page.2, ⟨0, 0, 0, 0 + 1⟩⟩ := by
    simp only [requestHandle, hwords]
    exact if_neg (by decide)
  exact ⟨_, page.2, hhandled, rfl, hfits, error_responses_framed hhandled rfl hfits⟩

/-- What a statistic of a response is to say. -/
def StatName.value (st : StatThread) (time now : Timeval) : StatName → Text
  | arrival => seconds time.tvSec time.tvUsec
  | dispatch => seconds (now.tvSec - time.tvSec) (now.tvUsec - time.tvUsec)
  | threadId => decimalInt st.threadId
  | threadCount => decimalInt st.totReqCount
  | threadStatic => decimalInt st.staticCount
  | threadDynamic => decimalInt st.dynamCount

/-- The statistics in the order of the response. -/
def statNames : List StatName :=
  [.arrival, .dispatch, .threadId, .threadCount, .threadStatic, .threadDynamic]

theorem isLine_stat (st : StatThread) (time now : Timeval) (name : StatName) :
    IsLine (name.text ++ name.value st time now) := by
  have hname : IsLine name.text := by cases name <;> exact ⟨by decide, by decide, by decide⟩
  have hvalue {c : Char} (hdigit : c.isDigit = false) (hdot : c ≠ '.') (hminus : c ≠ '-') :
      c ∉ name.value st time now := by
    cases name with
    | arrival | dispatch => exact not_mem_seconds hdigit hdot
    | threadId | threadCount | threadStatic | threadDynamic =>
      exact not_mem_decimalInt hdigit hminus
  refine ⟨by simp [hname.ne_nil], ?_, ?_⟩
  · rw [List.mem_append, not_or]
    exact ⟨hname.cr, hvalue rfl (by decide) (by decide)⟩
  · rw [List.mem_append, not_or]
    exact ⟨hname.lf, hvalue rfl (by decide) (by decide)⟩

/-- A dynamic response has one header with all statistics, and what the program then writes is its
body. -/
theorem dynamic_response_framed (st : StatThread) (time now : Timeval) (output : Text) :
    ∃ head, FirstAt (crlf ++ crlf) head output (requestServeDynamic st time now ++ output) ∧
      ∀ name : StatName, crlf ++ name.text ++ name.value st time now ++ crlf <:+: head ++ crlf := by
  let stats := statNames.map fun name => name.text ++ name.value st time now
  let lines := "HTTP/1.0 200 OK".toList :: "Server: OS-HW3 Web Server".toList :: stats
  have hlines : ∀ line ∈ lines, IsLine line := by
    intro line hline
    simp only [lines, List.mem_cons] at hline
    obtain rfl | rfl | hline := hline
    · exact ⟨by decide, by decide, by decide⟩
    · exact ⟨by decide, by decide, by decide⟩
    · obtain ⟨name, -, rfl⟩ := List.mem_map.mp hline
      exact isLine_stat st time now name
  have hout : requestServeDynamic st time now ++ output = joined lines ++ crlf ++ output := by
    have hstatus : statusLine = "HTTP/1.0 200 OK".toList ++ crlf := by decide
    have hserver : serverLine = "Server: OS-HW3 Web Server".toList ++ crlf := by decide
    simp only [requestServeDynamic, statLines, threadLines, hstatus, hserver, lines, stats,
      statNames, StatName.value]
    simp [joined]
  rw [hout]
  refine ⟨header lines, first_blank (by simp [lines]) hlines output, fun name => ?_⟩
  rw [header_append_crlf (by simp [lines]), List.append_assoc crlf]
  have hname : name ∈ statNames := by cases name <;> simp [statNames]
  have hline : name.text ++ name.value st time now ∈ "Server: OS-HW3 Web Server".toList :: stats :=
    List.mem_cons_of_mem _ (List.mem_map.mpr ⟨name, hname, rfl⟩)
  exact infix_joined hline _

end FtfSystems.WebServer
