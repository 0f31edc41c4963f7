import FtfSystems.WebServer.Requests

/-!
# `requestReadhdrs`

The loop ends only when the buffer holds an empty line. At the end of the stream
`rio_readlineb` leaves the buffer as it is, and the loop goes round for ever.
-/
namespace FtfSystems.WebServer

/-- After `pre` comes an empty line: `pre` ends in a line feed, or in the middle of a line where
`rio_readlineb` cuts it. -/
def EmptyLineAfter (pre : Text) : Prop :=
  (pre.rtakeWhile (· ≠ '\n')).length % (maxLine - 1) = 0

/-- The stream has an empty line between `pre` and `post`. -/
structure EmptyLineAt (stream pre post : Text) : Prop where
  eq : stream = pre ++ crlf ++ post
  after : EmptyLineAfter pre

def HasEmptyLine (stream : Text) : Prop := ∃ pre post, EmptyLineAt stream pre post

/-- What is left of a stream whose header has been read: what follows the first empty line, or
nothing if there is none. -/
def HeaderRead (stream rest : Text) : Prop :=
  (∃ pre, EmptyLineAt stream pre rest ∧
    ∀ pre' post', EmptyLineAt stream pre' post' → pre.length ≤ pre'.length) ∨
  ¬ HasEmptyLine stream ∧ rest = []

/-- `requestReadhdrs` returns after finitely many calls of `Rio_readlineb`, with the header
read. -/
def ReadsHeader (buf : Text) (rp : Rio) (stream : Text) : Prop :=
  ∃ calls rp' rest, requestReadhdrs calls buf rp = .returned rp' ∧ rp'.Delivers rest ∧
    HeaderRead stream rest

/-! ### Pieces -/

section
variable {k : ℕ} {stream pre post rest : Text}

theorem not_mem_dropLast_piece (k : ℕ) (stream : Text) : '\n' ∉ (piece k stream).dropLast := by
  induction k generalizing stream with
  | zero => simp [piece]
  | succ k ih =>
    cases stream with
    | nil => simp [piece]
    | cons c stream =>
      rw [piece]
      split_ifs with hc
      · simp
      · cases hp : piece k stream with
        | nil => simp
        | cons d tail =>
          have htail := ih stream
          rw [hp] at htail
          rw [List.dropLast_cons_of_ne_nil (by simp), List.mem_cons, not_or]
          exact ⟨Ne.symm hc, htail⟩

/-- A piece ends in a line feed, is as long as can be, or is the end of the stream. -/
theorem piece_cases (k : ℕ) (stream : Text) :
    (∃ line, piece k stream = line ++ ['\n']) ∨
      ('\n' ∉ piece k stream ∧ ((piece k stream).length = k ∨ piece k stream = stream)) := by
  induction k generalizing stream with
  | zero => exact .inr ⟨by simp [piece], .inl rfl⟩
  | succ k ih =>
    cases stream with
    | nil => exact .inr ⟨by simp [piece], .inr rfl⟩
    | cons c stream =>
      rw [piece]
      split_ifs with hc
      · exact .inl ⟨[], by simp [hc]⟩
      · rcases ih stream with ⟨line, hline⟩ | ⟨hno, hlen | hall⟩
        · exact .inl ⟨c :: line, by rw [hline]; rfl⟩
        · exact .inr ⟨by simp [hno, Ne.symm hc], .inl (by simp [hlen])⟩
        · exact .inr ⟨by simp [hno, Ne.symm hc], .inr (by rw [hall])⟩

theorem cString_piece (k : ℕ) (stream : Text) :
    cString (piece k stream) = crlf ↔ piece k stream = crlf := by
  constructor
  · intro h
    obtain ⟨post, hpost⟩ : crlf <+: piece k stream := h ▸ List.takeWhile_prefix _
    cases post with
    | nil => simpa using hpost.symm
    | cons c post =>
      have hno := not_mem_dropLast_piece k stream
      rw [← hpost] at hno
      simp [crlf] at hno
  · intro h
    rw [h]
    decide

theorem piece_crlf (hk : 2 ≤ k) (post : Text) : piece k (crlf ++ post) = crlf := by
  obtain ⟨k, rfl⟩ := Nat.exists_eq_add_of_le' hk
  rfl

theorem length_rtakeWhile_append (f : Char → Bool) (p q : Text) :
    ((p ++ q).rtakeWhile f).length =
      if q.all f then (p.rtakeWhile f).length + q.length else (q.rtakeWhile f).length := by
  induction q using List.reverseRecOn with
  | nil => simp
  | append_singleton q c ih =>
    rw [← List.append_assoc, List.rtakeWhile_concat, List.rtakeWhile_concat]
    by_cases hc : f c
    · simp only [hc, if_true, List.length_append, ih, List.length_singleton, List.all_append,
        List.all_cons, List.all_nil, Bool.and_true]
      split_ifs <;> omega
    · simp [hc]

theorem rtakeWhile_eq_self {p : Text} (h : '\n' ∉ p) : p.rtakeWhile (· ≠ '\n') = p := by
  rw [List.rtakeWhile_eq_self_iff]
  intro c hc
  rw [decide_eq_true_eq]
  rintro rfl
  exact h hc

/-- A whole piece more or less in front makes no difference. -/
theorem emptyLineAfter_append {p : Text}
    (hp : (∃ line, p = line ++ ['\n']) ∨ '\n' ∉ p ∧ p.length = maxLine - 1) (q : Text) :
    EmptyLineAfter (p ++ q) ↔ EmptyLineAfter q := by
  have hq := length_rtakeWhile_append (· ≠ '\n') [] q
  rw [List.nil_append] at hq
  rw [EmptyLineAfter, EmptyLineAfter, length_rtakeWhile_append, hq]
  split_ifs
  · rcases hp with ⟨line, rfl⟩ | ⟨hno, hlen⟩
    · simp
    · rw [rtakeWhile_eq_self hno, hlen]
      simp
  · rfl

/-- The empty lines of a stream lie in what follows its first piece, unless that is one. -/
theorem emptyLineAt_iff (hstream : stream = piece (maxLine - 1) stream ++ rest)
    (hp : piece (maxLine - 1) stream ≠ crlf) :
    EmptyLineAt stream pre post ↔
      ∃ pre', pre = piece (maxLine - 1) stream ++ pre' ∧ EmptyLineAt rest pre' post := by
  set p := piece (maxLine - 1) stream with hpdef
  have hfull {q : Text} (hrest : rest = q ++ crlf ++ post) :
      (∃ line, p = line ++ ['\n']) ∨ '\n' ∉ p ∧ p.length = maxLine - 1 := by
    rcases piece_cases (maxLine - 1) stream with h | ⟨hno, hlen | hall⟩
    · exact .inl h
    · exact .inr ⟨hno, hlen⟩
    · have hlen := congrArg List.length hstream
      rw [hpdef, hall, hrest] at hlen
      simp [crlf] at hlen
  constructor
  · rintro ⟨heq, hafter⟩
    have hpre : pre <+: stream := ⟨crlf ++ post, by rw [heq, List.append_assoc]⟩
    by_cases hlen : p.length ≤ pre.length
    · obtain ⟨pre', rfl⟩ := List.prefix_of_prefix_length_le ⟨rest, hstream.symm⟩ hpre hlen
      have hrest : rest = pre' ++ crlf ++ post := by
        have hcancel : p ++ rest = p ++ (pre' ++ crlf ++ post) := by
          rw [← hstream, heq]
          simp only [List.append_assoc]
        exact List.append_cancel_left hcancel
      exact ⟨pre', rfl, hrest, (emptyLineAfter_append (hfull hrest) pre').mp hafter⟩
    · exfalso
      push Not at hlen
      have hle : pre.length ≤ p.dropLast.length := by
        rw [List.length_dropLast]
        omega
      have hdrop : p.dropLast <+: stream :=
        (List.dropLast_prefix p).trans ⟨rest, hstream.symm⟩
      have hno : '\n' ∉ pre := fun hmem => not_mem_dropLast_piece (maxLine - 1) stream
        ((List.prefix_of_prefix_length_le hpre hdrop hle).subset hmem)
      have hbound : p.length ≤ maxLine - 1 := length_piece_le (maxLine - 1) stream
      rw [EmptyLineAfter, rtakeWhile_eq_self hno, Nat.mod_eq_of_lt (by omega),
        List.length_eq_zero_iff] at hafter
      rw [hafter, List.nil_append] at heq
      rw [hpdef, heq, piece_crlf (by decide)] at hp
      exact hp rfl
  · rintro ⟨pre', rfl, hrest, hafter⟩
    refine ⟨?_, (emptyLineAfter_append (hfull hrest) pre').mpr hafter⟩
    rw [hstream, hrest]
    simp only [List.append_assoc]

theorem hasEmptyLine_iff (hstream : stream = piece (maxLine - 1) stream ++ rest)
    (hp : piece (maxLine - 1) stream ≠ crlf) : HasEmptyLine stream ↔ HasEmptyLine rest := by
  constructor
  · rintro ⟨pre, post, h⟩
    obtain ⟨pre', -, h'⟩ := (emptyLineAt_iff hstream hp).mp h
    exact ⟨pre', post, h'⟩
  · rintro ⟨pre, post, h⟩
    exact ⟨_, post, (emptyLineAt_iff hstream hp).mpr ⟨pre, rfl, h⟩⟩

theorem emptyLineAt_nil (hstream : stream = piece (maxLine - 1) stream ++ rest)
    (hp : piece (maxLine - 1) stream = crlf) : EmptyLineAt stream [] rest :=
  ⟨by rw [List.nil_append, ← hp, ← hstream], rfl⟩

theorem not_hasEmptyLine_of_not_mem (h : '\r' ∉ stream) : ¬ HasEmptyLine stream := by
  rintro ⟨pre, post, rfl, -⟩
  simp [crlf] at h

end

/-! ### The loop -/

section
variable {rp rp' : Rio} {stream buf buf' : Text}

/-- One call at the end of the stream. -/
theorem next_nil (h : rp.Delivers []) (buf : Text) : ∃ rp' : Rio, rp'.Delivers [] ∧
    Headers.next (.reading buf rp) =
      if cString buf = crlf then .returned rp' else .reading buf rp' := by
  obtain ⟨rc, rp', rest, hline, hdel, hrest⟩ :=
    Rio.readlineb_spec h buf (by decide : 1 < maxLine)
  obtain ⟨-, rfl⟩ := List.append_eq_nil_iff.mp hrest.symm
  refine ⟨rp', hdel, ?_⟩
  rw [Headers.next, hline]
  rfl

/-- One call before the end of the stream. -/
theorem next_piece (h : rp.Delivers stream) (hne : stream ≠ []) (buf : Text) :
    ∃ (rp' : Rio) (rest : Text),
    rp'.Delivers rest ∧ stream = piece (maxLine - 1) stream ++ rest ∧
    rest.length < stream.length ∧ Headers.next (.reading buf rp) =
      if piece (maxLine - 1) stream = crlf then .returned rp'
      else .reading (piece (maxLine - 1) stream) rp' := by
  obtain ⟨rc, rp', rest, hline, hdel, hrest⟩ :=
    Rio.readlineb_spec h buf (by decide : 1 < maxLine)
  have hpos : 0 < (piece (maxLine - 1) stream).length :=
    List.length_pos_iff.mpr (piece_eq_nil.not.mpr hne)
  refine ⟨rp', rest, hdel, hrest, ?_, ?_⟩
  · have hlen := congrArg List.length hrest
    rw [List.length_append] at hlen
    omega
  · rw [Headers.next, hline]
    simp only [if_neg hne, cString_piece]

theorem requestReadhdrs_succ {calls : ℕ}
    (h : Headers.next (.reading buf rp) = .reading buf' rp') :
    requestReadhdrs (calls + 1) buf rp = requestReadhdrs calls buf' rp' := by
  rw [requestReadhdrs, Function.iterate_succ_apply, h, requestReadhdrs]

/-- With an empty line to come, the loop ends after the first one. -/
theorem returns_of_hasEmptyLine (h : rp.Delivers stream) (hline : HasEmptyLine stream)
    (buf : Text) :
    ∃ calls rp' rest pre, requestReadhdrs calls buf rp = .returned rp' ∧ rp'.Delivers rest ∧
      EmptyLineAt stream pre rest ∧
      ∀ pre' post', EmptyLineAt stream pre' post' → pre.length ≤ pre'.length := by
  induction hn : stream.length using Nat.strong_induction_on generalizing stream rp buf with
  | _ n ih =>
    have hne : stream ≠ [] := by
      rintro rfl
      exact not_hasEmptyLine_of_not_mem (by simp) hline
    obtain ⟨rp', rest, hdel, hrest, hlt, hnext⟩ := next_piece h hne buf
    by_cases hp : piece (maxLine - 1) stream = crlf
    · rw [if_pos hp] at hnext
      exact ⟨1, rp', rest, [], hnext, hdel, emptyLineAt_nil hrest hp, by simp⟩
    · rw [if_neg hp] at hnext
      obtain ⟨calls, rp'', rest', pre, hret, hdel', hat, hfirst⟩ :=
        ih _ (hn ▸ hlt) hdel ((hasEmptyLine_iff hrest hp).mp hline) _ rfl
      refine ⟨calls + 1, rp'', rest', _, ?_, hdel',
        (emptyLineAt_iff hrest hp).mpr ⟨pre, rfl, hat⟩, fun pre' post' hat' => ?_⟩
      · rw [requestReadhdrs_succ hnext, hret]
      · obtain ⟨pre'', rfl, hat''⟩ := (emptyLineAt_iff hrest hp).mp hat'
        have hle := hfirst pre'' post' hat''
        simp only [List.length_append]
        omega

/-- Without one, the loop goes on after any number of calls. -/
theorem reading_of_not_hasEmptyLine (h : rp.Delivers stream) (hno : ¬ HasEmptyLine stream)
    (hbuf : stream = [] → cString buf ≠ crlf) (calls : ℕ) :
    ∃ buf' rp', requestReadhdrs calls buf rp = .reading buf' rp' := by
  induction calls generalizing stream rp buf with
  | zero => exact ⟨buf, rp, rfl⟩
  | succ calls ih =>
    by_cases hne : stream = []
    · subst hne
      obtain ⟨rp', hdel, hnext⟩ := next_nil h buf
      rw [if_neg (hbuf rfl)] at hnext
      rw [requestReadhdrs_succ hnext]
      exact ih hdel hno hbuf
    · obtain ⟨rp', rest, hdel, hrest, -, hnext⟩ := next_piece h hne buf
      have hp : piece (maxLine - 1) stream ≠ crlf := fun hp =>
        hno ⟨[], rest, emptyLineAt_nil hrest hp⟩
      rw [if_neg hp] at hnext
      rw [requestReadhdrs_succ hnext]
      refine ih hdel (fun h => hno ((hasEmptyLine_iff hrest hp).mpr h)) fun _ => ?_
      rwa [Ne, cString_piece]

/-- `requestReadhdrs` returns exactly for the streams that have an empty line, and for the empty
stream if the array it does not initialise holds one. -/
theorem reads_header_iff (h : rp.Delivers stream) (buf : Text) :
    ReadsHeader buf rp stream ↔ HasEmptyLine stream ∨ stream = [] ∧ cString buf = crlf := by
  constructor
  · rintro ⟨calls, rp', rest, hret, -⟩
    by_contra hcond
    rw [not_or, not_and] at hcond
    obtain ⟨buf', rp'', hreading⟩ := reading_of_not_hasEmptyLine h hcond.1 hcond.2 calls
    rw [hreading] at hret
    cases hret
  · rintro (hline | ⟨rfl, hbuf⟩)
    · obtain ⟨calls, rp', rest, pre, hret, hdel, hat, hfirst⟩ :=
        returns_of_hasEmptyLine h hline buf
      exact ⟨calls, rp', rest, hret, hdel, .inl ⟨pre, hat, hfirst⟩⟩
    · obtain ⟨rp', hdel, hnext⟩ := next_nil h buf
      rw [if_pos hbuf] at hnext
      exact ⟨1, rp', [], hnext, hdel, .inr ⟨not_hasEmptyLine_of_not_mem (by simp), rfl⟩⟩

end

theorem reads_header_iff_empty_line :
    (Rio.init [.data 'A' ['\r'], .interrupted, .data '\n' ['\r', '\n']]).Delivers
      ['A', '\r', '\n', '\r', '\n'] ∧
    ReadsHeader [] (Rio.init [.data 'A' ['\r'], .interrupted, .data '\n' ['\r', '\n']])
      ['A', '\r', '\n', '\r', '\n'] := by
  have hdel : (Rio.init [.data 'A' ['\r'], .interrupted, .data '\n' ['\r', '\n']]).Delivers
      ['A', '\r', '\n', '\r', '\n'] := ⟨by simp [Rio.init], rfl⟩
  exact ⟨hdel, (reads_header_iff hdel []).mpr (.inl ⟨['A', '\r', '\n'], [], rfl, rfl⟩)⟩

/-- A client that closes within its first header line. -/
theorem truncated_header_never_read :
    (Rio.init [.data 'H' "ost".toList]).Delivers "Host".toList ∧
    (∀ calls, ∃ buf rp,
      requestReadhdrs calls [] (Rio.init [.data 'H' "ost".toList]) = .reading buf rp) ∧
    ¬ ReadsHeader [] (Rio.init [.data 'H' "ost".toList]) "Host".toList := by
  have hdel : (Rio.init [.data 'H' "ost".toList]).Delivers "Host".toList :=
    ⟨by simp [Rio.init], by decide⟩
  have hforever : ∀ calls, ∃ buf rp,
      requestReadhdrs calls [] (Rio.init [.data 'H' "ost".toList]) = .reading buf rp :=
    reading_of_not_hasEmptyLine hdel (not_hasEmptyLine_of_not_mem (by decide)) (by decide)
  refine ⟨hdel, hforever, ?_⟩
  rintro ⟨calls, rp', rest, hret, -⟩
  obtain ⟨buf, rp, hreading⟩ := hforever calls
  rw [hreading] at hret
  cases hret

end FtfSystems.WebServer
