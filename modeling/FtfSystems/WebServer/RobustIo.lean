import FtfSystems.WebServer.ReadHeaders

/-!
# Robust reading: the other functions of the Rio package in `helper.c`

`rio_readn` reads a number of bytes from a descriptor, `rio_readnb` through the buffer that
`rio_readlineb` uses as well. A `read` may return less than it is asked for, be interrupted, or
fail; what the callers see depends only on the bytes, and on whether a failure comes after them.
-/
namespace FtfSystems.WebServer

/-- What a descriptor has to give: its bytes, and whether a `read` fails after them. -/
structure Source where
  bytes : Text
  fails : Bool

def sourceOf : List ReadAnswer → Source
  | [] => ⟨[], false⟩
  | .interrupted :: answers => sourceOf answers
  | .failed :: _ => ⟨[], true⟩
  | .data c bytes :: answers =>
    { sourceOf answers with bytes := c :: bytes ++ (sourceOf answers).bytes }

/-- `rio_readn` with `nleft` bytes to read: what it stores and what is left of the answers. A `read`
takes no more than it is asked for from the bytes that have arrived. There is no result for `-1`,
where `Rio_readn` exits. -/
def readn : List ReadAnswer → ℕ → Option (Text × List ReadAnswer)
  | answers, 0 => some ([], answers)
  | [], _ + 1 => some ([], [])
  | .interrupted :: answers, nleft + 1 => readn answers (nleft + 1)
  | .failed :: _, _ + 1 => none
  | .data c bytes :: answers, nleft + 1 =>
    match bytes.drop nleft with
    | [] => (readn answers (nleft - bytes.length)).map fun r => (c :: bytes ++ r.1, r.2)
    | d :: rest => some (c :: bytes.take nleft, .data d rest :: answers)

namespace Rio

/-- The loop of `rio_read` that fills an empty buffer. There is no result for `-1`. -/
def fill : List ReadAnswer → Option Rio
  | [] => some ⟨[], []⟩
  | .interrupted :: answers => fill answers
  | .failed :: _ => none
  | .data c bytes :: answers => some ⟨c :: bytes, answers⟩

/-- `rio_read` of at most `n` bytes; nothing is copied at the end of the stream. -/
def readSome (rp : Rio) (n : ℕ) : Option (Text × Rio) :=
  (if rp.buf = [] then fill rp.answers else some rp).map fun rp =>
    (rp.buf.take n, { rp with buf := rp.buf.drop n })

/-- The loop of `rio_readnb` with `nleft` bytes to read, in at most `k` rounds. -/
def readnbLoop : ℕ → ℕ → Rio → Option (Text × Rio)
  | 0, _, rp => some ([], rp)
  | k + 1, nleft, rp =>
    if nleft = 0 then some ([], rp)
    else (rp.readSome nleft).bind fun r =>
      if r.1 = [] then some ([], r.2)
      else (readnbLoop k (nleft - r.1.length) r.2).map fun u => (r.1 ++ u.1, u.2)

/-- `rio_readnb`: every round reads a byte, so `n` rounds are enough. -/
def readnb (rp : Rio) (n : ℕ) : Option (Text × Rio) := readnbLoop n n rp

/-- What the buffer and the descriptor have to give. -/
def source (rp : Rio) : Source :=
  { sourceOf rp.answers with bytes := rp.buf ++ (sourceOf rp.answers).bytes }

end Rio

namespace Source

/-- `n` bytes, or fewer at the end of the stream. -/
def readBytes (s : Source) (n : ℕ) : Option (Text × Source) :=
  if n ≤ s.bytes.length then some (s.bytes.take n, { s with bytes := s.bytes.drop n })
  else if s.fails then none
  else some (s.bytes, { s with bytes := [] })

/-- A line, or a piece of one: the returned number and the buffer. The number counts the final 0
unless the line ends in a line feed. -/
def readLine (s : Source) (usrbuf : Text) (maxlen : ℕ) : Option (ℕ × Text × Source) :=
  let line := piece (maxlen - 1) s.bytes
  let rest := { s with bytes := s.bytes.drop line.length }
  if line.getLast? = some '\n' then some (line.length, line, rest)
  else if line.length = maxlen - 1 then some (line.length + 1, line, rest)
  else if s.fails then none
  else if line = [] then some (0, usrbuf, rest)
  else some (line.length + 1, line, rest)

end Source

/-! ### Single reads -/

section
variable {rp : Rio} {s : Source} {k n : ℕ}

theorem fill_spec (answers : List ReadAnswer) :
    (sourceOf answers = ⟨[], true⟩ ∧ Rio.fill answers = none) ∨
      (sourceOf answers = ⟨[], false⟩ ∧ Rio.fill answers = some ⟨[], []⟩) ∨
      ∃ c bytes rest, Rio.fill answers = some ⟨c :: bytes, rest⟩ ∧
        Rio.source ⟨c :: bytes, rest⟩ = sourceOf answers := by
  induction answers with
  | nil => exact .inr (.inl ⟨rfl, rfl⟩)
  | cons answer answers ih =>
    cases answer with
    | interrupted => exact ih
    | failed => exact .inl ⟨rfl, rfl⟩
    | data c bytes => exact .inr (.inr ⟨c, bytes, answers, rfl, rfl⟩)

/-- `rio_read` takes some bytes off the front of the stream. -/
theorem readSome_spec (rp : Rio) (hn : 0 < n) :
    (rp.source = ⟨[], true⟩ ∧ rp.readSome n = none) ∨
      (rp.source = ⟨[], false⟩ ∧ rp.readSome n = some ([], ⟨[], []⟩)) ∨
      ∃ bytes rp', rp.readSome n = some (bytes, rp') ∧ bytes ≠ [] ∧ bytes.length ≤ n ∧
        rp.source = { rp'.source with bytes := bytes ++ rp'.source.bytes } := by
  have htake (c : Char) (buf : Text) (answers : List ReadAnswer) :
      (c :: buf).take n ≠ [] ∧ ((c :: buf).take n).length ≤ n ∧
        Rio.source ⟨c :: buf, answers⟩ = { Rio.source ⟨(c :: buf).drop n, answers⟩ with
          bytes := (c :: buf).take n ++ (Rio.source ⟨(c :: buf).drop n, answers⟩).bytes } := by
    refine ⟨?_, by simp, ?_⟩
    · obtain ⟨m, rfl⟩ := Nat.exists_eq_add_of_le' hn
      simp
    · simp only [Rio.source]
      rw [← List.append_assoc, List.take_append_drop]
  obtain ⟨buf, answers⟩ := rp
  cases buf with
  | cons c buf =>
    obtain ⟨hne, hle, hsource⟩ := htake c buf answers
    exact .inr (.inr ⟨_, ⟨(c :: buf).drop n, answers⟩, rfl, hne, hle, hsource⟩)
  | nil =>
    have hsource : Rio.source ⟨[], answers⟩ = sourceOf answers := rfl
    rw [hsource]
    rcases fill_spec answers with ⟨hs, hfill⟩ | ⟨hs, hfill⟩ | ⟨c, bytes, rest, hfill, hs⟩
    · exact .inl ⟨hs, by simp [Rio.readSome, hfill]⟩
    · exact .inr (.inl ⟨hs, by simp [Rio.readSome, hfill]⟩)
    · obtain ⟨hne, hle, hbytes⟩ := htake c bytes rest
      exact .inr (.inr ⟨_, ⟨(c :: bytes).drop n, rest⟩, by simp [Rio.readSome, hfill], hne, hle,
        hs ▸ hbytes⟩)

/-- The bytes of two reads in a row. -/
theorem readBytes_append {bytes : Text} (hle : bytes.length ≤ n) :
    Source.readBytes { s with bytes := bytes ++ s.bytes } n =
      (s.readBytes (n - bytes.length)).map fun r => (bytes ++ r.1, r.2) := by
  unfold Source.readBytes
  by_cases hlen : n - bytes.length ≤ s.bytes.length
  · have hlen' : n ≤ bytes.length + s.bytes.length := by omega
    simp [hlen, hlen', List.take_append, List.drop_append, List.take_of_length_le hle,
      List.drop_of_length_le hle]
  · have hlen' : ¬ n ≤ bytes.length + s.bytes.length := by omega
    cases s.fails <;> simp [hlen, hlen']

theorem readnbLoop_spec (hk : n ≤ k) :
    (Rio.readnbLoop k n rp).map (fun r => (r.1, r.2.source)) = rp.source.readBytes n := by
  induction k generalizing n rp with
  | zero =>
    obtain rfl := Nat.le_zero.mp hk
    simp [Rio.readnbLoop, Source.readBytes]
  | succ k ih =>
    rw [Rio.readnbLoop]
    by_cases hn : n = 0
    · simp [hn, Source.readBytes]
    · rw [if_neg hn]
      rcases readSome_spec rp (Nat.pos_of_ne_zero hn) with
        ⟨hs, hread⟩ | ⟨hs, hread⟩ | ⟨bytes, rp', hread, hne, hle, hs⟩
      · rw [hs, hread]
        simp [Source.readBytes, hn]
      · rw [hs, hread]
        simp [Source.readBytes, hn]
        rfl
      · have hpos := List.length_pos_iff.mpr hne
        rw [hs, readBytes_append hle, ← @ih rp' (n - bytes.length) (by omega), hread]
        simp [hne, Option.map_map, Function.comp_def]

theorem readn_spec (answers : List ReadAnswer) (n : ℕ) :
    (readn answers n).map (fun r => (r.1, sourceOf r.2)) = (sourceOf answers).readBytes n := by
  fun_induction readn answers n with
  | case1 answers => simp [Source.readBytes]
  | case2 n => simp [Source.readBytes, sourceOf]
  | case3 answers nleft ih => exact ih
  | case4 answers nleft => simp [Source.readBytes, sourceOf]
  | case5 c bytes answers nleft hdrop ih =>
    have hle : (c :: bytes).length ≤ nleft + 1 := by
      have hlen := List.drop_eq_nil_iff.mp hdrop
      simpa using hlen
    have hleft : nleft + 1 - (c :: bytes).length = nleft - bytes.length := by simp
    rw [sourceOf, readBytes_append hle, hleft, ← ih]
    simp [Option.map_map, Function.comp_def]
  | case6 c bytes answers nleft d rest hdrop =>
    have hlen : nleft < bytes.length := by
      have hlen := congrArg List.length hdrop
      simp only [List.length_drop, List.length_cons] at hlen
      omega
    have hle : nleft + 1 ≤ (sourceOf (.data c bytes :: answers)).bytes.length := by
      simp only [sourceOf, List.length_append, List.length_cons]
      omega
    rw [Source.readBytes, if_pos hle]
    simp [sourceOf, List.take_append, List.drop_append, Nat.sub_eq_zero_of_le hlen.le, hdrop]

/-- The answer to a request for one byte, as a piece of the stream. -/
def RioRead.chunk (rp : Rio) : RioRead → Option (Text × Rio)
  | .byte c => some ([c], rp)
  | .eof => some ([], rp)
  | .error => none

/-- A request for one byte is a request for at most one byte. -/
theorem readSome_one (rp : Rio) : rp.readSome 1 = rp.read.1.chunk rp.read.2 := by
  have hfill (answers : List ReadAnswer) :
      (Rio.fill answers).map (fun rp => (rp.buf.take 1, { rp with buf := rp.buf.drop 1 })) =
        (Rio.refill answers).1.chunk (Rio.refill answers).2 := by
    induction answers with
    | nil => rfl
    | cons answer answers ih =>
      cases answer with
      | interrupted => exact ih
      | failed => rfl
      | data c bytes => rfl
  obtain ⟨buf, answers⟩ := rp
  cases buf with
  | nil => exact hfill answers
  | cons c buf => rfl

/-- `rio_read` of one byte, seen from the stream. -/
theorem read_source (rp : Rio) :
    (rp.source = ⟨[], true⟩ ∧ ∃ rp', rp.read = (.error, rp')) ∨
      (rp.source = ⟨[], false⟩ ∧ rp.read = (.eof, ⟨[], []⟩)) ∨
      ∃ c rp', rp.read = (.byte c, rp') ∧
        rp.source = { rp'.source with bytes := c :: rp'.source.bytes } := by
  have hsome := readSome_one rp
  obtain ⟨answer, rest, hr⟩ : ∃ answer rest, rp.read = (answer, rest) := ⟨_, _, rfl⟩
  rw [hr] at hsome
  rcases readSome_spec rp one_pos with ⟨hs, hread⟩ | ⟨hs, hread⟩ | ⟨bytes, rp', hread, hne, -, hs⟩
  · rw [hread] at hsome
    cases answer with
    | byte c => simp [RioRead.chunk] at hsome
    | eof => simp [RioRead.chunk] at hsome
    | error => exact .inl ⟨hs, rest, hr⟩
  · rw [hread] at hsome
    cases answer with
    | byte c => simp [RioRead.chunk] at hsome
    | eof =>
      simp only [RioRead.chunk, Option.some.injEq, Prod.mk.injEq, true_and] at hsome
      exact .inr (.inl ⟨hs, hr.trans (by rw [← hsome])⟩)
    | error => simp [RioRead.chunk] at hsome
  · rw [hread] at hsome
    cases answer with
    | byte c =>
      simp only [RioRead.chunk, Option.some.injEq, Prod.mk.injEq] at hsome
      obtain ⟨rfl, rfl⟩ := hsome
      exact .inr (.inr ⟨c, _, hr, hs⟩)
    | eof => simp [RioRead.chunk, hne] at hsome
    | error => simp [RioRead.chunk] at hsome

end

/-! ### Lines -/

/-- The loop of `rio_readlineb` from `n` on with `k` rounds left, on the stream. -/
def Source.lineFrom (k n : ℕ) (s : Source) : Option (ℕ × Text × Source) :=
  let line := piece k s.bytes
  let rest := { s with bytes := s.bytes.drop line.length }
  if line.getLast? = some '\n' then some (n + line.length - 1, line, rest)
  else if line.length = k then some (n + line.length, line, rest)
  else if s.fails then none
  else some (if n + line.length = 1 then 0 else n + line.length, line, rest)

section
variable {rp : Rio} {s : Source} {k n : ℕ}

/-- One byte more in front of a line that goes on after it. -/
theorem lineFrom_cons {c : Char} (hc : c ≠ '\n') (hn : 1 ≤ n) :
    Source.lineFrom (k + 1) n { s with bytes := c :: s.bytes } =
      (s.lineFrom k (n + 1)).map fun r => (r.1, c :: r.2.1, r.2.2) := by
  unfold Source.lineFrom
  simp only [piece, hc, if_false, List.length_cons, List.drop_succ_cons, Nat.add_right_cancel_iff]
  have hnum : n + ((piece k s.bytes).length + 1) = n + 1 + (piece k s.bytes).length := by omega
  have hone : n + 1 + (piece k s.bytes).length ≠ 1 := by omega
  rw [hnum]
  cases hp : piece k s.bytes with
  | nil =>
    rw [hp] at hone
    by_cases hk : 0 = k
    · simp [hc, hk]
    · cases s.fails <;> simp [hc, hk]
  | cons d line =>
    rw [hp] at hone
    by_cases hlast : (d :: line).getLast? = some '\n'
    · simp [hlast, List.getLast?_cons_cons]
    · by_cases hk : (d :: line).length = k
      · simp [hlast, hk, List.getLast?_cons_cons]
      · have hk' : line.length + 1 ≠ k := hk
        cases s.fails <;> simp [hlast, hk', List.getLast?_cons_cons]

theorem readlineLoop_source (rp : Rio) (hn : 1 ≤ n) :
    (Rio.readlineLoop k n rp).map (fun r => (r.1, r.2.1, r.2.2.source)) =
      rp.source.lineFrom k n := by
  induction k generalizing rp n with
  | zero => simp [Rio.readlineLoop, Source.lineFrom, piece]
  | succ k ih =>
    rw [Rio.readlineLoop]
    rcases read_source rp with ⟨hs, rp', hread⟩ | ⟨hs, hread⟩ | ⟨c, rp', hread, hs⟩
    · rw [hs, hread]
      simp [Source.lineFrom, piece]
    · rw [hs, hread]
      simp [Source.lineFrom, piece]
      rfl
    · rw [hs, hread]
      by_cases hc : c = '\n'
      · simp [hc, Source.lineFrom, piece]
      · rw [lineFrom_cons hc hn, ← ih rp' (by omega)]
        simp [hc, Option.map_map, Function.comp_def]

/-- `rio_readlineb`, seen from the stream. -/
theorem readlineb_source (rp : Rio) (usrbuf : Text) (maxlen : ℕ) :
    (rp.readlineb usrbuf maxlen).map (fun r => (r.1, r.2.1, r.2.2.source)) =
      rp.source.readLine usrbuf maxlen := by
  have hloop := readlineLoop_source (k := maxlen - 1) rp le_rfl
  have hline : (rp.source.lineFrom (maxlen - 1) 1).map
      (fun r => (r.1, if r.1 = 0 then usrbuf else r.2.1, r.2.2)) =
        rp.source.readLine usrbuf maxlen := by
    unfold Source.lineFrom Source.readLine
    cases hp : piece (maxlen - 1) rp.source.bytes with
    | nil =>
      by_cases hfull : 0 = maxlen - 1
      · simp [← hfull]
      · cases hf : rp.source.fails <;> simp [hfull]
    | cons d line =>
      by_cases hlast : (d :: line).getLast? = some '\n'
      · simp [hlast]
      · by_cases hfull : line.length + 1 = maxlen - 1
        · simp [hlast, hfull]
          omega
        · cases hf : rp.source.fails <;> simp [hlast, hfull]
          omega
  rw [← hline, ← hloop, Rio.readlineb, Option.map_map, Option.map_map]
  rfl

end

/-! ### Whole sessions -/

/-- A call of `rio_readlineb` with the contents of its buffer and its size, or of `rio_readnb`. -/
inductive ReadCall where
  | line (usrbuf : Text) (maxlen : ℕ)
  | bytes (n : ℕ)

/-- The returned number and the bytes in the caller's buffer, and what is left. -/
def Rio.call (rp : Rio) : ReadCall → Option ((ℕ × Text) × Rio)
  | .line usrbuf maxlen => (rp.readlineb usrbuf maxlen).map fun r => ((r.1, r.2.1), r.2.2)
  | .bytes n => (rp.readnb n).map fun r => ((r.1.length, r.1), r.2)

def Source.call (s : Source) : ReadCall → Option ((ℕ × Text) × Source)
  | .line usrbuf maxlen => (s.readLine usrbuf maxlen).map fun r => ((r.1, r.2.1), r.2.2)
  | .bytes n => (s.readBytes n).map fun r => ((r.1.length, r.1), r.2)

/-- The replies to a list of calls, up to the first that fails. -/
def replies {σ : Type*} (call : σ → ReadCall → Option ((ℕ × Text) × σ)) :
    σ → List ReadCall → List (Option (ℕ × Text))
  | _, [] => []
  | s, c :: cs =>
    match call s c with
    | none => [none]
    | some (reply, s) => some reply :: replies call s cs

theorem call_source (rp : Rio) (c : ReadCall) :
    (rp.call c).map (fun r => (r.1, r.2.source)) = rp.source.call c := by
  cases c with
  | line usrbuf maxlen =>
    rw [Source.call, ← readlineb_source]
    simp [Rio.call, Option.map_map, Function.comp_def]
  | bytes n =>
    rw [Source.call, ← readnbLoop_spec le_rfl]
    simp [Rio.call, Rio.readnb, Option.map_map, Function.comp_def]

/-- Whatever calls of `rio_readlineb` and `rio_readnb` follow one another, and however the bytes
arrive, the replies are those of the stream. -/
theorem replies_of_source (rp : Rio) (calls : List ReadCall) :
    replies Rio.call rp calls = replies Source.call rp.source calls := by
  induction calls generalizing rp with
  | nil => rfl
  | cons c cs ih =>
    have hcall := call_source rp c
    rw [replies, replies, ← hcall]
    cases rp.call c with
    | none => rfl
    | some r => exact congrArg _ (ih r.2)

/-- Unbuffered and buffered reading take the same bytes off the stream. -/
theorem readn_eq_readnb (answers : List ReadAnswer) (n : ℕ) :
    (readn answers n).map (fun r => (r.1, sourceOf r.2)) =
      ((Rio.init answers).readnb n).map fun r => (r.1, r.2.source) := by
  rw [readn_spec, Rio.readnb, readnbLoop_spec le_rfl]
  rfl

/-! ### Robust writing -/

/-- An answer of `write`: it takes at most this many bytes after the first, or none. After the
last answer everything is taken. -/
inductive WriteAnswer where
  | taken (more : ℕ)
  | interrupted
  | failed

/-- `rio_writen`: whether it returns the number of bytes or `-1`, the bytes that `write` has taken
and what is left of the answers. -/
def writen : List WriteAnswer → Text → Bool × Text × List WriteAnswer
  | answers, [] => (true, [], answers)
  | [], bytes => (true, bytes, [])
  | .interrupted :: answers, bytes => writen answers bytes
  | .failed :: answers, _ => (false, [], answers)
  | .taken more :: answers, b :: bytes =>
    let r := writen answers (bytes.drop more)
    (r.1, b :: bytes.take more ++ r.2.1, r.2.2)

/-- Calls of `Rio_writen` for these buffers, one after the other, up to the first that fails, where
the server exits. -/
def writeAll : List WriteAnswer → List Text → Bool × Text
  | _, [] => (true, [])
  | answers, buf :: bufs =>
    let r := writen answers buf
    if r.1 then
      let u := writeAll r.2.2 bufs
      (u.1, r.2.1 ++ u.2)
    else (false, r.2.1)

/-- `rio_writen` has written everything, or stopped before the end. -/
theorem writen_spec (answers : List WriteAnswer) (bytes : Text) :
    (writen answers bytes).2.1 <+: bytes ∧
      ((writen answers bytes).1 = true ↔ (writen answers bytes).2.1 = bytes) := by
  fun_induction writen answers bytes with
  | case1 answers => exact ⟨List.nil_prefix, by simp⟩
  | case2 bytes hne => exact ⟨List.prefix_rfl, by simp⟩
  | case3 answers bytes hne ih => exact ih
  | case4 answers bytes hne =>
    exact ⟨List.nil_prefix, by simpa using fun h => hne h⟩
  | case5 more answers b bytes r ih =>
    obtain ⟨hpre, hall⟩ := ih
    have hsplit : b :: bytes = b :: bytes.take more ++ bytes.drop more := by
      rw [List.cons_append, List.take_append_drop]
    refine ⟨?_, ?_⟩
    · rw [hsplit]
      exact (List.prefix_append_right_inj _).mpr hpre
    · rw [hall]
      conv_rhs => rw [hsplit]
      exact (List.append_right_inj _).symm

/-- However `write` takes the bytes, a client gets the buffers in a row up to some point: to the end
exactly if no call fails. -/
theorem written_in_full_or_cut (answers : List WriteAnswer) (bufs : List Text) :
    (writeAll answers bufs).2 <+: bufs.flatten ∧
      ((writeAll answers bufs).1 = true ↔ (writeAll answers bufs).2 = bufs.flatten) := by
  induction bufs generalizing answers with
  | nil => exact ⟨List.nil_prefix, by simp [writeAll]⟩
  | cons buf bufs ih =>
    obtain ⟨hpre, hall⟩ := writen_spec answers buf
    rw [writeAll, List.flatten_cons]
    cases hok : (writen answers buf).1 with
    | true =>
      have hbuf := hall.mp hok
      obtain ⟨hpre', hall'⟩ := ih (writen answers buf).2.2
      simp only [if_true, hbuf]
      exact ⟨(List.prefix_append_right_inj buf).mpr hpre', by rw [hall', List.append_right_inj]⟩
    | false =>
      have hcut : (writen answers buf).2.1 ≠ buf := fun h => by simp [hall.mpr h] at hok
      simp only [Bool.false_eq_true, if_false, false_iff]
      refine ⟨hpre.trans (List.prefix_append buf _), fun heq => hcut ?_⟩
      have hle : buf <+: (writen answers buf).2.1 := by
        rw [heq]
        exact List.prefix_append buf _
      exact List.IsPrefix.eq_of_length hpre (le_antisymm hpre.length_le hle.length_le)

end FtfSystems.WebServer
