import Mathlib.Data.List.DropRight
import Mathlib.Tactic

/-!
# Buffered reading: `rio_read` and `rio_readlineb` of `helper.c`

A character stands for a byte. What `read` will answer is part of the state of the reader.
`rio_readlineb` cuts the stream into lines, and a line that does not fit into pieces.
-/
namespace FtfSystems.WebServer

/-- Bytes. -/
abbrev Text := List Char

/-- `MAXLINE`. -/
def maxLine : ℕ := 8192

/-- The C string at the start of a buffer. -/
def cString (buf : Text) : Text := buf.takeWhile (· ≠ '\x00')

/-- An answer of `read` before the end of the stream. -/
inductive ReadAnswer where
  | data (c : Char) (bytes : Text)
  | interrupted
  | failed

def ReadAnswer.bytes : ReadAnswer → Text
  | .data c bytes => c :: bytes
  | .interrupted | .failed => []

/-- `rio_t`: the bytes not yet taken out of `rio_buf`, and what `read` will answer. After the
last answer it is at the end of the stream. -/
structure Rio where
  buf : Text
  answers : List ReadAnswer

/-- What `rio_read` returns for one byte. -/
inductive RioRead where
  | byte (c : Char)
  | eof
  | error

namespace Rio

/-- `rio_readinitb`. -/
def init (answers : List ReadAnswer) : Rio := ⟨[], answers⟩

/-- `rio_read` with nothing in the buffer. -/
def refill : List ReadAnswer → RioRead × Rio
  | [] => (.eof, ⟨[], []⟩)
  | .interrupted :: answers => refill answers
  | .failed :: answers => (.error, ⟨[], answers⟩)
  | .data c bytes :: answers => (.byte c, ⟨bytes, answers⟩)

/-- `rio_read` of one byte. -/
def read (rp : Rio) : RioRead × Rio :=
  match rp.buf with
  | [] => refill rp.answers
  | c :: buf => (.byte c, { rp with buf := buf })

/-- The loop of `rio_readlineb` from `n` on, with `k` rounds left: the returned number, the bytes
stored and the reader. -/
def readlineLoop : ℕ → ℕ → Rio → Option (ℕ × Text × Rio)
  | 0, n, rp => some (n, [], rp)
  | k + 1, n, rp =>
    match rp.read with
    | (.byte c, rp) =>
      if c = '\n' then some (n, [c], rp)
      else (readlineLoop k (n + 1) rp).map fun r => (r.1, c :: r.2.1, r.2.2)
    | (.eof, rp) => some (if n = 1 then 0 else n, [], rp)
    | (.error, _) => none

/-- `rio_readlineb`: the returned number, the buffer up to the final 0, and the reader. At the end
of the stream the buffer stays as it is. There is no result for `-1`, where `Rio_readlineb` exits. -/
def readlineb (rp : Rio) (usrbuf : Text) (maxlen : ℕ) : Option (ℕ × Text × Rio) :=
  (readlineLoop (maxlen - 1) 1 rp).map fun r => (r.1, if r.1 = 0 then usrbuf else r.2.1, r.2.2)

/-- The reader has this stream before it, and no error. -/
structure Delivers (rp : Rio) (stream : Text) : Prop where
  noError : .failed ∉ rp.answers
  eq : rp.buf ++ rp.answers.flatMap ReadAnswer.bytes = stream

end Rio

/-- The bytes up to the first line feed, `k` at most. -/
def piece : ℕ → Text → Text
  | 0, _ => []
  | _ + 1, [] => []
  | k + 1, c :: stream => if c = '\n' then [c] else c :: piece k stream

section
variable {k : ℕ} {stream : Text}

theorem piece_eq_nil : piece (k + 1) stream = [] ↔ stream = [] := by
  cases stream with
  | nil => simp [piece]
  | cons c stream =>
    rw [piece]
    split_ifs <;> simp

theorem length_piece_le (k : ℕ) (stream : Text) : (piece k stream).length ≤ k := by
  induction k generalizing stream with
  | zero => rfl
  | succ k ih =>
    cases stream with
    | nil => simp [piece]
    | cons c stream =>
      rw [piece]
      split_ifs
      · simp
      · simpa using ih stream

end

namespace Rio
variable {rp : Rio} {stream : Text} {k n maxlen : ℕ}

theorem refill_spec {answers : List ReadAnswer} (hno : .failed ∉ answers)
    (h : answers.flatMap ReadAnswer.bytes = stream) :
    (stream = [] ∧ refill answers = (.eof, ⟨[], []⟩)) ∨
      ∃ c rest rp, stream = c :: rest ∧ refill answers = (.byte c, rp) ∧ rp.Delivers rest := by
  induction answers with
  | nil => exact .inl ⟨h.symm, rfl⟩
  | cons answer answers ih =>
    rw [List.mem_cons, not_or] at hno
    cases answer with
    | data c bytes =>
      refine .inr ⟨c, _, ⟨bytes, answers⟩, h.symm, rfl, hno.2, rfl⟩
    | interrupted => exact ih hno.2 h
    | failed => exact absurd rfl hno.1

/-- `rio_read` takes the first byte of the stream. -/
theorem read_spec (h : rp.Delivers stream) :
    (stream = [] ∧ rp.read = (.eof, ⟨[], []⟩)) ∨
      ∃ c rest rp', stream = c :: rest ∧ rp.read = (.byte c, rp') ∧ rp'.Delivers rest := by
  obtain ⟨hno, heq⟩ := h
  rw [read]
  cases hbuf : rp.buf with
  | nil =>
    rw [hbuf] at heq
    exact refill_spec hno heq
  | cons c buf =>
    rw [hbuf] at heq
    exact .inr ⟨c, _, { rp with buf := buf }, heq.symm, rfl, hno, rfl⟩

theorem readlineLoop_spec (h : rp.Delivers stream) (hn : 1 ≤ n) :
    ∃ rc rp' rest, readlineLoop k n rp = some (rc, piece k stream, rp') ∧ rp'.Delivers rest ∧
      stream = piece k stream ++ rest ∧ (rc = 0 ↔ k ≠ 0 ∧ n = 1 ∧ stream = []) := by
  induction k generalizing rp stream n with
  | zero => exact ⟨n, rp, stream, rfl, h, rfl, by omega⟩
  | succ k ih =>
    rw [readlineLoop]
    obtain ⟨rfl, hread⟩ | ⟨c, rest, rp', rfl, hread, hdel⟩ := read_spec h
    · rw [hread]
      refine ⟨_, _, [], rfl, ⟨by simp, rfl⟩, rfl, ?_⟩
      split_ifs with h1
      · simp [h1]
      · simp only [h1, false_and, and_false, iff_false]
        omega
    · rw [hread]
      dsimp only
      by_cases hc : c = '\n'
      · refine ⟨n, rp', rest, ?_, hdel, ?_, ?_⟩
        · rw [if_pos hc, piece, if_pos hc]
        · rw [piece, if_pos hc]
          rfl
        · simp only [reduceCtorEq, and_false, iff_false]
          omega
      · obtain ⟨rc, rp'', rest', hloop, hdel', hrest, hrc⟩ := ih hdel (n := n + 1) (by omega)
        refine ⟨rc, rp'', rest', ?_, hdel', ?_, ?_⟩
        · rw [if_neg hc, hloop, piece, if_neg hc]
          rfl
        · rw [piece, if_neg hc, List.cons_append, ← hrest]
        · simp only [reduceCtorEq, and_false, iff_false, hrc]
          omega

/-- A line or a piece of one is read into the buffer, unless the stream is at its end. -/
theorem readlineb_spec (h : rp.Delivers stream) (usrbuf : Text) (hmax : 1 < maxlen) :
    ∃ rc rp' rest, rp.readlineb usrbuf maxlen =
        some (rc, if stream = [] then usrbuf else piece (maxlen - 1) stream, rp') ∧
      rp'.Delivers rest ∧ stream = piece (maxlen - 1) stream ++ rest := by
  obtain ⟨rc, rp', rest, hloop, hdel, hrest, hrc⟩ :=
    readlineLoop_spec (k := maxlen - 1) (n := 1) h le_rfl
  refine ⟨rc, rp', rest, ?_, hdel, hrest⟩
  have hk : maxlen - 1 ≠ 0 := by omega
  simp only [hk, ne_eq, not_false_eq_true, true_and] at hrc
  rw [readlineb, hloop]
  simp only [Option.map_some, hrc]

end Rio
end FtfSystems.WebServer
