import FtfSystems.Foundation.Occurrences
import FtfSystems.WebServer.Requests

/-!
# Responses

A static response has an empty line before its statistics, so that these are taken for the file.
In both kinds of response the seconds and the microseconds of the interval from arrival to
dispatch are subtracted without a borrow.
-/
namespace FtfSystems.WebServer
open Foundation

/-! ### Letters -/

section
variable {c : Char} {n : ℕ} {v sec usec : ℤ}

theorem not_mem_decimal (h : c.isDigit = false) : c ∉ decimal n := fun hc => by
  rw [Nat.isDigit_of_mem_toDigits (by decide) (by decide) hc] at h
  cases h

theorem not_mem_decimal6 (h : c.isDigit = false) : c ∉ decimal6 n := by
  rw [decimal6, List.leftpad, List.mem_append, not_or]
  refine ⟨fun hc => ?_, not_mem_decimal h⟩
  rw [List.eq_of_mem_replicate hc] at h
  cases h

theorem not_mem_decimalInt (h : c.isDigit = false) (hminus : c ≠ '-') : c ∉ decimalInt v := by
  rw [decimalInt]
  split_ifs
  · rw [List.mem_cons, not_or]
    exact ⟨hminus, not_mem_decimal h⟩
  · exact not_mem_decimal h

theorem not_mem_seconds (h : c.isDigit = false) (hdot : c ≠ '.') : c ∉ seconds sec usec := by
  rw [seconds, List.mem_append, List.mem_cons, not_or, not_or]
  exact ⟨not_mem_decimal h, hdot, not_mem_decimal6 h⟩

theorem not_mem_filetype (filename : Text) (h : c ∉ "text/html".toList ++ "image/gif".toList ++
    "image/jpeg".toList ++ "text/plain".toList) : c ∉ requestGetFiletype filename := by
  simp only [List.mem_append, not_or] at h
  unfold requestGetFiletype
  split_ifs
  · exact h.1.1.1
  · exact h.1.1.2
  · exact h.1.2
  · exact h.2

/-- Numbers are read back from their digits. -/
theorem ofDigitChars_decimal6 (n : ℕ) : Nat.ofDigitChars 10 (decimal6 n) 0 = n := by
  rw [decimal6, List.leftpad, Nat.ofDigitChars_append, Nat.ofDigitChars_replicate_zero,
    Nat.mul_zero, decimal, Nat.ofDigitChars_ten_toDigits]

end

/-! ### The interval from arrival to dispatch -/

/-- A time as `gettimeofday` gives it. -/
structure Timeval.Valid (t : Timeval) : Prop where
  sec_nonneg : 0 ≤ t.tvSec
  sec_lt : t.tvSec < 2 ^ 63
  usec_nonneg : 0 ≤ t.tvUsec
  usec_lt : t.tvUsec < 10 ^ 6

def Timeval.micros (t : Timeval) : ℤ := t.tvSec * 10 ^ 6 + t.tvUsec

/-- The line `Stat-Req-Dispatch` of a response reads `s` and `u`. -/
def PrintsDispatch (out : Text) (s u : ℕ) : Prop :=
  ∃ before after, FirstAt StatName.dispatch.text before
    (decimal s ++ '.' :: (decimal6 u ++ '\r' :: after)) out

/-- It gives this number of microseconds. -/
def PrintsElapsed (out : Text) (elapsed : ℤ) : Prop :=
  ∃ s u : ℕ, PrintsDispatch out s u ∧ u < 10 ^ 6 ∧ (s : ℤ) * 10 ^ 6 + u = elapsed

section
variable {out before after : Text} {s u s' u' : ℕ} {st : StatThread} {time now : Timeval}
  {elapsed : ℤ}

theorem PrintsDispatch.unique (h : PrintsDispatch out s u) (h' : PrintsDispatch out s' u') :
    s = s' ∧ u = u' := by
  obtain ⟨before, after, hfirst⟩ := h
  obtain ⟨before', after', hfirst'⟩ := h'
  obtain ⟨-, heq⟩ := hfirst.unique hfirst'
  obtain ⟨hs, heq⟩ := append_cons_inj (not_mem_decimal rfl) (not_mem_decimal rfl) heq
  obtain ⟨hu, -⟩ := append_cons_inj (not_mem_decimal6 rfl) (not_mem_decimal6 rfl) heq
  have hs' := congrArg (Nat.ofDigitChars 10 · 0) hs
  have hu' := congrArg (Nat.ofDigitChars 10 · 0) hu
  simp only [decimal, Nat.ofDigitChars_ten_toDigits] at hs'
  simp only [ofDigitChars_decimal6] at hu'
  exact ⟨hs', hu'⟩

/-- A response with the statistics after a text without the letter `D`. -/
theorem printsDispatch_statLines (st : StatThread) (time now : Timeval) (hD : 'D' ∉ before)
    (after : Text) :
    PrintsDispatch (before ++ statLines st time now ++ after)
      (toUnsigned (now.tvSec - time.tvSec)) (toUnsigned (now.tvUsec - time.tvUsec)) := by
  have hname : StatName.dispatch.text = "Stat-Req-".toList ++ 'D' :: "ispatch:: ".toList := by decide
  have hbefore : 'D' ∉ before ++ (StatName.arrival.text ++ seconds time.tvSec time.tvUsec ++ crlf) := by
    simp only [List.mem_append, not_or]
    exact ⟨hD, ⟨by decide, not_mem_seconds rfl (by decide)⟩, by decide⟩
  have hfirst := FirstAt.of_letter (q := "ispatch:: ".toList) (b := after) hbefore
    (by decide : 'D' ∉ "Stat-Req-".toList)
  rw [← hname] at hfirst
  refine ⟨_, '\n' :: threadLines st ++ after, ?_, hfirst.first⟩
  simp only [statLines, seconds, crlf, List.append_assoc, List.cons_append, List.nil_append]

theorem requestServeDynamic_prints (st : StatThread) (time now : Timeval) :
    PrintsDispatch (requestServeDynamic st time now)
      (toUnsigned (now.tvSec - time.tvSec)) (toUnsigned (now.tvUsec - time.tvUsec)) := by
  have hD : 'D' ∉ statusLine ++ serverLine := by decide
  rw [requestServeDynamic, ← List.append_nil (_ ++ statLines st time now)]
  exact printsDispatch_statLines st time now hD []

theorem printsElapsed_iff (h : PrintsDispatch out s u) :
    PrintsElapsed out elapsed ↔ u < 10 ^ 6 ∧ (s : ℤ) * 10 ^ 6 + u = elapsed := by
  constructor
  · rintro ⟨s', u', h', hu, hs⟩
    obtain ⟨rfl, rfl⟩ := h.unique h'
    exact ⟨hu, hs⟩
  · rintro ⟨hu, hs⟩
    exact ⟨s, u, h, hu, hs⟩

/-- The fields are right if the subtraction of the microseconds does not borrow. -/
theorem unsigned_fields_iff (ht : time.Valid) (hn : now.Valid) (hle : time.micros ≤ now.micros) :
    (toUnsigned (now.tvUsec - time.tvUsec) < 10 ^ 6 ∧
      (toUnsigned (now.tvSec - time.tvSec) : ℤ) * 10 ^ 6 + toUnsigned (now.tvUsec - time.tvUsec) =
        now.micros - time.micros) ↔ time.tvUsec ≤ now.tvUsec := by
  obtain ⟨hs0, hs1, hu0, hu1⟩ := ht
  obtain ⟨hs0', hs1', hu0', hu1'⟩ := hn
  simp only [Timeval.micros] at hle ⊢
  constructor
  · rintro ⟨hu, -⟩
    by_contra hlt
    push Not at hlt
    simp only [toUnsigned] at hu
    omega
  · intro husec
    have hsec : 0 ≤ now.tvSec - time.tvSec := by omega
    have h1 : (toUnsigned (now.tvSec - time.tvSec) : ℤ) = now.tvSec - time.tvSec := by
      simp only [toUnsigned]
      omega
    have h2 : (toUnsigned (now.tvUsec - time.tvUsec) : ℤ) = now.tvUsec - time.tvUsec := by
      simp only [toUnsigned]
      omega
    omega

end

/-- What a static response begins with, up to its first empty line. -/
def staticTop (filename : Text) (filesize : ℤ) : Text :=
  statusLine ++ serverLine ++ (contentLength ++ decimalInt filesize ++ crlf) ++
    (contentType ++ requestGetFiletype filename)

section
variable {filename file out : Text} {filesize : ℤ} {st : StatThread} {time now : Timeval}

theorem requestServeStatic_eq_some
    (h : requestServeStatic filename filesize file st time now = some out) :
    out = staticTop filename filesize ++ (crlf ++ crlf) ++
      (statLines st time now ++ file.take filesize.toNat) := by
  rw [requestServeStatic, Option.ite_none_left_eq_some] at h
  rw [← Option.some.inj h.2]
  simp only [staticTop, List.append_assoc]

theorem not_mem_staticTop {c : Char} (hdigit : c.isDigit = false) (hminus : c ≠ '-')
    (h : c ∉ statusLine ++ serverLine ++ contentLength ++ crlf ++ contentType)
    (htype : c ∉ "text/html".toList ++ "image/gif".toList ++ "image/jpeg".toList ++
      "text/plain".toList) : c ∉ staticTop filename filesize := by
  simp only [List.mem_append, not_or] at h
  obtain ⟨⟨⟨⟨hstatus, hserver⟩, hlength⟩, hcrlf⟩, hcontent⟩ := h
  simp only [staticTop, List.mem_append, not_or]
  exact ⟨⟨⟨hstatus, hserver⟩, ⟨hlength, not_mem_decimalInt hdigit hminus⟩, hcrlf⟩, hcontent,
    not_mem_filetype filename htype⟩

/-- Both kinds of response print the interval from arrival to dispatch exactly when the
microseconds of the dispatch are not below those of the arrival. -/
theorem dispatch_interval_iff (ht : time.Valid) (hn : now.Valid) (hle : time.micros ≤ now.micros)
    (st : StatThread) :
    (PrintsElapsed (requestServeDynamic st time now) (now.micros - time.micros) ↔
      time.tvUsec ≤ now.tvUsec) ∧
    ∀ filename filesize file out,
      requestServeStatic filename filesize file st time now = some out →
      (PrintsElapsed out (now.micros - time.micros) ↔ time.tvUsec ≤ now.tvUsec) := by
  refine ⟨?_, fun filename filesize file out hout => ?_⟩
  · have hprints := requestServeDynamic_prints st time now
    exact (printsElapsed_iff hprints).trans (unsigned_fields_iff ht hn hle)
  · have hD : 'D' ∉ staticTop filename filesize ++ (crlf ++ crlf) := by
      rw [List.mem_append, not_or]
      exact ⟨not_mem_staticTop rfl (by decide) (by decide) (by decide), by decide⟩
    have hprints := printsDispatch_statLines st time now hD (file.take filesize.toNat)
    rw [List.append_assoc, ← requestServeStatic_eq_some hout] at hprints
    exact (printsElapsed_iff hprints).trans (unsigned_fields_iff ht hn hle)

end

theorem dispatch_interval_iff_no_borrow :
    (⟨10, 5⟩ : Timeval).Valid ∧ (⟨12, 7⟩ : Timeval).Valid ∧
      PrintsElapsed (requestServeDynamic ⟨0, 0, 0, 1⟩ ⟨10, 5⟩ ⟨12, 7⟩) 2000002 := by
  have ht : (⟨10, 5⟩ : Timeval).Valid := ⟨by decide, by decide, by decide, by decide⟩
  have hn : (⟨12, 7⟩ : Timeval).Valid := ⟨by decide, by decide, by decide, by decide⟩
  exact ⟨ht, hn, (dispatch_interval_iff ht hn (by decide) _).1.mpr (by decide)⟩

/-- Two microseconds that cross a full second. -/
theorem dispatch_interval_borrow :
    requestServeDynamic ⟨0, 0, 0, 1⟩ ⟨10, 999999⟩ ⟨11, 1⟩ =
      statusLine ++ serverLine ++ (StatName.arrival.text ++ "10.999999".toList ++ crlf) ++
        (StatName.dispatch.text ++ "1.18446744073708551618".toList ++ crlf) ++
        threadLines ⟨0, 0, 0, 1⟩ ∧
    ¬ PrintsElapsed (requestServeDynamic ⟨0, 0, 0, 1⟩ ⟨10, 999999⟩ ⟨11, 1⟩) 2 := by
  have hprints := requestServeDynamic_prints ⟨0, 0, 0, 1⟩ ⟨10, 999999⟩ ⟨11, 1⟩
  have harrival : seconds 10 999999 = "10.999999".toList := by decide
  have hdispatch : seconds (11 - 10) (1 - 999999) = "1.18446744073708551618".toList := by decide
  refine ⟨?_, fun helapsed => ?_⟩
  · simp only [requestServeDynamic, statLines, harrival, hdispatch, List.append_assoc]
  · have hfields := (printsElapsed_iff hprints).mp helapsed
    exact absurd hfields.1 (by decide)

/-! ### Frames of static responses -/

/-- The response splits at its first empty line into a header with all statistics and the length,
and the file. -/
def WellFramed (out file : Text) : Prop :=
  ∃ header, FirstAt (crlf ++ crlf) header file out ∧
    (∀ name : StatName, crlf ++ name.text <:+: header) ∧
    crlf ++ contentLength ++ decimal file.length ++ crlf <:+: header ++ crlf

section
variable {filename file out : Text} {filesize : ℤ} {st : StatThread} {time now : Timeval}

/-- The header ends before the statistics. -/
theorem header_le_staticTop {header body : Text}
    (h : requestServeStatic filename filesize file st time now = some out)
    (hfirst : FirstAt (crlf ++ crlf) header body out) : header <+: staticTop filename filesize := by
  have hout := requestServeStatic_eq_some h
  have hlen := hfirst.length_le hout
  have hheader : header <+: out := ⟨(crlf ++ crlf) ++ body, by
    rw [hfirst.eq, List.append_assoc header]⟩
  have htop : staticTop filename filesize <+: out := by
    rw [hout, List.append_assoc (staticTop _ _)]
    exact List.prefix_append _ _
  exact List.prefix_of_prefix_length_le hheader htop hlen

theorem not_wellFramed (h : requestServeStatic filename filesize file st time now = some out) :
    ¬ WellFramed out file := by
  rintro ⟨header, hfirst, hstats, -⟩
  have hq : 'q' ∈ header := (hstats .arrival).subset (by decide)
  have hnot : 'q' ∉ staticTop filename filesize :=
    not_mem_staticTop rfl (by decide) (by decide) (by decide)
  exact hnot ((header_le_staticTop h hfirst).subset hq)

end

/-- No static response is well framed. -/
theorem static_response_never_framed (filename : Text) (filesize : ℤ) (file : Text)
    (st : StatThread) (time now : Timeval) :
    ¬ ∃ out, requestServeStatic filename filesize file st time now = some out ∧
      WellFramed out file := by
  rintro ⟨out, hout, hframed⟩
  exact not_wellFramed hout hframed

/-- A file of two bytes comes after the statistics in the body of its response. -/
theorem static_response_two_bytes : ∃ out,
    requestServeStatic "./public/a.txt".toList 2 "hi".toList ⟨0, 0, 1, 1⟩ ⟨10, 5⟩ ⟨10, 7⟩ =
      some out ∧
    out = statusLine ++ serverLine ++ (contentLength ++ "2".toList ++ crlf) ++
      (contentType ++ "text/plain".toList ++ crlf ++ crlf) ++
      (StatName.arrival.text ++ "10.000005".toList ++ crlf) ++
      (StatName.dispatch.text ++ "0.000002".toList ++ crlf) ++
      threadLines ⟨0, 0, 1, 1⟩ ++ "hi".toList ∧
    ¬ WellFramed out "hi".toList := by
  have hserve : requestServeStatic "./public/a.txt".toList 2 "hi".toList ⟨0, 0, 1, 1⟩ ⟨10, 5⟩
      ⟨10, 7⟩ = some _ := if_neg (by decide)
  have hsize : decimalInt 2 = "2".toList := by decide
  have htype : requestGetFiletype "./public/a.txt".toList = "text/plain".toList := by decide
  have harrival : seconds 10 5 = "10.000005".toList := by decide
  have hdispatch : seconds (10 - 10) (7 - 5) = "0.000002".toList := by decide
  have hfile : "hi".toList.take (2 : ℤ).toNat = "hi".toList := by decide
  refine ⟨_, hserve, ?_, not_wellFramed hserve⟩
  simp only [hsize, htype, statLines, harrival, hdispatch, hfile, List.append_assoc]

end FtfSystems.WebServer
