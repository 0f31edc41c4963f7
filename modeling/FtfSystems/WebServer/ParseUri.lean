import FtfSystems.Foundation.Occurrences
import FtfSystems.WebServer.Requests

/-!
# `requestParseURI`

The file name stays below `./public/`: the two texts that are joined meet at a slash, so that no
`..` comes from the join, and none from a cut.
-/
namespace FtfSystems.WebServer
open Foundation

variable {uri path args cgiargs : Text}

theorem not_dots_home : ¬ dots <:+: publicDir ++ homePage := by decide

/-- No `..` lies across a slash. -/
theorem dots_append_slash_iff {a b : Text} :
    dots <:+: a ++ '/' :: b ↔ dots <:+: a ∨ dots <:+: b :=
  infix_append_cons_iff (by decide)

theorem dots_public_append (path : Text) :
    dots <:+: publicDir ++ path ↔ dots <:+: path := by
  have hjoin : publicDir = "./public".toList ++ ['/'] := by decide
  have hpublic : ¬ dots <:+: "./public".toList := by decide
  rw [hjoin, List.append_assoc, List.singleton_append, dots_append_slash_iff]
  exact or_iff_right hpublic

/-- A name that ends in a slash can be extended. -/
theorem not_dots_append_home (h : ¬ dots <:+: uri) (hslash : uri.getLast? = some '/') :
    ¬ dots <:+: uri ++ homePage := by
  obtain ⟨dir, rfl⟩ := List.getLast?_eq_some_iff.mp hslash
  have hhome : ¬ dots <:+: homePage := by decide
  rw [List.append_assoc, List.singleton_append, dots_append_slash_iff, not_or]
  exact ⟨fun hd => h (List.infix_append_of_infix_left hd), hhome⟩

theorem ne_question (h : '?' ∉ path) : ∀ c ∈ path, decide (c ≠ '?') = true := by
  intro c hc
  rw [decide_eq_true_eq]
  rintro rfl
  exact h hc

theorem takeWhile_question (h : '?' ∉ path) :
    (path ++ '?' :: args).takeWhile (· ≠ '?') = path := by
  rw [List.takeWhile_append_of_pos (ne_question h)]
  simp

theorem dropWhile_question (h : '?' ∉ path) :
    (path ++ '?' :: args).dropWhile (· ≠ '?') = '?' :: args := by
  rw [List.dropWhile_append_of_pos (ne_question h)]
  simp

theorem parse_dots (h : dots <:+: uri) :
    requestParseURI uri cgiargs = some ⟨true, publicDir ++ homePage, cgiargs⟩ := by
  rw [requestParseURI, if_pos h]

theorem parse_static (hdots : ¬ dots <:+: uri) (hcgi : ¬ cgi <:+: uri)
    (hne : uri ≠ []) : requestParseURI uri cgiargs =
      some ⟨true, publicDir ++ uri ++
        (if uri.getLast? = some '/' then homePage else []), []⟩ := by
  rw [requestParseURI, if_neg hdots, if_pos hcgi, List.getLast?_eq_some_getLast hne]
  by_cases hslash : uri.getLast hne = '/'
  · simp [hslash]
  · simp [hslash]

theorem parse_dynamic (hdots : ¬ dots <:+: uri) (hcgi : cgi <:+: uri) :
    requestParseURI uri cgiargs = some ⟨false, publicDir ++ uri.takeWhile (· ≠ '?'),
      (uri.dropWhile (· ≠ '?')).tail⟩ := by
  rw [requestParseURI, if_neg hdots, if_neg (not_not.mpr hcgi)]

/-- What a parsed `uri` is: a file below `./public/`, and for a program its arguments. -/
structure ParsedURI.Splits (parsed : ParsedURI) (uri : Text) : Prop where
  below : publicDir <+: parsed.filename
  noDots : ¬ dots <:+: parsed.filename
  dynamic_iff : parsed.isStatic = false ↔ cgi <:+: uri ∧ ¬ dots <:+: uri
  cut : parsed.isStatic = false → ∀ path args, uri = path ++ '?' :: args → '?' ∉ path →
    parsed.filename = publicDir ++ path ∧ parsed.cgiargs = args
  uncut : parsed.isStatic = false → '?' ∉ uri →
    parsed.filename = publicDir ++ uri ∧ parsed.cgiargs = []
  static : parsed.isStatic = true → ¬ dots <:+: uri →
    parsed.filename = publicDir ++ uri ++
      (if ['/'] <:+ uri then homePage else []) ∧ parsed.cgiargs = []

theorem splits_dots (h : dots <:+: uri) :
    ParsedURI.Splits ⟨true, publicDir ++ homePage, cgiargs⟩ uri where
  below := List.prefix_append _ _
  noDots := not_dots_home
  dynamic_iff := by simp only [Bool.true_eq_false, false_iff, not_and, not_not]; exact fun _ => h
  cut := by simp
  uncut := by simp
  static _ hno := absurd h hno

theorem splits_static (hdots : ¬ dots <:+: uri) (hcgi : ¬ cgi <:+: uri) :
    ParsedURI.Splits ⟨true, publicDir ++ uri ++
      (if uri.getLast? = some '/' then homePage else []), []⟩ uri where
  below := ⟨_, by rw [List.append_assoc]⟩
  noDots := by
    rw [List.append_assoc, dots_public_append]
    split_ifs with hslash
    · exact not_dots_append_home hdots hslash
    · rwa [List.append_nil]
  dynamic_iff := by simp only [Bool.true_eq_false, false_iff, not_and]; exact fun h => absurd h hcgi
  cut := by simp
  uncut := by simp
  static _ _ := by
    have hiff : uri.getLast? = some '/' ↔ ['/'] <:+ uri := by
      rw [List.getLast?_eq_some_iff]
      exact ⟨fun h => h.imp fun _ => Eq.symm, fun h => h.imp fun _ => Eq.symm⟩
    simp only [hiff, and_self]

theorem splits_dynamic (hdots : ¬ dots <:+: uri) (hcgi : cgi <:+: uri) :
    ParsedURI.Splits ⟨false, publicDir ++ uri.takeWhile (· ≠ '?'),
      (uri.dropWhile (· ≠ '?')).tail⟩ uri where
  below := ⟨_, rfl⟩
  noDots := by
    rw [dots_public_append]
    exact fun h => hdots (h.trans (List.takeWhile_prefix _).isInfix)
  dynamic_iff := by simp only [true_iff]; exact ⟨hcgi, hdots⟩
  cut _ path args huri hpath := by
    rw [huri, takeWhile_question hpath, dropWhile_question hpath]
    exact ⟨rfl, rfl⟩
  uncut _ hno := by
    rw [List.takeWhile_eq_self_iff.mpr (ne_question hno),
      List.dropWhile_eq_nil_iff.mpr (ne_question hno)]
    exact ⟨rfl, rfl⟩
  static := by simp

/-- Every `uri` that is not empty is parsed: the file lies below `./public/`, without `..`, and
the parts are exact. -/
theorem parse_uri_splits (uri cgiargs : Text) (hne : uri ≠ []) :
    ∃ parsed, requestParseURI uri cgiargs = some parsed ∧ parsed.Splits uri := by
  by_cases hdots : dots <:+: uri
  · exact ⟨_, parse_dots hdots, splits_dots hdots⟩
  by_cases hcgi : cgi <:+: uri
  · exact ⟨_, parse_dynamic hdots hcgi, splits_dynamic hdots hcgi⟩
  · exact ⟨_, parse_static hdots hcgi hne, splits_static hdots hcgi⟩

theorem parse_uri_splits_cgi : ∃ parsed,
    requestParseURI "/output.cgi?1".toList [] = some parsed ∧ parsed.isStatic = false ∧
      parsed.Splits "/output.cgi?1".toList := by
  obtain ⟨parsed, hparse, hsplits⟩ := parse_uri_splits "/output.cgi?1".toList [] (by decide)
  exact ⟨parsed, hparse, hsplits.dynamic_iff.mpr (by decide), hsplits⟩

end FtfSystems.WebServer
