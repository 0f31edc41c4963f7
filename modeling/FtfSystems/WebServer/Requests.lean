import FtfSystems.Foundation.Words
import FtfSystems.WebServer.Rio

/-!
# Requests: `request.c`

The texts that a request leads to. Every `sprintf` that begins with the buffer it writes to is an
append. What a buffer holds is not cut to its size; the strings that are built are collected with
the sizes of their buffers. What the server prints on its own terminal is left out.
-/
namespace FtfSystems.WebServer

/-- `MAXBUF`. -/
def maxBuf : ℕ := 8192

/-- `isspace`. -/
def isspace (c : Char) : Bool := c = ' ' ∨ 9 ≤ c.toNat ∧ c.toNat ≤ 13

def crlf : Text := ['\r', '\n']

/-! ### Numbers -/

/-- `%lu` of a `long`. -/
def toUnsigned (v : ℤ) : ℕ := (v % 2 ^ 64).toNat

/-- A `long` passed as an `int`. -/
def toInt (v : ℤ) : ℤ := (v + 2 ^ 31) % 2 ^ 32 - 2 ^ 31

/-- `%lu` and, for numbers that are not negative, `%d`. -/
def decimal (n : ℕ) : Text := Nat.toDigits 10 n

/-- `%06lu`. -/
def decimal6 (n : ℕ) : Text := (decimal n).leftpad 6 '0'

/-- `%d`. -/
def decimalInt (v : ℤ) : Text := if v < 0 then '-' :: decimal v.natAbs else decimal v.natAbs

/-! ### Headers -/

/-- Where `requestReadhdrs` is. -/
inductive Headers where
  | reading (buf : Text) (rp : Rio)
  | returned (rp : Rio)
  | exited

/-- One call of `Rio_readlineb` and the comparison after it. -/
def Headers.next : Headers → Headers
  | .reading buf rp =>
    match rp.readlineb buf maxLine with
    | none => .exited
    | some r => if cString r.2.1 = crlf then .returned r.2.2 else .reading r.2.1 r.2.2
  | headers => headers

/-- `requestReadhdrs` after a number of calls of `Rio_readlineb`; `buf` is what the array holds at
first. -/
def requestReadhdrs (calls : ℕ) (buf : Text) (rp : Rio) : Headers :=
  Headers.next^[calls] (.reading buf rp)

/-! ### Names of files -/

def publicDir : Text := "./public/".toList
def homePage : Text := "home.html".toList
def dots : Text := "..".toList
def cgi : Text := "cgi".toList

/-- What `requestParseURI` returns and stores. -/
structure ParsedURI where
  isStatic : Bool
  filename : Text
  cgiargs : Text
  deriving DecidableEq

/-- `requestParseURI`; `cgiargs` is what the array holds before. There is no result for an empty
`uri`, whose last character does not exist. -/
def requestParseURI (uri cgiargs : Text) : Option ParsedURI :=
  if dots <:+: uri then some ⟨true, publicDir ++ homePage, cgiargs⟩
  else if ¬ cgi <:+: uri then
    let filename := publicDir ++ uri
    uri.getLast?.map fun last =>
      ⟨true, if last = '/' then filename ++ homePage else filename, []⟩
  else
    some ⟨false, publicDir ++ uri.takeWhile (· ≠ '?'), (uri.dropWhile (· ≠ '?')).tail⟩

/-- `requestGetFiletype`. -/
def requestGetFiletype (filename : Text) : Text :=
  if ".html".toList <:+: filename then "text/html".toList
  else if ".gif".toList <:+: filename then "image/gif".toList
  else if ".jpg".toList <:+: filename then "image/jpeg".toList
  else "text/plain".toList

/-! ### Responses -/

/-- A string that `sprintf`, `strcpy` or `strcat` leaves in an array of this size. -/
structure Built where
  size : ℕ
  text : Text

/-- The string and the 0 after it have room. -/
def Built.Fits (built : Built) : Prop := built.text.length + 1 ≤ built.size

/-- `requestError`: the strings it builds and what it writes to the client. -/
def requestError (cause errnum shortmsg longmsg : Text) : List Built × Text :=
  let body₁ := "<html><title>OS-HW3 Error</title>".toList
  let body₂ := body₁ ++ "<body bgcolor=fffff>\r\n".toList
  let body₃ := body₂ ++ errnum ++ ": ".toList ++ shortmsg ++ crlf
  let body₄ := body₃ ++ "<p>".toList ++ longmsg ++ ": ".toList ++ cause ++ crlf
  let body₅ := body₄ ++ "<hr>OS-HW3 Web Server\r\n".toList
  let buf₁ := "HTTP/1.0 ".toList ++ errnum ++ " ".toList ++ shortmsg ++ crlf
  let buf₂ := "Content-Type: text/html\r\n".toList
  let buf₃ := "Content-Length: ".toList ++ decimal body₅.length ++ crlf ++ crlf
  ([body₁, body₂, body₃, body₄, body₅].map (⟨maxBuf, ·⟩) ++
    [buf₁, buf₂, buf₃].map (⟨maxLine, ·⟩), buf₁ ++ buf₂ ++ buf₃ ++ body₅)

/-- `struct timeval`. -/
structure Timeval where
  tvSec : ℤ
  tvUsec : ℤ

/-- `stat_thread`. -/
structure StatThread where
  threadId : ℤ
  dynamCount : ℤ
  staticCount : ℤ
  totReqCount : ℤ

/-- The name of a statistic, as it stands in a response. -/
inductive StatName where
  | arrival
  | dispatch
  | threadId
  | threadCount
  | threadStatic
  | threadDynamic

def StatName.text : StatName → Text
  | arrival => "Stat-Req-Arrival:: ".toList
  | dispatch => "Stat-Req-Dispatch:: ".toList
  | threadId => "Stat-Thread-Id:: ".toList
  | threadCount => "Stat-Thread-Count:: ".toList
  | threadStatic => "Stat-Thread-Static:: ".toList
  | threadDynamic => "Stat-Thread-Dynamic:: ".toList

/-- `%lu.%06lu`. -/
def seconds (sec usec : ℤ) : Text := decimal (toUnsigned sec) ++ '.' :: decimal6 (toUnsigned usec)

def threadLines (st : StatThread) : Text :=
  (StatName.threadId.text ++ decimalInt st.threadId ++ crlf) ++
  (StatName.threadCount.text ++ decimalInt st.totReqCount ++ crlf) ++
  (StatName.threadStatic.text ++ decimalInt st.staticCount ++ crlf) ++
  (StatName.threadDynamic.text ++ decimalInt st.dynamCount ++ crlf ++ crlf)

/-- The lines that both kinds of response print alike; `time` is the arrival, `now` the answer of
`gettimeofday`. -/
def statLines (st : StatThread) (time now : Timeval) : Text :=
  (StatName.arrival.text ++ seconds time.tvSec time.tvUsec ++ crlf) ++
  (StatName.dispatch.text ++
    seconds (now.tvSec - time.tvSec) (now.tvUsec - time.tvUsec) ++ crlf) ++
  threadLines st

def statusLine : Text := "HTTP/1.0 200 OK\r\n".toList
def serverLine : Text := "Server: OS-HW3 Web Server\r\n".toList
def contentLength : Text := "Content-Length: ".toList
def contentType : Text := "Content-Type: ".toList

/-- What `requestServeDynamic` writes before it forks. -/
def requestServeDynamic (st : StatThread) (time now : Timeval) : Text :=
  statusLine ++ serverLine ++ statLines st time now

/-- What `requestServeStatic` writes, for a file with these bytes. `mmap` refuses a length of 0
and, as a `size_t`, a negative one, and the server exits. -/
def requestServeStatic (filename : Text) (filesize : ℤ) (file : Text) (st : StatThread)
    (time now : Timeval) : Option Text :=
  if filesize ≤ 0 then none
  else some
    (statusLine ++ serverLine ++
      (contentLength ++ decimalInt filesize ++ crlf) ++
      (contentType ++ requestGetFiletype filename ++ crlf ++ crlf) ++
      statLines st time now ++ file.take filesize.toNat)

/-! ### The whole request -/

/-- The fields of `struct stat` that are looked at. -/
structure FileStat where
  regular : Bool
  readable : Bool
  executable : Bool
  stSize : ℤ

/-- How a request ends. -/
inductive Response where
  | error (written : Text)
  | serveStatic (filename : Text) (filesize : ℤ)
  | serveDynamic (filename cgiargs : Text)

/-- What `requestHandle` does: the strings that it, `requestParseURI` and `requestError` build,
the response and the statistics. -/
structure Handled where
  built : List Built
  response : Response
  thread : StatThread

/-- The words that `sscanf` reads from a line. -/
def words (line : Text) : List Text := Foundation.words isspace (cString line)

/-- `strcasecmp(method, "GET") == 0`. -/
def isGet (method : Text) : Bool := method.map Char.toLower = "get".toList

/-- The strings that `requestParseURI` builds, in `filename` and `cgiargs`. -/
def builtByParse (uri : Text) (parsed : ParsedURI) : List Built :=
  if dots <:+: uri then [⟨maxLine, parsed.filename⟩]
  else if ¬ cgi <:+: uri then
    [⟨maxLine, []⟩, ⟨maxLine, publicDir ++ uri⟩, ⟨maxLine, parsed.filename⟩]
  else [⟨maxLine, parsed.cgiargs⟩, ⟨maxLine, parsed.filename⟩]

/-- The end of `requestHandle`, after `requestReadhdrs` and `requestParseURI`; `answer` is what
`stat` says of the file. -/
def respond (answer : Option FileStat) (parsed : ParsedURI) (st : StatThread) : Handled :=
  let refuse (errnum shortmsg longmsg : String) : Handled :=
    let (built, written) := requestError parsed.filename errnum.toList shortmsg.toList longmsg.toList
    ⟨built, .error written, st⟩
  match answer with
  | none => refuse "404" "Not found" "OS-HW3 Server could not find this file"
  | some sbuf =>
    if parsed.isStatic then
      if !sbuf.regular || !sbuf.readable then
        refuse "403" "Forbidden" "OS-HW3 Server could not read this file"
      else
        ⟨[], .serveStatic parsed.filename (toInt sbuf.stSize),
          { st with staticCount := st.staticCount + 1 }⟩
    else
      if !sbuf.regular || !sbuf.executable then
        refuse "403" "Forbidden" "OS-HW3 Server could not run this CGI program"
      else
        ⟨[], .serveDynamic parsed.filename parsed.cgiargs,
          { st with dynamCount := st.dynamCount + 1 }⟩

/-- `requestHandle` for a line with three words, provided that `requestReadhdrs` returns; `cgiargs`
is what the array holds at first. -/
def requestHandle (cgiargs : Text) (answer : Option FileStat) (st : StatThread) (line : Text) :
    Option Handled :=
  let st := { st with totReqCount := st.totReqCount + 1 }
  match words line with
  | method :: uri :: _ :: _ =>
    if isGet method then do
      let parsed ← requestParseURI uri cgiargs
      let handled := respond answer parsed st
      return { handled with built := builtByParse uri parsed ++ handled.built }
    else
      let (built, written) := requestError method "501".toList "Not Implemented".toList
        "OS-HW3 Server does not implement this method".toList
      some ⟨built, .error written, st⟩
  | _ => none

end FtfSystems.WebServer
