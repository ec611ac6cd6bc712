import RedisCpp.Bytes

/-!
# The append-only file

`AofWriter` appends every mutating command to a file in RESP form and `replay`
reads such a file back, invoking one of four callbacks for each command.

A written command is a `Record`; the file is the concatenation of the records'
bytes.  A callback invocation of `replay` carries exactly the arguments of the
record it stands for, so invocations are records too.  Reading follows
`std::ifstream` bit by bit: what the reader does at a torn end of file is decided
by `eofbit` and `failbit`, not by the bytes alone.
-/

namespace RedisCpp.Store

/-- One command appended by `log_set`, `log_set_ex`, `log_del` or `log_expire`. -/
inductive Record where
  | set (key value : Bytes)
  | setEx (key value : Bytes) (expireAtMs : ℤ)
  | del (key : Bytes)
  | expire (key : Bytes) (expireAtMs : ℤ)
deriving DecidableEq, Repr

/-- `bulk`: a length-prefixed byte string. -/
def bulk (text : Bytes) : Bytes :=
  ascii "$" ++ Decimal.print text.length ++ crlf ++ text ++ crlf

namespace Record

/-- The key a record is about. -/
def key : Record → Bytes
  | .set key _ | .setEx key _ _ | .del key | .expire key _ => key

/-- The string `cmd` that the logging functions hand to `write_resp`. -/
def bytes : Record → Bytes
  | .set key value =>
      ascii "*3\r\n" ++ bulk (ascii "SET") ++ bulk key ++ bulk value
  | .setEx key value expireAtMs =>
      ascii "*5\r\n" ++ bulk (ascii "SET") ++ bulk key ++ bulk value ++
        bulk (ascii "PXAT") ++ bulk (stdToString expireAtMs)
  | .del key => ascii "*2\r\n" ++ bulk (ascii "DEL") ++ bulk key
  | .expire key expireAtMs =>
      ascii "*3\r\n" ++ bulk (ascii "PEXPIREAT") ++ bulk key ++ bulk (stdToString expireAtMs)

end Record

/-- The bytes of a file to which the records were appended in order. -/
def fileBytes (records : List Record) : Bytes :=
  records.flatMap Record.bytes

/-- An open writer, as the records it has appended to its file.  Output is
assumed to succeed, so `write_resp` always appends the whole command. -/
structure AofWriter where
  records : List Record := []
deriving DecidableEq, Repr

namespace AofWriter

def writeResp (writer : AofWriter) (record : Record) : AofWriter :=
  { writer with records := writer.records ++ [record] }

def logSet (writer : AofWriter) (key value : Bytes) : AofWriter :=
  writer.writeResp (.set key value)

def logSetEx (writer : AofWriter) (key value : Bytes) (expireAtMs : ℤ) : AofWriter :=
  writer.writeResp (.setEx key value expireAtMs)

def logDel (writer : AofWriter) (key : Bytes) : AofWriter :=
  writer.writeResp (.del key)

def logExpire (writer : AofWriter) (key : Bytes) (expireAtMs : ℤ) : AofWriter :=
  writer.writeResp (.expire key expireAtMs)

end AofWriter

/-- A `std::ifstream`: the bytes not yet extracted and two of its state bits. -/
structure IfStream where
  rest : Bytes
  eofbit : Bool := false
  failbit : Bool := false
deriving DecidableEq, Repr

namespace IfStream

def good (stream : IfStream) : Bool :=
  !stream.eofbit && !stream.failbit

/-- `f.peek() == EOF`. -/
def peekEof (stream : IfStream) : Bool :=
  !stream.good || stream.rest.isEmpty

/-- `std::getline`; the line is `none` when the returned stream converts to `false`. -/
def getline (stream : IfStream) : Option Bytes × IfStream :=
  if stream.good then
    match stream.rest.dropWhile (· != LF) with
    | _ :: rest => (some (stream.rest.takeWhile (· != LF)), { stream with rest := rest })
    | [] =>
        if stream.rest.isEmpty then (none, { rest := [], eofbit := true, failbit := true })
        else (some stream.rest, { stream with rest := [], eofbit := true })
  else (none, { stream with failbit := true })

/-- `f.read(out.data(), count)`; `none` when the returned stream converts to `false`. -/
def read (stream : IfStream) (count : ℕ) : Option Bytes × IfStream :=
  if stream.good then
    if count ≤ stream.rest.length then
      (some (stream.rest.take count), { stream with rest := stream.rest.drop count })
    else (none, { rest := [], eofbit := true, failbit := true })
  else (none, { stream with failbit := true })

end IfStream

/-- `strip_cr`. -/
def stripCr (line : Bytes) : Bytes :=
  if line.getLast? = some CR then line.dropLast else line

/-- The result of reading one or several bulk strings. -/
inductive ReadOutcome (Value : Type) where
  | ok (value : Value) (stream : IfStream)
  | failed
  | raised
deriving DecidableEq, Repr

/-- `read_bulk`.  `resize` raises `length_error` beyond `max_size()`, which no `int64_t` is. -/
def readBulk (stream : IfStream) : ReadOutcome Bytes :=
  match stream.getline with
  | (none, _) => .failed
  | (some line, stream) =>
      match stripCr line with
      | 36 :: digits =>
          match stoll digits with
          | none => .failed
          | some len =>
              if len < 0 then .ok [] stream
              else if maxStringSize < len.toNat then .raised
              else
                match stream.read len.toNat with
                | (none, _) => .failed
                | (some out, stream) => .ok out stream.getline.2
      | _ => .failed

/-- The loop that fills `args`, for the number of arguments still to be read. -/
def readArgs : ℕ → IfStream → ReadOutcome (List Bytes)
  | 0, stream => .ok [] stream
  | remaining + 1, stream =>
      match readBulk stream with
      | .failed => .failed
      | .raised => .raised
      | .ok arg stream =>
          match readArgs remaining stream with
          | .failed => .failed
          | .raised => .raised
          | .ok args stream => .ok (arg :: args) stream

/-- The number read by `std::stoll` inside a `try` block that ignores failure. -/
def stollOrZero (text : Bytes) : ℤ :=
  (stoll text).getD 0

/-- The callback invoked for a complete argument vector, if any. -/
def dispatchRecord (args : List Bytes) : Option Record :=
  match args with
  | [cmd, key, value] =>
      if cmd = ascii "SET" then some (.set key value)
      else if cmd = ascii "PEXPIREAT" then
        if 0 < stollOrZero value then some (.expire key (stollOrZero value)) else none
      else none
  | [cmd, key, value, option, deadline] =>
      if cmd = ascii "SET" ∧ option = ascii "PXAT" then
        if 0 < stollOrZero deadline then some (.setEx key value (stollOrZero deadline)) else none
      else none
  | [cmd, key] => if cmd = ascii "DEL" then some (.del key) else none
  | _ => none

/-- How `replay` ends.  `raised` is an exception that leaves the function;
`diverged` is reserved for a loop that does not end. -/
inductive ReplayStatus where
  | returned (count : ℤ)
  | raised
  | diverged
deriving DecidableEq, Repr

/-- The callbacks `replay` invoked, in order, and how it ended. -/
structure ReplayOutcome where
  calls : List Record
  status : ReplayStatus
deriving DecidableEq, Repr

/-- `static_cast<size_t>` of a signed integer. -/
def castSize (number : ℤ) : ℕ :=
  (number % 2 ^ 64).toNat

/-- The record loop of `replay`.  An iteration extracts at least one byte, so
more fuel than there are bytes never runs out. -/
def replayLoop : ℕ → IfStream → ℤ → ReplayOutcome
  | 0, _, _ => ⟨[], .diverged⟩
  | fuel + 1, stream, count =>
      if stream.peekEof then ⟨[], .returned count⟩
      else
        match stream.getline with
        | (none, _) => ⟨[], .returned count⟩
        | (some line, stream) =>
            match stripCr line with
            | [] => replayLoop fuel stream count
            | 42 :: digits =>
                match stoi digits with
                | none => ⟨[], .returned count⟩
                | some nargs =>
                    if maxVectorSize < castSize nargs then ⟨[], .raised⟩
                    else
                      match readArgs nargs.toNat stream with
                      | .failed => ⟨[], .returned count⟩
                      | .raised => ⟨[], .raised⟩
                      | .ok [] _ => ⟨[], .returned count⟩
                      | .ok args stream =>
                          match dispatchRecord args with
                          | none => replayLoop fuel stream count
                          | some call =>
                              let outcome := replayLoop fuel stream (count + 1)
                              ⟨call :: outcome.calls, outcome.status⟩
            | _ => ⟨[], .returned count⟩

/-- `AofWriter::replay` on a file that can be opened and has the given contents. -/
def replay (contents : Bytes) : ReplayOutcome :=
  replayLoop (contents.length + 1) { rest := contents } 0

end RedisCpp.Store
