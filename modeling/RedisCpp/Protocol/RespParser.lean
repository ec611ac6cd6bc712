import RedisCpp.Bytes
import RedisCpp.Lib.StreamDecoder

/-!
# The request parser and the reply encoders

`RespParser` decodes one request at the front of the received bytes: a multi-bulk
array when the first byte is a star, an inline line otherwise.  Positions are offsets
into the data, as in the source.
-/

namespace RedisCpp.Protocol

/-- How parsing can end without a frame for good: `Result::ERROR`, or an exception
from `reserve`. -/
inductive ParseFailure where
  | error
  | raised
deriving DecidableEq, Repr

/-- The result of `parse`.  A complete frame carries the command that was appended to
`out_cmds`, if any, and `frame_len`. -/
abbrev ParseResult := StreamDecoder.Outcome (Option (List Bytes)) ParseFailure

/-- The offset of the first CRLF. -/
def crlfOffset : Bytes → Option ℕ
  | [] => none
  | byte :: rest =>
      if byte = CR ∧ rest.head? = some LF then some 0
      else (crlfOffset rest).map (· + 1)

/-- `find_crlf`. -/
def findCrlf (data : Bytes) (start : ℕ) : Option ℕ :=
  (crlfOffset (data.drop start)).map (· + start)

/-- `parse_integer`: the value and the offset after its line. -/
def parseInteger (data : Bytes) (start : ℕ) : Option (ℤ × ℕ) :=
  match findCrlf data start with
  | none => none
  | some crlf =>
      match fromChars ((data.drop start).take (crlf - start)) with
      | some (value, []) => some (value, crlf + 2)
      | _ => none

/-- The argument loop of `parse_multibulk`.  The sum of the offsets does not wrap:
it stays below `2 ^ 64` for any buffer that fits in memory. -/
def parseBulks (data : Bytes) : ℕ → ℕ → List Bytes → ParseResult
  | 0, pos, args => .complete (some args) pos
  | remaining + 1, pos, args =>
      match data[pos]? with
      | none => .incomplete
      | some byte =>
          if byte ≠ 36 then .failed .error
          else
            match parseInteger data (pos + 1) with
            | none => .incomplete
            | some (blen, afterHdr) =>
                if blen < 0 then .failed .error
                else if data.length < afterHdr + blen.toNat + 2 then .incomplete
                else parseBulks data remaining (afterHdr + blen.toNat + 2)
                  (args ++ [(data.drop afterHdr).take blen.toNat])

/-- `parse_multibulk`. -/
def parseMultibulk (data : Bytes) : ParseResult :=
  match parseInteger data 1 with
  | none => .incomplete
  | some (nargs, pos) =>
      if nargs < 0 then .failed .error
      else if nargs = 0 then .complete (some []) pos
      else if maxVectorSize < nargs.toNat then .failed .raised
      else parseBulks data nargs.toNat pos []

/-- A space or a tab. -/
def isBlank (byte : UInt8) : Bool :=
  byte == 32 || byte == 9

/-- The byte that an escape in a quoted token stands for. -/
def unescape (byte : UInt8) : UInt8 :=
  if byte = 110 then LF
  else if byte = 114 then CR
  else if byte = 116 then 9
  else byte

/-- The rest of a quoted token and the bytes after its closing quote. -/
def quotedToken : Bytes → Bytes × Bytes
  | [] => ([], [])
  | 34 :: rest => ([], rest)
  | 92 :: escaped :: rest => ((unescape escaped) :: (quotedToken rest).1, (quotedToken rest).2)
  | byte :: rest => (byte :: (quotedToken rest).1, (quotedToken rest).2)

/-- The token loop of `parse_inline`.  Every token takes at least one byte, so the
length of the line is enough fuel. -/
def tokenizeLoop : ℕ → Bytes → List Bytes
  | 0, _ => []
  | fuel + 1, line =>
      match line.dropWhile isBlank with
      | [] => []
      | 34 :: rest => (quotedToken rest).1 :: tokenizeLoop fuel (quotedToken rest).2
      | byte :: rest =>
          (byte :: rest).takeWhile (!isBlank ·) ::
            tokenizeLoop fuel ((byte :: rest).dropWhile (!isBlank ·))

def tokenize (line : Bytes) : List Bytes :=
  tokenizeLoop line.length line

/-- The command of a line, with its name in upper case; none for a blank line. -/
def inlineCommand (line : Bytes) : Option (List Bytes) :=
  match tokenize line with
  | [] => none
  | name :: args => some (toUpper name :: args)

/-- `parse_inline`. -/
def parseInline (data : Bytes) : ParseResult :=
  match findCrlf data 0 with
  | some crlf => .complete (inlineCommand (data.take crlf)) (crlf + 2)
  | none =>
      match data.findIdx? (· == LF) with
      | none => .incomplete
      | some lf =>
          let crlf := if 0 < lf ∧ data[lf - 1]? = some CR then lf - 1 else lf
          .complete (inlineCommand (data.take crlf)) (lf + 1)

/-- `parse`. -/
def parse (data : Bytes) : ParseResult :=
  match data with
  | [] => .incomplete
  | byte :: _ => if byte = 42 then parseMultibulk data else parseInline data

/-- `RespParser::Result`. -/
inductive ParseStatus where
  | complete
  | incomplete
  | error
deriving DecidableEq, Repr

/-- `parse` with its output parameters `out_cmds` and `frame_len`; none for an exception. -/
def parseInto (data : Bytes) (outCmds : List (List Bytes)) (frameLen : ℕ) :
    Option (ParseStatus × List (List Bytes) × ℕ) :=
  match parse data with
  | .complete command length => some (.complete, outCmds ++ command.toList, length)
  | .incomplete => some (.incomplete, outCmds, frameLen)
  | .failed .error => some (.error, outCmds, frameLen)
  | .failed .raised => none

/-! ## Encoders -/

def simpleString (text : Bytes) : Bytes :=
  43 :: text ++ crlf

def error (msg : Bytes) : Bytes :=
  ascii "-ERR " ++ msg ++ crlf

def integer (number : ℤ) : Bytes :=
  58 :: stdToString number ++ crlf

def bulkString (text : Bytes) : Bytes :=
  36 :: Decimal.print text.length ++ crlf ++ text ++ crlf

def nilBulk : Bytes :=
  ascii "$-1\r\n"

def array (items : List Bytes) : Bytes :=
  42 :: Decimal.print items.length ++ crlf ++ items.flatMap bulkString

end RedisCpp.Protocol
