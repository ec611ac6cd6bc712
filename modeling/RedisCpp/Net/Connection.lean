import RedisCpp.Bytes

/-!
# One connection

The state that the reactor keeps for a connection.  The descriptor is the key under which
the reactor stores the connection.  `mark_dead` is followed by the removal from the table,
so that `alive` is true of every connection in the table and is left out.
-/

namespace RedisCpp.Net

/-- A descriptor together with the generation that holds it. -/
structure ConnId where
  fd : ℕ
  gen : ℕ
deriving DecidableEq, Repr

/-- What `write` answers: the number of bytes taken, `EAGAIN`, or another error. -/
inductive WriteResult where
  | wrote (count : ℕ)
  | wouldBlock
  | error
deriving DecidableEq, Repr

/-- The results of `flush`: 0, 1 and -1. -/
inductive FlushStatus where
  | drained
  | pending
  | failed
deriving DecidableEq, Repr

/-- `send_buf_` and `send_offset_`. -/
structure SendBuffer where
  buf : Bytes
  offset : ℕ
  offset_le : offset ≤ buf.length
deriving DecidableEq

namespace SendBuffer

def empty : SendBuffer where
  buf := []
  offset := 0
  offset_le := Nat.le_refl 0

/-- The bytes not yet written. -/
def unsent (send : SendBuffer) : Bytes :=
  send.buf.drop send.offset

/-- `send_enqueue`. -/
def enqueue (send : SendBuffer) (data : Bytes) : SendBuffer where
  buf := send.buf ++ data
  offset := send.offset
  offset_le := by
    have offset_le := send.offset_le
    simp only [List.length_append]
    omega

/-- The offset after the kernel took some of the unsent bytes. -/
def advance (send : SendBuffer) (count : ℕ) : SendBuffer where
  buf := send.buf
  offset := send.offset + min count (send.buf.length - send.offset)
  offset_le := by
    have offset_le := send.offset_le
    omega

/-- `flush`: the status, the buffer afterwards and the bytes written to the socket.  The
calls of `write` are answered in order; a kernel that has no further answer has its buffer
full.  It never takes more bytes than it is offered. -/
def flush : List WriteResult → SendBuffer → FlushStatus × SendBuffer × Bytes
  | [], send =>
      if send.offset < send.buf.length then (.pending, send, []) else (.drained, empty, [])
  | result :: results, send =>
      if send.offset < send.buf.length then
        match result with
        | .wrote count =>
            if 0 < count then
              let after := flush results (send.advance count)
              (after.1, after.2.1, send.unsent.take count ++ after.2.2)
            else (.failed, send, [])
        | .wouldBlock => (.pending, send, [])
        | .error => (.failed, send, [])
      else (.drained, empty, [])

@[simp]
theorem unsent_empty : empty.unsent = [] := rfl

@[simp]
theorem unsent_enqueue (send : SendBuffer) (data : Bytes) :
    (send.enqueue data).unsent = send.unsent ++ data :=
  List.drop_append_of_le_length send.offset_le

theorem unsent_advance (send : SendBuffer) (count : ℕ) :
    send.unsent = send.unsent.take count ++ (send.advance count).unsent := by
  have moved : (send.advance count).unsent = send.unsent.drop count := by
    simp only [unsent, advance, List.drop_drop]
    by_cases fits : count ≤ send.buf.length - send.offset
    · rw [Nat.min_eq_left fits]
    · have offset_le := send.offset_le
      rw [List.drop_eq_nil_of_le (by omega), List.drop_eq_nil_of_le (by omega)]
  rw [moved, List.take_append_drop]

theorem unsent_of_le {send : SendBuffer} (drained : ¬send.offset < send.buf.length) :
    send.unsent = [] :=
  List.drop_eq_nil_of_le (Nat.le_of_not_lt drained)

/-- Whatever the kernel answers, the bytes written are taken off the front. -/
theorem unsent_flush (results : List WriteResult) (send : SendBuffer) :
    send.unsent = (flush results send).2.2 ++ (flush results send).2.1.unsent := by
  induction results generalizing send with
  | nil =>
      by_cases left : send.offset < send.buf.length
      · simp only [flush, left, if_true, List.nil_append]
      · simp only [flush, left, if_false, unsent_of_le left, unsent_empty, List.nil_append]
  | cons result results inductionHypothesis =>
      by_cases left : send.offset < send.buf.length
      · cases result with
        | wouldBlock => simp only [flush, left, if_true, List.nil_append]
        | error => simp only [flush, left, if_true, List.nil_append]
        | wrote count =>
            by_cases taken : 0 < count
            · simp only [flush, left, taken, if_true, List.append_assoc]
              rw [← inductionHypothesis, ← unsent_advance]
            · simp only [flush, left, taken, if_true, if_false, List.nil_append]
      · simp only [flush, left, if_false, unsent_of_le left, unsent_empty, List.nil_append]

end SendBuffer

/-- The fields of `Connection`. -/
structure Connection where
  generation : ℕ
  lastActive : ℤ
  recvBuf : Bytes
  send : SendBuffer
  commandQueue : List (List Bytes)
  processing : Bool
deriving DecidableEq

namespace Connection

/-- The constructor. -/
def make (gen : ℕ) (now : ℤ) : Connection where
  generation := gen
  lastActive := now
  recvBuf := []
  send := .empty
  commandQueue := []
  processing := false

/-- `send_enqueue`; allocation succeeds. -/
def sendEnqueue (conn : Connection) (data : Bytes) : Connection :=
  { conn with send := conn.send.enqueue data }

end Connection

end RedisCpp.Net
